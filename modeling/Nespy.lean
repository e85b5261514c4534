import Nespy.Coap.Block1
import Nespy.Coap.Callbacks
import Nespy.Coap.Datagram
import Nespy.Coap.RoundTrip
import Nespy.Coap.WellKnownCore
import Nespy.Mac.CcmStar
import Nespy.Mac.CsmaOnce
import Nespy.Mac.FrameRoundTrip
import Nespy.Net.Checksum
import Nespy.Net.LeastLifetime
import Nespy.Net.NbrStore
import Nespy.Net.RouteTable
import Nespy.Net.SrUpdate
import Nespy.Net.SrhRoute
import Nespy.Py.CoapResource
import Nespy.Py.Etimer
import Nespy.Py.GcOwn
import Nespy.Py.Growth
import Nespy.Py.Powers
import Nespy.Py.Ranges
import Nespy.Py.Sets
import Nespy.Py.ThreadPost
import Nespy.Rpl.BestParent
import Nespy.Rpl.DioTimer
import Nespy.Rpl.Params
import Nespy.Sicslowpan.Packetbuf
import Nespy.Sicslowpan.RoundTrip
import Nespy.Sys.Ctimer
import Nespy.Sys.EventQueue
import Nespy.Sys.HeapCalls
import Nespy.Sys.ProcessList
import Nespy.Sys.TimerHistory
import Nespy.Sys.TrickleConfig
import Nespy.Sys.TrickleTimer
