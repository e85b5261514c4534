import Nespy.Mac.Framer
import Nespy.Sicslowpan.Uncompress

/-!
# Sicslowpan — `output`

What `output` hands to the MAC.  `uip_buf` is the overlay `UipBuf` of the whole buffer, of which the
first `uip_len` bytes are the packet.  The header is compressed in the packetbuf; when the rest does
not fit the frame the packet is sent as a first fragment (FRAG1) and as many further ones (FRAGN) as
it takes.

`Sent` is what `fragment_copy_payload_and_send` may meet: no queuebuf, or a transmission whose
status is one of the three errors it looks for, in which case the fragment was given to the MAC but
none follows.  It is asked for each fragment by its number.
-/

namespace Nespy.Sicslowpan

open Nespy.Mac (hdrLength)

/-- The dispatch of a first fragment. -/
def dispatchFrag1 : UInt16 := 0xc0

/-- The dispatch of a further fragment. -/
def dispatchFragn : UInt16 := 0xe0

/-- The header of a first fragment. -/
def frag1HdrLen : ℕ := 4

/-- The header of a further fragment. -/
def fragnHdrLen : ℕ := 5

/-- The longest MAC header. -/
def macMaxHeader : ℕ := 21

/-- The packet buffers. -/
def queuebufNum : ℕ := 8

/-- A frame, as the MAC carries it from one `sicslowpan.c` to another. -/
structure Frame where
  sender : Linkaddr
  receiver : Linkaddr
  data : List UInt8
  deriving DecidableEq

/-- The outcome of handing one fragment to the MAC. -/
inductive Sent where
  | noQueuebuf
  | txError
  | ok
  deriving DecidableEq

/-- The node `output` runs on: its contexts, its address and PAN, the free queuebufs it sees, the
tag it gives next and what becomes of each fragment. -/
structure Node where
  ctxs : List AddrContext
  uipLladdr : Linkaddr
  panId : UInt16
  numfree : Fin (queuebufNum + 1)
  myTag : UInt16
  sent : ℕ → Sent

/-- `mac_max_payload`, and `max_payload` after it. -/
def Node.maxPayload (node : Node) (dest : Linkaddr) : ℕ :=
  macMaxPayload - (hdrLength node.panId dest).getD macMaxHeader

/-- `x & 0xfffffff8`. -/
def and8 (x : ℤ) : ℤ := x / 8 * 8

/-- The local variables of the fragmenting branch. -/
structure FragPlan where
  totalPayload : ℤ
  frag1Payload : ℤ
  fragnMaxPayload : ℤ
  lastFragnMaxPayload : ℤ
  middleFragnTotalPayload : ℤ
  fragmentCount : ℤ
  deriving DecidableEq

/-- How `output` cuts a packet. -/
def fragPlan (maxPayload uipLen uncompHdrLen packetbufHdrLen : ℕ) : FragPlan :=
  let totalPayload : ℤ := uipLen - uncompHdrLen
  let frag1Payload := and8 (maxPayload - packetbufHdrLen - frag1HdrLen)
  let fragnMaxPayload := and8 (maxPayload - fragnHdrLen)
  let lastFragnMaxPayload : ℤ := maxPayload - fragnHdrLen
  let middleFragnTotalPayload := max (totalPayload - frag1Payload - lastFragnMaxPayload) 0
  { totalPayload, frag1Payload, fragnMaxPayload, lastFragnMaxPayload, middleFragnTotalPayload
    fragmentCount :=
      if 0 < middleFragnTotalPayload then 2 + (1 + (middleFragnTotalPayload - 1) / fragnMaxPayload)
      else 2 }

/-- The four bytes FRAG1 and FRAGN share: the dispatch with `uip_len`, and the tag. -/
def fragHdr (dispatch uipLen tag : UInt16) : List UInt8 :=
  set16 ((dispatch <<< 8) ||| uipLen) ++ set16 tag

/-- The bytes of `uip_buf` from `off` on. -/
def UipBuf.slice (b : UipBuf) (off len : ℕ) : List UInt8 := (b.bytes.drop off).take len

variable (plan : FragPlan)

/-- The payload of the FRAGN that starts at `processed`. -/
def fragnPayloadLen (uipLen processed : ℕ) : ℕ :=
  if (uipLen : ℤ) - processed > plan.lastFragnMaxPayload then plan.fragnMaxPayload.toNat
  else uipLen - processed

/-- The FRAGN that starts at `processed`. -/
def fragn (b : UipBuf) (uipLen tag : UInt16) (processed : ℕ) : List UInt8 :=
  fragHdr dispatchFragn uipLen tag ++ [UInt8.ofNat (processed >>> 3)] ++
    b.slice processed (fragnPayloadLen plan uipLen.toNat processed)

/-- The loop that sends the FRAGNs, from the one of number `currFrag`.  Each of them carries at
least a byte, so `uip_len` turns are never used up (`Transmission.fragnLoop_ok`). -/
def fragnLoop (plan : FragPlan) (b : UipBuf) (uipLen tag : UInt16) (sent : ℕ → Sent) :
    ℕ → ℕ → ℕ → Bool × List (List UInt8)
  | 0, _, _ => (false, [])
  | fuel + 1, currFrag, processed =>
    if processed < uipLen.toNat then
      match sent currFrag with
      | .noQueuebuf => (false, [])
      | .txError => (false, [fragn plan b uipLen tag processed])
      | .ok =>
        let r := fragnLoop plan b uipLen tag sent fuel (currFrag + 1)
          (processed + fragnPayloadLen plan uipLen.toNat processed)
        (r.1, fragn plan b uipLen tag processed :: r.2)
    else (true, [])

/-- FRAG1: the compressed header and as much of the payload as `plan` gives it. -/
def frag1 (b : UipBuf) (uipLen tag : UInt16) (c : Compressed) : List UInt8 :=
  fragHdr dispatchFrag1 uipLen tag ++
    (c.out ++ b.slice c.uncompHdrLen.toNat plan.frag1Payload.toNat)

/-- The fragmenting branch, behind the two checks. -/
def outputFragments (b : UipBuf) (uipLen tag : UInt16) (sent : ℕ → Sent) (c : Compressed) :
    Bool × List (List UInt8) :=
  match sent 0 with
  | .noQueuebuf => (false, [])
  | .txError => (false, [frag1 plan b uipLen tag c])
  | .ok =>
    let r := fragnLoop plan b uipLen tag sent (uipLen.toNat + 1) 1
      (c.uncompHdrLen.toNat + plan.frag1Payload.toNat)
    (r.1, frag1 plan b uipLen tag c :: r.2)

/-- What one call of `output` does: its result, `my_tag`, and the frames given to the MAC. -/
structure Output where
  ok : Bool
  myTag : UInt16
  frames : List Frame
  deriving DecidableEq

/-- The packet does not fit in one frame. -/
def fragNeeded (maxPayload uipLen : ℕ) (c : Compressed) : Bool :=
  (uipLen : ℤ) - c.uncompHdrLen.toNat + c.out.length > maxPayload

/-- `output`; `dest` is `*localdest`, or `linkaddr_null` when that is `NULL`. -/
def output (node : Node) (dest : Linkaddr) (b : UipBuf) (uipLen : UInt16) : Output :=
  let maxPayload := node.maxPayload dest
  match compressHdrIphc node.ctxs node.uipLladdr dest maxPayload b with
  | .error _ => ⟨false, node.myTag, []⟩
  | .ok c =>
    if fragNeeded maxPayload uipLen.toNat c then
      let plan := fragPlan maxPayload uipLen.toNat c.uncompHdrLen.toNat c.out.length
      if (node.numfree : ℤ) - 1 < plan.fragmentCount then ⟨false, node.myTag, []⟩
      else if plan.frag1Payload < 0 then ⟨false, node.myTag, []⟩
      else
        let r := outputFragments plan b uipLen node.myTag node.sent c
        ⟨r.1, node.myTag + 1, r.2.map (⟨node.uipLladdr, dest, ·⟩)⟩
    else
      ⟨true, node.myTag,
        [⟨node.uipLladdr, dest, c.out ++ b.slice c.uncompHdrLen.toNat
          (uipLen.toNat - c.uncompHdrLen.toNat)⟩]⟩

end Nespy.Sicslowpan
