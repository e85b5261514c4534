import Nespy.Lib.Outbox
import Nespy.Mac.Radio
import Nespy.Sicslowpan.Address
import Nespy.Sys.Containers

/-!
# Mac — CSMA output

`net/mac/csma/csma-output.c` and the part of `net/queuebuf.c` it uses.  Every neighbour that packets
wait for has a block of `neighbor_memb` on `neighbor_list`, with its own queue; a packet in a queue
is a block of `packet_memb` that points to its metadata and to its buffer.  A timer of the neighbour
makes `transmit_from_queue` send the packet at the head.

The callback of a packet is the last thing that `csma_output_packet` and `transmit_from_queue` do,
after the packet was freed, so what the callback does in its turn are further calls.  What the
framer and the radio answer is an input of the step.
-/

open Function

namespace Nespy.Mac

open Nespy.Lib Nespy.Sys
open Nespy.Sicslowpan (Linkaddr linkaddrNull)

/-- The exponent of the first backoff. -/
def csmaMinBe : ℕ := 3

/-- The exponent at which the backoff stops growing. -/
def csmaMaxBe : ℕ := 5

/-- Collisions beyond this make a transmission. -/
def csmaMaxBackoff : UInt8 := 5

/-- The retransmissions of a packet that does not say how many. -/
def csmaMaxFrameRetries : UInt8 := 7

/-- The neighbours that can have a queue. -/
def csmaMaxNeighborQueues : ℕ := 2

/-- The packet buffers. -/
def queuebufNum : ℕ := 8

/-- The packet buffers that can be in memory: all of them. -/
def queuebuframNum : ℕ := queuebufNum

/-- The elements of all queues. -/
def maxQueuedPackets : ℕ := queuebufNum

/-- The elements of a queue. -/
def csmaMaxPacketPerNeighbor : ℕ := maxQueuedPackets

/-- `CLOCK_SECOND` of the unix port. -/
def csmaClockSecond : ℕ := 1000000

/-- The results of a transmission. -/
inductive MacTx where
  | ok | collision | noack | deferred | err | errFatal
  deriving DecidableEq, Repr

instance : NeZero csmaMaxNeighborQueues := ⟨by decide⟩

/-! Pointers into the pools. -/

/-- The blocks of `neighbor_memb`. -/
abbrev Neighbor := Fin csmaMaxNeighborQueues

/-- The blocks of `packet_memb`. -/
abbrev Packet := Fin maxQueuedPackets

/-- The blocks of `metadata_memb`. -/
abbrev Metadata := Fin maxQueuedPackets

/-- The blocks of `bufmem`. -/
abbrev Queuebuf := Fin queuebufNum

/-- The blocks of `buframmem`. -/
abbrev QueuebufData := Fin queuebuframNum

/-- What is in the packetbuf: its data, and the attributes that this module reads. -/
structure Packetbuf where
  data : List UInt8
  macSeqno : UInt16
  maxMacTransmissions : UInt16
  receiver : Linkaddr
  deriving DecidableEq

/-- The `max_transmissions` that `csma_output_packet` gives the packet. -/
def Packetbuf.maxTransmissions (b : Packetbuf) : UInt8 :=
  let maxTransmissions := b.maxMacTransmissions.toUInt8
  if maxTransmissions = 0 then csmaMaxFrameRetries + 1 else maxTransmissions

/-- `struct qbuf_metadata`; a callback is an address, or null.  `id` is the number of the call of
`csma_output_packet` that filled it. -/
structure QbufMetadata where
  sent : Option ℕ
  cptr : ℕ
  maxTransmissions : UInt8
  id : ℕ
  deriving DecidableEq

/-- `struct neighbor_queue`; `transmitTimer` is the delay of a timer that is set. -/
structure NeighborQueue where
  addr : Linkaddr
  transmitTimer : Option ℕ
  transmissions : UInt8
  collisions : UInt8
  packetQueue : List Packet
  deriving DecidableEq

/-- `struct packet_queue`, without its link. -/
@[ext] structure PacketQueue where
  buf : Option Queuebuf
  ptr : Option Metadata
  deriving DecidableEq

/-- A packet that `csma_output_packet` is called for. -/
structure Job where
  id : ℕ
  addr : Linkaddr
  sent : Option ℕ
  cptr : ℕ
  data : List UInt8
  maxTransmissions : UInt8
  deriving DecidableEq

/-- A packet is done when `mac_call_sent_callback` is called for it, with a status and a number of
transmissions; it calls nothing if the callback is null. -/
abbrev CsmaEvent := Outbox.Event Job (MacTx × ℕ)

/-- The pools, the lists and the packetbuf; `calls` counts the calls of `csma_output_packet`. -/
structure Csma where
  neighborCount : Memb csmaMaxNeighborQueues
  packetCount : Memb maxQueuedPackets
  metadataCount : Memb maxQueuedPackets
  bufCount : Memb queuebufNum
  ramCount : Memb queuebuframNum
  neighbor : Neighbor → NeighborQueue
  packet : Packet → PacketQueue
  metadata : Metadata → QbufMetadata
  ramPtr : Queuebuf → Option QueuebufData
  ram : QueuebufData → Packetbuf
  neighborList : List Neighbor
  packetbuf : Packetbuf
  initialized : Bool
  seqno : UInt8
  calls : ℕ

/-- What the framer and the radio answer to `send_one_packet`. -/
structure Outcome where
  framerFails : Bool
  receivingPacket : Bool
  pendingPacket : Bool
  transmit : RadioTx
  /-- After the wait for the acknowledgement. -/
  receivingAfter : Bool
  pendingAfter : Bool
  channelClear : Bool
  /-- After `CSMA_AFTER_ACK_DETECTED_WAIT_TIME`. -/
  pendingThen : Bool
  readLen : ℕ
  ackDsn : UInt8
  dsn : UInt8
  deriving DecidableEq

/-- What `send_one_packet` makes of the answers of the framer and the radio. -/
def Outcome.macTx (o : Outcome) (isBroadcast : Bool) : MacTx :=
  if o.framerFails then .errFatal
  else if o.receivingPacket ∨ isBroadcast = false ∧ o.pendingPacket then .collision
  else
    match o.transmit with
    | .ok =>
      if isBroadcast then .ok
      else if o.receivingAfter ∨ o.pendingAfter ∨ o.channelClear = false then
        if o.pendingThen then
          if o.readLen = csmaAckLen.toNat ∧ o.ackDsn = o.dsn then .ok else .collision
        else .noack
      else .noack
    | .collision => .collision
    | .err | .noack => .err

namespace Csma

variable (s : Csma)

/-! ### Packet buffers -/

/-- A copy of the packetbuf, for which two blocks are needed. -/
def queuebufNewFromPacketbuf : Csma × Option Queuebuf :=
  match membAlloc s.bufCount with
  | none => (s, none)
  | some (b, bufCount) =>
    match membAlloc s.ramCount with
    | none => ({ s with ramPtr := update s.ramPtr b none, bufCount := membFree bufCount b }, none)
    | some (r, ramCount) =>
      ({ s with
          bufCount
          ramCount
          ramPtr := update s.ramPtr b (some r)
          ram := update s.ram r s.packetbuf }, some b)

variable (b : Option Queuebuf)

/-- The data that a pointer to a queuebuf leads to. -/
@[simp] def ramOf : Option QueuebufData := b.bind s.ramPtr

/-- The attributes are written back, and the data is kept. -/
def queuebufUpdateAttrFromPacketbuf : Csma :=
  match s.ramOf b with
  | none => s
  | some r => { s with ram := update s.ram r { s.packetbuf with data := (s.ram r).data } }

/-- Both blocks are freed. -/
def queuebufFree : Csma :=
  match b with
  | none => s
  | some b =>
    { s with
        ramCount := (s.ramPtr b).elim s.ramCount (membFree s.ramCount)
        bufCount := membFree s.bufCount b }

/-- The copy is loaded. -/
def queuebufToPacketbuf : Csma :=
  match s.ramOf b with
  | none => s
  | some r => { s with packetbuf := s.ram r }

/-- `queuebuf_attr` of `PACKETBUF_ATTR_MAC_SEQNO`. -/
def queuebufSeqno : Option UInt16 := (s.ramOf b).map fun r => (s.ram r).macSeqno

/-! ### Sending -/

/-- The neighbour with this address. -/
def neighborQueueFromAddr (addr : Linkaddr) : Option Neighbor :=
  s.neighborList.find? fun n => (s.neighbor n).addr = addr

variable (n : Neighbor)

/-- Writing to a neighbour. -/
@[simp] def setNeighbor (x : NeighborQueue) : Csma :=
  { s with neighbor := update s.neighbor n x }

/-- `backoff_period`, in ticks. -/
def backoffPeriod : ℕ := max (csmaClockSecond / 3125) 1

/-- The delay that `schedule_transmission` picks; `rand` is what `random_rand()` returns. -/
def backoffDelay (collisions : UInt8) (rand : UInt16) : ℕ :=
  let backoffExponent := min (collisions.toNat + csmaMinBe) csmaMaxBe
  let delay := (2 ^ backoffExponent - 1) * backoffPeriod
  if 0 < delay then rand.toNat % delay else delay

/-- The timer of the neighbour is set to a random backoff. -/
def scheduleTransmission (rand : UInt16) : Csma :=
  let x := s.neighbor n
  s.setNeighbor n { x with transmitTimer := some (backoffDelay x.collisions rand) }

/-- A packet leaves its queue, and the next one is scheduled or the neighbour is freed. -/
def freePacket (p : Packet) (rand : UInt16) : Csma :=
  let q := s.packet p
  let packetQueue := listRemove (s.neighbor n).packetQueue p
  let s := s.setNeighbor n { s.neighbor n with packetQueue }
  let s := s.queuebufFree q.buf
  let s := { s with
    metadataCount := q.ptr.elim s.metadataCount (membFree s.metadataCount)
    packetCount := membFree s.packetCount p }
  if packetQueue ≠ [] then
    (s.setNeighbor n { s.neighbor n with transmissions := 0, collisions := 0 }).scheduleTransmission
      n rand
  else
    let s := s.setNeighbor n { s.neighbor n with transmitTimer := none }
    { s with
        neighborList := listRemove s.neighborList n
        neighborCount := membFree s.neighborCount n }

/-- The packet with the metadata `m` in the queue of `n`, whose data is in the packetbuf. -/
def job (m : Metadata) : Job where
  id := (s.metadata m).id
  addr := (s.neighbor n).addr
  sent := (s.metadata m).sent
  cptr := (s.metadata m).cptr
  data := s.packetbuf.data
  maxTransmissions := (s.metadata m).maxTransmissions

section Sent

variable (status : MacTx) (q : Packet) (m : Metadata) (n : Neighbor) (numTransmissions : UInt8)
  (rand : UInt16)

/-- `tx_done`; `m` is `q->ptr`. -/
def txDone : Csma × List CsmaEvent :=
  (s.freePacket n q rand, [.done (s.job n m) (status, (s.neighbor n).transmissions.toNat)])

/-- The packet is tried again, with the attributes it has now. -/
def rexmit : Csma :=
  (s.scheduleTransmission n rand).queuebufUpdateAttrFromPacketbuf (s.packet q).buf

/-- The common end of `collision` and `noack`. -/
def retryOrDone : Csma × List CsmaEvent :=
  if (s.metadata m).maxTransmissions ≤ (s.neighbor n).transmissions then s.txDone status q m n rand
  else (s.rexmit q n rand, [])

/-- A collision; too many of them count as a transmission. -/
def collision : Csma × List CsmaEvent :=
  let x := s.neighbor n
  let collisions := x.collisions + numTransmissions
  let x := if csmaMaxBackoff < collisions then
      { x with collisions := 0, transmissions := x.transmissions + 1 }
    else { x with collisions }
  (s.setNeighbor n x).retryOrDone .collision q m n rand

/-- The packet was sent and not acknowledged. -/
def noack : Csma × List CsmaEvent :=
  let x := s.neighbor n
  (s.setNeighbor n { x with
      collisions := 0, transmissions := x.transmissions + numTransmissions }).retryOrDone
    .noack q m n rand

/-- The packet was sent. -/
def txOk : Csma × List CsmaEvent :=
  let x := s.neighbor n
  (s.setNeighbor n { x with
      collisions := 0, transmissions := x.transmissions + numTransmissions }).txDone
    .ok q m n rand

/-- The `switch` of `packet_sent`, for a packet that was found. -/
def packetResult : Csma × List CsmaEvent :=
  match status with
  | .ok => s.txOk q m n numTransmissions rand
  | .noack => s.noack q m n numTransmissions rand
  | .collision => s.collision q m n numTransmissions rand
  | .deferred => (s, [])
  | .err | .errFatal => s.txDone status q m n rand

end Sent

/-- `packet_sent`, for the packet whose sequence number is in the packetbuf. -/
def packetSent (status : MacTx) (numTransmissions : UInt8) (rand : UInt16) :
    Csma × List CsmaEvent :=
  match (s.neighbor n).packetQueue.find? fun q =>
      s.queuebufSeqno (s.packet q).buf = some s.packetbuf.macSeqno with
  | none => (s, [])
  | some q =>
    match (s.packet q).ptr with
    | none => (s, [])
    | some m => s.packetResult status q m n numTransmissions rand

/-- `send_one_packet`; the packetbuf holds a broadcast if its receiver is the null address. -/
def sendOnePacket (outcome : Outcome) (rand : UInt16) : Csma × List CsmaEvent :=
  s.packetSent n (outcome.macTx (s.packetbuf.receiver = linkaddrNull)) 1 rand

/-- `transmit_from_queue`: the first packet of the queue is sent. -/
def transmitFromQueue (outcome : Outcome) (rand : UInt16) : Csma × List CsmaEvent :=
  match (s.neighbor n).packetQueue.head? with
  | none => (s, [])
  | some q =>
    let s := s.queuebufToPacketbuf (s.packet q).buf
    let (s', es) := s.sendOnePacket n outcome rand
    (s', (s.packet q).ptr.toList.map (fun m => .attempt (s.job n m)) ++ es)

/-! ### Output -/

/-- The sequence number of the packet; `rand` starts the numbers. -/
def setSeqno (rand : UInt16) : Csma :=
  let seqno := if s.initialized then s.seqno else rand.toUInt8
  let seqno := if seqno = 0 then seqno + 1 else seqno
  { s with
      initialized := true
      packetbuf := { s.packetbuf with macSeqno := seqno.toUInt16 }
      seqno := seqno + 1 }

/-- The neighbour entry for the address, a new one if there is none. -/
def neighborFor (addr : Linkaddr) : Csma × Option Neighbor :=
  match s.neighborQueueFromAddr addr with
  | some n => (s, some n)
  | none =>
    match membAlloc s.neighborCount with
    | none => (s, none)
    | some (n, neighborCount) =>
      let x := { s.neighbor n with addr, transmissions := 0, collisions := 0, packetQueue := [] }
      ({ s.setNeighbor n x with
          neighborCount
          neighborList := listAdd s.neighborList n }, some n)

variable (sent : Option ℕ)

/-- The packet in the packetbuf with its metadata and its buffer; what was allocated is freed if
there is no room for the rest. -/
def newPacket (cptr : ℕ) (id : ℕ) : Csma × Option Packet :=
  match membAlloc s.packetCount with
  | none => (s, none)
  | some (q, packetCount) =>
    match membAlloc s.metadataCount with
    | none =>
      ({ s with
          packet := update s.packet q { s.packet q with ptr := none }
          packetCount := membFree packetCount q }, none)
    | some (m, metadataCount) =>
      match s.queuebufNewFromPacketbuf with
      | (s, none) =>
        ({ s with
            packet := update s.packet q ⟨none, some m⟩
            metadataCount := membFree metadataCount m
            packetCount := membFree packetCount q }, none)
      | (s, some b) =>
        ({ s with
            packet := update s.packet q ⟨some b, some m⟩
            metadata := update s.metadata m ⟨sent, cptr, s.packetbuf.maxTransmissions, id⟩
            metadataCount
            packetCount }, some q)

/-- The packet is put at the end of the queue, and sent soon if it is the first one. -/
def enqueue (q : Packet) (rand : UInt16) : Csma :=
  let packetQueue := listAdd (s.neighbor n).packetQueue q
  let s := s.setNeighbor n { s.neighbor n with packetQueue }
  if packetQueue.head? = some q then s.scheduleTransmission n rand else s

/-- A neighbour entry that no packet waits in is freed. -/
def dropIfEmpty : Csma :=
  if (s.neighbor n).packetQueue.length = 0 then
    { s with
        neighborList := listRemove s.neighborList n
        neighborCount := membFree s.neighborCount n }
  else s

/-- The packet in the packetbuf, if there is room for it; the result says whether there was. -/
def queuePacket (cptr : ℕ) (id : ℕ) (rand : UInt16) : Csma × Bool :=
  match s.neighborFor s.packetbuf.receiver with
  | (s, none) => (s, false)
  | (s, some n) =>
    if (s.neighbor n).packetQueue.length < csmaMaxPacketPerNeighbor then
      match s.newPacket sent cptr id with
      | (s, some q) => (s.enqueue n q rand, true)
      | (s, none) => (s.dropIfEmpty n, false)
    else (s, false)

/-- `csma_output_packet` for the packet in the packetbuf. -/
def csmaOutputPacket (cptr : ℕ) (randSeqno rand : UInt16) : Csma × List CsmaEvent :=
  let s := s.setSeqno randSeqno
  let job : Job := ⟨s.calls, s.packetbuf.receiver, sent, cptr, s.packetbuf.data,
    s.packetbuf.maxTransmissions⟩
  let (s, accepted) := { s with calls := s.calls + 1 }.queuePacket sent cptr s.calls rand
  (s, if accepted then [.accepted job] else [.refused job, .done job (.err, 1)])

end Csma

/-! ### The machine -/

/-- What happens to the layer. -/
inductive CsmaInput where
  /-- `csma_output_packet` is called with this packet in the packetbuf. -/
  | output (sent : Option ℕ) (cptr : ℕ) (packet : Packetbuf) (randSeqno rand : UInt16)
  /-- The timer of a neighbour expires. -/
  | expire (n : Neighbor) (outcome : Outcome) (rand : UInt16)
  deriving DecidableEq

namespace Csma

/-- After `csma_output_init`. -/
def initial : Csma where
  neighborCount _ := 0
  packetCount _ := 0
  metadataCount _ := 0
  bufCount _ := 0
  ramCount _ := 0
  neighbor _ := ⟨linkaddrNull, none, 0, 0, []⟩
  packet _ := ⟨none, none⟩
  metadata _ := ⟨none, 0, 0, 0⟩
  ramPtr _ := none
  ram _ := ⟨[], 0, 0, linkaddrNull⟩
  neighborList := []
  packetbuf := ⟨[], 0, 0, linkaddrNull⟩
  initialized := false
  seqno := 0
  calls := 0

/-- One call, or the expiry of a timer that is set. -/
def step (s : Csma) : CsmaInput → Option (Csma × List CsmaEvent)
  | .output sent cptr packet randSeqno rand =>
    some ({ s with packetbuf := packet }.csmaOutputPacket sent cptr randSeqno rand)
  | .expire n outcome rand =>
    if (s.neighbor n).transmitTimer ≠ none then
      some ((s.setNeighbor n { s.neighbor n with transmitTimer := none }).transmitFromQueue n
        outcome rand)
    else none

end Csma

end Nespy.Mac
