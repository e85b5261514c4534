import Nespy.Sicslowpan.Elision
import Nespy.Sicslowpan.InOrder

/-!
# Sicslowpan — fragmentation and reassembly

The two halves put together.

* `reassembly_delivers_sent`: a receiver of packets that any senders fragment delivers none that was
  not sent, whatever order the fragments come in, as long as none comes in that the receiver has
  already.  `duplicate_fragment_delivered` shows what happens otherwise.
* `fragments_in_order`: the fragments of a packet cover it, fit their frames and are as many as
  `fragment_count`; in order, they bring the packet back exactly when its source address survives
  the compression of its header.
-/

open List

namespace Nespy.Sicslowpan

open Nespy.Lib

variable {ctxs : List AddrContext}

/-! ### The header at the other end -/

theorem IpHdr.bytes_injective : Function.Injective IpHdr.bytes := by
  intro h h' heq
  have hb : UipBuf.ofBytes (UipBuf.bytes ⟨h, []⟩) = UipBuf.ofBytes (UipBuf.bytes ⟨h', []⟩) := by
    rw [UipBuf.bytes, UipBuf.bytes, heq]
  rw [UipBuf.ofBytes_bytes, UipBuf.ofBytes_bytes] at hb
  exact congrArg UipBuf.ip hb

/-- The packet that is received is the one that was sent when its source address survives. -/
theorem Transmission.received_eq_iff (t : Transmission ctxs) :
    t.received = t.bytes ↔ SrcOk ctxs t.buf.ip := by
  rw [t.bytes_eq, Transmission.received, UipBuf.bytes, append_left_inj,
    IpHdr.bytes_injective.eq_iff, IpHdr.received_eq_iff]

/-! ### Any order -/

/-- **Reassembly delivers what was sent.**  A receiver that starts afresh and sees fragments of the
packets `T`, told apart by sender and tag and with source addresses that survive the compression,
delivers none but them, if no FRAGN comes in while its context has that fragment already; nor does
any of the frames make `input` leave its buffers. -/
theorem reassembly_delivers_sent (hc : ContextsOk ctxs)
    {T : Set (Transmission ctxs)} (hsrc : ∀ t ∈ T, SrcOk ctxs t.buf.ip)
    (hdist : ∀ t ∈ T, ∀ t' ∈ T, t.node.uipLladdr = t'.node.uipLladdr →
      t.node.myTag = t'.node.myTag → t = t')
    {s s' : Reass} (hs : s.Fresh) {tr : List (Arrival × Option (List UInt8))}
    (h : Runs (recv ctxs) (Arrives T) s tr s') :
    (∀ io ∈ tr, ∀ p ∈ io.2, ∃ t ∈ T, p = t.bytes) ∧
      ∀ a, Arrives T s' a → (recv ctxs s' a).isSome := by
  obtain ⟨hout, hsome⟩ := delivered_of_runs hc hdist hs h
  refine ⟨fun io hio p hp => ?_, hsome⟩
  obtain ⟨t, ht, rfl⟩ := hout io hio p hp
  exact ⟨t, ht, t.received_eq_iff.mpr (hsrc t ht)⟩

/-! A packet of 240 bytes from node A to node B, whose fragments have 136, 96 and 8 of them. -/

def icmpHdr : IpHdr where
  vtc := 0x60
  tcflow := 0
  flow0 := 0
  flow1 := 0
  len0 := 0
  len1 := 200
  proto := 58
  ttl := 64
  srcipaddr := linkLocalA
  destipaddr := linkLocalB

def icmpBuf : UipBuf := ⟨icmpHdr, (range 1240).map UInt8.ofNat⟩

def icmpNode : Node where
  ctxs := []
  uipLladdr := nodeA
  panId := 0xabcd
  numfree := 8
  myTag := 7
  sent := fun _ => .ok

theorem icmpBuf_length : icmpBuf.bytes.length = uipBufsize := by
  rw [UipBuf.bytes_length, icmpBuf, length_map, length_range]
  rfl

theorem isPacket_icmpBuf : (icmpBuf.packet 240).IsPacket where
  version := by decide
  len := by
    rw [UipBuf.packet, length_take, icmpBuf, length_map, length_range]
    rfl
  chain := .other (by decide)

def icmpTransmission : Transmission [] where
  node := icmpNode
  dest := nodeB
  buf := icmpBuf
  uipLen := 240
  c := ⟨[0x7a, 0x33, 58], 40⟩
  shared := rfl
  size := icmpBuf_length
  long := by decide
  short := by decide
  isPacket := isPacket_icmpBuf
  compressed := by decide +kernel
  needed := by decide
  queued := by decide
  room := by decide

/-- A receiver as it starts. -/
def freshReass : Reass where
  fragInfo := fun _ => ⟨linkaddrNull, 0, 0, 0, ⟨0, 0⟩, 0, ⟨icmpHdr, replicate 108 0⟩⟩
  fragBuf := fun _ => ⟨⟨0, by decide⟩, 0, []⟩
  uipBuf := ⟨icmpHdr, replicate 1240 0⟩

theorem fresh_freshReass : freshReass.Fresh where
  size := fun i => by
    rfl
  len := fun _ => rfl
  data := fun _ => rfl

variable (f : Frame)

/-- The frame, at time 0, with `0xee` all over `uip_buf`. -/
def Frame.arrival : Arrival := ⟨0, ⟨icmpHdr, replicate 1240 0xee⟩, f⟩

theorem Frame.arrival_mem : f.arrival.mem.bytes.length = uipBufsize := by
  rw [Frame.arrival, UipBuf.bytes_length, length_replicate]
  rfl

theorem wellFormed_icmpBuf : (icmpBuf.packet 240).WellFormed :=
  { isPacket_icmpBuf with
    src := fun _ _ => by decide
    dest := fun _ _ => by decide }

theorem reassembly_delivers_icmp :
    ∃ tr s', Runs (recv []) (Arrives {icmpTransmission}) freshReass tr s' ∧
    tr.filterMap Prod.snd = [icmpTransmission.bytes] ∧
    ∀ io ∈ tr, ∀ p ∈ io.2, p = icmpTransmission.bytes := by
  have hc : ContextsOk [] := by constructor <;> intro c hc <;> cases hc
  have hsrc : ∀ t ∈ ({icmpTransmission} : Set (Transmission [])), SrcOk [] t.buf.ip := by
    rintro t rfl
    exact wellFormed_icmpBuf.srcOk []
  obtain ⟨tr, s', hruns, -, hout⟩ := runs_in_order hc rfl fresh_freshReass
    (icmpTransmission.frames.map Frame.arrival)
    (by rw [map_map]; exact map_id _)
    (fun a ha => by
      obtain ⟨f, -, rfl⟩ := mem_map.mp ha
      exact f.arrival_mem)
  rw [icmpTransmission.received_eq_iff.mpr (hsrc _ rfl)] at hout
  refine ⟨tr, s', hruns, hout, fun io hio p hp => ?_⟩
  obtain ⟨t, rfl, heq⟩ := (reassembly_delivers_sent hc hsrc (by rintro t rfl t' rfl _ _; rfl)
    fresh_freshReass hruns).1 io hio p hp
  exact heq

/-- All arrivals, one after the other, and the packets delivered. -/
def recvAll (ctxs : List AddrContext) : Reass → List Arrival → Option (Reass × List (List UInt8))
  | s, [] => some (s, [])
  | s, a :: as => do
      let (s, o) ← recv ctxs s a
      let (s, ps) ← recvAll ctxs s as
      some (s, o.toList ++ ps)

/-- The second fragment of the packet comes in twice: it counts for the third, and the packet is
delivered with what `uip_buf` held in the place of its last eight bytes. -/
theorem duplicate_fragment_delivered : ∃ frag1 fragn last,
    icmpTransmission.frames = [frag1, fragn, last] ∧
    (recvAll [] freshReass [frag1.arrival, fragn.arrival, fragn.arrival]).map Prod.snd =
      some [icmpTransmission.bytes.take 232 ++ replicate 8 0xee] ∧
    icmpTransmission.bytes.take 232 ++ replicate 8 0xee ≠ icmpTransmission.bytes := by
  refine ⟨icmpTransmission.frame icmpTransmission.frag1,
    icmpTransmission.frame (icmpTransmission.fragn 0),
    icmpTransmission.frame (icmpTransmission.fragn 1), ?_, ?_, ?_⟩
  · decide +kernel
  · decide +kernel
  · decide +kernel

/-! ### In order -/

theorem recvAll_of_runs {G : Reass → Arrival → Prop} {s s' : Reass}
    {tr : List (Arrival × Option (List UInt8))} (h : Runs (recv ctxs) G s tr s') :
    recvAll ctxs s (tr.map Prod.fst) = some (s', tr.filterMap Prod.snd) := by
  induction h with
  | nil => rfl
  | @cons s s' s'' a o tr _ hr _ ih =>
    rw [map_cons, recvAll, hr, Option.bind_eq_bind, Option.bind_some]
    dsimp only
    rw [ih]
    cases o <;> rfl

/-- Where a FRAGN says that it starts. -/
def Frame.fragnOffset : ℕ := (f.data.getD 4 0).toNat <<< 3

/-- The payload of a FRAGN. -/
def Frame.fragnPayload : List UInt8 := f.data.drop 5

/-- The frames are FRAGNs that carry the bytes of `b` from `x` up to `y`, each from where the one
before it ends. -/
def Covers (b : UipBuf) : ℕ → List Frame → ℕ → Prop
  | x, [], y => x = y
  | x, f :: fs, y => 8 ∣ x ∧ f.fragnOffset = x ∧ f.fragnPayload ≠ [] ∧
      f.fragnPayload = b.slice x f.fragnPayload.length ∧ Covers b (x + f.fragnPayload.length) fs y

/-- What the fragments of a packet are to be, and what they are to bring back when `as` is their
arrival in order. -/
structure FragmentsRoundTrip (node : Node) (dest : Linkaddr) (b : UipBuf) (uipLen : UInt16)
    (c : Compressed) (s : Reass) (as : List Arrival) : Prop where
  cover : ∃ frag1 fragns n, (output node dest b uipLen).frames = frag1 :: fragns ∧
    frag1.data.drop frag1HdrLen = c.out ++ b.slice c.uncompHdrLen.toNat n ∧
    Covers b (c.uncompHdrLen.toNat + n) fragns uipLen.toNat
  fits : ∀ f ∈ (output node dest b uipLen).frames, f.data.length ≤ node.maxPayload dest
  count : ((output node dest b uipLen).frames.length : ℤ) = (fragPlan (node.maxPayload dest)
    uipLen.toNat c.uncompHdrLen.toNat c.out.length).fragmentCount
  reassembles : ∃ s', recvAll node.ctxs s as = some (s', [b.bytes.take uipLen.toNat])

namespace Transmission

variable {ctxs : List AddrContext} (t : Transmission ctxs)

theorem fragnPayload_fragn (m : ℕ) : (t.frame (t.fragn m)).fragnPayload = (t.piece m).2 := rfl

theorem covers_fragns {m : ℕ} (h : m ≤ t.fragnCount) : Covers t.buf (t.start m)
    ((range' m (t.fragnCount - m)).map (t.frame ∘ t.fragn)) t.uipLen.toNat := by
  induction hn : t.fragnCount - m generalizing m with
  | zero =>
    obtain rfl : m = t.fragnCount := by omega
    exact t.start_fragnCount
  | succ n ih =>
    have hm : m < t.fragnCount := by omega
    have hlt := t.start_lt hm
    refine ⟨t.dvd_start hlt, ?_, ?_, ?_, ?_⟩
    · exact t.offset_shiftLeft hlt
    · exact t.piece_ne_nil hlt
    · rw [Function.comp_apply, t.fragnPayload_fragn, t.piece_length hlt]
      rfl
    · rw [Function.comp_apply, t.fragnPayload_fragn, t.piece_length hlt, ← t.start_succ]
      exact ih hm (by omega)

theorem length_le_maxPayload {f : Frame} (hf : f ∈ t.frames) : f.data.length ≤ t.maxPayload := by
  rcases t.mem_frames hf with rfl | ⟨m, hm, rfl⟩
  · obtain ⟨-, -, hlt, -⟩ := t.firstLen_bounds
    have hslice := t.slice_length hlt.le
    obtain ⟨hf1, hle⟩ := t.frag1Payload_eq
    have hlen : (t.frame t.frag1).data.length =
        4 + (t.c.out.length + t.plan.frag1Payload.toNat) := by
      rw [← hslice, ← length_append]
      exact length_append
    omega
  · obtain ⟨d0, d1, t0, t1, hdata, -⟩ := t.fragn_data m
    have hb := (t.payloadLen_bounds hm).2.1
    rw [hdata]
    simp only [length_cons, t.piece_length hm]
    rcases t.maxPayload_cases with hM | hM <;> omega

end Transmission

/-- **Fragmentation and in-order reassembly.**  For every packet that `output` fragments, with all
its fragments taken by the MAC: they cover it, fit their frames, are as many as `fragment_count`,
and a fresh `input` that receives them in order delivers the packet, once, exactly when the
compressor's elision of the source prefix was right. -/
theorem fragments_in_order {node : Node} (hc : ContextsOk node.ctxs) {dest : Linkaddr} {b : UipBuf}
    {uipLen : UInt16} (hsize : b.bytes.length = uipBufsize) (hlong : 40 ≤ uipLen.toNat)
    (hshort : uipLen.toNat ≤ uipBufsize) (hpkt : (b.packet uipLen).IsPacket) {c : Compressed}
    (hcomp : compressHdrIphc node.ctxs node.uipLladdr dest (node.maxPayload dest) b = .ok c)
    (hneeded : fragNeeded (node.maxPayload dest) uipLen.toNat c = true)
    (hsent : node.sent = fun _ => .ok) (hok : (output node dest b uipLen).ok = true)
    {s : Reass} (hs : s.Fresh) {as : List Arrival}
    (has : as.map Arrival.frame = (output node dest b uipLen).frames)
    (hmem : ∀ a ∈ as, a.mem.bytes.length = uipBufsize) :
    FragmentsRoundTrip node dest b uipLen c s as ↔ SrcOk node.ctxs b.ip := by
  have hchecks : (fragPlan (node.maxPayload dest) uipLen.toNat c.uncompHdrLen.toNat
      c.out.length).fragmentCount ≤ (node.numfree : ℤ) - 1 ∧
      0 ≤ (fragPlan (node.maxPayload dest) uipLen.toNat c.uncompHdrLen.toNat
        c.out.length).frag1Payload := by
    unfold output at hok
    dsimp only at hok
    rw [hcomp] at hok
    dsimp only at hok
    split_ifs at hok with h1 h2
    omega
  let t : Transmission node.ctxs :=
    ⟨node, dest, b, uipLen, c, rfl, hsize, hlong, hshort, hpkt, hcomp,
    hneeded, hchecks.1, hchecks.2⟩
  obtain ⟨tr, s', hruns, rfl, hout⟩ := runs_in_order (t := t) hc hsent hs as has hmem
  have hall := recvAll_of_runs hruns
  rw [hout] at hall
  constructor
  · intro h
    obtain ⟨s'', hr⟩ := h.reassembles
    rw [hall] at hr
    exact t.received_eq_iff.mp (cons.inj (Prod.mk.inj (Option.some.inj hr)).2).1
  · intro h
    have hframes := (t.output_ok hsent).2
    refine ⟨⟨_, _, t.plan.frag1Payload.toNat, hframes, rfl, ?_⟩,
      fun f hf => t.length_le_maxPayload hf, ?_, s', ?_⟩
    · have hcov := t.covers_fragns (Nat.zero_le _)
      rwa [Nat.sub_zero, ← range_eq_range'] at hcov
    · change (t.frames.length : ℤ) = t.plan.fragmentCount
      rw [hframes, length_cons, length_map, length_range]
      have := t.fragnCount_pos
      unfold Transmission.fragnCount at this ⊢
      omega
    · rw [hall, t.received_eq_iff.mpr h]
      rfl

theorem fragments_in_order_icmp : (output icmpNode nodeB icmpBuf 240).ok = true ∧
    FragmentsRoundTrip icmpNode nodeB icmpBuf 240 ⟨[0x7a, 0x33, 58], 40⟩ freshReass
      ((output icmpNode nodeB icmpBuf 240).frames.map Frame.arrival) := by
  have hc : ContextsOk icmpNode.ctxs := by constructor <;> intro c hc <;> cases hc
  have hok : (output icmpNode nodeB icmpBuf 240).ok = true := by decide +kernel
  refine ⟨hok, ?_⟩
  rw [fragments_in_order hc icmpBuf_length (by decide) (by decide) isPacket_icmpBuf
    (by decide +kernel) (by decide) rfl hok fresh_freshReass
    (by rw [map_map]; exact map_id _) (fun a ha => by
      obtain ⟨f, -, rfl⟩ := mem_map.mp ha
      exact f.arrival_mem)]
  exact wellFormed_icmpBuf.srcOk []

/-- The packet of `icmpBuf`, from a source in the subnet `fe80:0:0:1::/64`. -/
def subnetBuf : UipBuf where
  ip := { icmpHdr with srcipaddr := subnetA }
  pay := icmpBuf.pay

/-- The prefix of the source is elided for the destination's sake, and does not come back: what is
delivered is the packet of `icmpBuf`. -/
theorem source_prefix_lost : (subnetBuf.packet 240).IsPacket ∧
    compressHdrIphc icmpNode.ctxs icmpNode.uipLladdr nodeB (icmpNode.maxPayload nodeB) subnetBuf =
      .ok ⟨[0x7a, 0x33, 58], 40⟩ ∧
    (output icmpNode nodeB subnetBuf 240).ok = true ∧
    (recvAll icmpNode.ctxs freshReass
      ((output icmpNode nodeB subnetBuf 240).frames.map Frame.arrival)).map Prod.snd =
        some [icmpBuf.bytes.take 240] ∧
    icmpBuf.bytes.take 240 ≠ subnetBuf.bytes.take 240 := by
  refine ⟨⟨by decide, ?_, .other (by decide)⟩, ?_, ?_, ?_, ?_⟩
  · rw [UipBuf.packet, length_take, subnetBuf, icmpBuf, length_map, length_range]
    rfl
  · decide +kernel
  · decide +kernel
  · decide +kernel
  · decide +kernel

end Nespy.Sicslowpan
