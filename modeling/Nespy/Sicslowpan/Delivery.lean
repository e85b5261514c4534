import Nespy.Lib.Runs
import Nespy.Sicslowpan.Reassembly

/-!
# Sicslowpan — what reassembly delivers

A receiver that sees the fragments of a set of transmissions, in any order, interleaving and number,
at any times.  Every context it has open belongs to one of the transmissions and `reassembled_len`
counts the bytes it has of it (`Reass.Inv`), as long as no FRAGN comes in twice while its context is
open: `input` counts a fragment again that it has already, and would take the packet for complete
with a hole in it.  `delivered_of_runs` is the invariant's use: a packet is delivered only when all
of it is there.
-/

open List Function

namespace Nespy.Sicslowpan

open Nespy.Lib
open Nespy.Sys (ClockTime)

/-! ### A context and its transmission -/

variable {ctxs : List AddrContext} {t : Transmission ctxs} {T : Set (Transmission ctxs)}
  {s s' : Reass} {i : Ctx} {m : ℕ} {b : UipBuf}

section Context

/-- A context in use for `t`, with the FRAGNs `ps`. -/
structure Holds (info : FragInfo) (ps : List (ℕ × List UInt8)) (t : Transmission ctxs) : Prop where
  sender : info.sender = t.node.uipLladdr
  tag : info.tag = t.node.myTag
  len : info.len = t.uipLen
  firstFragLen : info.firstFragLen.toNat = t.firstLen
  firstFrag : info.firstFrag.bytes.take t.firstLen = t.received.take t.firstLen
  pieces : ∀ p ∈ ps, ∃ m, t.start m < t.uipLen.toNat ∧ p = t.piece m
  nodup : ps.Pairwise fun p q => p.1 ≠ q.1
  reassembledLen : info.reassembledLen.toNat = t.firstLen + total ps

/-- The first fragment, as a part of the packet. -/
def Transmission.firstPart (t : Transmission ctxs) : ℕ × List UInt8 :=
  (0, t.received.take t.firstLen)

theorem Transmission.firstPart_length (t : Transmission ctxs) :
    t.firstPart.2.length = t.firstLen := by
  rw [Transmission.firstPart, length_take, t.received_length]
  exact Nat.min_eq_left t.firstLen_bounds.2.2.1.le

variable {ps : List (ℕ × List UInt8)}

section

variable (hps : ∀ p ∈ ps, ∃ m, t.start m < t.uipLen.toNat ∧ p = t.piece m)

include hps

theorem isPart_pieces :
    ∀ p ∈ t.firstPart :: ps, IsPart t.received p := by
  intro p hp
  rcases mem_cons.mp hp with rfl | hp
  · refine ⟨?_, ?_⟩
    · rw [t.firstPart_length, t.received_length]
      exact (Nat.zero_add _).trans_le t.firstLen_bounds.2.2.1.le
    · rw [t.firstPart_length]
      rfl
  · obtain ⟨m, hm, rfl⟩ := hps p hp
    exact t.isPart_piece hm

variable (hnd : ps.Pairwise fun p q => p.1 ≠ q.1)

include hnd

/-- FRAGNs of one packet that differ do not overlap, nor does the first fragment reach into them. -/
theorem apart_pieces : (t.firstPart :: ps).Pairwise Apart := by
  refine pairwise_cons.mpr ⟨fun p hp => ?_, ?_⟩
  · obtain ⟨m, hm, rfl⟩ := hps p hp
    refine .inl ?_
    rw [t.firstPart_length]
    exact (Nat.zero_add _).trans_le (t.firstLen_le_start m)
  · refine List.Pairwise.imp_of_mem (fun {p q} hp hq hne => ?_) hnd
    obtain ⟨m, hm, rfl⟩ := hps p hp
    obtain ⟨n, hn, rfl⟩ := hps q hq
    exact t.apart_piece hm hn hne

/-- No more bytes come in than the packet has. -/
theorem firstLen_add_total_le : t.firstLen + total ps ≤ t.uipLen.toNat := by
  have h := total_le (isPart_pieces hps) (apart_pieces hps hnd)
  rwa [total_cons, t.firstPart_length, t.received_length] at h

end

/-- A FRAGN that was not there is added. -/
theorem Holds.add {info : FragInfo} (h : Holds info ps t) (hm : t.start m < t.uipLen.toNat)
    (hnew : ∀ p ∈ ps, p.1 ≠ t.start m) {ps' : List (ℕ × List UInt8)}
    (hperm : ps'.Perm (t.piece m :: ps)) :
    Holds { info with reassembledLen :=
      info.reassembledLen + UInt16.ofNat (t.piece m).2.length } ps' t := by
  have hpieces : ∀ p ∈ ps', ∃ m, t.start m < t.uipLen.toNat ∧ p = t.piece m := by
    intro p hp
    rcases mem_cons.mp (hperm.mem_iff.mp hp) with rfl | hp
    · exact ⟨m, hm, rfl⟩
    · exact h.pieces p hp
  have hnd : ps'.Pairwise fun p q => p.1 ≠ q.1 := by
    rw [hperm.pairwise_iff fun {p q} => Ne.symm]
    exact pairwise_cons.mpr ⟨fun p hp => (hnew p hp).symm, h.nodup⟩
  have htotal : total ps' = (t.piece m).2.length + total ps := by
    rw [total_perm hperm, total_cons]
  have hle := firstLen_add_total_le hpieces hnd
  have hup := t.uipLen_le
  refine ⟨h.sender, h.tag, h.len, h.firstFragLen, h.firstFrag, hpieces, hnd, ?_⟩
  rw [UInt16.toNat_add, UInt16.toNat_ofNat', h.reassembledLen]
  omega

theorem holds_opened (now : ClockTime) (hb : b.bytes.take t.firstLen = t.received.take t.firstLen) :
    Holds (t.opened now b) [] t := by
  have hlen : (UInt16.ofNat t.firstLen).toNat = t.firstLen := by
    have := t.firstLen_bounds.2.2.2
    rw [UInt16.toNat_ofNat']
    omega
  exact ⟨rfl, rfl, rfl, hlen, hb, (fun p hp => by cases hp), .nil, hlen⟩

end Context

/-! ### Delivery -/

/-- **A packet that is complete by its count is complete.**  What is then copied into `uip_buf` is
the packet, whatever was there before; the context is free again and the others are not touched. -/
theorem deliver_eq (hbuf : s.uipBuf.bytes.length = uipBufsize)
    (h : Holds (s.fragInfo i) (s.parts i) t)
    (hfull : (s.fragInfo i).reassembledLen ≥ t.uipLen) :
    ∃ b, s.deliver i t.uipLen = some (({ s with
      fragInfo := update s.fragInfo i { s.fragInfo i with reassembledLen := t.uipLen }
      uipBuf := b } : Reass).clearFragments i, some t.received) := by
  have hlen : t.received.length ≤ total (t.firstPart :: s.parts i) := by
    rw [total_cons, t.firstPart_length, t.received_length, ← h.reassembledLen]
    exact UInt16.le_iff_toNat_le.mp hfull
  have hmem : t.received.length ≤ s.uipBuf.bytes.length := by
    rw [t.received_length, hbuf]
    exact t.short
  obtain ⟨l, hpatch, hllen, htake⟩ :=
    patch_eq (isPart_pieces h.pieces) (apart_pieces h.pieces h.nodup) hlen hmem
  rw [hbuf, uipBufsize] at hllen
  have hread : readN (s.fragInfo i).firstFragLen.toNat (s.fragInfo i).firstFrag.bytes =
      some (t.received.take t.firstLen, (s.fragInfo i).firstFrag.bytes.drop t.firstLen) := by
    rw [readN_eq_some, ← h.firstFrag, take_append_drop, h.firstFrag, h.firstFragLen]
    exact ⟨rfl, t.firstPart_length⟩
  obtain ⟨m₁, hw, hpatch⟩ := Option.bind_eq_some_iff.mp hpatch
  have hm₁ := writeAt_length hw
  rw [hbuf, uipBufsize] at hm₁
  have hw' : s.uipBuf.write 0 (t.received.take t.firstLen) = some (UipBuf.ofBytes m₁) := by
    rw [UipBuf.write_eq_some, UipBuf.bytes_ofBytes (by omega)]
    exact hw
  refine ⟨UipBuf.ofBytes l, ?_⟩
  have hcopy : ({ s with
      fragInfo := update s.fragInfo i { s.fragInfo i with reassembledLen := t.uipLen }
      uipBuf := UipBuf.ofBytes m₁ } : Reass).copyFrags i = some (UipBuf.ofBytes l) := by
    rw [Reass.copyFrags_eq]
    rw [UipBuf.bytes_ofBytes (by omega)]
    exact congrArg (Option.map UipBuf.ofBytes) hpatch
  unfold Reass.deliver Reass.copyFrags2uip
  simp only [update_self, hread, hw', hcopy, Option.bind_eq_bind, Option.bind_some]
  rw [← t.received_length, show ∀ s : Reass, (s.clearFragments i).uipBuf =
    s.uipBuf from fun _ => rfl, UipBuf.bytes_ofBytes (by omega), htake]

/-! ### The invariant -/

section Invariant

variable (T)

/-- A context is free, and no buffer holds anything of it, or in use for a transmission of `T`. -/
structure CtxInv (info : FragInfo) (ps : List (ℕ × List UInt8)) : Prop where
  size : info.firstFrag.bytes.length = sicslowpanFirstFragmentSize
  idle : info.len = 0 → ps = []
  busy : info.len ≠ 0 → ∃ t ∈ T, Holds info ps t

/-- Every context is of one transmission. -/
def Reass.Inv (s : Reass) : Prop :=
  ∀ i, CtxInv T (s.fragInfo i) (s.parts i)

variable {T} (h : s.Inv T)

include h

theorem Reass.Inv.clearFragments (k : Ctx) : (s.clearFragments k).Inv T := by
  intro i
  by_cases hik : i = k
  · rw [hik, fragInfo_clearFragments_self, parts_clearFragments_self]
    exact ⟨(h k).size, fun _ => rfl, fun hne => absurd rfl hne⟩
  · rw [fragInfo_clearFragments_ne hik, parts_clearFragments_ne hik]
    exact h i

theorem Reass.Inv.cleared (hc : Cleared i s s') : s'.Inv T := by
  induction hc with
  | refl => exact h
  | clear _ _ ih => exact ih.clearFragments _

/-- One context is opened for a transmission. -/
theorem Reass.Inv.opened (hfree : (s.fragInfo i).len = 0) (ht : t ∈ T) (now : ClockTime)
    (hlen : b.bytes.length = sicslowpanFirstFragmentSize)
    (hb : b.bytes.take t.firstLen = t.received.take t.firstLen) :
    ({ s with fragInfo := update s.fragInfo i (t.opened now b) } : Reass).Inv T := by
  intro k
  by_cases hki : k = i
  · subst hki
    change CtxInv T (update s.fragInfo k (t.opened now b) k) (s.parts k)
    rw [update_self, (h k).idle hfree]
    exact ⟨hlen, fun _ => rfl, fun _ => ⟨t, ht, holds_opened now hb⟩⟩
  · change CtxInv T (update s.fragInfo i (t.opened now b) k) (s.parts k)
    rw [update_of_ne hki]
    exact h k

/-- One context receives a FRAGN it did not have. -/
theorem Reass.Inv.stored (ht : t ∈ T) (hholds : Holds (s.fragInfo i) (s.parts i) t)
    (hm : t.start m < t.uipLen.toNat) (hnew : ∀ p ∈ s.parts i, p.1 ≠ t.start m)
    {j : Fin sicslowpanFragmentBuffers} (hj : (s.fragBuf j).data = []) :
    let s' := (s.store j ⟨i, t.offset m, (t.piece m).2⟩).addLen i (t.piece m).2.length
    s'.Inv T ∧ Holds (s'.fragInfo i) (s'.parts i) t := by
  intro s'
  have hperm := parts_store_self (i := i) hj (t.offset m) (t.piece_ne_nil hm)
  rw [t.offset_shiftLeft hm] at hperm
  have hi : Holds (s'.fragInfo i) (s'.parts i) t := by
    change Holds (update s.fragInfo i _ i) _ t
    rw [update_self]
    exact hholds.add hm hnew hperm
  refine ⟨fun k => ?_, hi⟩
  by_cases hki : k = i
  · subst hki
    have hinfo : s'.fragInfo k = _ := update_self k _ s.fragInfo
    refine ⟨?_, fun h0 => ?_, fun _ => ⟨t, ht, hi⟩⟩
    · rw [hinfo]
      exact (h k).size
    · rw [hi.len] at h0
      exact absurd h0 t.uipLen_ne_zero
  · have hparts : s'.parts k = s.parts k := parts_store_ne hj hki
    have hinfo : s'.fragInfo k = s.fragInfo k := update_of_ne hki _ _
    rw [hparts, hinfo]
    exact h k

/-- A context is set free by the delivery of its packet. -/
theorem Reass.Inv.delivered (i : Ctx) (len : UInt16) (b : UipBuf) : (({ s with
      fragInfo := update s.fragInfo i { s.fragInfo i with reassembledLen := len }
      uipBuf := b } : Reass).clearFragments i).Inv T := by
  intro k
  by_cases hki : k = i
  · rw [hki, fragInfo_clearFragments_self, parts_clearFragments_self]
    dsimp only
    rw [update_self]
    exact ⟨(h i).size, fun _ => rfl, fun hne => absurd rfl hne⟩
  · rw [fragInfo_clearFragments_ne hki, parts_clearFragments_ne hki]
    dsimp only
    rw [update_of_ne hki]
    exact h k

end Invariant

/-! ### A receiver and its arrivals -/

/-- A frame, the time it comes in and what the rest of the stack has left in `uip_buf` by then. -/
structure Arrival where
  now : ClockTime
  mem : UipBuf
  frame : Frame

/-- `input`, called for an arrival. -/
def recv (ctxs : List AddrContext) (s : Reass) (a : Arrival) :
    Option (Reass × Option (List UInt8)) :=
  input ctxs { s with uipBuf := a.mem } a.now a.frame

/-- No context and no buffer is in use. -/
structure Reass.Fresh (s : Reass) : Prop where
  size : ∀ i, (s.fragInfo i).firstFrag.bytes.length = sicslowpanFirstFragmentSize
  len : ∀ i, (s.fragInfo i).len = 0
  data : ∀ j, (s.fragBuf j).data = []

/-- The frame is a FRAGN, and the context it goes to has a fragment of its offset. -/
def Reass.hasOffset (s : Reass) (f : Frame) : Bool :=
  match f.data with
  | d0 :: _ :: t0 :: t1 :: offset :: _ =>
    d0 &&& dispatchFragMask == 0xe0 &&
      ((s.findContext f.sender (get16 t0 t1)).any fun i =>
        (finRange sicslowpanFragmentBuffers).any fun j =>
          s.holds i j && (s.fragBuf j).offset == offset)
  | _ => false

/-- An arrival of a fragment of `T`, not of one the receiver has already. -/
structure Arrives {ctxs : List AddrContext} (T : Set (Transmission ctxs)) (s : Reass)
    (a : Arrival) : Prop where
  mem : a.mem.bytes.length = uipBufsize
  sent : ∃ t ∈ T, a.frame ∈ t.frames
  new : s.hasOffset a.frame = false

section Receiver

theorem Reass.Fresh.parts (h : s.Fresh) (i : Ctx) : s.parts i = [] :=
  contents_eq_nil.mpr fun j => by simp [h.data j]

theorem Reass.Fresh.inv (h : s.Fresh) : s.Inv T := fun i =>
  ⟨h.size i, fun _ => h.parts i, fun hne => absurd (h.len i) hne⟩

theorem Reass.findContext_some {sender : Linkaddr} {tag : UInt16}
    (h : s.findContext sender tag = some i) :
    (s.fragInfo i).tag = tag ∧ (s.fragInfo i).len ≠ 0 ∧ (s.fragInfo i).sender = sender := by
  have hp := find?_some h
  simp only [Bool.and_eq_true, beq_iff_eq, bne_iff_ne] at hp
  exact ⟨hp.1.1, hp.1.2, hp.2⟩

theorem Reass.mem_parts {p : ℕ × List UInt8} : p ∈ s.parts i ↔
    ∃ j, s.holds i j = true ∧ p = ((s.fragBuf j).offset.toNat <<< 3, (s.fragBuf j).data) := by
  refine mem_contents.trans (exists_congr fun j => ?_)
  change (if s.holds i j = true then some ((s.fragBuf j).offset.toNat <<< 3, (s.fragBuf j).data)
    else none) = some p ↔ _
  split_ifs with h
  · exact ⟨fun hp => ⟨h, (Option.some.inj hp).symm⟩, fun hp => congrArg some hp.2.symm⟩
  · exact ⟨(fun hp => by cases hp), fun hp => absurd hp.1 h⟩

/-- A FRAGN is there already when its context has one that starts where it does. -/
theorem Reass.hasOffset_fragn (hm : t.start m < t.uipLen.toNat) :
    s.hasOffset (t.frame (t.fragn m)) = true ↔
      ∃ i, s.findContext t.node.uipLladdr t.node.myTag = some i ∧
        ∃ p ∈ s.parts i, p.1 = t.start m := by
  obtain ⟨d0, d1, t0, t1, hdata, hd0, -, htag⟩ := t.fragn_data m
  have hoff : ∀ o : UInt8, o = t.offset m ↔ o.toNat <<< 3 = t.start m := by
    intro o
    rw [← t.offset_shiftLeft hm, ← UInt8.toNat_inj]
    omega
  have hd0' : (d0 &&& dispatchFragMask == 0xe0) = true := beq_iff_eq.mpr hd0
  unfold hasOffset
  rw [hdata]
  dsimp only
  rw [htag, hd0', Bool.true_and, Option.any_eq_true]
  refine exists_congr fun i => and_congr_right fun _ => ?_
  simp only [any_eq_true, mem_finRange, true_and, Bool.and_eq_true, beq_iff_eq, hoff,
    mem_parts]
  constructor
  · rintro ⟨j, hj, ho⟩
    exact ⟨_, ⟨j, hj, rfl⟩, ho⟩
  · rintro ⟨p, ⟨j, hj, rfl⟩, ho⟩
    exact ⟨j, hj, ho⟩

variable (hc : ContextsOk ctxs)

include hc

theorem Reass.Inv.recv_frag1 (h : s.Inv T) (ht : t ∈ T) (now : ClockTime) :
    ∃ s', input ctxs s now (t.frame t.frag1) = some (s', none) ∧ s'.Inv T := by
  obtain ⟨hinv, hfree⟩ := findFree_spec (fun s k (h : s.Inv T) => h.clearFragments k) now h
  rcases t.input_frag1 hc s now fun i => (hinv i).size with ⟨-, hin⟩ | ⟨i, b, hi, hlen, hb, hin⟩
  · exact ⟨_, hin, hinv⟩
  · exact ⟨_, hin, hinv.opened (hfree i hi) ht now hlen hb⟩

variable (hdist : ∀ t ∈ T, ∀ t' ∈ T, t.node.uipLladdr = t'.node.uipLladdr →
  t.node.myTag = t'.node.myTag → t = t')

include hdist

omit hc in
/-- **Step.**  A further fragment. -/
theorem Reass.Inv.recv_fragn (h : s.Inv T) (hbuf : s.uipBuf.bytes.length = uipBufsize) (ht : t ∈ T)
    (now : ClockTime) (hm : t.start m < t.uipLen.toNat)
    (hnew : s.hasOffset (t.frame (t.fragn m)) = false) :
    ∃ s' o, input ctxs s now (t.frame (t.fragn m)) = some (s', o) ∧ s'.Inv T ∧
      ∀ p ∈ o, p = t.received := by
  rcases addFragment_cases (t.piece_ne_nil hm) (t.piece_length_le hm) (t.offset_ne_zero hm) now s
    t.node.uipLladdr t.node.myTag t.uipLen
      with ⟨-, hadd⟩ | ⟨i, s₁, hi, hclr, ⟨hadd, -⟩ | ⟨j, hj, hadd⟩⟩
  · exact ⟨s, none, t.input_fragn_dropped hadd, h, fun p hp => by cases hp⟩
  · exact ⟨s₁, none, t.input_fragn_dropped hadd, h.cleared hclr, fun p hp => by cases hp⟩
  · -- the context is the packet's own, since sender and tag name one transmission only
    obtain ⟨htag, hne, hsender⟩ := findContext_some hi
    obtain ⟨t', ht', hholds⟩ := (h i).busy hne
    obtain rfl : t = t' := hdist t ht t' ht' (hsender.symm.trans hholds.sender)
      (htag.symm.trans hholds.tag)
    rw [← hclr.fragInfo, ← hclr.parts] at hholds
    obtain ⟨hinv, hholds'⟩ := (h.cleared hclr).stored ht hholds hm
      (fun p hp heq => by
        rw [hclr.parts] at hp
        rw [(hasOffset_fragn hm).mpr ⟨i, hi, p, hp, heq⟩] at hnew
        cases hnew) hj
    have hin := t.input_fragn_stored hm hadd
    split_ifs at hin with hlast
    · obtain ⟨b, hdel⟩ := deliver_eq (by
        change s₁.uipBuf.bytes.length = uipBufsize
        rw [hclr.uipBuf, hbuf]) hholds' hlast
      refine ⟨_, _, hin.trans hdel, hinv.delivered i _ b, fun p hp => ?_⟩
      exact (Option.mem_some_iff.mp hp).symm
    · exact ⟨_, _, hin, hinv, fun p hp => by cases hp⟩

/-- **Step lemma.**  A fragment that is not there twice keeps the invariant, and what it completes
is one of the packets. -/
theorem Reass.Inv.recv (h : s.Inv T) {a : Arrival} (ha : Arrives T s a) :
    ∃ s' o, Sicslowpan.recv ctxs s a = some (s', o) ∧ s'.Inv T ∧
      ∀ p ∈ o, ∃ t ∈ T, p = t.received := by
  obtain ⟨t, ht, hf⟩ := ha.sent
  have hnew := ha.new
  unfold Sicslowpan.recv
  rcases t.mem_frames hf with hframe | ⟨m, hm, hframe⟩ <;> rw [hframe] at hnew ⊢
  · obtain ⟨s', hin, hinv⟩ := recv_frag1 (s := { s with uipBuf := a.mem }) hc h ht a.now
    exact ⟨s', none, hin, hinv, fun p hp => by cases hp⟩
  · obtain ⟨s', o, hin, hinv, ho⟩ :=
      recv_fragn (s := { s with uipBuf := a.mem }) hdist h ha.mem ht a.now hm hnew
    exact ⟨s', o, hin, hinv, fun p hp => ⟨t, ht, ho p hp⟩⟩

/-- **Run lemma.**  From a fresh receiver on, every packet delivered is one of those on the way, as
their headers are received, and no frame makes `input` leave its buffers. -/
theorem delivered_of_runs (hs : s.Fresh) {tr : List (Arrival × Option (List UInt8))}
    (h : Runs (recv ctxs) (Arrives T) s tr s') :
    (∀ io ∈ tr, ∀ p ∈ io.2, ∃ t ∈ T, p = t.received) ∧
      ∀ a, Arrives T s' a → (Sicslowpan.recv ctxs s' a).isSome := by
  obtain ⟨hinv, hout⟩ := h.invariant (Reass.Inv T) (fun o => ∀ p ∈ o, ∃ t ∈ T, p = t.received)
    (fun {s a s' o} hs ha hr => by
      obtain ⟨s₁, o₁, hr₁, hs₁, ho₁⟩ := Reass.Inv.recv hc hdist hs ha
      obtain ⟨rfl, rfl⟩ := Prod.mk.inj (Option.some.inj (hr.symm.trans hr₁))
      exact ⟨hs₁, ho₁⟩) hs.inv
  refine ⟨hout, fun a ha => ?_⟩
  obtain ⟨s₁, o₁, hr₁, -, -⟩ := Reass.Inv.recv hc hdist hinv ha
  rw [hr₁]
  rfl

end Receiver

end Nespy.Sicslowpan
