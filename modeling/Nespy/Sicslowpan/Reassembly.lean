import Nespy.Lib.Slots
import Nespy.Sicslowpan.Fragments
import Nespy.Sicslowpan.Input

/-!
# Sicslowpan — what `input` does with a fragment

The fragments a context has received are the parts of a block (`Reass.parts`), and the state of a
context is described by the transmission it belongs to (`Reass.Holds`): the first fragment's bytes,
the FRAGNs that are there, each of them once, and `reassembled_len` as the length of all of them.

`input_frag1` and `input_fragn` say what `input` makes of the frames of a transmission.  Contexts
are cleared in either, when their timers have expired; `Cleared` keeps what is known of the others.
-/

open List Function

namespace Nespy.Sicslowpan

open Nespy.Lib
open Nespy.Sys (ClockTime timerSet)

/-! ### The fragment header -/

theorem get16_set16 (v : UInt16) : get16 (v >>> 8).toUInt8 v.toUInt8 = v :=
  word_of_bytes v

variable {disp v : UInt16}

section

variable (hd : disp = dispatchFrag1 ∨ disp = dispatchFragn)

include hd

theorem or_toNat (hv : v.toNat < 2048) : (disp <<< 8 ||| v).toNat = disp.toNat * 256 + v.toNat := by
  have hshift : (disp <<< 8).toNat = (disp.toNat / 8) <<< 11 := by
    rcases hd with rfl | rfl <;> decide
  rw [UInt16.toNat_or, hshift, ← Nat.shiftLeft_add_eq_or_of_lt hv]
  rcases hd with rfl | rfl <;> rfl

/-- The receiver reads back the dispatch, the size and the tag. -/
theorem fragHdr_read (hv : v.toNat < 2048) (tag : UInt16) :
    ∃ d0 d1 t0 t1, fragHdr disp v tag = [d0, d1, t0, t1] ∧
      d0 &&& dispatchFragMask = disp.toUInt8 ∧ get16 d0 d1 &&& 0x07ff = v ∧ get16 t0 t1 = tag := by
  have hor := or_toNat hd hv
  have h8 : (8 : UInt16).toNat % 16 = 8 := rfl
  refine ⟨_, _, _, _, rfl, ?_, ?_, get16_set16 tag⟩
  · have hd0 : ((disp <<< 8 ||| v) >>> 8).toUInt8 = UInt8.ofNat (disp.toNat + v.toNat / 256) := by
      apply UInt8.toNat_inj.mp
      rw [UInt16.toNat_toUInt8, UInt16.toNat_shiftRight, h8,
        UInt8.toNat_ofNat']
      omega
    rw [hd0]
    have hlt : v.toNat / 256 < 8 := by omega
    generalize v.toNat / 256 = k at hlt
    rcases hd with rfl | rfl <;> interval_cases k <;> decide
  · rw [get16_set16]
    apply UInt16.toNat_inj.mp
    rw [UInt16.toNat_and, hor, show (0x07ff : UInt16).toNat = 2 ^ 11 - 1 from rfl,
      Nat.and_two_pow_sub_one_eq_mod]
    rcases hd with rfl | rfl
    · change (192 * 256 + v.toNat) % 2 ^ 11 = _
      omega
    · change (224 * 256 + v.toNat) % 2 ^ 11 = _
      omega

end

/-! ### Contexts and what they have received -/

namespace Reass

/-- What a fragment buffer holds of context `i`. -/
@[simp] def partOf (i : Ctx) (b : FragBuf) : Option (ℕ × List UInt8) :=
  if b.data != [] && b.index == i then some (b.offset.toNat <<< 3, b.data) else none

/-- The FRAGNs received for context `i`. -/
def parts (s : Reass) (i : Ctx) : List (ℕ × List UInt8) := contents fun j => partOf i (s.fragBuf j)

/-- Buffer `j`, filled. -/
@[simp] def store (s : Reass) (j : Fin sicslowpanFragmentBuffers) (b : FragBuf) : Reass :=
  { s with fragBuf := update s.fragBuf j b }

variable {s : Reass} {i k : Ctx}

theorem parts_clearFragments_self : (s.clearFragments i).parts i = [] := by
  refine contents_eq_nil.mpr fun j => ?_
  change partOf i (if s.holds i j then { s.fragBuf j with data := [] } else s.fragBuf j) = none
  split_ifs with h
  · rfl
  · exact if_neg h

theorem parts_clearFragments_ne (h : k ≠ i) : (s.clearFragments i).parts k = s.parts k := by
  unfold parts
  congr 1
  funext j
  change partOf k (if s.holds i j then { s.fragBuf j with data := [] } else s.fragBuf j) = _
  split_ifs with h1
  · have hidx : (s.fragBuf j).index = i := by simpa using (Bool.and_eq_true_iff.mp h1).2
    simp [hidx, h.symm]
  · rfl

theorem fragInfo_clearFragments_ne (h : k ≠ i) : (s.clearFragments i).fragInfo k = s.fragInfo k :=
  update_of_ne h _ _

theorem fragInfo_clearFragments_self :
    (s.clearFragments i).fragInfo i = { s.fragInfo i with len := 0 } :=
  update_self _ _ _

variable {j : Fin sicslowpanFragmentBuffers} {data : List UInt8} {s' : Reass}

theorem parts_store_self (hj : (s.fragBuf j).data = []) (off : UInt8) (hd : data ≠ []) :
    ((s.store j ⟨i, off, data⟩).parts i).Perm ((off.toNat <<< 3, data) :: s.parts i) := by
  have hfree : partOf i (s.fragBuf j) = none := by simp [hj]
  have hput : (fun l => partOf i ((s.store j ⟨i, off, data⟩).fragBuf l)) =
      update (fun l => partOf i (s.fragBuf l)) j (some (off.toNat <<< 3, data)) := by
    funext l
    by_cases hl : l = j
    · subst hl
      simp [hd]
    · simp [update_of_ne hl]
  rw [parts, hput]
  exact contents_update hfree _

theorem parts_store_ne (hj : (s.fragBuf j).data = []) {off : UInt8} (h : k ≠ i) :
    (s.store j ⟨i, off, data⟩).parts k = s.parts k := by
  unfold parts
  congr 1
  funext l
  by_cases hl : l = j
  · subst hl
    simp [h.symm, hj]
  · simp [update_of_ne hl]

theorem fragInfo_openContext (now : ClockTime) (sender : Linkaddr) (tag fragSize : UInt16) :
    (s.openContext now i sender tag fragSize).fragInfo i = { s.fragInfo i with
      len := fragSize
      tag := tag
      sender := sender
      reassTimer := timerSet now (sicslowpanReassMaxage * clockSecond / 16) } :=
  update_self _ _ _

/-- `s'` is `s` after contexts other than `i` were cleared. -/
inductive Cleared (i : Ctx) (s : Reass) : Reass → Prop where
  | refl : Cleared i s s
  | clear {s' : Reass} {k : Ctx} : Cleared i s s' → k ≠ i → Cleared i s (s'.clearFragments k)

section

variable (h : Cleared i s s')

include h

theorem Cleared.fragInfo : s'.fragInfo i = s.fragInfo i := by
  induction h with
  | refl => rfl
  | clear _ hk ih => rw [fragInfo_clearFragments_ne hk.symm, ih]

theorem Cleared.parts : s'.parts i = s.parts i := by
  induction h with
  | refl => rfl
  | clear _ hk ih => rw [parts_clearFragments_ne hk.symm, ih]

theorem Cleared.other (hk : (s.fragInfo k).len = 0) : (s'.fragInfo k).len = 0 := by
  induction h with
  | refl => exact hk
  | @clear _ l _ _ ih =>
    by_cases hkl : k = l
    · rw [hkl, fragInfo_clearFragments_self]
    · rw [fragInfo_clearFragments_ne hkl, ih]

theorem Cleared.uipBuf : s'.uipBuf = s.uipBuf := by
  induction h with
  | refl => rfl
  | clear _ _ ih => exact ih

end

theorem timeoutFragments_cleared (now : ClockTime) (s : Reass) (i : Ctx) :
    Cleared i s (s.timeoutFragments now i).1 := by
  refine foldlRecOn (motive := fun r : Reass × ℕ => Cleared i s r.1) _ _ .refl fun r hr k _ => ?_
  split_ifs with h
  · exact hr.clear (by simpa using (Bool.and_eq_true_iff.mp h).2)
  · exact hr

/-- What survives the clearing of any context survives `findFree`, and the context it finds is
free. -/
theorem findFree_spec {p : Reass → Prop} (hp : ∀ s k, p s → p (s.clearFragments k))
    (now : ClockTime) (hs : p s) : p (s.findFree now).1 ∧
      ∀ i, (s.findFree now).2 = some i → ((s.findFree now).1.fragInfo i).len = 0 := by
  refine foldlRecOn (motive := fun r : Reass × Option Ctx =>
    p r.1 ∧ ∀ i, r.2 = some i → (r.1.fragInfo i).len = 0) _ _ ⟨hs, fun i hi => by cases hi⟩ ?_
  rintro ⟨r, o⟩ ⟨hr, ho⟩ k -
  -- whether or not `k` is cleared, its predecessors are as free as they were
  have hkeep : ∀ i, (r.fragInfo i).len = 0 →
      ((if r.expired now k then r.clearFragments k else r).fragInfo i).len = 0 := by
    intro i hi
    split_ifs
    · by_cases hik : i = k
      · rw [hik, fragInfo_clearFragments_self]
      · rw [fragInfo_clearFragments_ne hik, hi]
    · exact hi
  refine ⟨?_, fun i hi => ?_⟩
  · split_ifs
    · exact hp r k hr
    · exact hr
  · change (if o = none ∧ ((if r.expired now k then r.clearFragments k else r).fragInfo k).len = 0
      then some k else o) = some i at hi
    by_cases hfree : o = none ∧
        ((if r.expired now k then r.clearFragments k else r).fragInfo k).len = 0
    · rw [if_pos hfree] at hi
      cases hi
      exact hfree.2
    · rw [if_neg hfree] at hi
      exact hkeep i (ho i hi)

/-! ### `add_fragment` -/

section AddFragment

variable {offset : UInt8} (hd : data ≠ []) (hlen : data.length ≤ sicslowpanFragmentSize)

include hlen

theorem storeFragment_cases (s : Reass) (i : Ctx) (offset : UInt8) :
    (s.storeFragment i offset data = some (s, none) ∧ ∀ j, (s.fragBuf j).data ≠ []) ∨
      ∃ j, (s.fragBuf j).data = [] ∧
        s.storeFragment i offset data = some (s.store j ⟨i, offset, data⟩, some data.length) := by
  unfold storeFragment
  cases h : (finRange sicslowpanFragmentBuffers).find? fun j => (s.fragBuf j).data == [] with
  | none =>
    refine .inl ⟨rfl, fun j hj => ?_⟩
    have := find?_eq_none.mp h j (mem_finRange j)
    simp [hj] at this
  | some j =>
    refine .inr ⟨j, by simpa using find?_some h, ?_⟩
    dsimp only
    rw [if_pos hlen]
    rfl

include hd

/-- **What becomes of a FRAGN.**  It goes to the context of its sender and tag; when no buffer is
free for it, contexts that have expired make room. -/
theorem addFragment_cases (hoff : offset ≠ 0) (now : ClockTime) (s : Reass) (sender : Linkaddr)
    (tag fragSize : UInt16) :
    (s.findContext sender tag = none ∧
      s.addFragment now sender data tag fragSize offset = some (s, none)) ∨
    ∃ i s', s.findContext sender tag = some i ∧ Cleared i s s' ∧
      ((s.addFragment now sender data tag fragSize offset = some (s', none) ∧
          ∀ j, (s.fragBuf j).data ≠ []) ∨
        ∃ j, (s'.fragBuf j).data = [] ∧ s.addFragment now sender data tag fragSize offset =
          some ((s'.store j ⟨i, offset, data⟩).addLen i data.length, some i)) := by
  have hpos : 0 < data.length := length_pos_of_ne_nil hd
  unfold addFragment
  rw [if_neg hoff]
  cases hctx : s.findContext sender tag with
  | none => exact .inl ⟨rfl, rfl⟩
  | some i =>
    refine .inr ?_
    dsimp only
    rcases storeFragment_cases hlen s i offset with ⟨hs, hfull⟩ | ⟨j, hj, hs⟩
    · rw [hs]
      dsimp only
      have hclr := timeoutFragments_cleared now s i
      split_ifs with hfreed
      · rcases storeFragment_cases hlen (s.timeoutFragments now i).1 i offset with
          ⟨hs', -⟩ | ⟨j, hj, hs'⟩ <;> rw [hs']
        · exact ⟨i, _, rfl, hclr, .inl ⟨rfl, hfull⟩⟩
        · dsimp only
          rw [if_pos hpos]
          exact ⟨i, _, rfl, hclr, .inr ⟨j, hj, rfl⟩⟩
      · exact ⟨i, _, rfl, hclr, .inl ⟨rfl, hfull⟩⟩
    · rw [hs]
      dsimp only
      rw [if_pos hpos]
      exact ⟨i, s, rfl, .refl, .inr ⟨j, hj, rfl⟩⟩

end AddFragment

/-! ### `copy_frags2uip` -/

/-- Writing pieces one after the other. -/
theorem foldlM_write (i : Ctx) (l : List (Fin sicslowpanFragmentBuffers)) : ∀ b : UipBuf,
    l.foldlM (fun b j => if s.holds i j then
      b.write ((s.fragBuf j).offset.toNat <<< 3) (s.fragBuf j).data else some b) b =
    (patch b.bytes (l.filterMap fun j => partOf i (s.fragBuf j))).map UipBuf.ofBytes := by
  induction l with
  | nil =>
    intro b
    change some b = some (UipBuf.ofBytes b.bytes)
    rw [UipBuf.ofBytes_bytes]
  | cons j l ih =>
    intro b
    rw [foldlM_cons]
    by_cases hj : s.holds i j = true
    · have hpart : partOf i (s.fragBuf j) =
          some ((s.fragBuf j).offset.toNat <<< 3, (s.fragBuf j).data) := if_pos hj
      rw [if_pos hj, filterMap_cons_some (f := fun j => partOf i (s.fragBuf j)) hpart, patch,
        foldlM_cons]
      cases hw : b.write ((s.fragBuf j).offset.toNat <<< 3) (s.fragBuf j).data with
      | none =>
        rw [UipBuf.write, Option.map_eq_none_iff] at hw
        rw [hw]
        rfl
      | some b' =>
        rw [UipBuf.write_eq_some.mp hw]
        exact ih b'
    · have hpart : partOf i (s.fragBuf j) = none := if_neg hj
      rw [if_neg hj, filterMap_cons_none (f := fun j => partOf i (s.fragBuf j)) hpart]
      exact ih b

/-- The fragments of a context, copied over `uip_buf` in the order of their buffers. -/
theorem copyFrags_eq (s : Reass) (i : Ctx) :
    s.copyFrags i = (patch s.uipBuf.bytes (s.parts i)).map UipBuf.ofBytes :=
  foldlM_write i _ _

end Reass

/-! ### The first fragment -/

variable {ctxs : List AddrContext}

namespace Transmission

variable (t : Transmission ctxs)

theorem uipLen_lt : t.uipLen.toNat < 2048 := by
  have := t.uipLen_le
  omega

theorem uipLen_pos : 0 < t.uipLen := Nat.lt_of_lt_of_le (by decide) t.long

@[simp] theorem uipLen_ne_zero : t.uipLen ≠ 0 := UInt16.pos_iff_ne_zero.mp t.uipLen_pos

/-- The compressed header starts with an IPHC dispatch, which is not a paging dispatch. -/
theorem out_head : ∃ d rest, t.c.out = d :: rest ∧ d &&& dispatchIphcMask = dispatchIphc ∧
    d &&& dispatchPagingMask ≠ dispatchPaging := by
  have hM : t.maxPayload ≤ macMaxPayload := t.maxPayload_le.trans (by decide)
  obtain ⟨code, n, -, hout, -⟩ := compressHdrIphc_ok hM t.compressed_packet
  have hiphc : iphc0Of t.buf.ip &&& dispatchIphcMask = dispatchIphc := by
    rw [iphc0Of_and, and_eq_zero_of_sub (compressTf_bits _) (by decide),
      and_eq_zero_of_sub (compressNh_bits _) (by decide),
      and_eq_zero_of_sub (compressTtl_bits _) (by decide)]
    decide
  refine ⟨_, _, hout, hiphc, fun hpaging => ?_⟩
  have h : iphc0Of t.buf.ip &&& dispatchIphcMask = 0xff &&& dispatchIphcMask :=
    and_eq_of_sub (hpaging.trans (by decide)) (by decide)
  rw [hiphc] at h
  exact absurd h (by decide)

theorem frag1_data : ∃ d0 d1 t0 t1, (t.frame t.frag1).data = d0 :: d1 :: t0 :: t1 ::
      (t.c.out ++ t.buf.slice t.uncompHdrLen t.plan.frag1Payload.toNat) ∧
    d0 &&& dispatchFragMask = 0xc0 ∧ get16 d0 d1 &&& 0x07ff = t.uipLen ∧
    get16 t0 t1 = t.node.myTag := by
  obtain ⟨d0, d1, t0, t1, hhdr, hread⟩ := fragHdr_read (.inl rfl) t.uipLen_lt t.node.myTag
  exact ⟨d0, d1, t0, t1, congrArg (· ++ _) hhdr, hread⟩

variable {old : UipBuf}

/-- The headers of a first fragment are restored. -/
theorem inputHdr_frag1 (hc : ContextsOk ctxs)
    (hold : old.bytes.length = sicslowpanFirstFragmentSize) :
    inputHdr ctxs (t.frame t.frag1) old t.uipLen 4 =
      some (some ⟨⟨t.buf.ip.received ctxs, t.buf.pay.take (t.uncompHdrLen - 40) ++
        old.pay.drop (t.uncompHdrLen - 40)⟩, t.c.uncompHdrLen,
          UInt8.ofNat (4 + t.c.out.length)⟩) := by
  obtain ⟨d0, d1, t0, t1, hdata, -⟩ := t.frag1_data
  obtain ⟨d, rest, hout, hiphc, hpaging⟩ := t.out_head
  obtain ⟨-, h40, hle, hoM, hgrow⟩ := t.header_sizes
  have hlen := t.firstLen_bounds.2.2.2
  have hM : t.maxPayload ≤ macMaxPayload := t.maxPayload_le.trans (by decide)
  have hM' : t.maxPayload ≤ 125 := hM
  have hsize : sicslowpanFirstFragmentSize = 148 := rfl
  change _ = [d0, d1, t0, t1] ++
    (t.c.out ++ t.buf.slice t.uncompHdrLen t.plan.frag1Payload.toNat) at hdata
  have hunc := uncompress_compress hc hM t.isPacket t.compressed_packet old
    (by have h := t.firstLen_eq; unfold uncompHdrLen at h; omega) t.uipLen 4
    [d0, d1, t0, t1] (t.buf.slice t.uncompHdrLen t.plan.frag1Payload.toNat) rfl
    (by rw [show [d0, d1, t0, t1].length = 4 from rfl]; omega) (fun h => absurd h t.uipLen_ne_zero)
    (fun _ => by
      have := t.pay_length
      have := t.uipLen_le
      rw [UipBuf.bytes_length, UipBuf.packet]
      rw [length_take]
      omega)
  rw [show (t.buf.packet t.uipLen).pay = t.buf.pay.take (t.uipLen.toNat - 40) from rfl,
    take_take, Nat.min_eq_left (by unfold uncompHdrLen at hle; omega)] at hunc
  unfold inputHdr
  rw [hdata, show (4 : UInt8).toNat = [d0, d1, t0, t1].length from rfl, drop_left, hout,
    cons_append]
  dsimp only
  rw [if_neg hpaging, if_neg hpaging,
    show (4 : UInt8).toNat = [d0, d1, t0, t1].length from rfl, drop_left]
  dsimp only
  rw [if_pos hiphc, ← cons_append, ← hout]
  exact congrArg (Option.map some) hunc

/-- The payload of the first fragment lands behind the headers, and both are the packet's. -/
theorem inputPayload_frag1 (hold : old.bytes.length = sicslowpanFirstFragmentSize) :
    ∃ b, inputPayload (t.frame t.frag1) ⟨⟨t.buf.ip.received ctxs,
        t.buf.pay.take (t.uncompHdrLen - 40) ++ old.pay.drop (t.uncompHdrLen - 40)⟩,
        t.c.uncompHdrLen, UInt8.ofNat (4 + t.c.out.length)⟩ = some (some b) ∧
      b.bytes.length = sicslowpanFirstFragmentSize ∧
      b.bytes.take t.firstLen = t.received.take t.firstLen := by
  obtain ⟨-, h40, hle, hoM, -⟩ := t.header_sizes
  obtain ⟨-, hf40, hflt, hf148⟩ := t.firstLen_bounds
  have hM := t.maxPayload_le
  have hpay := t.pay_length
  have hfirst : t.firstLen = t.uncompHdrLen + t.plan.frag1Payload.toNat := rfl
  have hslice := t.slice_length (x := t.uncompHdrLen) (n := t.plan.frag1Payload.toNat)
    (by omega)
  have hsize : sicslowpanFirstFragmentSize = 148 := rfl
  have holdpay : old.pay.length = 108 := by rw [UipBuf.bytes_length] at hold; omega
  have hhdr : (UInt8.ofNat (4 + t.c.out.length)).toNat = 4 + t.c.out.length := by
    rw [UInt8.toNat_ofNat']
    omega
  have hdata : (t.frame t.frag1).data = (fragHdr dispatchFrag1 t.uipLen t.node.myTag ++ t.c.out) ++
      t.buf.slice t.uncompHdrLen t.plan.frag1Payload.toNat := (append_assoc _ _ _).symm
  have hpre : (fragHdr dispatchFrag1 t.uipLen t.node.myTag ++ t.c.out).length =
      4 + t.c.out.length := by
    rw [length_append]
    rfl
  -- the headers as they were uncompressed, and the payload behind them
  obtain ⟨l, hl, hw⟩ : ∃ l, l = (t.buf.ip.received ctxs).bytes ++
      t.buf.pay.take (t.uncompHdrLen - 40) ++
        (t.buf.slice t.uncompHdrLen t.plan.frag1Payload.toNat ++
        (old.pay.drop (t.uncompHdrLen - 40)).drop
          (t.buf.slice t.uncompHdrLen t.plan.frag1Payload.toNat).length) ∧ writeAt
      ((t.buf.ip.received ctxs).bytes ++ t.buf.pay.take (t.uncompHdrLen - 40) ++
        old.pay.drop (t.uncompHdrLen - 40)) t.uncompHdrLen
      (t.buf.slice t.uncompHdrLen t.plan.frag1Payload.toNat) = some l := by
    refine ⟨_, rfl, writeAt_room ?_ ?_⟩
    · rw [length_append, IpHdr.bytes_length, length_take]
      omega
    · rw [length_drop]
      omega
  have hblen : l.length = 148 := by
    rw [writeAt_length hw, length_append, length_append, IpHdr.bytes_length,
      length_take, length_drop]
    omega
  refine ⟨UipBuf.ofBytes l, ?_, ?_, ?_⟩
  · unfold inputPayload
    rw [hhdr, hdata, ← hpre, drop_left, if_neg (by rw [length_append]; omega),
      show t.c.uncompHdrLen.toNat = t.uncompHdrLen from rfl,
      if_neg (by unfold uipBufsize; omega), UipBuf.write, UipBuf.bytes]
    rw [← append_assoc, hw]
    rfl
  · rw [UipBuf.bytes_ofBytes (by omega), hblen]
    rfl
  · have hn : t.firstLen - 40 = t.uncompHdrLen - 40 + t.plan.frag1Payload.toNat := by omega
    have hrec := UipBuf.take_bytes ⟨t.buf.ip.received ctxs, t.buf.pay.take (t.uipLen.toNat - 40)⟩
      (t.firstLen - 40)
    rw [Nat.add_sub_cancel' hf40] at hrec
    rw [UipBuf.bytes_ofBytes (by omega), received, hrec, hl, ← append_assoc, take_left' (by
        rw [length_append, length_append, IpHdr.bytes_length, length_take]
        omega), append_assoc, UipBuf.slice, UipBuf.drop_bytes _ h40, ← take_add, ← hn]
    rw [take_take, Nat.min_eq_left (by omega)]

/-- A context that was given to `t`, with `b` as its first fragment. -/
def opened (now : ClockTime) (b : UipBuf) : FragInfo where
  sender := t.node.uipLladdr
  tag := t.node.myTag
  len := t.uipLen
  reassembledLen := UInt16.ofNat t.firstLen
  reassTimer := timerSet now (sicslowpanReassMaxage * clockSecond / 16)
  firstFragLen := UInt16.ofNat t.firstLen
  firstFrag := b

/-- **`input` on a first fragment.**  It opens a context when one is free, once the expired ones
have been cleared, and keeps the beginning of the packet there. -/
theorem input_frag1 (hc : ContextsOk ctxs) (s : Reass) (now : ClockTime)
    (hsize : ∀ i, ((s.findFree now).1.fragInfo i).firstFrag.bytes.length =
      sicslowpanFirstFragmentSize) :
    ((s.findFree now).2 = none ∧
      input ctxs s now (t.frame t.frag1) = some ((s.findFree now).1, none)) ∨
    ∃ i b, (s.findFree now).2 = some i ∧ b.bytes.length = sicslowpanFirstFragmentSize ∧
      b.bytes.take t.firstLen = t.received.take t.firstLen ∧
      input ctxs s now (t.frame t.frag1) = some ({ (s.findFree now).1 with
        fragInfo := update (s.findFree now).1.fragInfo i (t.opened now b) }, none) := by
  obtain ⟨d0, d1, t0, t1, hdata, hd0, hfs, htag⟩ := t.frag1_data
  have hfrag : inputFrag now s (t.frame t.frag1) = (s.findFree now).2.elim
      (some ((s.findFree now).1, none)) fun i =>
        some ((s.findFree now).1.openContext now i t.node.uipLladdr t.node.myTag t.uipLen,
          some ⟨.first i, t.uipLen, 0, 4⟩) := by
    unfold inputFrag
    rw [hdata]
    dsimp only
    rw [if_pos hd0, hfs, htag, Reass.addFragment]
    rcases s.findFree now with ⟨s', _ | i⟩ <;> rfl
  unfold input
  rw [hfrag]
  rcases hfree : s.findFree now with ⟨s', _ | i⟩
  · exact .inl ⟨rfl, rfl⟩
  · rw [hfree] at hsize
    have hopen := Reass.fragInfo_openContext (s := s')
      (i := i) now t.node.uipLladdr t.node.myTag t.uipLen
    obtain ⟨b, hb, hblen, htake⟩ := t.inputPayload_frag1 (hsize i)
    refine .inr ⟨i, b, rfl, hblen, htake, ?_⟩
    have hlen : t.c.uncompHdrLen.toNat + ((t.frame t.frag1).data.length -
        (UInt8.ofNat (4 + t.c.out.length)).toNat) = t.firstLen := by
      obtain ⟨-, -, -, hoM, -⟩ := t.header_sizes
      have hM := t.maxPayload_le
      have hslice := t.slice_length
        t.firstLen_bounds.2.2.1.le
      rw [hdata, UInt8.toNat_ofNat', firstLen]
      simp only [length_cons, length_append, hslice]
      unfold uncompHdrLen
      omega
    dsimp only [Option.elim]
    rw [hopen, t.inputHdr_frag1 hc (hsize i)]
    simp only [Option.bind_eq_bind, Option.bind_some, hb, hlen, if_pos t.uipLen_pos]
    unfold Reass.openContext
    rw [update_idem]
    rfl

/-! ### The others -/

end Transmission

/-- What the last fragment of context `i` makes of the state: the packet is in `uip_buf`. -/
def Reass.deliver (s : Reass) (i : Ctx) (fragSize : UInt16) :
    Option (Reass × Option (List UInt8)) := do
  let s ← ({ s with fragInfo := update s.fragInfo i { s.fragInfo i with
    reassembledLen := fragSize } } : Reass).copyFrags2uip i
  some (s, some (s.uipBuf.bytes.take fragSize.toNat))

namespace Transmission

variable (t : Transmission ctxs) {m : ℕ}

/-- The offset field of FRAGN number `m`. -/
def offset (m : ℕ) : UInt8 := UInt8.ofNat (t.start m >>> 3)

section

variable (h : t.start m < t.uipLen.toNat)

include h

/-- The offset field gives the start back: it is a multiple of eight, and the byte holds it. -/
theorem offset_shiftLeft : (t.offset m).toNat <<< 3 = t.start m := by
  have hd := t.dvd_start h
  have hle := t.uipLen_le
  rw [offset, UInt8.toNat_ofNat']
  omega

theorem offset_ne_zero : t.offset m ≠ 0 := by
  intro h0
  have hs := t.offset_shiftLeft h
  have h40 := t.firstLen_bounds.2.1.trans (t.firstLen_le_start m)
  rw [h0, show (0 : UInt8).toNat <<< 3 = 0 from rfl] at hs
  omega

theorem piece_ne_nil : (t.piece m).2 ≠ [] := by
  refine ne_nil_of_length_pos ?_
  rw [t.piece_length h]
  exact (t.payloadLen_bounds h).1

theorem piece_length_le :
    (t.piece m).2.length ≤ sicslowpanFragmentSize := by
  have hb := (t.payloadLen_bounds h).2.1
  have hsize : sicslowpanFragmentSize = 110 := rfl
  have hM := t.maxPayload_le
  rw [t.piece_length h]
  omega

end

theorem fragn_data (m : ℕ) : ∃ d0 d1 t0 t1, (t.frame (t.fragn m)).data =
      d0 :: d1 :: t0 :: t1 :: t.offset m :: (t.piece m).2 ∧
    d0 &&& dispatchFragMask = 0xe0 ∧ get16 d0 d1 &&& 0x07ff = t.uipLen ∧
    get16 t0 t1 = t.node.myTag := by
  obtain ⟨d0, d1, t0, t1, hhdr, hread⟩ := fragHdr_read (.inr rfl) t.uipLen_lt t.node.myTag
  exact ⟨d0, d1, t0, t1, congrArg (· ++ [t.offset m] ++ (t.piece m).2) hhdr, hread⟩

section Fragn

variable {s s' : Reass} {now : ClockTime}

theorem inputFrag_fragn (m : ℕ) (s : Reass) (now : ClockTime) :
    inputFrag now s (t.frame (t.fragn m)) =
      (s.addFragment now t.node.uipLladdr (t.piece m).2 t.node.myTag t.uipLen (t.offset m)).bind
        fun r => match r with
        | (s, none) => some (s, none)
        | (s, some i) => some (s, some ⟨.nth i ((s.fragInfo i).reassembledLen ≥ t.uipLen), t.uipLen,
            t.offset m, 5⟩) := by
  obtain ⟨d0, d1, t0, t1, hdata, hd0, hfs, htag⟩ := t.fragn_data m
  unfold inputFrag
  rw [hdata]
  dsimp only
  rw [if_neg (by rw [hd0]; decide), if_pos hd0, hfs, htag]
  rfl

/-- **`input` on a FRAGN that was not taken.** -/
theorem input_fragn_dropped (hadd : s.addFragment now t.node.uipLladdr (t.piece m).2 t.node.myTag
    t.uipLen (t.offset m) = some (s', none)) :
    input ctxs s now (t.frame (t.fragn m)) = some (s', none) := by
  unfold input
  rw [t.inputFrag_fragn, hadd]
  rfl

/-- **`input` on a FRAGN that was stored.**  The packet is delivered when as many bytes have come in
as it has. -/
theorem input_fragn_stored (h : t.start m < t.uipLen.toNat) {i : Ctx}
    (hadd : s.addFragment now t.node.uipLladdr (t.piece m).2 t.node.myTag t.uipLen (t.offset m) =
      some (s', some i)) :
    input ctxs s now (t.frame (t.fragn m)) =
      if (s'.fragInfo i).reassembledLen ≥ t.uipLen then s'.deliver i t.uipLen
      else some (s', none) := by
  obtain ⟨d0, d1, t0, t1, hdata, -⟩ := t.fragn_data m
  have hlen : (t.frame (t.fragn m)).data.length = 5 + (t.piece m).2.length := by
    rw [hdata]
    simp only [length_cons]
    omega
  have hend := (t.payloadLen_bounds h).2.2.trans t.short
  unfold input
  rw [if_neg (by rw [hdata]; exact cons_ne_nil _ _), t.inputFrag_fragn, hadd]
  simp only [Option.bind_some, hlen, t.offset_shiftLeft h, t.piece_length h]
  rw [if_neg (by rw [show (5 : UInt8).toNat = 5 from rfl]; omega),
    if_neg (by rw [show (5 : UInt8).toNat = 5 from rfl]; omega), if_pos t.uipLen_pos]
  by_cases hlast : (s'.fragInfo i).reassembledLen ≥ t.uipLen
  · rw [if_pos (decide_eq_true hlast), if_pos hlast, Reass.deliver]
  · rw [if_neg (by simpa using hlast), if_neg hlast]

end Fragn

end Transmission

end Nespy.Sicslowpan
