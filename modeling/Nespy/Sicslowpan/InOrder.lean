import Nespy.Sicslowpan.Delivery

/-!
# Sicslowpan — fragments in order

The fragments of one packet, given to a fresh receiver in the order they are sent.  `Progress t i m`
describes it after the first fragment and `m` FRAGNs; there is a buffer for each FRAGN, so none is
dropped, and the last one completes the packet (`runs_in_order`).
-/

open List Function

namespace Nespy.Sicslowpan

open Nespy.Lib
open Nespy.Sys (ClockTime)

variable {ctxs : List AddrContext} {t : Transmission ctxs} {s : Reass}

/-- The first fragment and `m` FRAGNs of `t` are in context `i`, and no other context is in use. -/
structure Progress (t : Transmission ctxs) (i : Ctx) (m : ℕ) (s : Reass) : Prop where
  inv : s.Inv {t}
  holds : Holds (s.fragInfo i) (s.parts i) t
  parts : (s.parts i).Perm ((range m).map t.piece)
  other : ∀ k ≠ i, (s.fragInfo k).len = 0

/-- The FRAGNs up to number `m` reach from the first fragment to the start of number `m`. -/
theorem firstLen_add_total {m : ℕ} (h : m ≤ t.fragnCount) :
    t.firstLen + total ((range m).map t.piece) = t.start m := by
  induction m with
  | zero => rfl
  | succ m ih =>
    have hsplit : total ((range (m + 1)).map t.piece) =
        total ((range m).map t.piece) + (t.piece m).2.length := by
      simp [total, range_succ]
    rw [hsplit, t.piece_length (t.start_lt h), t.start_succ, ← ih (Nat.le_of_succ_le h),
      Nat.add_assoc]

theorem start_injOn {m n : ℕ} (hm : m < t.fragnCount) (h : n < m) : t.start n ≠ t.start m := by
  have hlt := (t.payloadLen_bounds (t.start_lt (h.trans hm))).1
  have hle := t.start_mono (Nat.succ_le_of_lt h)
  rw [t.start_succ] at hle
  omega

section Progress

variable {i : Ctx} {m : ℕ}

theorem Progress.findContext (h : Progress t i m s) :
    s.findContext t.node.uipLladdr t.node.myTag = some i := by
  cases hfind : s.findContext t.node.uipLladdr t.node.myTag with
  | none =>
    have hi := find?_eq_none.mp hfind i (mem_finRange i)
    simp [h.holds.tag, h.holds.len, h.holds.sender] at hi
  | some k =>
    by_contra hne
    exact (Reass.findContext_some hfind).2.1 (h.other k fun hk => hne (congrArg some hk))

section

variable (h : Progress t i m s) (hm : m < t.fragnCount)

include h hm

/-- There is a buffer for the next FRAGN. -/
theorem Progress.exists_free :
    ∃ j, (s.fragBuf j).data = [] := by
  have hlen : (s.parts i).length < sicslowpanFragmentBuffers := by
    have hcount := t.fragnCount_le
    have hsize : sicslowpanFragmentBuffers = 12 := rfl
    rw [h.parts.length_eq, length_map, length_range]
    omega
  obtain ⟨j, hj⟩ := Lib.exists_free hlen
  refine ⟨j, ?_⟩
  by_contra hne
  -- a buffer in use belongs to the one context that is
  by_cases hi : (s.fragBuf j).index = i
  · simp [hne, hi] at hj
  · have hk := contents_eq_nil.mp ((h.inv (s.fragBuf j).index).idle (h.other _ hi)) j
    simp [hne] at hk

theorem Progress.hasOffset :
    s.hasOffset (t.frame (t.fragn m)) = false := by
  rw [← Bool.not_eq_true, Reass.hasOffset_fragn (t.start_lt hm)]
  rintro ⟨k, hk, p, hp, hstart⟩
  rw [h.findContext] at hk
  cases hk
  obtain ⟨n, hn, rfl⟩ := mem_map.mp (h.parts.mem_iff.mp hp)
  exact start_injOn hm (mem_range.mp hn) hstart

/-- **The next FRAGN** is stored; the last one is the one that completes the packet. -/
theorem Progress.fragn
    (hbuf : s.uipBuf.bytes.length = uipBufsize) (now : ClockTime) :
    (m + 1 < t.fragnCount ∧ ∃ s', input ctxs s now (t.frame (t.fragn m)) = some (s', none) ∧
      Progress t i (m + 1) s') ∨
    (m + 1 = t.fragnCount ∧ ∃ s', input ctxs s now (t.frame (t.fragn m)) =
      some (s', some t.received)) := by
  have hlt := t.start_lt hm
  obtain ⟨j₀, hj₀⟩ := h.exists_free hm
  rcases Reass.addFragment_cases (t.piece_ne_nil hlt) (t.piece_length_le hlt) (t.offset_ne_zero hlt)
    now s t.node.uipLladdr t.node.myTag t.uipLen with
    ⟨hnone, -⟩ | ⟨k, s₁, hk, hclr, ⟨-, hfull⟩ | ⟨j, hj, hadd⟩⟩
  · rw [h.findContext] at hnone
    cases hnone
  · exact absurd hj₀ (hfull j₀)
  · rw [h.findContext] at hk
    cases hk
    have hholds := h.holds
    rw [← hclr.fragInfo, ← hclr.parts] at hholds
    obtain ⟨hinv, hholds'⟩ := (h.inv.cleared hclr).stored (Set.mem_singleton t)
      hholds hlt (fun p hp heq => by
      rw [hclr.parts] at hp
      have hnew := h.hasOffset hm
      rw [(Reass.hasOffset_fragn hlt).mpr ⟨i, h.findContext, p, hp, heq⟩] at hnew
      cases hnew) hj
    have hperm := Reass.parts_store_self (i := i) hj (t.offset m) (t.piece_ne_nil hlt)
    rw [t.offset_shiftLeft hlt, hclr.parts] at hperm
    have hparts : (((s₁.store j ⟨i, t.offset m, (t.piece m).2⟩).addLen i
        (t.piece m).2.length).parts i).Perm ((range (m + 1)).map t.piece) := by
      rw [range_succ, map_append]
      exact (hperm.trans (h.parts.cons _)).trans (perm_append_singleton _ _).symm
    -- the count is now the start of the FRAGN after this one
    have hcount := hholds'.reassembledLen
    rw [total_perm hparts, firstLen_add_total hm] at hcount
    have hin := t.input_fragn_stored hlt hadd
    rcases (Nat.succ_le_of_lt hm).lt_or_eq with hmore | hlast
    · refine .inl ⟨hmore, _, hin.trans (if_neg ?_), hinv, hholds', hparts, fun k hki => ?_⟩
      · rw [ge_iff_le, UInt16.le_iff_toNat_le, hcount, Nat.not_le]
        exact t.start_lt hmore
      · have hother := hclr.other (h.other k hki)
        exact (congrArg FragInfo.len (update_of_ne hki _ _)).trans hother
    · rw [hlast, t.start_fragnCount] at hcount
      have hfull := UInt16.le_iff_toNat_le.mpr hcount.ge
      obtain ⟨b, hdel⟩ := deliver_eq (by
        change s₁.uipBuf.bytes.length = uipBufsize
        rw [hclr.uipBuf, hbuf]) hholds' hfull
      exact .inr ⟨hlast, _, (hin.trans (if_pos hfull)).trans hdel⟩

end

end Progress

/-! ### All fragments -/

theorem Reass.Fresh.clearFragments (h : s.Fresh) (k : Ctx) : (s.clearFragments k).Fresh := by
  refine ⟨fun i => ?_, fun i => ?_, fun j => ?_⟩
  · by_cases hik : i = k
    · rw [hik, fragInfo_clearFragments_self]
      exact h.size k
    · rw [fragInfo_clearFragments_ne hik]
      exact h.size i
  · by_cases hik : i = k
    · rw [hik, fragInfo_clearFragments_self]
    · rw [fragInfo_clearFragments_ne hik]
      exact h.len i
  · change (if s.holds k j then { s.fragBuf j with data := [] } else s.fragBuf j).data = []
    split_ifs
    · rfl
    · exact h.data j

theorem Reass.Fresh.findFree (h : s.Fresh) (now : ClockTime) :
    ∃ i, (s.findFree now).2 = some i := by
  have hexp : ∀ i, s.expired now i = false := fun i => by simp [Reass.expired, h.len i]
  refine ⟨⟨0, by decide⟩, ?_⟩
  have hrange : finRange sicslowpanReassContexts = [⟨0, by decide⟩, ⟨1, by decide⟩] := rfl
  simp only [Reass.findFree, hrange, foldl_cons, hexp]
  simp [h.len ⟨0, by decide⟩]

theorem hasOffset_frag1 : s.hasOffset (t.frame t.frag1) = false := by
  obtain ⟨d0, d1, t0, t1, hdata, hd0, -⟩ := t.frag1_data
  have hd0' : (d0 &&& dispatchFragMask == 0xe0) = false := by
    rw [hd0]
    decide
  unfold Reass.hasOffset
  rw [hdata]
  split
  · next heq =>
      obtain ⟨rfl, -⟩ := cons.inj heq
      rw [hd0', Bool.false_and]
  · rfl

section Runs

variable (hc : ContextsOk ctxs)

include hc

/-- The first fragment takes a context of a fresh receiver. -/
theorem Reass.Fresh.frag1 (h : s.Fresh) (now : ClockTime) :
    ∃ i s', input ctxs s now (t.frame t.frag1) = some (s', none) ∧ Progress t i 0 s' := by
  obtain ⟨hfresh, -⟩ := findFree_spec (fun s k (h : s.Fresh) => h.clearFragments k) now h
  obtain ⟨i₀, hi₀⟩ := h.findFree now
  rcases t.input_frag1 hc s now hfresh.size with ⟨hnone, -⟩ | ⟨i, b, hi, hlen, hb, hin⟩
  · rw [hnone] at hi₀
    cases hi₀
  · refine ⟨i, _, hin, hfresh.inv.opened (hfresh.len i) (Set.mem_singleton t) now hlen hb, ?_,
      ?_, fun k hk => ?_⟩
    · change Holds (update (s.findFree now).1.fragInfo i (t.opened now b) i)
        ((s.findFree now).1.parts i) t
      rw [update_self, hfresh.parts i]
      exact holds_opened now hb
    · exact List.Perm.of_eq (hfresh.parts i)
    · exact (congrArg FragInfo.len (update_of_ne hk _ _)).trans (hfresh.len k)

omit hc in
/-- **Run.**  The fragments in order. -/
theorem Progress.runs (hsent : t.node.sent = fun _ => .ok) {i : Ctx} {as : List Arrival} :
    ∀ {m : ℕ} {s : Reass}, Progress t i m s → m < t.fragnCount →
      as.map Arrival.frame = (range' m (t.fragnCount - m)).map (t.frame ∘ t.fragn) →
      (∀ a ∈ as, a.mem.bytes.length = uipBufsize) →
      ∃ tr s', Runs (recv ctxs) (Arrives {t}) s tr s' ∧ tr.map Prod.fst = as ∧
        tr.filterMap Prod.snd = [t.received] := by
  induction as with
  | nil =>
    intro m s _ hm hframes _
    have hlen := congrArg length hframes
    simp only [length_nil, length_map, length_range'] at hlen
    omega
  | cons a as ih =>
    intro m s h hm hframes hmem
    have hcount : t.fragnCount - m = t.fragnCount - (m + 1) + 1 := by omega
    rw [hcount] at hframes
    obtain ⟨hframe, hrest⟩ := cons.inj hframes
    have hsent' : a.frame ∈ t.frames := by
      rw [(t.output_ok hsent).2, hframe]
      exact mem_cons_of_mem _ (mem_map.mpr ⟨m, mem_range.mpr hm, rfl⟩)
    have harr : Arrives {t} s a := ⟨hmem a mem_cons_self, ⟨t, Set.mem_singleton t, hsent'⟩, by
      rw [hframe]
      exact h.hasOffset hm⟩
    have hmem' : ∀ a ∈ as, a.mem.bytes.length = uipBufsize :=
      fun b hb => hmem b (mem_cons_of_mem _ hb)
    have hstep := Progress.fragn (s := { s with uipBuf := a.mem })
      ⟨h.inv, h.holds, h.parts, h.other⟩ hm harr.mem a.now
    have hrecv : recv ctxs s a = input ctxs { s with uipBuf := a.mem } a.now
        (t.frame (t.fragn m)) := congrArg (input ctxs _ a.now) hframe
    rcases hstep with ⟨hmore, s', hin, hprog⟩ | ⟨hlast, s', hin⟩
    · obtain ⟨tr, s'', hruns, hfst, hsnd⟩ := ih hprog hmore hrest hmem'
      exact ⟨(a, none) :: tr, s'', .cons harr (hrecv.trans hin) hruns,
        congrArg (a :: ·) hfst, hsnd⟩
    · have hnil : as = [] := by
        rw [hlast, Nat.sub_self] at hrest
        exact map_eq_nil_iff.mp hrest
      exact ⟨[(a, some t.received)], s', .cons harr (hrecv.trans hin) (.nil s'),
        by rw [hnil]; rfl, rfl⟩

/-- **In order, every fragment is taken and the last one delivers the packet**, once. -/
theorem runs_in_order (hsent : t.node.sent = fun _ => .ok) (hs : s.Fresh) (as : List Arrival)
    (hframes : as.map Arrival.frame = t.frames) (hmem : ∀ a ∈ as, a.mem.bytes.length = uipBufsize) :
    ∃ tr s', Runs (recv ctxs) (Arrives {t}) s tr s' ∧ tr.map Prod.fst = as ∧
      tr.filterMap Prod.snd = [t.received] := by
  rw [(t.output_ok hsent).2] at hframes
  cases as with
  | nil => cases hframes
  | cons a as =>
    obtain ⟨hframe, hrest⟩ := cons.inj hframes
    have hsent' : a.frame ∈ t.frames := by
      rw [(t.output_ok hsent).2, hframe]
      exact mem_cons_self
    have harr : Arrives {t} s a := ⟨hmem a mem_cons_self, ⟨t, Set.mem_singleton t, hsent'⟩, by
      rw [hframe]
      exact hasOffset_frag1⟩
    obtain ⟨i, s', hin, hprog⟩ := Reass.Fresh.frag1 (s := { s with uipBuf := a.mem }) hc
      ⟨hs.size, hs.len, hs.data⟩ a.now
    rw [← hframe] at hin
    obtain ⟨tr, s'', hruns, hfst, hsnd⟩ := hprog.runs hsent t.fragnCount_pos
      (by rw [← range_eq_range']; exact hrest)
      fun b hb => hmem b (mem_cons_of_mem _ hb)
    exact ⟨(a, none) :: tr, s'', .cons harr hin hruns, congrArg (a :: ·) hfst, hsnd⟩

end Runs

end Nespy.Sicslowpan
