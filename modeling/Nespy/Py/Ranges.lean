import Mathlib.Algebra.Order.Ring.Int
import Mathlib.Data.List.Iterate
import Mathlib.Tactic.Ring

/-!
# Py — ranges

A range, its iterator, its length and its subscripts, over the integers: nothing overflows
`mp_int_t`. Whether `i` is before the stop of a progression is the sign of a product, `0 < (stop -
i) * step`, so that a slice of a range, whose step is the product of two, needs no cases of its own
(`lt_rangeLen_slice`).
-/

open List

namespace Nespy.Py

/-- `mp_obj_range_t`, whose step `range_make_new` checks; `mp_bound_slice_t` has the same fields. -/
structure Range where
  start : ℤ
  stop : ℤ
  step : ℤ
  step_ne : step ≠ 0

/-- A slice object; `none` is `None`. -/
structure Slice where
  start : Option ℤ
  stop : Option ℤ
  step : Option ℤ

variable (len step : ℤ) (self : Range)

/-- `i` is before the stop. -/
abbrev Before (step i stop : ℤ) : Prop := step > 0 ∧ i < stop ∨ step < 0 ∧ i > stop

/-- The value that the iterator gives at `cur`, and where it goes. -/
def rangeItIternext (stop step cur : ℤ) : Option (ℤ × ℤ) :=
  if Before step cur stop then some (cur, cur + step) else none

/-- `range_len`. -/
def rangeLen : ℤ :=
  let len := self.stop - self.start + self.step
  let len := if self.step > 0 then len - 1 else len + 1
  let len := len.tdiv self.step
  if len < 0 then 0 else len

/-- The start in `mp_seq_get_fast_slice_indexes`. -/
def sliceStart (ostart : Option ℤ) : ℤ :=
  let start := ostart.getD (if step > 0 then 0 else len - 1)
  if start < 0 then
    if len + start < 0 then if step < 0 then -1 else 0 else len + start
  else if step > 0 ∧ start > len then len
  else if step < 0 ∧ start ≥ len then len - 1
  else start

/-- The stop, inclusive for a negative step. -/
def sliceStop (ostop : Option ℤ) : ℤ :=
  let stop := ostop.elim (if step > 0 then len else 0) fun stop =>
    if stop ≥ 0 ∧ step < 0 then stop + 1 else stop
  if stop < 0 then
    let stop := if len + stop < 0 then -1 else len + stop
    if step < 0 then stop + 1 else stop
  else if stop > len then len
  else stop

/-- `none` is the `ValueError` for a step of zero.  That the step is 1 is not looked at by a
range. -/
def mpSeqGetFastSliceIndexes (len : ℤ) (slice : Slice) : Option Range :=
  let step := slice.step.getD 1
  if h : step = 0 then none
  else
    let start := sliceStart len step slice.start
    let stop := sliceStop len step slice.stop
    let stop := if step > 0 ∧ start > stop then start
      else if step < 0 ∧ start < stop then start + 1
      else stop
    some ⟨start, stop, step, h⟩

/-- `none` is the `IndexError`. -/
def mpGetIndex (len i : ℤ) : Option ℤ :=
  let i := if i < 0 then i + len else i
  if i < 0 ∨ i ≥ len then none else some i

/-- `range_subscr` for an integer. -/
def rangeSubscrIndex (index : ℤ) : Option ℤ :=
  (mpGetIndex (rangeLen self) index).map fun i => self.start + i * self.step

/-- The range that `range_subscr` makes of a slice. -/
def rangeOfSlice (self slice : Range) : Range where
  start := self.start + slice.start * self.step
  stop :=
    let stop := self.start + slice.stop * self.step
    if slice.step < 0 then stop - self.step else stop
  step := slice.step * self.step
  step_ne := mul_ne_zero slice.step_ne self.step_ne

/-- A slice of a range, as a range. -/
def rangeSubscrSlice (slice : Slice) : Option Range :=
  (mpSeqGetFastSliceIndexes (rangeLen self) slice).map (rangeOfSlice self)

/-! ### The lists they stand for -/

/-- The values that the iterator gives from `cur` on until it stops. -/
inductive Produces (stop step : ℤ) : ℤ → List ℤ → Prop where
  | stop {cur} : rangeItIternext stop step cur = none → Produces stop step cur []
  | next {cur cur' v vs} : rangeItIternext stop step cur = some (v, cur') →
      Produces stop step cur' vs →
      Produces stop step cur (v :: vs)

/-- Python's `l[i]`. -/
def pyIndex (l : List ℤ) (i : ℤ) : Option ℤ :=
  let i := if i < 0 then i + l.length else i
  if 0 ≤ i then l[i.toNat]? else none

/-- A bound in Python's `slice.indices`. -/
def pyBound (len step default : ℤ) (o : Option ℤ) : ℤ :=
  o.elim default fun i =>
    let i := if i < 0 then i + len else i
    if step > 0 then max 0 (min len i) else max (-1) (min (len - 1) i)

/-- Where a slice begins. -/
def pyStart : Option ℤ → ℤ := pyBound len step (if step > 0 then 0 else len - 1)

/-- Where a slice ends. -/
def pyStop : Option ℤ → ℤ := pyBound len step (if step > 0 then len else -1)

/-- The list `l'` is Python's slice `s` of `l`. -/
def IsSlice (l : List ℤ) (s : Slice) (l' : List ℤ) : Prop :=
  ∀ k : ℕ, l'[k]? =
    let step := s.step.getD 1
    let i := pyStart l.length step s.start + k * step
    if Before step i (pyStop l.length step s.stop) then l[i.toNat]? else none

/-- The range and the list agree. -/
structure Range.StandsFor (r : Range) (vs : List ℤ) : Prop where
  values : Produces r.stop r.step r.start vs
  len : rangeLen r = vs.length
  index : ∀ i, rangeSubscrIndex r i = pyIndex vs i
  slice : ∀ s : Slice, s.step.getD 1 ≠ 0 → ∃ r' vs', rangeSubscrSlice r s = some r' ∧
    Produces r'.stop r'.step r'.start vs' ∧ IsSlice vs s vs'

/-! ### Iterating -/

variable {len step stop i : ℤ} {n : ℕ} (k : ℕ) (r : Range)

theorem before_iff : Before step i stop ↔ 0 < (stop - i) * step := by
  rw [mul_pos_iff, Before]
  omega

theorem produces_iterate {cur : ℤ} (h : ∀ k : ℕ, k < n ↔ Before step (cur + k * step) stop) :
    Produces stop step cur (iterate (· + step) cur n) := by
  induction n generalizing cur with
  | zero =>
    have hstop := h 0
    rw [Nat.cast_zero, zero_mul, add_zero] at hstop
    exact .stop (if_neg fun hlt => absurd (hstop.mpr hlt) (lt_irrefl 0))
  | succ n ih =>
    have hnext := h 0
    rw [Nat.cast_zero, zero_mul, add_zero] at hnext
    refine .next (if_pos (hnext.mp n.succ_pos)) (ih fun k => ?_)
    have hk := h (k + 1)
    rwa [Nat.cast_succ, add_mul, one_mul, add_comm _ step, ← add_assoc, Nat.succ_lt_succ_iff] at hk

/-- A quotient, rounded to zero, that is larger than a natural number. -/
theorem lt_tdiv_iff {d : ℤ} (hd : 0 < d) (x : ℤ) : k < x.tdiv d ↔ k * d + d ≤ x := by
  have hk : 0 ≤ k * d := mul_nonneg (Int.natCast_nonneg k) hd.le
  rcases le_or_gt 0 x with hx | hx
  · rw [Int.tdiv_eq_ediv_of_nonneg hx, ← Int.add_one_le_iff,
      Int.le_ediv_iff_mul_le hd, add_mul, one_mul]
  · have hneg := Int.tdiv_nonneg (neg_nonneg.mpr hx.le) hd.le
    rw [Int.neg_tdiv] at hneg
    omega

theorem rangeLen_nonneg : 0 ≤ rangeLen r := by
  unfold rangeLen
  dsimp only
  split_ifs <;> omega

theorem lt_rangeLen : k < rangeLen r ↔ Before r.step (r.start + k * r.step) r.stop := by
  have hlen (x : ℤ) : k < (if x < 0 then 0 else x) ↔ k < x := by
    split_ifs <;> omega
  rw [rangeLen, hlen, Before]
  rcases lt_or_gt_of_ne r.step_ne with hs | hs
  · rw [if_neg hs.not_gt, ← Int.neg_tdiv_neg, lt_tdiv_iff k (neg_pos.mpr hs), mul_neg]
    omega
  · rw [if_pos hs, lt_tdiv_iff k hs]
    omega

/-- The list that the range stands for. -/
def rangeValues : List ℤ := iterate (· + r.step) r.start (rangeLen r).toNat

theorem length_rangeValues : (rangeValues r).length = rangeLen r := by
  rw [rangeValues, length_iterate, Int.toNat_of_nonneg (rangeLen_nonneg r)]

theorem getElem?_rangeValues :
    (rangeValues r)[k]? = if k < rangeLen r then some (r.start + k * r.step) else none := by
  rw [rangeValues]
  split_ifs with hk
  · rw [getElem?_iterate _ _ _ _ (by omega), add_right_iterate, nsmul_eq_mul]
  · exact getElem?_eq_none (by rw [length_iterate]; omega)

theorem produces_rangeValues : Produces r.stop r.step r.start (rangeValues r) := by
  refine produces_iterate fun k => ?_
  rw [← lt_rangeLen]
  omega

/-! ### Subscripts -/

theorem rangeSubscrIndex_eq (i : ℤ) : rangeSubscrIndex r i = pyIndex (rangeValues r) i := by
  rw [rangeSubscrIndex, mpGetIndex, pyIndex, length_rangeValues]
  generalize (if i < 0 then i + rangeLen r else i) = j
  by_cases hj : 0 ≤ j
  · obtain ⟨k, rfl⟩ := Int.eq_ofNat_of_zero_le hj
    rw [if_pos hj, Int.toNat_natCast, getElem?_rangeValues]
    by_cases hk : k < rangeLen r
    · rw [if_neg (by omega), if_pos hk, Option.map_some]
    · rw [if_pos (by omega), if_neg hk, Option.map_none]
  · rw [if_pos (by omega), if_neg hj, Option.map_none]

/-- The stop of a slice, exclusive also for a negative step. -/
def Range.last (b : Range) : ℤ := if b.step < 0 then b.stop - 1 else b.stop

theorem lt_rangeLen_slice (b : Range) :
    k < rangeLen (rangeOfSlice r b) ↔ Before b.step (b.start + k * b.step) b.last := by
  rw [lt_rangeLen, before_iff, before_iff]
  refine Iff.trans (iff_of_eq (congrArg (0 < ·) ?_))
    (mul_pos_iff_of_pos_right (mul_self_pos.mpr r.step_ne))
  simp only [rangeOfSlice, Range.last]
  split_ifs
  · ring
  · ring

variable (hlen : 0 ≤ len)

include hlen

theorem sliceStart_eq (hstep : step ≠ 0) (o : Option ℤ) :
    sliceStart len step o = pyStart len step o := by
  cases o <;> simp only [sliceStart, pyStart, pyBound, Option.elim, Option.getD] <;>
    split_ifs <;> omega

theorem sliceStop_eq (o : Option ℤ) : (step > 0 → sliceStop len step o = pyStop len step o ∨
      sliceStop len step o = -1 ∧ pyStop len step o = 0) ∧
    (step < 0 → sliceStop len step o = pyStop len step o + 1) := by
  cases o <;> simp only [sliceStop, pyStop, pyBound, Option.elim] <;> split_ifs <;> omega

theorem pyBound_range (o : Option ℤ) :
    (step > 0 → 0 ≤ pyStart len step o ∧ pyStop len step o ≤ len) ∧
    (step < 0 → pyStart len step o < len ∧ -1 ≤ pyStop len step o) := by
  cases o <;> simp only [pyStart, pyStop, pyBound, Option.elim] <;> split_ifs <;> omega

/-- Before the stop of the source is before Python's, and inside the list. -/
theorem before_slice {b : Range} {s : Slice} (hb : mpSeqGetFastSliceIndexes len s = some b) :
    b.step = s.step.getD 1 ∧ b.start = pyStart len b.step s.start ∧
      (Before b.step (b.start + k * b.step) b.last ↔
        Before b.step (b.start + k * b.step) (pyStop len b.step s.stop)) ∧
      (Before b.step (b.start + k * b.step) (pyStop len b.step s.stop) →
        0 ≤ b.start + k * b.step ∧ b.start + k * b.step < len) := by
  simp only [mpSeqGetFastSliceIndexes, Option.dite_none_left_eq_some] at hb
  obtain ⟨hstep, hb⟩ := hb
  cases hb
  generalize s.step.getD 1 = step at hstep ⊢
  have hstop := @sliceStop_eq len step hlen s.stop
  have hrange := @pyBound_range len step hlen
  have h₁ := hrange s.start
  have h₂ := hrange s.stop
  have hpos : step > 0 → 0 ≤ k * step := fun h => mul_nonneg (Int.natCast_nonneg k) h.le
  have hneg : step < 0 → k * step ≤ 0 :=
    fun h => mul_nonpos_of_nonneg_of_nonpos (Int.natCast_nonneg k) h.le
  simp only [Range.last, sliceStart_eq hlen hstep, Before]
  generalize k * step = m at *
  refine ⟨trivial, trivial, ?_, by omega⟩
  split_ifs <;> omega

omit hlen in
/-- **Ranges agree with the lists they stand for**, whatever their bounds and step, in length,
order, indexing and slicing. -/
theorem ranges_agree (r : Range) : ∃ vs, r.StandsFor vs := by
  refine ⟨rangeValues r, produces_rangeValues r, (length_rangeValues r).symm, rangeSubscrIndex_eq r,
    fun s hs => ?_⟩
  obtain ⟨b, hb⟩ : ∃ b, mpSeqGetFastSliceIndexes (rangeLen r) s = some b := ⟨_, dif_neg hs⟩
  refine ⟨rangeOfSlice r b, _, by rw [rangeSubscrSlice, hb,
    Option.map_some], produces_rangeValues _, fun k => ?_⟩
  obtain ⟨hstep, hstart, hiff, hin⟩ := before_slice k (rangeLen_nonneg r) hb
  dsimp only
  rw [getElem?_rangeValues, length_rangeValues, ← hstep, ← hstart]
  refine ite_congr (propext ((lt_rangeLen_slice k r b).trans hiff)) (fun hbefore => ?_) fun _ => rfl
  obtain ⟨hnonneg, hlt⟩ := hin hbefore
  obtain ⟨i, hi⟩ := Int.eq_ofNat_of_zero_le hnonneg
  rw [hi] at hlt ⊢
  rw [Int.toNat_natCast, getElem?_rangeValues, if_pos hlt, ← hi]
  simp only [rangeOfSlice]
  congr 1
  ring

end Nespy.Py
