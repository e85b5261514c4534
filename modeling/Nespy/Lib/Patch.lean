import Mathlib.Algebra.GroupWithZero.Nat
import Mathlib.Order.Interval.Finset.Nat
import Nespy.Lib.Memory

/-!
# Lib — a block put together from its parts

A part of a block `P` is a pair of an offset and the cells of `P` from there on (`IsPart`).  Parts
that are `Apart` do not overlap, so their lengths add up to the number of cells they cover
(`card_cover`): at most the length of `P`, and all of `P` when the lengths add up to it.

`patch m ps` writes parts into a memory, in any order.  `patch_eq` is the rule for rebuilding a
block: parts that are apart and long enough in total leave `P` at the front of the memory, whatever
the memory held before.
-/

open List

namespace Nespy.Lib

variable {α : Type*}

/-- The cells of `P` from the offset `p.1` on. -/
def IsPart (P : List α) (p : ℕ × List α) : Prop :=
  p.1 + p.2.length ≤ P.length ∧ p.2 = (P.drop p.1).take p.2.length

/-- Two parts that do not overlap. -/
def Apart (p q : ℕ × List α) : Prop := p.1 + p.2.length ≤ q.1 ∨ q.1 + q.2.length ≤ p.1

/-- The length of all parts together. -/
def total (ps : List (ℕ × List α)) : ℕ := (ps.map fun p => p.2.length).sum

@[simp] theorem total_cons (p : ℕ × List α) (ps : List (ℕ × List α)) :
    total (p :: ps) = p.2.length + total ps := by
  simp [total]

variable {ps : List (ℕ × List α)} {P m : List α} {x : ℕ}

theorem total_perm {qs : List (ℕ × List α)} (h : ps.Perm qs) : total ps = total qs :=
  (h.map _).sum_eq

/-! ### Counting cells -/

/-- The indices the parts cover. -/
def cover (ps : List (ℕ × List α)) : Finset ℕ :=
  ps.foldr (fun p s => Finset.Ico p.1 (p.1 + p.2.length) ∪ s) ∅

theorem mem_cover : x ∈ cover ps ↔ ∃ p ∈ ps, p.1 ≤ x ∧ x < p.1 + p.2.length := by
  induction ps with
  | nil => simp [cover]
  | cons p ps ih =>
    rw [cover, foldr_cons, Finset.mem_union, ← cover, ih]
    simp

/-- Parts that are apart cover as many indices as they have cells. -/
theorem card_cover (h : ps.Pairwise Apart) : (cover ps).card = total ps := by
  induction ps with
  | nil => rfl
  | cons p ps ih =>
    obtain ⟨hp, hps⟩ := pairwise_cons.mp h
    have hdisj : Disjoint (Finset.Ico p.1 (p.1 + p.2.length)) (cover ps) := by
      rw [Finset.disjoint_left]
      intro x hx hc
      obtain ⟨q, hq, hle, hlt⟩ := mem_cover.mp hc
      rw [Finset.mem_Ico] at hx
      rcases hp q hq with hpq | hpq <;> omega
    rw [cover, foldr_cons, ← cover, Finset.card_union_of_disjoint hdisj, ih hps,
      Nat.card_Ico, total_cons, Nat.add_sub_cancel_left]

section Parts

variable (hpart : ∀ p ∈ ps, IsPart P p)

include hpart

theorem cover_subset : cover ps ⊆ Finset.range P.length := by
  intro x hx
  obtain ⟨p, hp, -, hlt⟩ := mem_cover.mp hx
  have := (hpart p hp).1
  rw [Finset.mem_range]
  omega

theorem total_le (h : ps.Pairwise Apart) : total ps ≤ P.length := by
  rw [← card_cover h, ← Finset.card_range P.length]
  exact Finset.card_le_card (cover_subset hpart)

/-- Parts as long as the block leave none of its cells out. -/
theorem cover_eq_range (h : ps.Pairwise Apart) (hlen : P.length ≤ total ps) :
    cover ps = Finset.range P.length := by
  refine Finset.eq_of_subset_of_card_le (cover_subset hpart) ?_
  rw [Finset.card_range, card_cover h]
  exact hlen

end Parts

/-! ### Writing the parts -/

theorem getElem?_writeAt {m' bs : List α} {i : ℕ} (h : writeAt m i bs = some m') (x : ℕ) :
    m'[x]? = if i ≤ x ∧ x < i + bs.length then bs[x - i]? else m[x]? := by
  obtain ⟨hle, hm⟩ := Option.ite_none_right_eq_some.mp h
  cases hm
  have hi : (m.take i).length = i := by rw [length_take]; omega
  rw [append_assoc]
  by_cases hx : x < i
  · rw [if_neg (by omega), getElem?_append_left (by omega), getElem?_take_of_lt hx]
  by_cases hx' : x < i + bs.length
  · rw [if_pos ⟨by omega, hx'⟩, getElem?_append_right (by omega), hi,
      getElem?_append_left (by omega)]
  · rw [if_neg (by omega), getElem?_append_right (by omega),
      getElem?_append_right (by omega), getElem?_drop]
    congr 1
    omega

theorem IsPart.getElem? {p : ℕ × List α} (h : IsPart P p) (hle : p.1 ≤ x)
    (hlt : x < p.1 + p.2.length) : p.2[x - p.1]? = P[x]? := by
  rw [h.2, getElem?_take_of_lt (by omega), getElem?_drop, Nat.add_sub_cancel' hle]

/-- All parts written, one after the other. -/
def patch (m : List α) (ps : List (ℕ × List α)) : Option (List α) :=
  ps.foldlM (fun m p => writeAt m p.1 p.2) m

/-- Writing parts of `P` puts its cells where they belong and leaves the others alone. -/
theorem patch_parts (hpart : ∀ p ∈ ps, IsPart P p) :
    ∀ {m : List α}, P.length ≤ m.length → ∃ m', patch m ps = some m' ∧ m'.length = m.length ∧
      ∀ x, m'[x]? = if x ∈ cover ps then P[x]? else m[x]? := by
  induction ps with
  | nil =>
    intro m _
    exact ⟨m, rfl, rfl, fun x => by simp [cover]⟩
  | cons p ps ih =>
    intro m hm
    have hp := hpart p mem_cons_self
    obtain ⟨m₁, hw⟩ : ∃ m₁, writeAt m p.1 p.2 = some m₁ := by
      have := hp.1
      exact ⟨_, if_pos (by omega)⟩
    have hlen := writeAt_length hw
    obtain ⟨m', hm', hlen', hget⟩ := ih (fun q hq => hpart q (mem_cons_of_mem _ hq))
      (m := m₁) (by omega)
    refine ⟨m', ?_, by omega, fun x => ?_⟩
    · rw [patch, foldlM_cons, hw]
      exact hm'
    · have hcov : x ∈ cover (p :: ps) ↔ (p.1 ≤ x ∧ x < p.1 + p.2.length) ∨ x ∈ cover ps := by
        simp [mem_cover]
      rw [hget, getElem?_writeAt hw]
      by_cases hx : x ∈ cover ps
      · rw [if_pos hx, if_pos (hcov.mpr (.inr hx))]
      · rw [if_neg hx]
        by_cases hxp : p.1 ≤ x ∧ x < p.1 + p.2.length
        · rw [if_pos hxp, if_pos (hcov.mpr (.inl hxp)), hp.getElem? hxp.1 hxp.2]
        · rw [if_neg hxp, if_neg fun hc => (hcov.mp hc).elim hxp hx]

/-- **Rebuilding a block.**  Parts that are apart and as long as `P` leave it at the front of the
memory. -/
theorem patch_eq (hpart : ∀ p ∈ ps, IsPart P p)
    (h : ps.Pairwise Apart) (hlen : P.length ≤ total ps) (hm : P.length ≤ m.length) :
    ∃ m', patch m ps = some m' ∧ m'.length = m.length ∧ m'.take P.length = P := by
  obtain ⟨m', hp, hml, hget⟩ := patch_parts hpart hm
  refine ⟨m', hp, hml, ext_getElem? fun x => ?_⟩
  by_cases hx : x < P.length
  · have hc : x ∈ cover ps := by
      rw [cover_eq_range hpart h hlen, Finset.mem_range]
      exact hx
    rw [getElem?_take_of_lt hx, hget, if_pos hc]
  · rw [getElem?_take_eq_none (by omega), getElem?_eq_none (by omega)]

end Nespy.Lib
