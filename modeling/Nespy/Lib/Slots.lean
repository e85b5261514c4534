import Mathlib.Data.List.FinRange
import Mathlib.Data.List.Perm.Basic

/-!
# Lib — a pool of slots

`n` slots of which each holds a value or is free, and the list `contents` of what they hold, in the
order of the slots.  Filling a free slot adds its value to the contents, up to their order
(`contents_update`).
-/

open List Function

namespace Nespy.Lib

variable {β : Type*} {n : ℕ}

/-- What the slots hold. -/
def contents (f : Fin n → Option β) : List β := (List.finRange n).filterMap f

variable {f : Fin n → Option β}

theorem mem_contents {b : β} : b ∈ contents f ↔ ∃ j, f j = some b := by
  simp [contents]

theorem contents_eq_nil : contents f = [] ↔ ∀ j, f j = none := by
  simp [contents]

/-- A pool with less in it than it has slots has a free one. -/
theorem exists_free (h : (contents f).length < n) : ∃ j, f j = none := by
  by_contra hfull
  have hsome : ∀ j, ∃ b, f j = some b := fun j =>
    Option.ne_none_iff_exists'.mp fun hj => hfull ⟨j, hj⟩
  choose g hg using hsome
  have hlen : (contents f).length = n := by
    rw [contents, show f = some ∘ g from funext hg, filterMap_eq_map, length_map,
      length_finRange]
  omega

/-- Filling a free slot. -/
theorem contents_update {j : Fin n} (h : f j = none) (b : β) :
    (contents (update f j (some b))).Perm (b :: contents f) := by
  obtain ⟨l₁, l₂, hl⟩ := append_of_mem (mem_finRange j)
  have hnd : (l₁ ++ j :: l₂).Nodup := hl ▸ nodup_finRange n
  have hne : ∀ k ∈ l₁ ++ l₂, k ≠ j := by
    rintro k hk rfl
    exact (nodup_middle.mp hnd).notMem hk
  have hsame : ∀ l : List (Fin n), (∀ k ∈ l, k ∈ l₁ ++ l₂) →
      l.filterMap (update f j (some b)) = l.filterMap f := by
    intro l hsub
    refine filterMap_congr fun k hk => ?_
    rw [update_of_ne (hne k (hsub k hk))]
  rw [contents, contents, hl, filterMap_append, filterMap_append,
    filterMap_cons_some (update_self j _ f), filterMap_cons_none h,
    hsame l₁ fun k hk => mem_append_left _ hk, hsame l₂ fun k hk => mem_append_right _ hk]
  exact perm_middle

end Nespy.Lib
