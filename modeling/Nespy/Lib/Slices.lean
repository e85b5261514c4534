import Mathlib.Data.List.Basic

/-!
# Lib — a list in slices

`slices e l` are the parts of `l` of length `e`, the last of which may be shorter.  Put together
they are `l` again (`flatten_slices`); the slice at `i` is there exactly if `i * e` is inside of
`l`.  A `window` is a slice at any offset, and `window_append` says how it fills while the list
grows.
-/

open List

namespace Nespy.Lib

variable {α : Type*}

/-- The slices of a list. -/
def slices (e : ℕ) (l : List α) : List (List α) :=
  (range ((l.length + (e - 1)) / e)).map fun i => (l.drop (i * e)).take e

variable {e i : ℕ} {l : List α}

theorem length_slices : (slices e l).length = (l.length + (e - 1)) / e := by
  rw [slices, length_map, length_range]

theorem lt_length_slices (he : 0 < e) : i < (slices e l).length ↔ i * e < l.length := by
  rw [length_slices, Nat.lt_iff_add_one_le, Nat.le_div_iff_mul_le he, Nat.add_mul]
  omega

theorem getElem?_slices (he : 0 < e) (hi : i * e < l.length) :
    (slices e l)[i]? = some ((l.drop (i * e)).take e) := by
  have hlt := (lt_length_slices he).mpr hi
  rw [length_slices] at hlt
  rw [slices, getElem?_map, getElem?_range hlt]
  rfl

theorem getElem?_slices_none (he : 0 < e) (hi : l.length ≤ i * e) : (slices e l)[i]? = none := by
  rw [getElem?_eq_none_iff, ← Nat.not_lt, lt_length_slices he]
  omega

/-- The first slices are the start of the list. -/
theorem flatten_range_slices (e n : ℕ) (l : List α) :
    ((range n).map fun i => (l.drop (i * e)).take e).flatten = l.take (n * e) := by
  induction n with
  | zero => rw [Nat.zero_mul]; rfl
  | succ n ih =>
    rw [range_succ, map_append, flatten_append, ih, Nat.succ_mul, take_add]
    simp

/-- **The slices are the list.** -/
theorem flatten_slices (he : 0 < e) : (slices e l).flatten = l := by
  rw [slices, flatten_range_slices]
  refine take_of_length_le ?_
  have hlt : ¬ (slices e l).length < (slices e l).length := Nat.lt_irrefl _
  rw [lt_length_slices he, length_slices] at hlt
  exact Nat.not_lt.mp hlt

/-- A slice in front of another one is not shorter. -/
theorem length_slice (he : 0 < e) (hi : i + 1 < (slices e l).length) :
    ((l.drop (i * e)).take e).length = e := by
  rw [lt_length_slices he, Nat.add_mul] at hi
  rw [length_take, length_drop]
  omega

/-! ### A window on a list that grows -/

/-- The part of `l` that is seen through a window of size `n` at offset `o`. -/
def window (o n : ℕ) (l : List α) : List α := (l.drop o).take n

theorem length_window (o n : ℕ) (l : List α) : (window o n l).length = min n (l.length - o) := by
  rw [window, length_take, length_drop]

/-- What is appended shows up behind what is seen, as far as there is room. -/
theorem window_append (o n : ℕ) (l x : List α) :
    window o n (l ++ x) = window o n l ++
      (x.drop (o - l.length)).take (n - (window o n l).length) := by
  rw [window, drop_append, take_append, length_window, length_drop]
  congr 2
  omega

/-- A window that is full does not change. -/
theorem window_append_of_le {o n : ℕ} {l : List α} (h : o + n ≤ l.length) (x : List α) :
    window o n (l ++ x) = window o n l := by
  rw [window_append, length_window, Nat.min_eq_left (by omega), Nat.sub_self, take_zero,
    append_nil]

end Nespy.Lib
