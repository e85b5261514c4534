import Mathlib.Data.Vector.Basic

/-!
# Lib — bounded memory

A block of memory is the list of its cells.  `readN n m` reads the first `n` cells of `m` and
returns them with what follows; `writeAt m i bs` stores `bs` from offset `i` on.  Both are `none`
when an access leaves the block, so a program built from them returns a value exactly when every
access it makes is inside.

`readN_append` and `writeAt_append` are the two rules programs are run with: a read of the cells
in front of a block, and a write over cells of the same number.
-/

open List

namespace Nespy.Lib

variable {α : Type*}

/-! ### Reading -/

/-- The first `n` cells and the rest, when there are that many. -/
def readN (n : ℕ) (m : List α) : Option (List α × List α) :=
  if n ≤ m.length then some (m.take n, m.drop n) else none

variable {bs m m' pre : List α} {i n : ℕ}

theorem readN_append (h : bs.length = n) (m : List α) : readN n (bs ++ m) = some (bs, m) := by
  subst h
  simp [readN]

theorem readN_eq_some : readN n m = some (bs, m') ↔ m = bs ++ m' ∧ bs.length = n := by
  constructor
  · intro h
    obtain ⟨hn, hr⟩ := Option.ite_none_right_eq_some.mp h
    cases hr
    exact ⟨(take_append_drop n m).symm, by simpa using hn⟩
  · rintro ⟨rfl, h⟩
    exact readN_append h m'

/-! ### Writing -/

/-- `bs` stored at offset `i`. -/
def writeAt (m : List α) (i : ℕ) (bs : List α) : Option (List α) :=
  if i + bs.length ≤ m.length then some (m.take i ++ bs ++ m.drop (i + bs.length)) else none

theorem writeAt_append {old : List α} (hi : pre.length = i)
    (h : old.length = bs.length) (m : List α) :
    writeAt (pre ++ (old ++ m)) i bs = some (pre ++ (bs ++ m)) := by
  subst hi
  have hle : pre.length + bs.length ≤ (pre ++ (old ++ m)).length := by
    simp only [length_append]; omega
  have hd : (pre ++ (old ++ m)).drop (pre.length + bs.length) = m := by
    rw [← h, ← append_assoc, ← length_append, drop_left]
  rw [writeAt, if_pos hle, hd, take_left, append_assoc]

theorem writeAt_length (h : writeAt m i bs = some m') : m'.length = m.length := by
  obtain ⟨hle, hm⟩ := Option.ite_none_right_eq_some.mp h
  cases hm
  simp only [length_append, length_take, length_drop]
  omega

/-- A write over the cells behind `pre`, when the block has room for them. -/
theorem writeAt_room (hi : pre.length = i) (h : bs.length ≤ m.length) :
    writeAt (pre ++ m) i bs = some (pre ++ (bs ++ m.drop bs.length)) := by
  have hm : m = m.take bs.length ++ m.drop bs.length := (take_append_drop _ _).symm
  conv_lhs => rw [hm]
  exact writeAt_append hi (by simpa using h) _

/-- The cells up to the end of what was written. -/
theorem take_writeAt (h : writeAt m i bs = some m') : m'.take (i + bs.length) = m.take i ++ bs := by
  obtain ⟨hle, hm⟩ := Option.ite_none_right_eq_some.mp h
  cases hm
  have hlen : i + bs.length = (m.take i ++ bs).length := by
    rw [length_append, length_take]
    omega
  rw [hlen, take_left]

/-- A write of one cell. -/
theorem writeAt_singleton (h : i < m.length) (b : α) : writeAt m i [b] = some (m.set i b) := by
  rw [writeAt, if_pos (by rw [length_singleton]; omega), set_eq_take_append_cons_drop, if_pos h]
  simp

end Nespy.Lib
