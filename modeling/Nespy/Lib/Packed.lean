import Mathlib.Data.Nat.Notation
import Mathlib.Logic.Function.Basic
import Mathlib.Tactic.Basic

/-!
# Lib — entries packed into bytes

A table of entries of `w` bits each, `8 / w` of them in a byte, the first in the lowest bits.  An
entry is changed by setting bits in its byte (`packedOr`) or by clearing bits (`packedClear`); the
other entries, and the memory outside the table, stay as they are.
-/

open Function

namespace Nespy.Lib

variable {w : ℕ} {v : BitVec w} {i j : ℕ}

/-! ### In a byte -/

/-- Entry `j` of the byte. -/
def field (w : ℕ) (a : BitVec 8) (j : ℕ) : BitVec w := (a >>> (w * j)).setWidth w

theorem getLsbD_field {a : BitVec 8} {j k : ℕ} :
    (field w a j).getLsbD k = (decide (k < w) && a.getLsbD (w * j + k)) := by
  rw [field, BitVec.getLsbD_setWidth, BitVec.getLsbD_ushiftRight]

/-- The bits of entry `i` do not reach into another entry. -/
theorem getLsbD_shift_field {i j k : ℕ} (hi : w * (i + 1) ≤ 8) (hk : k < w) :
    (v.setWidth 8 <<< (w * i)).getLsbD (w * j + k) = (decide (i = j) && v.getLsbD k) := by
  rw [BitVec.getLsbD_shiftLeft, BitVec.getLsbD_setWidth]
  rcases Nat.lt_trichotomy i j with hij | rfl | hij
  · have hle : w * (i + 1) ≤ w * j := Nat.mul_le_mul_left w hij
    rw [Nat.mul_succ] at hle
    rw [BitVec.getLsbD_of_ge v _ (by omega), decide_eq_false (Nat.ne_of_lt hij)]
    simp
  · have hlt : w * i + k < 8 := by
      rw [Nat.mul_succ] at hi
      omega
    have hk8 : k < 8 := by omega
    simp [hlt, hk8]
  · have hle : w * (j + 1) ≤ w * i := Nat.mul_le_mul_left w hij
    rw [Nat.mul_succ] at hle
    have hlt : w * j + k < w * i := by omega
    simp [hlt, (Nat.ne_of_lt hij).symm]

theorem field_or {a : BitVec 8} (hi : w * (i + 1) ≤ 8) :
    field w (a ||| v.setWidth 8 <<< (w * i)) j = if i = j then field w a j ||| v
      else field w a j := by
  apply BitVec.eq_of_getLsbD_eq
  intro k hk
  rw [getLsbD_field, BitVec.getLsbD_or, getLsbD_shift_field hi hk]
  split
  · rename_i hij
    rw [BitVec.getLsbD_or, getLsbD_field]
    simp [hij, hk]
  · rename_i hij
    rw [getLsbD_field]
    simp [hij]

theorem field_clear {a : BitVec 8} (hi : w * (i + 1) ≤ 8) (hj : w * (j + 1) ≤ 8) :
    field w (a &&& ~~~(v.setWidth 8 <<< (w * i))) j = if i = j then field w a j &&& ~~~v
      else field w a j := by
  apply BitVec.eq_of_getLsbD_eq
  intro k hk
  have hlt : w * j + k < 8 := by
    rw [Nat.mul_succ] at hj
    omega
  rw [getLsbD_field, BitVec.getLsbD_and, BitVec.getLsbD_not, getLsbD_shift_field hi hk]
  split
  · rename_i hij
    rw [BitVec.getLsbD_and, getLsbD_field]
    simp [hij, hk, hlt]
  · rename_i hij
    rw [getLsbD_field]
    simp [hij, hlt]

/-! ### In memory -/

/-- Entry `k` of the table that begins at `start`. -/
def packedGet (w : ℕ) (mem : ℕ → BitVec 8) (start k : ℕ) : BitVec w :=
  field w (mem (start + k / (8 / w))) (k % (8 / w))

/-- The bits `v` of entry `k` are set. -/
def packedOr (mem : ℕ → BitVec 8) (start k : ℕ) (v : BitVec w) : ℕ → BitVec 8 :=
  update mem (start + k / (8 / w))
    (mem (start + k / (8 / w)) ||| v.setWidth 8 <<< (w * (k % (8 / w))))

/-- The bits `v` of entry `k` are cleared. -/
def packedClear (mem : ℕ → BitVec 8) (start k : ℕ) (v : BitVec w) : ℕ → BitVec 8 :=
  update mem (start + k / (8 / w))
    (mem (start + k / (8 / w)) &&& ~~~(v.setWidth 8 <<< (w * (k % (8 / w)))))

variable {mem mem' : ℕ → BitVec 8} {start j k a : ℕ}

theorem packedGet_congr (h : mem' (start + k / (8 / w)) = mem (start + k / (8 / w))) :
    packedGet w mem' start k = packedGet w mem start k := by
  rw [packedGet, h, packedGet]

theorem packedOr_of_ne (h : a ≠ start + k / (8 / w)) : packedOr mem start k v a = mem a :=
  update_of_ne h ..

theorem packedClear_of_ne (h : a ≠ start + k / (8 / w)) : packedClear mem start k v a = mem a :=
  update_of_ne h ..

/-- There is room for every entry of a byte. -/
theorem entry_in_byte (hw : 0 < w) (hw8 : w ≤ 8) (k : ℕ) : w * (k % (8 / w) + 1) ≤ 8 := by
  have hlt : k % (8 / w) < 8 / w := Nat.mod_lt _ (Nat.div_pos hw8 hw)
  calc w * (k % (8 / w) + 1) ≤ w * (8 / w) := Nat.mul_le_mul_left w hlt
    _ ≤ 8 := Nat.mul_div_le 8 w

/-- A new byte for entry `k`: of the entries of that byte only `k` changes. -/
theorem packedGet_update {b : BitVec 8} {x : BitVec w} (hb : field w b (j % (8 / w)) =
      if k % (8 / w) = j % (8 / w) then x else field w (mem (start + k / (8 / w))) (j % (8 / w))) :
    packedGet w (update mem (start + k / (8 / w)) b) start j =
      if j = k then x else packedGet w mem start j := by
  by_cases hdiv : j / (8 / w) = k / (8 / w)
  · rw [packedGet, hdiv, update_self, hb]
    by_cases hmod : j % (8 / w) = k % (8 / w)
    · rw [if_pos hmod.symm, if_pos (Nat.ext_div_mod hdiv hmod)]
    · have hne : j ≠ k := fun h => hmod (h ▸ rfl)
      rw [if_neg (Ne.symm hmod), if_neg hne, packedGet, hdiv]
  · have hne : j ≠ k := fun h => hdiv (h ▸ rfl)
    rw [if_neg hne]
    exact packedGet_congr (update_of_ne (fun h => hdiv (Nat.add_left_cancel h)) ..)

theorem packedGet_packedOr (hw : 0 < w) (hw8 : w ≤ 8) :
    packedGet w (packedOr mem start k v) start j =
      if j = k then packedGet w mem start k ||| v else packedGet w mem start j := by
  refine packedGet_update ?_
  rw [field_or (entry_in_byte hw hw8 k), packedGet]
  split <;> simp [*]

theorem packedGet_packedClear (hw : 0 < w) (hw8 : w ≤ 8) :
    packedGet w (packedClear mem start k v) start j =
      if j = k then packedGet w mem start k &&& ~~~v else packedGet w mem start j := by
  refine packedGet_update ?_
  rw [field_clear (entry_in_byte hw hw8 k) (entry_in_byte hw hw8 j), packedGet]
  split <;> simp [*]

end Nespy.Lib
