import Mathlib.Tactic.IntervalCases

/-!
# Lib — bits of a byte

Masks of a byte that several fields share.  A field set with `|||` is read back with `&&&` when no
other field touches the mask: `and_of_or_or` is that rule, its side conditions being facts
`x &&& k = 0` about whole groups of bits that `and_eq_zero_of_sub` narrows to the mask read.
`eq_of_bits` proves an equation between bytes bit by bit.

In a word, `toNat_shiftLeft_or` packs two fields and `high_and` takes the upper one; `word_of_bytes`
is the round trip of a word through its two bytes.
-/

namespace Nespy.Lib

variable {a b c k m x : UInt8} {w : ℕ}

theorem eq_of_bits (h : ∀ i < 8, a.toBitVec.getLsbD i = b.toBitVec.getLsbD i) : a = b :=
  UInt8.eq_of_toBitVec_eq (BitVec.eq_of_getLsbD_eq h)

theorem or_and_distrib (a b c : UInt8) : (a ||| b) &&& c = (a &&& c) ||| (b &&& c) := by
  apply UInt8.eq_of_toBitVec_eq
  simp only [UInt8.toBitVec_and, UInt8.toBitVec_or]
  rw [BitVec.and_comm, BitVec.and_or_distrib_left, BitVec.and_comm c.toBitVec,
    BitVec.and_comm c.toBitVec]

/-- A byte clear on `k` is clear on every part of `k`. -/
theorem and_eq_zero_of_sub (h : x &&& k = 0) (hm : k &&& m = m) : x &&& m = 0 := by
  rw [← hm, ← UInt8.and_assoc, h, UInt8.zero_and]

/-- Bytes that agree on `k` agree on every part of `k`. -/
theorem and_eq_of_sub {y : UInt8} (h : x &&& k = y &&& k) (hm : k &&& m = m) :
    x &&& m = y &&& m := by
  rw [← hm, ← UInt8.and_assoc, ← UInt8.and_assoc, h]

/-- The middle one of three fields, read under a mask the other two are clear on. -/
theorem and_of_or_or (ha : a &&& m = 0) (hc : c &&& m = 0) : (a ||| b ||| c) &&& m = b &&& m := by
  rw [or_and_distrib, or_and_distrib, ha, hc, UInt8.zero_or, UInt8.or_zero]

/-- The last one of three. -/
theorem and_of_or_or_last (ha : a &&& m = 0) (hb : b &&& m = 0) :
    (a ||| b ||| c) &&& m = c &&& m := by
  rw [or_and_distrib, or_and_distrib, ha, hb, UInt8.zero_or, UInt8.zero_or]

/-! ### Words -/

/-- The upper bits of a word. -/
theorem high_and (v : BitVec w) (k : ℕ) : BitVec.allOnes w <<< k &&& v = v >>> k <<< k := by
  ext i hi
  by_cases h : i < k
  · simp [h]
  · simp [hi, Nat.add_sub_cancel' (not_lt.mp h)]

theorem toNat_high_and (v : BitVec w) (k : ℕ) :
    (BitVec.allOnes w <<< k &&& v).toNat = v.toNat / 2 ^ k * 2 ^ k := by
  have hle : v.toNat / 2 ^ k * 2 ^ k ≤ v.toNat := Nat.div_mul_le_self _ _
  rw [high_and, BitVec.toNat_shiftLeft, BitVec.toNat_ushiftRight, Nat.shiftLeft_eq,
    Nat.shiftRight_eq_div_pow, Nat.mod_eq_of_lt (by omega)]

/-- Two fields, the lower one of `k` bits. -/
theorem toNat_shiftLeft_or {x b : UInt32} {k : ℕ} (hk : k < 32) (hx : x.toNat < 2 ^ (32 - k))
    (hb : b.toNat < 2 ^ k) : (x <<< UInt32.ofNat k ||| b).toNat = x.toNat * 2 ^ k + b.toNat := by
  have hlt : x.toNat * 2 ^ k < 2 ^ 32 := by
    calc x.toNat * 2 ^ k < 2 ^ (32 - k) * 2 ^ k :=
      Nat.mul_lt_mul_of_pos_right hx (Nat.two_pow_pos k)
      _ = 2 ^ 32 := by rw [← Nat.pow_add, Nat.sub_add_cancel hk.le]
  have hk' : (UInt32.ofNat k).toNat % 32 = k := by
    rw [UInt32.toNat_ofNat']
    omega
  rw [UInt32.toNat_or, UInt32.toNat_shiftLeft, hk', Nat.shiftLeft_eq, Nat.mod_eq_of_lt hlt,
    ← Nat.shiftLeft_eq, Nat.shiftLeft_add_eq_or_of_lt hb]

theorem toNat_word (a b : UInt8) :
    (a.toUInt16 <<< 8 ||| b.toUInt16).toNat = a.toNat * 256 + b.toNat := by
  have ha := a.toNat_lt
  have hb := b.toNat_lt
  have h8 : (8 : UInt16).toNat % 16 = 8 := rfl
  rw [UInt16.toNat_or, UInt16.toNat_shiftLeft, UInt8.toNat_toUInt16, UInt8.toNat_toUInt16, h8,
    Nat.mod_eq_of_lt (by rw [Nat.shiftLeft_eq]; omega), ← Nat.shiftLeft_add_eq_or_of_lt hb,
    Nat.shiftLeft_eq]

theorem word_of_bytes (v : UInt16) :
    (v >>> 8).toUInt8.toUInt16 <<< 8 ||| v.toUInt8.toUInt16 = v := by
  apply UInt16.toNat_inj.mp
  have h := v.toNat_lt
  have h8 : (8 : UInt16).toNat % 16 = 8 := rfl
  rw [toNat_word, UInt16.toNat_toUInt8, UInt16.toNat_toUInt8, UInt16.toNat_shiftRight, h8]
  omega

end Nespy.Lib
