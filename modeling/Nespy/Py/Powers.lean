import Mathlib.Algebra.Order.Ring.Int
import Nespy.Lib.Loop

/-!
# Py — powers of big integers

`mpz_pow_inpl` and `mpz_pow3_inpl` of `py/mpz.c`, over any multiplication and floor division that
are exact.  Both have one loop, which takes the exponent apart bit by bit; what it keeps is the
power that is still to be made (`powTurn_settles`).  The cases that are decided before the loop are
those in which a power is wrong.
-/

namespace Nespy.Py

open Nespy.Lib

/-- `mpz_t`, with the number that its digits stand for.  Zero, which has no digits, may have its
sign set. -/
structure Mpz where
  neg : Bool
  abs : ℕ
  deriving DecidableEq, Repr

namespace Mpz

/-- The number. -/
def val (z : Mpz) : ℤ := if z.neg then -z.abs else z.abs

/-- The representation of a number. -/
def mpzSetFromInt (v : ℤ) : Mpz := ⟨v < 0, v.natAbs⟩

@[simp] theorem val_mpzSetFromInt (v : ℤ) : (mpzSetFromInt v).val = v := by
  simp only [val, mpzSetFromInt, decide_eq_true_eq]
  split <;> omega

theorem natAbs_val (z : Mpz) : z.val.natAbs = z.abs := by
  rw [val]
  split <;> simp

theorem val_dvd (z : Mpz) (hz : z.abs = 1) (v : ℤ) : z.val ∣ v := by
  rw [← Int.natAbs_dvd, natAbs_val, hz]
  exact one_dvd v

end Mpz

/-- Multiplication and floor division, taken to be exact. -/
structure Exact where
  mpzMulInpl : Mpz → Mpz → Mpz
  mpzDivmodInpl : Mpz → Mpz → Mpz × Mpz
  mul : ∀ x y, (mpzMulInpl x y).val = x.val * y.val
  divmod : ∀ x y, y.val ≠ 0 →
    (mpzDivmodInpl x y).1.val = x.val.fdiv y.val ∧ (mpzDivmodInpl x y).2.val = x.val.fmod y.val

/-- The variables of the loop. -/
structure PowState where
  dest : Mpz
  x : Mpz
  n : ℕ

/-- One turn of the loop of both functions; `mpn_shr` drops a bit of the exponent. -/
def powTurn (mul : Mpz → Mpz → Mpz) (s : PowState) : Option (PowState ⊕ Mpz) :=
  if s.n = 0 then some (.inr s.dest)
  else
    let dest := if s.n &&& 1 ≠ 0 then mul s.dest s.x else s.dest
    let n := s.n >>> 1
    if n = 0 then some (.inr dest) else some (.inl ⟨dest, mul s.x s.x, n⟩)

variable (A : Exact) (fuel : ℕ) (lhs rhs mod : Mpz)

/-- `mpz_pow_inpl`. -/
def mpzPowInpl : Option Mpz :=
  if lhs.abs = 0 ∨ rhs.neg then some (.mpzSetFromInt 0)
  else if rhs.abs = 0 then some (.mpzSetFromInt 1)
  else loop (powTurn A.mpzMulInpl) fuel ⟨.mpzSetFromInt 1, lhs, rhs.abs⟩

/-- `mpz_pow3_inpl`. -/
def mpzPow3Inpl : Option Mpz :=
  if lhs.abs = 0 ∨ rhs.neg ∨ mod.abs = 1 then some (.mpzSetFromInt 0)
  else if rhs.abs = 0 then some (.mpzSetFromInt 1)
  else loop (powTurn fun x y => (A.mpzDivmodInpl (A.mpzMulInpl x y) mod).2) fuel
    ⟨.mpzSetFromInt 1, lhs, rhs.abs⟩

/-- Both powers are Python's. -/
def PowersRight : Prop :=
  (∃ r, Settles (mpzPowInpl A · lhs rhs) r ∧ r.val = lhs.val ^ rhs.val.toNat) ∧
    ∃ r, Settles (mpzPow3Inpl A · lhs rhs mod) r ∧ r.val = (lhs.val ^ rhs.val.toNat).fmod mod.val

/-! ### The loop -/

section Loop

variable {mul : Mpz → Mpz → Mpz} {q : ℤ → ℤ} (hq : ∀ a b, q (a * q b) = q (a * b))

include hq

theorem reduce_pow (a b : ℤ) (k : ℕ) : q (a * q b ^ k) = q (a * b ^ k) := by
  induction k generalizing a with
  | zero => simp
  | succ k ih =>
    calc q (a * q b ^ (k + 1)) = q (a * q b ^ k * q b) := by rw [pow_succ, mul_assoc]
      _ = q (a * b * q b ^ k) := by rw [hq, mul_right_comm]
      _ = q (a * b ^ (k + 1)) := by rw [ih, pow_succ', mul_assoc]

/-- **Square and multiply**, where the products are reduced by `q`. -/
theorem powTurn_settles (hmul : ∀ x y, (mul x y).val = q (x.val * y.val)) (x : Mpz) {n : ℕ}
    (hn : n ≠ 0) :
    ∃ r, Settles (fun fuel => loop (powTurn mul) fuel ⟨.mpzSetFromInt 1, x, n⟩) r ∧
      r.val = q (x.val ^ n) := by
  refine loop_settles (fun s : PowState => s.n ≠ 0 ∧ q (s.dest.val * s.x.val ^ s.n) = q (x.val ^ n))
    PowState.n
    (fun r : Mpz => r.val = q (x.val ^ n)) ?_ ⟨hn, by simp⟩
  rintro ⟨d, y, k⟩ ⟨hk, hpower⟩
  dsimp only at hk hpower
  simp only [powTurn, if_neg hk, Nat.and_one_is_mod, Nat.shiftRight_one]
  rw [← hpower]
  obtain ⟨d', hd'⟩ : ∃ d', d' = if k % 2 ≠ 0 then mul d y else d := ⟨_, rfl⟩
  rw [← hd']
  by_cases hlast : k / 2 = 0
  · obtain rfl : k = 1 := by omega
    refine .inr ⟨d', if_pos hlast, ?_⟩
    rw [hd', if_pos (by decide), hmul, pow_one]
  · refine .inl ⟨_, if_neg hlast, ⟨hlast, ?_⟩, Nat.div_lt_self (by omega) (by decide)⟩
    dsimp only
    rw [hmul, reduce_pow hq, ← pow_two, ← pow_mul, hd']
    rcases Nat.mod_two_eq_zero_or_one k with heven | hodd
    · rw [if_neg (not_not.mpr heven), Nat.two_mul_div_two_of_even (Nat.even_iff.mpr heven)]
    · rw [if_pos (by omega), hmul, mul_comm, hq, mul_left_comm, ← pow_succ,
        Nat.two_mul_div_two_add_one_of_odd (Nat.odd_iff.mpr hodd)]

end Loop

/-! ### The two functions -/

variable {A lhs rhs mod}

/-- An exponent that is not 0 gets to the loop, or the power is 0. -/
theorem powersRight_pos (hrhs : 0 < rhs.val) (hmod : mod.val ≠ 0) : PowersRight A lhs rhs mod := by
  have hneg : rhs.neg = false := by
    by_contra hneg
    rw [Mpz.val, if_pos (by simpa using hneg)] at hrhs
    omega
  have habs : rhs.val.toNat = rhs.abs := by simp [Mpz.val, hneg]
  have hpos : rhs.abs ≠ 0 := by omega
  simp only [PowersRight, mpzPowInpl, mpzPow3Inpl, hneg, habs, if_neg hpos, false_or,
    or_false, Bool.false_eq_true]
  by_cases h0 : lhs.abs = 0
  · have hval : lhs.val = 0 := by rw [← Int.natAbs_eq_zero, lhs.natAbs_val, h0]
    simp [h0, hval, hpos]
  simp only [h0, false_or, if_false]
  refine ⟨powTurn_settles (q := id) (fun _ _ => rfl) A.mul lhs hpos, ?_⟩
  split_ifs with hone
  · refine ⟨_, settles_some.mpr rfl, ?_⟩
    rw [Mpz.val_mpzSetFromInt, Int.fmod_eq_zero_of_dvd (mod.val_dvd hone _)]
  · refine powTurn_settles (q := (·.fmod mod.val)) (fun a b => ?_) (fun x y => ?_) lhs hpos
    · rw [Int.mul_fmod, Int.fmod_fmod, ← Int.mul_fmod]
    · rw [(A.divmod _ _ hmod).2, A.mul]

/-- The exponent 0 is looked at only behind the other cases. -/
theorem powersRight_zero (hrhs : rhs.val = 0) :
    PowersRight A lhs rhs mod ↔ ¬(lhs.abs = 0 ∨ rhs.neg) ∧
      (if mod.abs = 1 then 0 else 1) = (1 : ℤ).fmod mod.val := by
  have hr : rhs.abs = 0 := by rw [← rhs.natAbs_val, hrhs, Int.natAbs_zero]
  simp only [PowersRight, mpzPowInpl, mpzPow3Inpl, hr, hrhs, if_true, Int.toNat_zero, pow_zero]
  by_cases h0 : lhs.abs = 0 ∨ rhs.neg
  · simp [h0]
  · have h0' : (lhs.abs = 0 ∨ rhs.neg ∨ mod.abs = 1) ↔ mod.abs = 1 := by tauto
    simp only [h0, h0', if_false]
    split <;> simp

/-- What the modulus makes of 1. -/
theorem one_fmod_iff (hmod : mod.val ≠ 0) :
    (if mod.abs = 1 then 0 else 1) = (1 : ℤ).fmod mod.val ↔ -1 ≤ mod.val := by
  have habs := mod.natAbs_val
  split_ifs with hone
  · rw [Int.fmod_eq_zero_of_dvd (mod.val_dvd hone 1)]
    omega
  · rcases lt_or_gt_of_ne hmod with hlt | hgt
    · have hneg := Int.neg_fmod_neg (-1) (-mod.val)
      rw [neg_neg, neg_neg] at hneg
      have hle := Int.fmod_nonneg_of_pos (-1) (neg_pos.mpr hlt)
      omega
    · rw [Int.fmod_eq_of_lt (by decide) (by omega)]
      omega

/-- **Powers are Python's**, but for the exponent 0: then a base of 0, an exponent with its sign set
or a modulus below -1 makes one of them wrong. -/
theorem powers_iff (A : Exact) (lhs rhs mod : Mpz) (hrhs : 0 ≤ rhs.val) (hmod : mod.val ≠ 0) :
    PowersRight A lhs rhs mod ↔ rhs.val ≠ 0 ∨ lhs.val ≠ 0 ∧ rhs.neg = false ∧ -1 ≤ mod.val := by
  rcases hrhs.eq_or_lt with hzero | hpos
  · rw [powersRight_zero hzero.symm, one_fmod_iff hmod, ← lhs.natAbs_val]
    simp [← hzero, and_assoc]
  · exact iff_of_true (powersRight_pos hpos hmod) (.inl hpos.ne')

/-- Arithmetic on the numbers themselves. -/
def exactInt : Exact where
  mpzMulInpl x y := .mpzSetFromInt (x.val * y.val)
  mpzDivmodInpl x y := (.mpzSetFromInt (x.val.fdiv y.val), .mpzSetFromInt (x.val.fmod y.val))
  mul _ _ := Mpz.val_mpzSetFromInt _
  divmod _ _ _ := ⟨Mpz.val_mpzSetFromInt _, Mpz.val_mpzSetFromInt _⟩

theorem powers_iff_ten : PowersRight exactInt ⟨false, 3⟩ ⟨false, 10⟩ ⟨true, 7⟩ :=
  (powers_iff exactInt ⟨false, 3⟩ ⟨false, 10⟩ ⟨true, 7⟩ (by decide) (by decide)).mpr
    (.inl (by decide))

/-- The power with exponent 0, of base 0 and for modulus -5. -/
theorem powers_wrong_zero : ¬PowersRight exactInt ⟨false, 0⟩ ⟨false, 0⟩ ⟨false, 5⟩ ∧
    mpzPow3Inpl exactInt 1 ⟨false, 3⟩ ⟨false, 0⟩ ⟨true, 5⟩ = some ⟨false, 1⟩ ∧
      (3 ^ 0 : ℤ).fmod (-5) = -4 := by
  refine ⟨fun h => ?_, rfl, rfl⟩
  have hright := (powersRight_zero (by rfl)).mp h
  simp at hright

end Nespy.Py
