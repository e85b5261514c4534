import Mathlib.Data.Nat.Bitwise

/-!
# Sys — the configuration of trickle timers

`trickle_timer_config` of `lib/trickle-timer.c` and `max_imax`, in its generic form, for a
`clock_time_t` of 16, 32 or 64 bits.  The clock's values are numbers below `2 ^ w.bits`, and what
the C code stores is reduced to that.  The test for a pair that is too large shifts by an argument
of 8 bits, and a shift by the width of the promoted type or more has no meaning in C: the result is
`undefined` there.

`max_imax` counts the leading zeros of `i_min - 1`, under a mask that starts with 16 bits and is
shifted in every turn.  `Counts` is what the turns keep.  With 16 and 32 bits the mask covers the
upper half of the clock in the first turn; with 64 bits it covers only the lower half of the upper
half, so that the bits above it are lost when those under it are clear (`LosesBits`).
-/

namespace Nespy.Sys.Trickle

/-- The widths of `clock_time_t`. -/
inductive ClockWidth where
  | w16
  | w32
  | w64
  deriving DecidableEq

namespace ClockWidth

variable (w : ClockWidth)

/-- The width of `clock_time_t`. -/
def bits : ℕ :=
  match w with
  | .w16 => 16
  | .w32 => 32
  | .w64 => 64

/-- The bits of the type in which a `clock_time_t` is shifted. -/
def promotedBits : ℕ := max w.bits 32

/-- The latest time. -/
def trickleTimerClockMax : ℕ := 2 ^ w.bits - 1

/-- The values of `i` in the loop of `max_imax`, from `sizeof(clock_time_t) << 2` on. -/
def shifts : List ℕ :=
  match w with
  | .w16 => [8, 4, 2, 1]
  | .w32 => [16, 8, 4, 2, 1]
  | .w64 => [32, 16, 8, 4, 2, 1]

end ClockWidth

/-- The variables of `max_imax`. -/
structure MaxImax where
  value : ℕ
  mask : ℕ
  zeros : ℕ

/-- A turn of the loop. -/
def MaxImax.turn (bits : ℕ) (s : MaxImax) (i : ℕ) : MaxImax :=
  let mask := s.mask * 2 ^ i % 2 ^ bits
  if s.value &&& mask = 0 then ⟨s.value * 2 ^ i % 2 ^ bits, mask, (s.zeros + i) % 256⟩
  else { s with mask }

/-- `max_imax`. -/
def maxImax (w : ClockWidth) (value : ℕ) : ℕ :=
  ((w.shifts.foldl (MaxImax.turn w.bits)
    ⟨(value + (2 ^ w.bits - 1)) % 2 ^ w.bits, 0xFFFF, 0⟩).zeros + 255) % 256

/-- What `trickle_timer_config` stores. -/
structure TrickleConfig where
  iMin : ℕ
  iMax : ℕ
  iMaxAbs : ℕ
  k : ℕ

/-- What `trickle_timer_config` comes to. -/
inductive ConfigResult where
  | error
  | undefined
  | success (tt : TrickleConfig)

section Config

variable (w : ClockWidth) (iMin : ℕ) (iMax k : UInt8)

/-- `TRICKLE_TIMER_IMIN_IS_BAD` -/
def IminIsBad : Prop := iMin < 2 ∨ w.trickleTimerClockMax / 2 < iMin

/-- `TRICKLE_TIMER_IPAIR_IS_BAD` -/
def IpairIsBad : Prop := w.trickleTimerClockMax / 2 ^ (iMax.toNat + 1) < iMin - 1

instance : Decidable (IminIsBad w iMin) := inferInstanceAs (Decidable (_ ∨ _))

instance : Decidable (IpairIsBad w iMin iMax) := inferInstanceAs (Decidable (_ < _))

/-- `trickle_timer_config` of a timer. -/
def trickleTimerConfig : ConfigResult :=
  if IminIsBad w iMin then .error
  else if iMax = 0 ∨ k = 0 then .error
  else if w.promotedBits ≤ iMax.toNat + 1 then .undefined
  else
    let iMax := if IpairIsBad w iMin iMax then maxImax w iMin else iMax.toNat
    .success { iMin, iMax, iMaxAbs := iMin * 2 ^ iMax % 2 ^ w.bits, k := k.toNat }

/-- The result is defined, and of a success the largest interval has lost no bits and is not too
large. -/
@[simp] def ConfigResult.Exact : ConfigResult → Prop
  | error => True
  | undefined => False
  | success tt => tt.iMaxAbs = tt.iMin * 2 ^ tt.iMax ∧ tt.iMaxAbs ≤ w.trickleTimerClockMax / 2 + 1

/-- The first turn of `max_imax` loses bits of `i_min - 1`. -/
def LosesBits : Prop := w = .w64 ∧ 2 ^ 48 ≤ iMin - 1 ∧ (iMin - 1) / 2 ^ 32 % 2 ^ 16 = 0

end Config

/-! ### Counting the leading zeros -/

/-- The bits of `v` under a mask of `n` bits that stands at `k`. -/
theorem and_mask_eq_zero_iff (v n k : ℕ) :
    v &&& (2 ^ n - 1) * 2 ^ k = 0 ↔ v / 2 ^ k % 2 ^ n = 0 := by
  have hand : v &&& (2 ^ n - 1) * 2 ^ k = (v / 2 ^ k % 2 ^ n) * 2 ^ k := by
    rw [← Nat.shiftLeft_eq, ← Nat.shiftLeft_eq,
      ← Nat.shiftRight_eq_div_pow]
    refine Nat.eq_of_testBit_eq fun i => ?_
    by_cases hi : k ≤ i
    · simp [hi, Bool.and_comm]
    · simp [hi]
  rw [hand]
  simp

/-- `zeros` leading zeros of `v` are counted, and fewer than `i` are left. -/
structure Counts (bits v i : ℕ) (s : MaxImax) : Prop where
  value : s.value = v * 2 ^ s.zeros
  lt : s.value < 2 ^ bits
  le : 2 ^ (bits - i) ≤ s.value
  zeros : s.zeros + i ≤ bits

/-- A turn whose mask covers the upper `i` bits. -/
theorem Counts.turn {bits v i : ℕ} {s : MaxImax} (h : Counts bits v (2 * i) s) (hbits : bits ≤ 64)
    (hmask : s.mask * 2 ^ i % 2 ^ bits = (2 ^ i - 1) * 2 ^ (bits - i)) :
    Counts bits v i (s.turn bits i) := by
  have hroom := h.zeros
  have hsplit : 2 ^ bits = 2 ^ (bits - i) * 2 ^ i := by
    rw [← Nat.pow_add, Nat.sub_add_cancel (by omega)]
  have hhigh : s.value / 2 ^ (bits - i) < 2 ^ i := Nat.div_lt_of_lt_mul (hsplit ▸ h.lt)
  unfold MaxImax.turn
  simp only [hmask, and_mask_eq_zero_iff, Nat.mod_eq_of_lt hhigh]
  by_cases hclear : s.value / 2 ^ (bits - i) = 0
  · -- the upper bits are clear, so that the shift loses nothing
    have hlow : s.value < 2 ^ (bits - i) := (Nat.div_eq_zero_iff_lt (Nat.two_pow_pos _)).mp hclear
    have hlt : s.value * 2 ^ i < 2 ^ bits :=
      hsplit ▸ Nat.mul_lt_mul_of_pos_right hlow (Nat.two_pow_pos i)
    have hzeros : (s.zeros + i) % 256 = s.zeros + i := Nat.mod_eq_of_lt (by omega)
    rw [if_pos hclear, Nat.mod_eq_of_lt hlt, hzeros]
    refine ⟨?_, hlt, ?_, by dsimp only; omega⟩
    · rw [h.value, Nat.pow_add, Nat.mul_assoc]
    · have hpow : 2 ^ (bits - i) = 2 ^ (bits - 2 * i) * 2 ^ i := by
        rw [← Nat.pow_add]
        congr 1
        omega
      rw [hpow]
      exact Nat.mul_le_mul_right _ h.le
  · rw [if_neg hclear]
    refine ⟨h.value, h.lt, ?_, by dsimp only; omega⟩
    exact Nat.le_of_not_lt fun hlow => hclear (Nat.div_eq_of_lt hlow)

@[simp] theorem MaxImax.mask_turn (bits : ℕ) (s : MaxImax) (i : ℕ) :
    (s.turn bits i).mask = s.mask * 2 ^ i % 2 ^ bits := by
  unfold MaxImax.turn
  dsimp only
  split <;> rfl

/-- The zeros that are counted are at least those before, and at most the shifts in all. -/
theorem zeros_foldl_turn (bits : ℕ) {shifts : List ℕ} {s : MaxImax}
    (h : s.zeros + shifts.sum < 256) :
    s.zeros ≤ (shifts.foldl (MaxImax.turn bits) s).zeros ∧
      (shifts.foldl (MaxImax.turn bits) s).zeros ≤ s.zeros + shifts.sum := by
  induction shifts generalizing s with
  | nil => simp
  | cons i shifts ih =>
    rw [List.sum_cons] at h ⊢
    have hturn : (s.turn bits i).zeros = s.zeros + i ∨ (s.turn bits i).zeros = s.zeros := by
      unfold MaxImax.turn
      dsimp only
      split
      · exact .inl (Nat.mod_eq_of_lt (by omega))
      · exact .inr rfl
    have hrest := @ih (s.turn bits i) (by omega)
    rw [List.foldl_cons]
    omega

/-! ### The configuration -/

/-- An interval that is doubled `n` times is not too large when one less would leave a bit of the
clock. -/
theorem mul_two_pow_le {bits v n : ℕ} (h : v * 2 ^ (n + 1) < 2 ^ bits) (hv : 0 < v) :
    (v + 1) * 2 ^ n ≤ 2 ^ (bits - 1) := by
  have hn : n + 1 < bits :=
    (Nat.pow_lt_pow_iff_right (by decide)).mp (Nat.lt_of_le_of_lt (Nat.le_mul_of_pos_left _ hv) h)
  have hsplit : 2 ^ bits = 2 ^ (bits - (n + 1)) * 2 ^ (n + 1) := by
    rw [← Nat.pow_add, Nat.sub_add_cancel hn.le]
  have hlt : v < 2 ^ (bits - (n + 1)) := Nat.lt_of_mul_lt_mul_right (hsplit ▸ h)
  calc (v + 1) * 2 ^ n ≤ 2 ^ (bits - (n + 1)) * 2 ^ n := Nat.mul_le_mul_right _ hlt
    _ = 2 ^ (bits - 1) := by rw [← Nat.pow_add]; congr 1; omega

section Config

variable {w : ClockWidth} {iMin : ℕ} {iMax k : UInt8}

theorem clockMax_half (w : ClockWidth) : w.trickleTimerClockMax / 2 + 1 = 2 ^ (w.bits - 1) := by
  cases w <;> rfl

/-- With 64 bits the first turn counts right unless it loses bits. -/
theorem counts_first {v : ℕ} (hv : 0 < v) (hlt : v < 2 ^ 64) (hlost : ¬ LosesBits .w64 (v + 1)) :
    Counts 64 v 32 (MaxImax.turn 64 ⟨v, 0xFFFF, 0⟩ 32) := by
  have hmask : 0xFFFF * 2 ^ 32 % 2 ^ 64 = (2 ^ 16 - 1) * 2 ^ 32 := by decide
  unfold MaxImax.turn
  simp only [hmask, and_mask_eq_zero_iff]
  by_cases hclear : v / 2 ^ 32 % 2 ^ 16 = 0
  · have hlow : v < 2 ^ 32 := by
      have hhigh : ¬ 2 ^ 48 ≤ v := fun h => hlost ⟨rfl, h, hclear⟩
      omega
    rw [if_pos hclear, Nat.mod_eq_of_lt (by omega)]
    exact ⟨rfl, by dsimp only; omega, by dsimp only; omega, Nat.le_refl 64⟩
  · rw [if_neg hclear]
    exact ⟨(Nat.mul_one v).symm, hlt, by dsimp only; omega, Nat.le_of_ble_eq_true rfl⟩

/-- The turns that all widths have. -/
theorem Counts.last {bits v : ℕ} {s : MaxImax} (h : Counts bits v 16 s)
    (hbits : bits = 16 ∨ bits = 32 ∨ bits = 64) (hmask : s.mask = 0xFFFF * 2 ^ (bits - 16)) :
    Counts bits v 1 ([8, 4, 2, 1].foldl (MaxImax.turn bits) s) := by
  have hle : bits ≤ 64 := by omega
  rcases hbits with rfl | rfl | rfl
  all_goals
    have h₈ := Counts.turn (i := 8) h hle (by simp [hmask])
    have h₄ := Counts.turn (i := 4) h₈ hle (by simp [hmask])
    have h₂ := Counts.turn (i := 2) h₄ hle (by simp [hmask])
    exact Counts.turn h₂ hle (by simp [hmask])

/-- The loop counts all leading zeros, unless it loses bits. -/
theorem counts_shifts {v : ℕ} (hv : 0 < v) (hlt : v < 2 ^ w.bits) (hlost : ¬ LosesBits w (v + 1)) :
    Counts w.bits v 1 (w.shifts.foldl (MaxImax.turn w.bits) ⟨v, 0xFFFF, 0⟩) := by
  have hstart : Counts w.bits v w.bits ⟨v, 0xFFFF, 0⟩ :=
    ⟨(Nat.mul_one v).symm, hlt, by rwa [Nat.sub_self, Nat.pow_zero], Nat.le_of_eq (Nat.zero_add _)⟩
  cases w with
  | w16 => exact hstart.last (.inl rfl) rfl
  | w32 =>
    have h₁₆ := Counts.turn (i := 16) hstart (by decide) (by simp [ClockWidth.bits])
    exact h₁₆.last (.inr (.inl rfl)) (by simp [ClockWidth.bits])
  | w64 =>
    have h₁₆ := Counts.turn (i := 16) (counts_first hv hlt hlost) (by decide)
      (by simp)
    exact h₁₆.last (.inr (.inr rfl)) (by simp)

/-- `value--` of a value that is not 0. -/
theorem maxImax_succ {v : ℕ} (hlt : v < 2 ^ w.bits) : maxImax w (v + 1) =
    ((w.shifts.foldl (MaxImax.turn w.bits) ⟨v, 0xFFFF, 0⟩).zeros + 255) % 256 := by
  have hpred : (v + 1 + (2 ^ w.bits - 1)) % 2 ^ w.bits = v := by
    rw [show v + 1 + (2 ^ w.bits - 1) = v + 2 ^ w.bits by omega, Nat.add_mod_right,
      Nat.mod_eq_of_lt hlt]
  rw [maxImax, hpred]

/-- The exponent that `max_imax` finds is not too large. -/
theorem two_pow_maxImax_le {v : ℕ} (hv : 0 < v) (hlt : v < 2 ^ (w.bits - 1))
    (hlost : ¬ LosesBits w (v + 1)) :
    (v + 1) * 2 ^ maxImax w (v + 1) ≤ 2 ^ (w.bits - 1) := by
  have hbits : 1 < w.bits ∧ w.bits ≤ 64 := by cases w <;> decide
  have hfull : v < 2 ^ w.bits :=
    Nat.lt_of_lt_of_le hlt (Nat.pow_le_pow_right (by decide) (Nat.sub_le _ _))
  have hc := counts_shifts hv hfull hlost
  rw [maxImax_succ hfull]
  generalize w.shifts.foldl (MaxImax.turn w.bits) ⟨v, 0xFFFF, 0⟩ = s at hc ⊢
  obtain ⟨hvalue, hbound, hle, hzeros⟩ := hc
  rw [hvalue] at hbound hle
  -- the highest bit of `v` is clear, so that at least one zero was counted
  obtain ⟨n, hn⟩ : ∃ n, s.zeros = n + 1 := by
    refine Nat.exists_eq_succ_of_ne_zero fun hnone => ?_
    rw [hnone] at hle
    omega
  rw [hn] at hbound ⊢
  rw [show (n + 1 + 255) % 256 = n by omega]
  exact mul_two_pow_le hbound hv

/-- Where bits are lost the exponent is far too large. -/
theorem le_maxImax_of_losesBits (h : LosesBits w iMin) (hlt : iMin ≤ 2 ^ 64) :
    31 ≤ maxImax w iMin ∧ 2 ^ 48 ≤ iMin := by
  obtain ⟨rfl, hhigh, hclear⟩ := h
  obtain ⟨v, rfl⟩ : ∃ v, iMin = v + 1 := Nat.exists_eq_add_of_le' (by omega)
  rw [Nat.add_sub_cancel] at hhigh hclear
  refine ⟨?_, by omega⟩
  have hfirst : (MaxImax.turn 64 ⟨v, 0xFFFF, 0⟩ 32).zeros = 32 := by
    have hmask : 0xFFFF * 2 ^ 32 % 2 ^ 64 = (2 ^ 16 - 1) * 2 ^ 32 := by decide
    unfold MaxImax.turn
    simp only [hmask, and_mask_eq_zero_iff]
    rw [if_pos hclear]
  rw [maxImax_succ hlt]
  change 31 ≤ (([16, 8, 4, 2, 1].foldl (MaxImax.turn 64)
    (MaxImax.turn 64 ⟨v, 0xFFFF, 0⟩ 32)).zeros + 255) % 256
  have hzeros := @zeros_foldl_turn 64 [16, 8, 4, 2, 1] (MaxImax.turn 64 ⟨v, 0xFFFF, 0⟩ 32)
    (by simp [hfirst])
  simp only [hfirst, List.sum_cons, List.sum_nil] at hzeros
  omega

/-- A success is exact when the interval, doubled as often as is stored, is at most half the clock's
range. -/
theorem exact_success {n : ℕ} (h : iMin * 2 ^ n ≤ 2 ^ (w.bits - 1)) :
    (ConfigResult.success ⟨iMin, n, iMin * 2 ^ n % 2 ^ w.bits, k.toNat⟩).Exact w := by
  have hlt : iMin * 2 ^ n < 2 ^ w.bits := by
    refine Nat.lt_of_le_of_lt h (Nat.pow_lt_pow_right (by decide) ?_)
    cases w <;> decide
  rw [ConfigResult.Exact, Nat.mod_eq_of_lt hlt, clockMax_half]
  exact ⟨rfl, h⟩

/-- **The configuration is exact** when it fails, and otherwise exactly when the exponent can be
shifted by and `max_imax`, where it is asked, loses no bits. -/
theorem trickle_config_exact_iff (w : ClockWidth) (iMin : ℕ) (iMax k : UInt8) :
    (trickleTimerConfig w iMin iMax k).Exact w ↔ IminIsBad w iMin ∨ (iMax = 0 ∨ k = 0) ∨
      iMax.toNat + 1 < w.promotedBits ∧ ¬ (IpairIsBad w iMin iMax ∧ LosesBits w iMin) := by
  unfold trickleTimerConfig
  by_cases hmin : IminIsBad w iMin
  · simp [hmin]
  by_cases hzero : iMax = 0 ∨ k = 0
  · simp [hzero]
  by_cases hshift : w.promotedBits ≤ iMax.toNat + 1
  · simp [hmin, hzero, hshift]
  rw [if_neg hshift]
  simp only [hmin, hzero, false_or, Nat.not_le.mp hshift, true_and]
  -- `i_min - 1` is neither 0 nor has it the highest bit
  have hhalf := clockMax_half w
  obtain ⟨hone, hmax⟩ := not_or.mp hmin
  obtain ⟨v, rfl⟩ : ∃ v, iMin = v + 1 := Nat.exists_eq_add_of_le' (by omega)
  by_cases hpair : IpairIsBad w (v + 1) iMax
  · rw [if_pos hpair]
    simp only [hpair, true_and]
    constructor
    · rintro ⟨habs, hle⟩ hlost
      have hlt : v + 1 ≤ 2 ^ 64 := by
        have : 2 ^ (w.bits - 1) ≤ 2 ^ 64 := by cases w <;> decide
        omega
      obtain ⟨hexp, hbig⟩ := le_maxImax_of_losesBits hlost hlt
      obtain ⟨rfl, -⟩ := hlost
      have hprod : 2 ^ 48 * 2 ^ 31 ≤ (v + 1) * 2 ^ maxImax .w64 (v + 1) :=
        Nat.mul_le_mul hbig (Nat.pow_le_pow_right (by decide) hexp)
      rw [← habs] at hprod
      exact absurd (Nat.le_trans hprod hle) (by decide)
    · intro hlost
      exact exact_success (two_pow_maxImax_le (by omega) (by omega) hlost)
  · simp only [hpair, false_and, not_false_eq_true, iff_true]
    refine exact_success (mul_two_pow_le ?_ (by omega))
    have hle : v ≤ w.trickleTimerClockMax / 2 ^ (iMax.toNat + 1) := Nat.le_of_not_lt hpair
    have hmul := (Nat.le_div_iff_mul_le (Nat.two_pow_pos _)).mp hle
    exact Nat.lt_of_le_of_lt hmul (Nat.sub_lt (Nat.two_pow_pos _) Nat.one_pos)

/-- With a clock of 64 bits an interval of `2 ^ 48 + 1` ticks gets an exponent of 62, and all but
one of its bits are lost. -/
theorem trickle_config_loses_bits :
    trickleTimerConfig .w64 (2 ^ 48 + 1) 15 1 = .success ⟨2 ^ 48 + 1, 62, 2 ^ 62, 1⟩ ∧
      2 ^ 62 ≠ (2 ^ 48 + 1) * 2 ^ 62 :=
  ⟨rfl, by decide⟩

end Config

end Nespy.Sys.Trickle
