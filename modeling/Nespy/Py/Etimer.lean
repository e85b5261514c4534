import Nespy.Py.Args
import Nespy.Sys.Etimer

/-!
# Py — event timers

`lib/py/obj-etimer.c`.  A program gives the period of a timer in milliseconds, and `ns_etimer_start`
makes ticks of it, of which `CLOCK_SECOND` go into a second.  The conversion divides a second by a
divisor.  For a period below a second the divisor is how often the period goes into a second, so the
interval is that of the rounded divisor (`interval_of_lt`); from a second on it is the number of
whole seconds, so the interval gets shorter the longer the period is.  Only where the period divides
a second is the interval the one that was asked for.
-/

namespace Nespy.Py

open Sys

/-- `CLOCK_SECOND`. -/
def clockSecond : ClockTime := 1000000

/-- `ns_etimer_obj_t` -/
structure EtimerObj where
  period : ClockTime

/-- The period is in milliseconds. -/
def nsEtimerMakeNew (call : CallArgs) : Except PyError EtimerObj :=
  if call.IsEmpty then .error (.valueError "ns: invalid arguments")
  else
    (call.mpArgParseAll [⟨"period", .int, .int 0⟩]).bind fun args =>
      match args.getD 0 .null with
      | .int 0 => .error (.valueError "ns: timer period can't be 0")
      | .int n => .ok ⟨UInt64.ofInt n⟩
      | _ => .error .typeError

namespace EtimerObj

variable (self : EtimerObj)

/-- The divisor, or the factor, of `CLOCK_SECOND`. -/
def div : UInt32 :=
  if self.period < 1000 then (1000 / self.period).toUInt32 else (self.period / 1000).toUInt32

/-- The interval for `etimer_set`; there is none when the divisor is 0. -/
def interval : Option ClockTime :=
  if self.div = 0 then none else some (clockSecond / self.div.toUInt64)

/-- The call that `ns_etimer_start` makes. -/
def nsEtimerStart {T P : Type} (timer : T) : Option (EtimerCall T P) :=
  self.interval.map (.etimerSet timer)

/-- The interval is at most a tick away from the period. -/
def Accurate : Prop := ∃ i ∈ self.interval, i.toNat ≤ self.period.toNat * 1000 + 1 ∧
  self.period.toNat * 1000 ≤ i.toNat + 1

variable {self}

theorem interval_of_lt (hpos : 0 < self.period.toNat) (hlt : self.period.toNat < 1000) :
    ∃ i ∈ self.interval, i.toNat = self.period.toNat * 1000 +
      1000 * (1000 % self.period.toNat) / (1000 / self.period.toNat) := by
  have hdivpos : 0 < 1000 / self.period.toNat := Nat.div_pos hlt.le hpos
  have hdivle : 1000 / self.period.toNat ≤ 1000 := Nat.div_le_self _ _
  have hdiv : self.div.toNat = 1000 / self.period.toNat := by
    rw [div, if_pos (UInt64.lt_iff_toNat_lt.mpr hlt)]
    exact Nat.mod_eq_of_lt (Nat.lt_of_le_of_lt hdivle (by decide))
  have hne : self.div ≠ 0 := by
    intro h
    rw [h, UInt32.toNat_zero] at hdiv
    omega
  refine ⟨_, if_neg hne, ?_⟩
  rw [UInt64.toNat_div, UInt32.toNat_toUInt64, hdiv]
  -- a second is the divisor times the period and a rest
  have hsecond : clockSecond.toNat = 1000 * (1000 % self.period.toNat) +
      1000 / self.period.toNat * (self.period.toNat * 1000) := by
    have hrest := Nat.mod_add_div 1000 self.period.toNat
    rw [← Nat.mul_assoc, Nat.mul_comm (1000 / _), Nat.mul_comm _ 1000, ← Nat.mul_add, hrest]
    rfl
  rw [hsecond, Nat.add_mul_div_left _ _ hdivpos, Nat.add_comm]

/-- The interval is never more than one second. -/
theorem interval_le {i : ClockTime} (hi : i ∈ self.interval) : i.toNat ≤ 1000000 := by
  rw [interval, Option.mem_def, Option.ite_none_left_eq_some] at hi
  rw [← Option.some.inj hi.2]
  exact Nat.div_le_self _ _

/-- Where the period divides a second, the interval is exact. -/
theorem interval_of_dvd (h : self.period.toNat ∣ 1000) :
    ∃ i ∈ self.interval, i.toNat = self.period.toNat * 1000 := by
  rcases (Nat.le_of_dvd (by decide) h).lt_or_eq with hlt | heq
  · obtain ⟨i, hi, heq⟩ := interval_of_lt (Nat.pos_of_dvd_of_pos h (by decide)) hlt
    rw [Nat.mod_eq_zero_of_dvd h, Nat.zero_div, Nat.add_zero] at heq
    exact ⟨i, hi, heq⟩
  · obtain ⟨p⟩ := self
    obtain rfl : p = 1000 := UInt64.toNat_inj.mp heq
    exact ⟨1000000, rfl, rfl⟩

theorem accurate_iff (hpos : 0 < self.period.toNat) : self.Accurate ↔ self.period.toNat ∣ 1000 := by
  constructor
  · rintro ⟨i, hi, hle, hge⟩
    rcases Nat.lt_or_ge self.period.toNat 1000 with hlt | hlong
    · obtain ⟨j, hj, heq⟩ := interval_of_lt hpos hlt
      obtain rfl := Option.mem_unique hi hj
      -- a rest of one is already too much, since the divisor is at most 500 then
      refine Nat.dvd_of_mod_eq_zero (Nat.eq_zero_of_not_pos fun hrest => ?_)
      have hone : self.period.toNat ≠ 1 := fun h => by simp [h] at hrest
      have hdiv : 1000 / self.period.toNat ≤ 500 := Nat.div_le_of_le_mul (by omega)
      have hdivpos : 0 < 1000 / self.period.toNat := Nat.div_pos hlt.le hpos
      have htwo : 2 ≤ 1000 * (1000 % self.period.toNat) / (1000 / self.period.toNat) :=
        (Nat.le_div_iff_mul_le hdivpos).mpr (by omega)
      omega
    · have hone := interval_le hi
      exact ⟨1, by omega⟩
  · intro h
    obtain ⟨i, hi, heq⟩ := interval_of_dvd h
    exact ⟨i, hi, by omega, by omega⟩

end EtimerObj

/-- **Periods are milliseconds**, in the right order, exactly for those that divide a second. -/
theorem start_means_milliseconds_iff (p q : ClockTime) (hp : 0 < p.toNat) (hq : 0 < q.toNat) :
    (EtimerObj.Accurate ⟨p⟩ ∧ EtimerObj.Accurate ⟨q⟩ ∧
      (p ≤ q → ∀ i ∈ EtimerObj.interval ⟨p⟩, ∀ j ∈ EtimerObj.interval ⟨q⟩, i ≤ j)) ↔
    p.toNat ∣ 1000 ∧ q.toNat ∣ 1000 := by
  rw [EtimerObj.accurate_iff hp, EtimerObj.accurate_iff hq, ← and_assoc, and_iff_left_iff_imp]
  rintro ⟨hdp, hdq⟩ hle i hi j hj
  obtain ⟨i', hi', heqi⟩ := @EtimerObj.interval_of_dvd ⟨p⟩ hdp
  obtain ⟨j', hj', heqj⟩ := @EtimerObj.interval_of_dvd ⟨q⟩ hdq
  rw [Option.mem_unique hi hi', Option.mem_unique hj hj', UInt64.le_iff_toNat_le, heqi, heqj]
  exact Nat.mul_le_mul_right _ (UInt64.le_iff_toNat_le.mp hle)

theorem start_means_milliseconds_half : EtimerObj.Accurate ⟨500⟩ ∧ EtimerObj.Accurate ⟨1000⟩ := by
  have h := (start_means_milliseconds_iff 500 1000 (by decide) (by decide)).mpr
    ⟨by decide, by decide⟩
  exact ⟨h.1, h.2.1⟩

/-- Two seconds are programmed as half a second, which is less than what one second is programmed
as. -/
theorem two_seconds_are_half :
    ¬ EtimerObj.Accurate ⟨2000⟩ ∧ EtimerObj.interval ⟨2000⟩ = some 500000 ∧
    EtimerObj.interval ⟨1000⟩ = some 1000000 := by
  refine ⟨?_, by decide, by decide⟩
  rintro ⟨i, hi, -, hge⟩
  obtain rfl : i = 500000 := Option.mem_unique hi (by decide)
  exact absurd hge (by decide)

end Nespy.Py
