import Mathlib.Data.Nat.Notation

/-!
# Sys — timers

`sys/timer.c`.  `clock_time_t` is `unsigned long`, 64 bits wide on the unix port, and the arithmetic
on it wraps.  The functions that read the clock take its value as `now`.
-/

namespace Nespy.Sys

/-- `clock_time_t`. -/
abbrev ClockTime := UInt64

/-- A time to start from, and an interval. -/
structure Timer where
  start : ClockTime
  interval : ClockTime
  deriving DecidableEq

/-- The interval counts from now. -/
def timerSet (now interval : ClockTime) : Timer := ⟨now, interval⟩

/-- `timer_reset`: the next interval starts where the last one ended. -/
def timerReset (t : Timer) : Timer := { t with start := t.start + t.interval }

/-- The same interval counts from now. -/
def timerRestart (now : ClockTime) (t : Timer) : Timer := { t with start := now }

/-- The interval is over; the sum may wrap around. -/
def timerExpired (now : ClockTime) (t : Timer) : Bool := t.interval < (now - t.start) + 1

/-- An expired timer's interval is over by the true time, of which the clock shows what fits. -/
theorem le_of_timerExpired {start now : ℕ} {interval : ClockTime} (hstart : start ≤ now)
    (h : timerExpired (UInt64.ofNat now) ⟨UInt64.ofNat start, interval⟩) :
    start + interval.toNat ≤ now := by
  have hlt : interval < UInt64.ofNat now - UInt64.ofNat start + 1 := of_decide_eq_true h
  have hle : (UInt64.ofNat (now - start) + 1).toNat ≤ now - start + 1 := by
    exact Nat.le_trans (Nat.mod_le _ _) (Nat.add_le_add_right (Nat.mod_le _ _) 1)
  rw [← UInt64.ofNat_sub hstart, UInt64.lt_iff_toNat_lt] at hlt
  omega

end Nespy.Sys
