import Nespy.Rpl.Dag
import Nespy.Sys.Timer

/-!
# Rpl — the ticks of the DIO timer

`new_dio_interval` and `handle_dio_timer` of `net/routing/rpl-classic/rpl-timers.c`, with the ticks
that `Dag` leaves out.  A second is `CLOCK_SECOND`, which is the `int` 1000000, and `clock_time_t`
has 64 bits. The milliseconds of an interval become ticks through a product of 32 bits.

**The intervals are right as long as `dio_intcurrent` does not come over 12** (`dio_intervals_iff`):
the product for `2 ^ 13` milliseconds is over `2 ^ 32`.  `RPL_DIO_INTERVAL_MIN` is 12, so with the
defaults it is the first doubling that makes the interval too short.
-/

open Nespy.Sys

namespace Nespy.Rpl

/-- `rpl_instance_t` with the rest of its timer; `dioTimer` is what the `ctimer` was last set to. -/
structure TimedInstance (m : ℕ) (N : Type) extends Instance m N where
  dioNextDelay : ClockTime
  dioTimer : ClockTime

/-- An interval in ticks; `time` and the product have 32 bits.  The shift has a meaning below 64. -/
def intervalTicks (dioIntcurrent : UInt8) : UInt32 :=
  let time : UInt32 := ((1 : UInt64) <<< dioIntcurrent.toUInt64).toUInt32
  time * 1000000 / 1000

namespace TimedInstance

variable {m : ℕ} {N : Type} (i : TimedInstance m N)

/-- `new_dio_interval`; `rand` is what `random_rand` returns. -/
def newDioInterval (rand : UInt16) : TimedInstance m N :=
  let ticks : ClockTime := (intervalTicks i.dioIntcurrent).toUInt64
  let delay := ticks / 2 + ticks / 2 * rand.toUInt64 / 65535
  { i with dioSend := true, dioNextDelay := ticks - delay, dioTimer := delay }

/-- `handle_dio_timer`; the node is `ready` when it has a link-local address.  The DIO is left
out. -/
def handleDioTimer (ready : Bool) (rand : UInt16) : TimedInstance m N :=
  if ¬ready then { i with dioTimer := 1000000 }
  else if i.dioSend then { i with dioSend := false, dioTimer := i.dioNextDelay }
  else
    newDioInterval { i with
      dioIntcurrent :=
        if i.dioIntcurrent.toNat < i.dioIntmin.toNat + i.dioIntdoubl.toNat then i.dioIntcurrent + 1
        else i.dioIntcurrent } rand

/-- Without a reset the timer comes from `i` to `j`, in an interval that should have `2 ^ n`
milliseconds, or to its beginning. -/
inductive In : ℕ → Bool → TimedInstance m N → Prop
  | first (rand) : In i.dioIntcurrent.toNat true (i.newDioInterval rand)
  | wait {n b j} (ready rand) : In n b j → ready = false ∨ j.dioSend →
      In n false (j.handleDioTimer ready rand)
  | next {n b j} (rand) : In n b j → j.dioSend = false →
      In (if n < i.dioIntmin.toNat + i.dioIntdoubl.toNat then n + 1 else n) true
        (j.handleDioTimer true rand)

/-- The interval that begins has `2 ^ n` milliseconds, and the DIO is in its second half. -/
def Exact (n : ℕ) : Prop :=
  1000 * 2 ^ n / 2 ≤ i.dioTimer.toNat ∧ i.dioTimer.toNat ≤ 1000 * 2 ^ n ∧
    i.dioNextDelay.toNat = 1000 * 2 ^ n - i.dioTimer.toNat

theorem intervalTicks_eq_iff :
    ∀ n ≤ 30, (intervalTicks (.ofNat n)).toNat = 1000 * 2 ^ n ↔ n ≤ 12 := by
  decide

/-- The second product has room in `clock_time_t`, and the random number is at most
`RANDOM_RAND_MAX`. -/
theorem newDioInterval_halved (rand : UInt16) :
    (intervalTicks i.dioIntcurrent).toNat / 2 ≤ (i.newDioInterval rand).dioTimer.toNat ∧
      (i.newDioInterval rand).dioTimer.toNat + (i.newDioInterval rand).dioNextDelay.toNat =
        (intervalTicks i.dioIntcurrent).toNat := by
  generalize ht : intervalTicks i.dioIntcurrent = t
  have hlt := t.toNat_lt
  have hmul : t.toNat / 2 * rand.toNat ≤ t.toNat / 2 * 65535 :=
    Nat.mul_le_mul_left _ (Nat.le_of_lt_succ rand.toNat_lt)
  have hdelay : (i.newDioInterval rand).dioTimer.toNat =
      t.toNat / 2 + t.toNat / 2 * rand.toNat / 65535 := by
    rw [newDioInterval, ht, UInt64.toNat_add, UInt64.toNat_div, UInt64.toNat_div, UInt64.toNat_mul,
      UInt64.toNat_div, UInt32.toNat_toUInt64, UInt16.toNat_toUInt64]
    change (t.toNat / 2 + t.toNat / 2 * rand.toNat % 2 ^ 64 / 65535) % 2 ^ 64 = _
    rw [Nat.mod_eq_of_lt (by omega : t.toNat / 2 * rand.toNat < 2 ^ 64),
      Nat.mod_eq_of_lt (by omega)]
  have hnext : (i.newDioInterval rand).dioNextDelay.toNat =
      t.toNat - (i.newDioInterval rand).dioTimer.toNat := by
    rw [← UInt32.toNat_toUInt64, ← ht]
    refine UInt64.toNat_sub_of_le _ _ (UInt64.le_iff_toNat_le.mpr (hdelay.trans_le ?_))
    rw [UInt32.toNat_toUInt64, ht]
    omega
  rw [hnext, hdelay]
  omega

variable {i} {j : TimedInstance m N} {n : ℕ}

theorem exact_newDioInterval_iff (hn : i.dioIntcurrent.toNat = n) (hle : n ≤ 30) (rand : UInt16) :
    (i.newDioInterval rand).Exact n ↔ n ≤ 12 := by
  obtain ⟨hhalf, hsum⟩ := i.newDioInterval_halved rand
  rw [← intervalTicks_eq_iff n hle, ← hn, UInt8.ofNat_toNat]
  constructor
  · rintro ⟨-, hle, hrest⟩
    omega
  · intro heq
    rw [heq] at hhalf hsum
    exact ⟨hhalf, by omega, by omega⟩

/-- The interval is the one that `dio_intcurrent` says. -/
structure Counts (i : TimedInstance m N) (n : ℕ) (j : TimedInstance m N) : Prop where
  intmin : j.dioIntmin = i.dioIntmin
  intdoubl : j.dioIntdoubl = i.dioIntdoubl
  intcurrent : j.dioIntcurrent.toNat = n
  le : n ≤ max i.dioIntcurrent.toNat (i.dioIntmin.toNat + i.dioIntdoubl.toNat)

/-- **Run.**  The intervals have the exponents they should have, and the length when that is not too
great. -/
theorem In.counts {b : Bool} (h : i.In n b j)
    (hmax : max i.dioIntcurrent.toNat (i.dioIntmin.toNat + i.dioIntdoubl.toNat) ≤ 30) :
    i.Counts n j ∧ (b → (j.Exact n ↔ n ≤ 12)) := by
  induction h with
  | first rand =>
    exact ⟨⟨rfl, rfl, rfl, Nat.le_max_left ..⟩,
      fun _ => exact_newDioInterval_iff rfl (by omega) rand⟩
  | @wait n _ j ready rand _ hwait ih =>
    have hsame : i.Counts n (j.handleDioTimer ready rand) := by
      cases ready with
      | false => exact ⟨ih.1.intmin, ih.1.intdoubl, ih.1.intcurrent, ih.1.le⟩
      | true =>
        rw [handleDioTimer, hwait.resolve_left (by decide)]
        exact ⟨ih.1.intmin, ih.1.intdoubl, ih.1.intcurrent, ih.1.le⟩
    exact ⟨hsame, fun hb => by cases hb⟩
  | @next n _ j rand _ hsend ih =>
    obtain ⟨⟨hmin, hdoubl, hcur, hle⟩, -⟩ := ih
    obtain ⟨c, hc⟩ : ∃ c, c = if j.dioIntcurrent.toNat < j.dioIntmin.toNat + j.dioIntdoubl.toNat
      then j.dioIntcurrent + 1 else j.dioIntcurrent := ⟨_, rfl⟩
    have hj' : j.handleDioTimer true rand = newDioInterval { j with dioIntcurrent := c } rand := by
      rw [handleDioTimer, hsend, ← hc]
      rfl
    rw [hj']
    rw [hmin, hdoubl, hcur] at hc
    split_ifs at hc ⊢ with hlt
    · have hcn : c.toNat = n + 1 := by
        rw [hc, UInt8.toNat_add, hcur, UInt8.toNat_one, Nat.mod_eq_of_lt (by omega)]
      exact ⟨⟨hmin, hdoubl, hcn, by omega⟩, fun _ => exact_newDioInterval_iff hcn (by omega) rand⟩
    · have hcn : c.toNat = n := hc ▸ hcur
      exact ⟨⟨hmin, hdoubl, hcn, hle⟩, fun _ => exact_newDioInterval_iff hcn (by omega) rand⟩

theorem exists_in (i : TimedInstance m N) (hle : i.dioIntcurrent.toNat ≤ n)
    (hmax : n ≤ max i.dioIntcurrent.toNat (i.dioIntmin.toNat + i.dioIntdoubl.toNat)) :
    ∃ j, i.In n true j ∧ j.dioSend := by
  induction n, hle using Nat.le_induction with
  | base => exact ⟨_, .first 0, rfl⟩
  | succ n hle ih =>
    obtain ⟨j, hin, hsend⟩ := ih (by omega)
    have hout : (j.handleDioTimer true 0).dioSend = false := by rw [handleDioTimer, hsend]; rfl
    have hnext := (hin.wait true 0 (.inr hsend)).next 0 hout
    rw [if_pos (by omega)] at hnext
    refine ⟨_, hnext, ?_⟩
    rw [handleDioTimer, hout]
    rfl

/-- **Intervals of the DIO timer.**  As long as the timer is not reset, every interval has the `2 ^
n` milliseconds that its count `n` stands for, if and only if the counts stay at 12 or below: from
13 on, the product with `CLOCK_SECOND` does not fit in 32 bits. -/
theorem dio_intervals_iff (i : TimedInstance m N)
    (hmax : max i.dioIntcurrent.toNat (i.dioIntmin.toNat + i.dioIntdoubl.toNat) ≤ 30) :
    (∀ n j, i.In n true j → j.Exact n) ↔
      max i.dioIntcurrent.toNat (i.dioIntmin.toNat + i.dioIntdoubl.toNat) ≤ 12 := by
  constructor
  · intro h
    obtain ⟨j, hin, -⟩ := i.exists_in (Nat.le_max_left ..) (Nat.le_refl _)
    exact ((hin.counts hmax).2 rfl).mp (h _ j hin)
  · intro hle n j hin
    exact ((hin.counts hmax).2 rfl).mpr ((hin.counts hmax).1.le.trans hle)

/-- The instance after a reset. -/
def reset (intmin intdoubl : UInt8) : TimedInstance 0 Empty :=
  ⟨{ RplState.zeroInstance with
      dioIntmin := intmin, dioIntdoubl := intdoubl, dioIntcurrent := intmin }, 0, 0⟩

theorem dio_intervals_to_twelve :
    (∃ j, (reset 3 9).In 12 true j) ∧ ∀ n j, (reset 3 9).In n true j → j.Exact n :=
  ⟨(exists_in _ (by decide) (by decide)).imp fun _ h => h.1,
    (dio_intervals_iff (reset 3 9) (by decide)).mpr (by decide)⟩

/-- With the defaults the second interval has 3897 milliseconds for 8192. -/
theorem second_interval_short : ¬∀ n j, (reset 12 8).In n true j → j.Exact n := by
  intro h
  have hsecond := h _ _ (.next 0 (.wait true 0 (.first 0) (.inr rfl)) rfl)
  revert hsecond
  unfold Exact
  decide

end TimedInstance

end Nespy.Rpl
