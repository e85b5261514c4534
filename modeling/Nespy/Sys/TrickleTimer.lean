import Mathlib.Tactic.Common
import Nespy.Sys.Timer

/-!
# Sys — trickle timers

`lib/trickle-timer.c`, with compensation of drift.  The `ctimer` of a trickle timer is in `ct` while
it is set.  A timer event may come at any time, one that was queued before the timer was stopped
included; it is for nothing when the `ctimer` is not set.  The suppression status that the protocol
is told is left out.

`trickle_timer_stop` says that a timer is stopped by an `i_cur` of 0, and
`trickle_timer_inconsistency` takes every `i_cur` other than `i_min` for a timer that runs.  So a
reset wakes a timer that was stopped.
-/

namespace Nespy.Sys.Trickle

/-- The callbacks of the `ctimer`. -/
inductive TtCallback where
  | fire
  | doubleInterval

/-- The `ctimer` of a trickle timer, while it is set. -/
structure TtCtimer where
  callback : TtCallback
  timer : Timer

/-- `struct trickle_timer` -/
structure TrickleTimer where
  iMin : ClockTime
  iMaxAbs : ClockTime
  iCur : ClockTime
  iStart : ClockTime
  c : UInt8
  ct : Option TtCtimer

/-- What the protocol calls; a call that draws a number has it as `rand`. -/
inductive TtCall where
  | consistency
  | inconsistency (now : ClockTime) (rand : UInt32)
  | resetEvent (now : ClockTime) (rand : UInt32)
  | stop

/-- A step: a call, or an event of the `ctimer`, with the calls that the protocol makes if it is
called back. -/
inductive TtInput where
  | call (c : TtCall)
  | timerEvent (now : ClockTime) (rand : UInt32) (calls : List TtCall)

/-- A random time in the second half of the interval. -/
def getT (iCur : ClockTime) (rand : UInt32) : ClockTime :=
  (iCur >>> 1) + rand.toUInt64 % (iCur >>> 1)

/-- A time that is in the past is now. -/
def notPast (t : ClockTime) : ClockTime :=
  if (0xFFFFFFFFFFFFFFFF : ClockTime) >>> 1 < t then 0 else t

namespace TrickleTimer

variable (tt : TrickleTimer) (now : ClockTime) (rand : UInt32)

/-- The timer is set to call a function. -/
def ctimerSet (t : ClockTime) (callback : TtCallback) : TrickleTimer :=
  { tt with ct := some ⟨callback, timerSet now t⟩ }

/-- `TRICKLE_TIMER_INTERVAL_END` -/
def intervalEnd : ClockTime := tt.iStart + tt.iCur

/-- An interval begins now. -/
def newInterval : TrickleTimer :=
  { ({ tt with c := 0 }.ctimerSet now (getT tt.iCur rand) .fire) with iStart := now }

/-- A consistent message is counted, up to 255. -/
def trickleTimerConsistency : TrickleTimer := if tt.c < 0xFF then { tt with c := tt.c + 1 } else tt

/-- `trickle_timer_inconsistency`, which `trickle_timer_reset_event` is another name for. -/
def trickleTimerInconsistency : TrickleTimer :=
  if tt.iCur ≠ tt.iMin then { tt with iCur := tt.iMin }.newInterval now rand else tt

/-- The timer is stopped, and no callback waits. -/
def trickleTimerStop : TrickleTimer := { tt with ct := none, iCur := 0 }

/-- A call of the protocol. -/
def call : TtCall → TrickleTimer
  | .consistency => tt.trickleTimerConsistency
  | .inconsistency now rand | .resetEvent now rand => tt.trickleTimerInconsistency now rand
  | .stop => tt.trickleTimerStop

/-- The callback at the end of the interval. -/
def scheduleForEnd : TrickleTimer :=
  tt.ctimerSet now (notPast (tt.intervalEnd - now)) .doubleInterval

/-- `fire`, in which the protocol makes the calls. -/
def fire (calls : List TtCall) : TrickleTimer :=
  let tt := calls.foldl call tt
  if tt.iCur ≠ 0 then tt.scheduleForEnd now else tt

/-- The next interval begins where the last one ended, and is twice as long if it may. -/
def doubleInterval : TrickleTimer :=
  let iCur := if tt.iCur ≤ tt.iMaxAbs >>> 1 then tt.iCur <<< 1 else tt.iMaxAbs
  { ({ tt with c := 0, iCur }.ctimerSet now (notPast (tt.intervalEnd + getT iCur rand - now))
    .fire) with
    iStart := tt.intervalEnd }

/-- The `ctimer` is taken off when its event comes. -/
def step : TtInput → TrickleTimer
  | .call c => tt.call c
  | .timerEvent now rand calls =>
    match tt.ct with
    | none => tt
    | some ⟨.fire, _⟩ => { tt with ct := none }.fire now calls
    | some ⟨.doubleInterval, _⟩ => { tt with ct := none }.doubleInterval now rand

/-- The step calls the protocol back. -/
@[simp] def CallsBack : TtInput → Prop
  | .call _ => False
  | .timerEvent .. => ∃ t, tt.ct = some ⟨.fire, t⟩

/-- The protocol is not called back in a run. -/
@[simp] def Silent : TrickleTimer → List TtInput → Prop
  | _, [] => True
  | tt, i :: is => ¬ tt.CallsBack i ∧ Silent (tt.step i) is

end TrickleTimer

/-- No timer event comes while the timer is `awake`, which a reset makes it until it is stopped. -/
@[simp] def Undisturbed : (awake : Bool) → List TtInput → Prop
  | _, [] => True
  | awake, .call .consistency :: is => Undisturbed awake is
  | _, .call (.inconsistency ..) :: is | _, .call (.resetEvent ..) :: is => Undisturbed true is
  | _, .call .stop :: is => Undisturbed false is
  | awake, .timerEvent .. :: is => awake = false ∧ Undisturbed awake is

namespace TrickleTimer

variable {tt : TrickleTimer}

/-- A timer that was stopped, or one that a reset has woken since. -/
def Rests (tt : TrickleTimer) : Bool → Prop
  | false => tt.ct = none ∧ tt.iCur = 0
  | true => (∃ t, tt.ct = some ⟨.fire, t⟩) ∧ tt.iCur = tt.iMin

theorem Rests.consistency {awake : Bool} (h : tt.Rests awake) :
    tt.trickleTimerConsistency.Rests awake := by
  unfold trickleTimerConsistency
  split
  · cases awake <;> exact h
  · exact h

/-- A reset wakes a timer, and does nothing to one that is awake. -/
theorem Rests.inconsistency {awake : Bool} (h : tt.Rests awake) (hmin : tt.iMin ≠ 0)
    (now : ClockTime) (rand : UInt32) : (tt.trickleTimerInconsistency now rand).Rests true := by
  unfold trickleTimerInconsistency
  cases awake with
  | false =>
    rw [if_pos (h.2 ▸ hmin.symm)]
    exact ⟨⟨_, rfl⟩, rfl⟩
  | true =>
    rw [if_neg (not_not.mpr h.2)]
    exact h

theorem iMin_call (tt : TrickleTimer) (c : TtCall) : (tt.call c).iMin = tt.iMin := by
  cases c with
  | consistency =>
    change tt.trickleTimerConsistency.iMin = tt.iMin
    unfold trickleTimerConsistency
    split <;> rfl
  | inconsistency now rand | resetEvent now rand =>
    change (tt.trickleTimerInconsistency now rand).iMin = tt.iMin
    unfold trickleTimerInconsistency
    split <;> rfl
  | stop => rfl

/-- **Run.**  Until the protocol is called back, resets and stops are all that counts. -/
theorem silent_iff_undisturbed {is : List TtInput} :
    ∀ {tt : TrickleTimer} {awake : Bool}, tt.Rests awake → tt.iMin ≠ 0 →
      (tt.Silent is ↔ Undisturbed awake is) := by
  induction is with
  | nil =>
    intro tt awake _ _
    exact Iff.rfl
  | cons i is ih =>
    intro tt awake h hmin
    cases i with
    | call c =>
      have hnext : (tt.call c).iMin ≠ 0 := by rwa [iMin_call]
      have hquiet : tt.Silent (.call c :: is) ↔ (tt.call c).Silent is := by
        simp [step]
      rw [hquiet]
      cases c with
      | consistency => exact ih h.consistency hnext
      | inconsistency now rand | resetEvent now rand =>
        exact ih (h.inconsistency hmin now rand) hnext
      | stop => exact ih ⟨rfl, rfl⟩ hnext
    | timerEvent now rand calls =>
      cases awake with
      | false =>
        -- the event is for nothing
        have hstep : tt.step (.timerEvent now rand calls) = tt := by simp only [step, h.1]
        rw [Silent, hstep, ih h hmin]
        simp [h.1]
      | true =>
        obtain ⟨t, ht⟩ := h.1
        simp [ht]

/-- **A stopped timer stays stopped** until it is set again, exactly as long as no timer event comes
after a reset that is not stopped in turn. -/
theorem stopped_stays_stopped_iff (tt : TrickleTimer) (hmin : tt.iMin ≠ 0) (is : List TtInput) :
    tt.trickleTimerStop.Silent is ↔ Undisturbed false is :=
  @silent_iff_undisturbed is tt.trickleTimerStop false ⟨rfl, rfl⟩ hmin

/-- A timer that runs, with intervals from 8 to 64. -/
def running : TrickleTimer where
  iMin := 8
  iMaxAbs := 64
  iCur := 16
  iStart := 0
  c := 0
  ct := some ⟨.fire, ⟨0, 10⟩⟩

theorem stopped_stays_stopped_queued :
    running.trickleTimerStop.Silent [.call .consistency, .timerEvent 10 0 []] :=
  (stopped_stays_stopped_iff running (by decide) _).mpr ⟨rfl, trivial⟩

/-- After an inconsistency the protocol of a stopped timer is called back. -/
theorem stopped_timer_fires :
    ¬ running.trickleTimerStop.Silent [.call (.inconsistency 20 0), .timerEvent 24 0 []] := by
  rintro ⟨-, hquiet, -⟩
  exact hquiet ⟨_, rfl⟩

/-- Bounds of the interval; `get_t` has a half to divide by. -/
structure Bounds where
  iMin : ClockTime
  iMaxAbs : ClockTime
  two_le : 2 ≤ iMin
  min_le : iMin ≤ iMaxAbs

variable {b : Bounds} (now : ClockTime) (first rand : UInt32)

/-- `trickle_timer_set`, whose first interval is drawn by `first`. -/
def trickleTimerSet (tt : TrickleTimer) : TrickleTimer :=
  { tt with iCur := tt.iMin + first.toUInt64 % (tt.iMaxAbs - tt.iMin + 1) }.newInterval now rand

/-- A timer is stopped, or it runs within the bounds; then the `ctimer` is set, except in `fire`. -/
def Sound (b : Bounds) (inFire : Bool) (tt : TrickleTimer) : Prop :=
  tt.iMin = b.iMin ∧ tt.iMaxAbs = b.iMaxAbs ∧
    (tt.iCur = 0 ∧ tt.ct = none ∨ (b.iMin ≤ tt.iCur ∧ tt.iCur ≤ b.iMaxAbs) ∧
      (tt.ct.isSome ∨ inFire))

theorem Bounds.ne_zero {i : ClockTime} (h : b.iMin ≤ i) : i ≠ 0 := by
  rintro rfl
  exact absurd (UInt64.le_trans b.two_le h) (by decide)

theorem Sound.set (tt : TrickleTimer) (b : Bounds) :
    ({ tt with iMin := b.iMin, iMaxAbs := b.iMaxAbs }.trickleTimerSet now first rand).Sound b
      false := by
  have hspan : 0 < b.iMaxAbs - b.iMin + 1 := by grind [b.two_le, b.min_le]
  have hfirst := UInt64.mod_lt first.toUInt64 hspan
  refine ⟨rfl, rfl, .inr ⟨?_, .inl rfl⟩⟩
  change b.iMin ≤ b.iMin + _ ∧ b.iMin + _ ≤ b.iMaxAbs
  generalize first.toUInt64 % _ = x at hfirst ⊢
  grind [b.two_le, b.min_le]

/-- Doubling does not wrap around. -/
theorem Sound.double (hmin : tt.iMin = b.iMin) (hmax : tt.iMaxAbs = b.iMaxAbs)
    (h : b.iMin ≤ tt.iCur) :
    (tt.doubleInterval now rand).Sound b false := by
  have hshl : tt.iCur <<< 1 = tt.iCur * 2 := UInt64.toNat_inj.mp (by simp [Nat.shiftLeft_eq])
  have hshr : tt.iMaxAbs >>> 1 = tt.iMaxAbs / 2 :=
    UInt64.toNat_inj.mp (by simp [Nat.shiftRight_eq_div_pow])
  refine ⟨hmin, hmax, .inr ⟨?_, .inl rfl⟩⟩
  simp only [doubleInterval, ctimerSet]
  grind [b.min_le]

theorem Sound.call {inFire : Bool} (h : tt.Sound b inFire) (c : TtCall) :
    (tt.call c).Sound b inFire := by
  cases c with
  | consistency =>
    rw [TrickleTimer.call, trickleTimerConsistency]
    split <;> exact h
  | inconsistency now rand | resetEvent now rand =>
    rw [TrickleTimer.call, trickleTimerInconsistency]
    split
    · exact ⟨h.1, h.2.1, .inr ⟨h.1 ▸ ⟨UInt64.le_refl _, h.1 ▸ b.min_le⟩, .inl rfl⟩⟩
    · exact h
  | stop => exact ⟨h.1, h.2.1, .inl ⟨rfl, rfl⟩⟩

/-- **Step.** -/
theorem Sound.step (h : tt.Sound b false) (i : TtInput) : (tt.step i).Sound b false := by
  cases i with
  | call c => exact h.call c
  | timerEvent now rand calls =>
    obtain ⟨hmin, hmax, ⟨-, hct⟩ | ⟨hcur, -⟩⟩ := id h
    · rwa [TrickleTimer.step, hct]
    · rw [TrickleTimer.step]
      split
      · exact h
      · have hcalls : (calls.foldl TrickleTimer.call { tt with ct := none }).Sound b true :=
          List.foldlRecOn calls _ ⟨hmin, hmax, .inr ⟨hcur, .inr rfl⟩⟩ fun _ hs c _ => hs.call c
        rw [fire]
        obtain ⟨hmin, hmax, hstop | ⟨hcur, -⟩⟩ := hcalls
        · rw [if_neg (not_not.mpr hstop.1)]
          exact ⟨hmin, hmax, .inl hstop⟩
        · rw [if_pos (b.ne_zero hcur.1)]
          exact ⟨hmin, hmax, .inr ⟨hcur, .inl rfl⟩⟩
      · exact .double now rand hmin hmax hcur.1

/-- **A timer that was set runs exactly while its `ctimer` is set**, and within the bounds. -/
theorem running_iff_ctimer_set (tt : TrickleTimer) (b : Bounds) (is : List TtInput) :
    let tt' := is.foldl step ({ tt with iMin := b.iMin, iMaxAbs := b.iMaxAbs }.trickleTimerSet now
      first rand)
    (tt'.iCur ≠ 0 ↔ tt'.ct.isSome) ∧ (tt'.iCur ≠ 0 → b.iMin ≤ tt'.iCur ∧ tt'.iCur ≤ b.iMaxAbs) := by
  have hrun := List.foldlRecOn is step (Sound.set now first rand tt b) fun _ hs i _ => hs.step i
  obtain ⟨-, -, ⟨h0, hct⟩ | ⟨hcur, hct⟩⟩ := hrun
  · simp [h0, hct]
  · exact ⟨⟨fun _ => hct.resolve_right (by decide), fun _ => b.ne_zero hcur.1⟩, fun _ => hcur⟩

/-- Intervals from 8 to 64. -/
def bounds : Bounds := ⟨8, 64, by decide, by decide⟩

/-- Set with an interval of 8, the timer fires, and its interval is doubled. -/
theorem running_iff_ctimer_set_doubled :
    let tt' := [.timerEvent 4 0 [.consistency],
      .timerEvent 8 0 []].foldl step (running.trickleTimerSet 0 0 0)
    tt'.iCur = 16 ∧ tt'.ct.isSome ∧ bounds.iMin ≤ tt'.iCur ∧ tt'.iCur ≤ bounds.iMaxAbs := by
  obtain ⟨hiff, hbounds⟩ := running_iff_ctimer_set 0 0 0 running bounds
    [.timerEvent 4 0 [.consistency], .timerEvent 8 0 []]
  exact ⟨by decide, hiff.mp (by decide), hbounds (by decide)⟩

end TrickleTimer

end Nespy.Sys.Trickle
