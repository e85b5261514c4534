import Mathlib.Data.Fintype.Sum
import Nespy.Sys.Containers
import Nespy.Sys.Etimer

/-!
# Sys — callback timers

`sys/ctimer.c` over the event timers.  `C` are the callback timers, each with an event timer of its
own, and `X` the event timers of other modules.  A setting gives a timer a time at which its
interval is over, and `Due` is that time, told from the calls: `ctimer_set` and `ctimer_restart`
count from the call, and `ctimer_reset` from the end of the interval before.

The event of a timer waits in the queue between the poll that finds the timer expired and the
callback.  So the callback comes in time for the setting that the event was posted for, which is the
most recent one unless the timer is set again in between.  A timer is called back at most once for a
setting in any case, since it is on `ctimer_list` only until then.
-/

open List Option Function

namespace Nespy.Sys

open Nespy.Lib

/-- The fields of `struct ctimer` that say what to call; `f` may be `NULL`. -/
structure Callback (P F D : Type) where
  p : Option P
  f : Option F
  ptr : D
  deriving DecidableEq

/-- The callback timers over the event timers. -/
structure Ctimers (C X P F D : Type) where
  etimers : Etimers (C ⊕ X) P
  ctimerList : List C
  callback : C → Callback P F D
  initialized : Bool
  /-- The time, of which `clock_time` shows what fits. -/
  time : ℕ

/-- What happens to the callback timers. -/
inductive CtimerCall (C X P F D : Type) where
  | ctimerSet (c : C) (t : ClockTime) (callback : Callback P F D)
  | ctimerReset (c : C)
  | ctimerRestart (c : C)
  | ctimerStop (c : C)
  | tick (ticks : ℕ)
  /-- What else happens to the event timers and the queue, a poll or a delivery among it. -/
  | etimer (current : Option P) (call : EtimerCall X P)

/-- The timer that a call sets. -/
def CtimerCall.sets {C X P F D : Type} : CtimerCall C X P F D → Option C
  | .ctimerSet c _ _ => some c
  | .ctimerReset c => some c
  | .ctimerRestart c => some c
  | _ => none

/-- The timer that a call resets. -/
def CtimerCall.resets {C X P F D : Type} : CtimerCall C X P F D → Option C
  | .ctimerReset c => some c
  | _ => none

/-- What the calls mean for a callback timer; `now` is the time. -/
inductive CtimerEvent (C P F D : Type) where
  /-- The interval counts from now on. -/
  | set (c : C) (now : ℕ) (interval : ClockTime)
  /-- The interval counts from the end of the one before. -/
  | reset (c : C) (now : ℕ) (interval : ClockTime)
  | called (c : C) (now : ℕ) (callback : Callback P F D)
  deriving DecidableEq

/-- The timer whose event it is. -/
def Posted.timer? {T P : Type} : Posted T P → Option T
  | .timer _ t => some t
  | .other => none

/-- The same call, on one event timer among others. -/
def EtimerCall.map {T T' P : Type} (f : T → T') : EtimerCall T P → EtimerCall T' P
  | .start => .start
  | .etimerSet et interval => .etimerSet (f et) interval
  | .etimerResetWithNewInterval et interval => .etimerResetWithNewInterval (f et) interval
  | .etimerReset et => .etimerReset (f et)
  | .etimerRestart et => .etimerRestart (f et)
  | .etimerAdjust et timediff => .etimerAdjust (f et) timediff
  | .etimerStop et => .etimerStop (f et)
  | .etimerRequestPoll => .etimerRequestPoll
  | .exited p => .exited p
  | .poll => .poll
  | .post => .post
  | .deliver => .deliver

namespace Ctimers

variable {C X P F D : Type} [Fintype C] [Fintype X] [DecidableEq C] [DecidableEq X] [DecidableEq P]
  (s : Ctimers C X P F D)

/-- `clock_time`. -/
def clockTime : ClockTime := UInt64.ofNat s.time

variable (ctimerProcess : P)

/-- A call of `sys/etimer.c` for the timer of `c`, with `ctimer_process` as the context. -/
def withContext (call : EtimerCall (C ⊕ X) P) : Option (Ctimers C X P F D) :=
  (s.etimers.call (some ctimerProcess) s.clockTime call).map fun etimers =>
    { s with etimers := etimers }

/-- The loop over `ctimer_list` when `ctimer_process` starts. -/
def setAll (ctimerProcess : P) : Ctimers C X P F D → List C → Option (Ctimers C X P F D)
  | s, [] => some s
  | s, c :: cs =>
    (s.withContext ctimerProcess (.etimerSet (.inl c) (s.etimers.timer (.inl c)).interval)).bind
      fun s => setAll ctimerProcess s cs

/-- `ctimer_init`, with `ctimer_process` not running yet. -/
def ctimerInit : Option (Ctimers C X P F D) :=
  let s := { s with initialized := false, ctimerList := [] }
  (setAll ctimerProcess s s.ctimerList).map fun s => { s with initialized := true }

variable (c : C)

/-- The timer comes to the end of the list. -/
def add : Ctimers C X P F D := { s with ctimerList := listAdd s.ctimerList c }

/-- Writing the interval of a timer. -/
def setInterval (interval : ClockTime) : Ctimers C X P F D :=
  let timer := s.etimers.timer (.inl c)
  { s with etimers := s.etimers.setTimer (.inl c) { timer with interval := interval } }

/-- `ctimer_set_with_process`. -/
def ctimerSet (t : ClockTime) (callback : Callback P F D) : Option (Ctimers C X P F D) :=
  let s := { s with callback := update s.callback c callback }
  let set := if s.initialized then s.withContext ctimerProcess (.etimerSet (.inl c) t)
    else some (s.setInterval c t)
  set.map (·.add c)

/-- The interval counts from the end of the one before. -/
def ctimerReset : Option (Ctimers C X P F D) :=
  let reset := if s.initialized then s.withContext ctimerProcess (.etimerReset (.inl c)) else some s
  reset.map (·.add c)

/-- The interval counts from now. -/
def ctimerRestart : Option (Ctimers C X P F D) :=
  let restart := if s.initialized then s.withContext ctimerProcess (.etimerRestart (.inl c))
    else some s
  restart.map (·.add c)

/-- Before `ctimer_init` only the fields are cleared. -/
def ctimerStop : Option (Ctimers C X P F D) :=
  let stopped := if s.initialized then s.withContext ctimerProcess (.etimerStop (.inl c))
    else some { s with etimers := { s.etimers with
      next := update s.etimers.next (.inl c) none
      p := update s.etimers.p (.inl c) none } }
  stopped.map fun s => { s with ctimerList := listRemove s.ctimerList c }

/-- `ctimer_process` gets `PROCESS_EVENT_TIMER` of the event timer `et`. -/
def expired (et : C ⊕ X) : Ctimers C X P F D × List (CtimerEvent C P F D) :=
  match et with
  | .inl c =>
    if c ∈ s.ctimerList then
      ({ s with ctimerList := listRemove s.ctimerList c },
        if (s.callback c).f.isSome then [.called c s.time (s.callback c)] else [])
    else (s, [])
  | .inr _ => (s, [])

/-- The next event is delivered, to `ctimer_process` if it is for it or for all. -/
def deliver : Ctimers C X P F D × List (CtimerEvent C P F D) :=
  let s' := { s with etimers := { s.etimers with events := s.etimers.events.tail } }
  match s.etimers.events with
  | .timer p et :: _ =>
    if s.initialized && (p = some ctimerProcess || p = none) then s'.expired et else (s', [])
  | _ => (s', [])

/-- One call, with what it means for the timers. -/
def step (s : Ctimers C X P F D) :
    CtimerCall C X P F D → Option (Ctimers C X P F D × List (CtimerEvent C P F D))
  | .ctimerSet c t callback =>
    (s.ctimerSet ctimerProcess c t callback).map (·, [.set c s.time t])
  | .ctimerReset c =>
    let interval := (s.etimers.timer (.inl c)).interval
    (s.ctimerReset ctimerProcess c).map (·, [.reset c s.time interval])
  | .ctimerRestart c =>
    (s.ctimerRestart ctimerProcess c).map (·, [.set c s.time (s.etimers.timer (.inl c)).interval])
  | .ctimerStop c => (s.ctimerStop ctimerProcess c).map (·, [])
  | .tick ticks => some ({ s with time := s.time + ticks }, [])
  | .etimer _ .deliver => some (s.deliver ctimerProcess)
  | .etimer current call =>
    (s.etimers.call current s.clockTime (call.map .inr)).map fun etimers =>
      ({ s with etimers := etimers }, [])

end Ctimers

/-! ### What the calls do to the event timers -/

/-- The event timer that a call writes the times of. -/
def EtimerCall.writes {T P : Type} : EtimerCall T P → Option T
  | .etimerAdjust et _ => some et
  | call => call.adds

theorem EtimerCall.writes_map_inr {C X P : Type} {call : EtimerCall X P} (c : C) :
    (call.map Sum.inr).writes ≠ some (.inl c) := by
  cases call <;> simp [EtimerCall.map, EtimerCall.writes, EtimerCall.adds]

namespace Etimers

variable {T P : Type} [Fintype T] [DecidableEq T] {s s' : Etimers T P} {current : Option P}
  {now : ClockTime} {t : T}

theorem addTimer_frame (h : s.addTimer current now t = some s') :
    s'.timer = s.timer ∧ s'.events = s.events := by
  rw [addTimer] at h
  split at h
  · cases h
  · exact some.inj h ▸ ⟨rfl, rfl⟩
  · exact some.inj h ▸ ⟨rfl, rfl⟩

theorem etimerStop_frame (h : s.etimerStop now t = some s') :
    s'.timer = s.timer ∧ s'.events = s.events := by
  obtain ⟨s'', hs'', rfl⟩ := map_eq_some_iff.mp h
  split at hs''
  · exact some.inj hs'' ▸ ⟨rfl, rfl⟩
  · split at hs''
    · cases hs''
    · exact some.inj hs'' ▸ ⟨rfl, rfl⟩
    · exact some.inj hs'' ▸ ⟨rfl, rfl⟩

/-- What is in the queue now was there before, or is the event of a timer that has expired. -/
def Expires (now : ClockTime) (s s' : Etimers T P) : Prop :=
  ∀ p t, .timer p t ∈ s'.events → .timer p t ∈ s.events ∨ timerExpired now (s.timer t)

theorem expire_expires {u : Option T} (hexp : timerExpired now (s.timer t)) :
    (s.expire now u t).timer = s.timer ∧ Expires now s (s.expire now u t) := by
  have hevents : (s.expire now u t).events = s.events ++ [.timer (s.p t) t] := by cases u <;> rfl
  refine ⟨by cases u <;> rfl, fun p t' ht' => ?_⟩
  rw [hevents] at ht'
  rcases mem_append.mp ht' with hmem | hnew
  · exact .inl hmem
  · obtain ⟨-, rfl⟩ : p = s.p t ∧ t' = t := by simpa using hnew
    exact .inr hexp

theorem scan_expires {fuel : ℕ} {u head : Option T} {again : Bool}
    (h : scan now fuel s u head = some (s', again)) : s'.timer = s.timer ∧ Expires now s s' := by
  induction fuel generalizing s u head with
  | zero =>
    cases head with
    | none => exact (Prod.mk.inj (some.inj h)).1 ▸ ⟨rfl, fun _ _ => .inl⟩
    | some t => cases h
  | succ fuel ih =>
    cases head with
    | none => exact (Prod.mk.inj (some.inj h)).1 ▸ ⟨rfl, fun _ _ => .inl⟩
    | some t =>
      rw [scan] at h
      split at h
      · rename_i hexp
        split at h
        · exact ih (s := s.etimerRequestPoll) h
        · cases h
          exact expire_expires hexp
      · exact ih h

theorem passes_expires {fuel : ℕ} (h : passes now fuel s = some s') :
    s'.timer = s.timer ∧ Expires now s s' := by
  induction fuel generalizing s with
  | zero => cases h
  | succ fuel ih =>
    rw [passes] at h
    split at h
    · cases h
    · rename_i s₁ hscan
      obtain ⟨htimer₁, hexp₁⟩ := scan_expires hscan
      obtain ⟨htimer, hexp⟩ := ih h
      refine ⟨htimer.trans htimer₁, fun p t ht => ?_⟩
      rcases hexp p t ht with hmem | hnow
      · exact hexp₁ p t hmem
      · exact .inr (htimer₁ ▸ hnow)
    · rename_i s₁ hscan
      cases h
      exact scan_expires hscan

/-- **Frame.**  A call leaves the times of other timers alone, and queues events of expired timers
only. -/
theorem call_frame [DecidableEq P] {c : EtimerCall T P} (h : s.call current now c = some s') :
    (∀ t, c.writes ≠ some t → s'.timer t = s.timer t) ∧ Expires now s s' := by
  cases c with
  | start =>
    rw [call] at h
    split at h <;> exact some.inj h ▸ ⟨fun _ _ => rfl, fun _ _ => .inl⟩
  | etimerSet et interval | etimerResetWithNewInterval et interval
  | etimerReset et | etimerRestart et =>
    obtain ⟨htimer, hevents⟩ := addTimer_frame h
    refine ⟨fun t ht => ?_, fun p t ht => .inl (hevents ▸ ht)⟩
    have hne : t ≠ et := fun he => ht (congrArg some he.symm)
    rw [htimer]
    exact update_of_ne hne ..
  | etimerAdjust et timediff =>
    cases h
    refine ⟨fun t ht => ?_, fun _ _ => .inl⟩
    have hne : t ≠ et := fun he => ht (congrArg some he.symm)
    exact update_of_ne hne ..
  | etimerStop et =>
    obtain ⟨htimer, hevents⟩ := etimerStop_frame h
    exact ⟨fun t _ => htimer ▸ rfl, fun p t ht => .inl (hevents ▸ ht)⟩
  | etimerRequestPoll => exact some.inj h ▸ ⟨fun _ _ => rfl, fun _ _ => .inl⟩
  | exited p =>
    rw [call] at h
    split at h
    · rw [exited] at h
      split at h
      · cases h
      · exact some.inj h ▸ ⟨fun _ _ => rfl, fun _ _ => .inl⟩
      · obtain ⟨next, -, rfl⟩ := map_eq_some_iff.mp h
        exact ⟨fun _ _ => rfl, fun _ _ => .inl⟩
    · exact some.inj h ▸ ⟨fun _ _ => rfl, fun _ _ => .inl⟩
  | poll =>
    rw [call] at h
    split at h
    · obtain ⟨htimer, hexp⟩ := passes_expires h
      exact ⟨fun t _ => congrFun htimer t, hexp⟩
    · exact some.inj h ▸ ⟨fun _ _ => rfl, fun _ _ => .inl⟩
  | post =>
    rw [call] at h
    split at h
    · exact some.inj h ▸ ⟨fun _ _ => rfl, fun _ _ => .inl⟩
    · cases h
      exact ⟨fun _ _ => rfl, fun p t ht => .inl (by simpa using ht)⟩
  | deliver =>
    cases h
    exact ⟨fun _ _ => rfl, fun p t ht => .inl (mem_of_mem_tail ht)⟩

/-- The timer that a call sets. -/
theorem call_set [DecidableEq P] {timer : Timer}
    (h : (s.setTimer t timer).addTimer current now t = some s') :
    s'.timer t = timer ∧ (∀ t', t' ≠ t → s'.timer t' = s.timer t') ∧ s'.events = s.events := by
  obtain ⟨htimer, hevents⟩ := addTimer_frame h
  refine ⟨?_, fun t' ht' => ?_, hevents⟩
  · rw [htimer]
    exact update_self ..
  · rw [htimer]
    exact update_of_ne ht' ..

end Etimers

/-! ### Histories -/

/-- The time at which the interval of the most recent setting of each timer is over. -/
abbrev Due (C : Type) := C → Option ℕ

namespace Due

variable {C P F D : Type}

/-- A callback of the timer comes when the interval is over. -/
def Good (c : C) (due : Due C) : CtimerEvent C P F D → Prop
  | .called c' now _ => c' = c → ∀ d ∈ due c, d ≤ now
  | _ => True

/-- What a call means for the time that is due. -/
def update [DecidableEq C] (due : Due C) : CtimerEvent C P F D → Due C
  | .set c now interval => Function.update due c (some (now + interval.toNat))
  | .reset c _ interval => Function.update due c ((due c).map (· + interval.toNat))
  | .called .. => due

end Due

/-- The timers that were not called back since they were set. -/
abbrev Pending (C : Type) := C → Bool

namespace Pending

variable {C P F D : Type}

/-- A callback comes only for a timer that waits for it. -/
def Good (pending : Pending C) : CtimerEvent C P F D → Prop
  | .called c _ _ => pending c
  | _ => True

/-- A setting makes the timer wait, and the callback ends that. -/
def update [DecidableEq C] (pending : Pending C) : CtimerEvent C P F D → Pending C
  | .set c _ _ => Function.update pending c true
  | .reset c _ _ => Function.update pending c true
  | .called c _ _ => Function.update pending c false

end Pending

namespace Ctimers

variable {C X P F D : Type} [Fintype C] [Fintype X] [DecidableEq C] [DecidableEq X] [DecidableEq P]
  {ctimerProcess : P} {s s' : Ctimers C X P F D}

/-! ### What a step can do -/

/-- The timers' times are left alone, but for the one of `c`. -/
def SameBut (c : C) (s s' : Ctimers C X P F D) : Prop :=
  ∀ c', c' ≠ c → s'.etimers.timer (.inl c') = s.etimers.timer (.inl c')

/-- What a step does to the callback timers, when `ctimer_process` runs. -/
inductive Effect (s s' : Ctimers C X P F D) :
    CtimerCall C X P F D → List (CtimerEvent C P F D) → Prop where
  | set {i c interval} : i.sets = some c → s'.ctimerList = listAdd s.ctimerList c →
      s'.etimers.timer (.inl c) = ⟨s.clockTime, interval⟩ → SameBut c s s' →
      s'.etimers.events = s.etimers.events → s'.time = s.time →
        Effect s s' i [.set c s.time interval]
  | reset {c} : s'.ctimerList = listAdd s.ctimerList c →
      s'.etimers.timer (.inl c) = timerReset (s.etimers.timer (.inl c)) → SameBut c s s' →
      s'.etimers.events = s.etimers.events → s'.time = s.time →
      Effect s s' (.ctimerReset c) [.reset c s.time (s.etimers.timer (.inl c)).interval]
  | called {i c callback p} : c ∈ s.ctimerList → s'.ctimerList = listRemove s.ctimerList c →
      .timer p (.inl c) ∈ s.etimers.events → (∀ e ∈ s'.etimers.events, e ∈ s.etimers.events) →
      s'.etimers.timer = s.etimers.timer → s'.time = s.time →
        Effect s s' i [.called c s.time callback]
  | quiet {i} : s'.ctimerList.Sublist s.ctimerList →
      (∀ c, s'.etimers.timer (.inl c) = s.etimers.timer (.inl c)) →
      s.etimers.Expires s.clockTime s'.etimers → s.time ≤ s'.time → Effect s s' i []

variable {i : CtimerCall C X P F D} {es : List (CtimerEvent C P F D)} {due : Due C}

omit [Fintype C] [Fintype X] [DecidableEq X] in
/-- What the delivery of an event does. -/
theorem deliver_effect (hinit : s.initialized) :
    (s.deliver ctimerProcess).1.initialized ∧
      Effect s (s.deliver ctimerProcess).1 i (s.deliver ctimerProcess).2 := by
  have htail : s.etimers.Expires s.clockTime { s.etimers with events := s.etimers.events.tail } :=
    fun _ _ hmem => .inl (mem_of_mem_tail hmem)
  have hquiet :
      Effect s { s with etimers := { s.etimers with events := s.etimers.events.tail } } i [] :=
    .quiet (List.Sublist.refl _) (fun _ => rfl) htail le_rfl
  rw [deliver]
  split
  · rename_i p et events hevents
    split
    · cases et with
      | inr x => exact ⟨hinit, hquiet⟩
      | inl c =>
        rw [expired]
        split
        · rename_i hc
          split
          · refine ⟨hinit, .called hc rfl (p := p) ?_ (fun e he => mem_of_mem_tail he) rfl rfl⟩
            rw [hevents]
            exact mem_cons_self
          · exact ⟨hinit, .quiet erase_sublist (fun _ => rfl) htail le_rfl⟩
        · exact ⟨hinit, hquiet⟩
    · exact ⟨hinit, hquiet⟩
  · exact ⟨hinit, hquiet⟩

theorem etimer_effect {current : Option P} {call : EtimerCall X P} {etimers : Etimers (C ⊕ X) P}
    (h : s.etimers.call current s.clockTime (call.map .inr) = some etimers) :
    Effect s { s with etimers := etimers } i [] := by
  obtain ⟨htimer, hexp⟩ := Etimers.call_frame h
  exact .quiet (List.Sublist.refl _) (fun c => htimer _ (EtimerCall.writes_map_inr c)) hexp le_rfl

/-- **Inversion.**  What a step does, said once. -/
theorem step_effect (hinit : s.initialized) (h : s.step ctimerProcess i = some (s', es)) :
    s'.initialized ∧ Effect s s' i es := by
  cases i with
  | ctimerSet | ctimerRestart =>
    obtain ⟨s₁, h₁, hpair⟩ := map_eq_some_iff.mp h
    cases hpair
    obtain ⟨s₂, h₂, rfl⟩ := map_eq_some_iff.mp h₁
    obtain ⟨etimers, hcall, rfl⟩ := map_eq_some_iff.mp ((if_pos hinit).symm.trans h₂)
    obtain ⟨htimer, hsame, hevents⟩ := Etimers.call_set hcall
    exact ⟨hinit, .set rfl rfl htimer (fun c' hc' => hsame _ (by simpa using hc')) hevents rfl⟩
  | ctimerReset c =>
    obtain ⟨s₁, h₁, hpair⟩ := map_eq_some_iff.mp h
    cases hpair
    obtain ⟨s₂, h₂, rfl⟩ := map_eq_some_iff.mp h₁
    obtain ⟨etimers, hcall, rfl⟩ := map_eq_some_iff.mp ((if_pos hinit).symm.trans h₂)
    obtain ⟨htimer, hsame, hevents⟩ := Etimers.call_set hcall
    exact ⟨hinit, .reset rfl htimer (fun c' hc' => hsame _ (by simpa using hc')) hevents rfl⟩
  | ctimerStop c =>
    obtain ⟨s₁, h₁, hpair⟩ := map_eq_some_iff.mp h
    cases hpair
    obtain ⟨s₂, h₂, rfl⟩ := map_eq_some_iff.mp h₁
    obtain ⟨etimers, hcall, rfl⟩ := map_eq_some_iff.mp ((if_pos hinit).symm.trans h₂)
    obtain ⟨htimer, hevents⟩ := Etimers.etimerStop_frame hcall
    refine ⟨hinit, .quiet erase_sublist (fun c => congrFun htimer _) (fun p t ht => ?_) le_rfl⟩
    exact .inl (hevents ▸ ht)
  | tick ticks =>
    cases h
    exact ⟨hinit, .quiet (List.Sublist.refl _) (fun _ => rfl) (fun _ _ => .inl)
      (Nat.le_add_right ..)⟩
  | etimer current call =>
    cases call with
    | deliver =>
      obtain ⟨rfl, rfl⟩ := Prod.mk.inj (some.inj h)
      exact deliver_effect hinit
    | _ =>
      simp only [step] at h
      obtain ⟨etimers, hcall, hpair⟩ := map_eq_some_iff.mp h
      cases hpair
      exact ⟨hinit, etimer_effect hcall⟩

/-! ### At most one callback -/

/-- A timer waits on `ctimer_list` only until it is called back. -/
structure Waiting (s : Ctimers C X P F D) (pending : Pending C) : Prop where
  initialized : s.initialized
  nodup : s.ctimerList.Nodup
  pending : ∀ c ∈ s.ctimerList, pending c

/-- **Step.**  A timer on the list waits for its callback. -/
theorem step_waiting {pending : Pending C} (hs : s.Waiting pending)
    (h : s.step ctimerProcess i = some (s', es)) :
    s'.Waiting (es.foldl Pending.update pending) ∧
      AllGood Pending.update Pending.Good pending es := by
  obtain ⟨hinit, heffect⟩ := step_effect hs.initialized h
  have hadd : ∀ c, s'.ctimerList = listAdd s.ctimerList c →
      s'.Waiting (Function.update pending c true) := fun c hlist => by
    refine ⟨hinit, hlist ▸ nodup_listAdd hs.nodup, fun c' hc' => ?_⟩
    by_cases hcc : c' = c
    · rw [hcc, update_self]
    · rw [update_of_ne hcc]
      exact hs.pending c' (((mem_listAdd hs.nodup).mp (hlist ▸ hc')).resolve_left hcc)
  cases heffect with
  | set _ hlist | reset hlist => exact ⟨hadd _ hlist, trivial, trivial⟩
  | called hc hlist =>
    refine ⟨⟨hinit, hlist ▸ nodup_listRemove hs.nodup, fun c' hc' => ?_⟩, hs.pending _ hc, trivial⟩
    obtain ⟨hne, hmem⟩ := (mem_listRemove hs.nodup).mp (hlist ▸ hc')
    exact (update_of_ne hne ..).trans (hs.pending c' hmem)
  | quiet hlist =>
    exact ⟨⟨hinit, hs.nodup.sublist hlist, fun c hc => hs.pending c (hlist.subset hc)⟩, trivial⟩

/-! ### No callback before its time -/

/-- The timer is set when no event of it is in the queue, and reset when its interval is over. -/
def Timely (c : C) (s : Ctimers C X P F D) (i : CtimerCall C X P F D) : Prop :=
  (i.sets = some c → ∀ e ∈ s.etimers.events, e.timer? ≠ some (.inl c)) ∧
    (i.resets = some c → timerExpired s.clockTime (s.etimers.timer (.inl c)))

instance {c : C} {i : CtimerCall C X P F D} : Decidable (s.Timely c i) :=
  inferInstanceAs (Decidable (_ ∧ _))

/-- The time of the timer is that of its setting, and an event of it is queued only when that is
over. -/
structure OnTime (c : C) (s : Ctimers C X P F D) (due : Due C) : Prop where
  initialized : s.initialized
  timer : ∀ d ∈ due c, ∃ start ≤ s.time, ∃ interval,
    s.etimers.timer (.inl c) = ⟨UInt64.ofNat start, interval⟩ ∧ d ≤ start + interval.toNat
  queued : ∀ p, .timer p (.inl c) ∈ s.etimers.events → ∀ d ∈ due c, d ≤ s.time

variable {c c' : C} {v : Option ℕ}

omit [Fintype C] [Fintype X] [DecidableEq X] [DecidableEq P] in
/-- The timer is set when no event of it is queued. -/
theorem OnTime.setting (hinit : s'.initialized)
    (hqueue : ∀ e ∈ s.etimers.events, e.timer? ≠ some (.inl c))
    (hevents : s'.etimers.events = s.etimers.events) (htime : s'.time = s.time)
    (hc : ∀ d ∈ v, ∃ start ≤ s.time, ∃ interval,
      s'.etimers.timer (.inl c) = ⟨UInt64.ofNat start, interval⟩ ∧ d ≤ start + interval.toNat) :
    s'.OnTime c (update due c v) := by
  refine ⟨hinit, fun d hd => ?_, fun p hmem => ?_⟩
  · rw [update_self] at hd
    rw [htime]
    exact hc d hd
  · rw [hevents] at hmem
    exact absurd rfl (hqueue _ hmem)

omit [Fintype C] [Fintype X] [DecidableEq X] [DecidableEq P] in
/-- Another timer is set. -/
theorem OnTime.setting_other (hs : s.OnTime c due) (hne : c ≠ c') (hinit : s'.initialized)
    (hsame : SameBut c' s s') (hevents : s'.etimers.events = s.etimers.events)
    (htime : s'.time = s.time) : s'.OnTime c (update due c' v) := by
  refine ⟨hinit, ?_, ?_⟩
  · rw [update_of_ne hne, htime, hsame c hne]
    exact hs.timer
  · rw [update_of_ne hne, htime, hevents]
    exact hs.queued

/-- **Step.**  A setting in time keeps the timer on time. -/
theorem step_onTime (hs : s.OnTime c due) (hi : s.Timely c i)
    (h : s.step ctimerProcess i = some (s', es)) :
    s'.OnTime c (es.foldl Due.update due) ∧ AllGood Due.update (Due.Good c) due es := by
  obtain ⟨hinit, heffect⟩ := step_effect hs.initialized h
  cases heffect with
  | @set _ c' interval hsets hlist htimer hsame hevents htime =>
    refine ⟨?_, trivial, trivial⟩
    by_cases hc : c = c'
    · subst hc
      refine .setting hinit (hi.1 hsets) hevents htime fun d hd => ?_
      exact ⟨s.time, le_rfl, interval, htimer, (some.inj hd).ge⟩
    · exact hs.setting_other hc hinit hsame hevents htime
  | @reset c' hlist htimer hsame hevents htime =>
    refine ⟨?_, trivial, trivial⟩
    by_cases hc : c = c'
    · subst hc
      refine .setting hinit (hi.1 rfl) hevents htime fun d hd => ?_
      obtain ⟨d', hd', rfl⟩ := map_eq_some_iff.mp hd
      obtain ⟨start, hstart, interval, heq, hle⟩ := hs.timer d' hd'
      have hexp := hi.2 rfl
      rw [heq] at hexp htimer
      refine ⟨start + interval.toNat, le_of_timerExpired hstart hexp, interval, ?_, ?_⟩
      · rw [htimer, timerReset, UInt64.ofNat_add, UInt64.ofNat_toNat]
      · rw [heq]
        exact Nat.add_le_add_right hle _
    · exact hs.setting_other hc hinit hsame hevents htime
  | called hc hlist hqueued hevents htimer htime =>
    refine ⟨⟨hinit, ?_, ?_⟩, fun he d hd => hs.queued _ (he ▸ hqueued) d hd, trivial⟩
    · exact fun d hd => htime ▸ htimer ▸ hs.timer d hd
    · exact fun p hmem d hd => htime ▸ hs.queued p (hevents _ hmem) d hd
  | quiet hlist htimer hexp htime =>
    refine ⟨⟨hinit, fun d hd => ?_, fun p hmem d hd => ?_⟩, trivial⟩
    · obtain ⟨start, hstart, interval, heq, hle⟩ := hs.timer d hd
      exact ⟨start, hstart.trans htime, interval, (htimer c).trans heq, hle⟩
    · rcases hexp p _ hmem with hold | hnow
      · exact (hs.queued p hold d hd).trans htime
      · -- the poll found the timer expired
        obtain ⟨start, hstart, interval, heq, hle⟩ := hs.timer d hd
        rw [heq] at hnow
        exact (hle.trans (le_of_timerExpired hstart hnow)).trans htime

/-! ### Runs -/

variable {s₀ : Ctimers C X P F D} {tr : List (CtimerCall C X P F D × List (CtimerEvent C P F D))}

/-- **Callbacks respect the latest setting.**  From `ctimer_init` on, in every run a timer is called
back at most once for each time it is set.  In a run where a timer is set only when no event of it
waits in the queue, and reset only when its interval is over, whatever is done with the other
timers, a callback of it comes when the interval of its most recent setting is over, which
`ctimer_set` and `ctimer_restart` start with the call and `ctimer_reset` with the end of the
interval before. -/
theorem callbacks_respect_setting {boot : Ctimers C X P F D}
    (hinit : boot.ctimerInit ctimerProcess = some s₀) :
    (Runs (step ctimerProcess) (fun _ _ => True) s₀ tr s →
        AllGood Pending.update Pending.Good (fun _ => false) (events tr)) ∧
      ∀ c, Runs (step ctimerProcess) (Timely c) s₀ tr s →
        AllGood Due.update (Due.Good c) (fun _ => none) (events tr) := by
  cases hinit
  constructor
  · intro hrun
    refine (hrun.history Waiting (fun hs _ h => step_waiting hs h) ⟨rfl, nodup_nil, ?_⟩).2
    exact fun c hc => absurd hc not_mem_nil
  · intro c hrun
    refine (hrun.history (OnTime c) (fun hs hi h => step_onTime hs hi h) ⟨rfl, ?_, ?_⟩).2
    · exact fun d hd => absurd hd (not_mem_none d)
    · exact fun p _ d hd => absurd hd (not_mem_none d)

/-- `ctimer_init` with one callback timer and no other event timers. -/
def booted : Ctimers Unit Empty Unit Unit Unit :=
  { etimers :=
      { running := true, timerlist := none, next := fun _ => none, p := fun _ => none,
        timer := fun _ => ⟨0, 0⟩, nextExpiration := some 0, needspoll := false, events := [] }
    ctimerList := [], callback := fun _ => ⟨none, none, ()⟩, initialized := true, time := 0 }

/-- A timer of ten ticks is called back at 10, reset at 15 and called back at 20. -/
def periodic : List (CtimerCall Unit Empty Unit Unit Unit) :=
  [.ctimerSet () 10 ⟨none, some (), ()⟩, .tick 10, .etimer none .poll,
    .etimer none .deliver, .tick 5,
    .ctimerReset (), .tick 5, .etimer none .poll, .etimer none .deliver]

/-- What it means for the timer. -/
def periodicEvents : List (CtimerEvent Unit Unit Unit Unit) :=
  [.set () 0 10, .called () 10 ⟨none, some (), ()⟩, .reset () 15 10,
    .called () 20 ⟨none, some (), ()⟩]

theorem callbacks_respect_setting_periodic :
    ∃ tr s, Runs (step ()) (Timely ()) booted tr s ∧ events tr = periodicEvents ∧
      AllGood Due.update (Due.Good ()) (fun _ => none) periodicEvents := by
  have hexec : (execute (step ()) (Timely ()) booted periodic).map (fun r => events r.2) =
      some periodicEvents := by decide +kernel
  obtain ⟨tr, s, hrun, hes⟩ := exists_run_of_events hexec
  have hinit : booted.ctimerInit () = some booted := rfl
  exact ⟨tr, s, hrun, hes, hes ▸ (callbacks_respect_setting hinit).2 () hrun⟩

/-- The callback after `ctimer_reset` comes five ticks after that call, and the interval is ten. -/
theorem reset_counts_from_expiry :
    ∃ tr s, Runs (step ()) (fun _ _ => True) booted tr s ∧ ∃ before callback,
      events tr = before ++ [.reset () 15 10, .called () 20 callback] ∧ ¬15 + 10 ≤ 20 := by
  have hexec : (execute (step ()) (fun _ _ => True) booted periodic).map (fun r => events r.2) =
      some periodicEvents := by decide +kernel
  obtain ⟨tr, s, hrun, hes⟩ := exists_run_of_events hexec
  exact ⟨tr, s, hrun, [.set () 0 10, .called () 10 ⟨none, some (), ()⟩],
    ⟨none, some (), ()⟩, hes, by decide⟩

end Ctimers

end Nespy.Sys
