import Nespy.Sys.Containers

/-!
# Coap — the list of timers

`net/app-layer/coap/coap-timer.c`: `timer_list` is kept in the order of the expiration times.  `T`
are the timers; the functions that read the clock take its value as `now`.  What a timer calls when
it expires is not said here: `expiredTimer` is the timer whose callback `coap_timer_run` calls.
-/

open Function

namespace Nespy.Coap

open Nespy.Sys

/-- `timer_list`, `is_initialized` and the `expiration_time` of each timer. -/
structure Timers (T : Type) where
  isInitialized : Bool
  timerList : List T
  expirationTime : T → UInt64

namespace Timers

variable {T : Type} [DecidableEq T] (s : Timers T)

/-- The loop of `add_timer`: the item the timer is inserted behind. -/
def findPrev (expirationTime : T → UInt64) (timer : T) : Option T → List T → Option T
  | l, [] => l
  | l, n :: rest =>
    if expirationTime timer < expirationTime n then l
    else findPrev expirationTime timer (some n) rest

/-- The timer comes behind those that are due before it. -/
def addTimer (timer : T) : Timers T :=
  let list := if s.isInitialized then s.timerList else []
  let list := listRemove list timer
  { s with isInitialized := true
           timerList := listInsert list (findPrev s.expirationTime timer none list) timer }

/-- The timer leaves the list. -/
def coapTimerStop (timer : T) (now : UInt64) : Timers T :=
  { s with expirationTime := update s.expirationTime timer now
           timerList := listRemove s.timerList timer }

/-- The timer is set to a time from now. -/
def coapTimerSet (timer : T) (time now : UInt64) : Timers T :=
  { s with expirationTime := update s.expirationTime timer (now + time) }.addTimer timer

/-- The timer that `coap_timer_run` finds expired. -/
def expiredTimer (now : UInt64) : Option T :=
  s.timerList.head?.filter fun next => s.expirationTime next ≤ now

/-- `coap_timer_run` up to the callback of that timer. -/
def takeTimer (next : T) : Timers T := { s with timerList := listRemove s.timerList next }

/-! ### The timers on the list -/

/-- Each timer is on the list once, and before the list is initialized it is empty. -/
structure Ok : Prop where
  nodup : s.timerList.Nodup
  init : s.isInitialized = false → s.timerList = []

omit [DecidableEq T] in
theorem findPrev_mem {e : T → UInt64} {timer : T} {l : List T} : ∀ {p : Option T} {q : T},
    findPrev e timer p l = some q → p = some q ∨ q ∈ l := by
  induction l with
  | nil => exact fun h => .inl h
  | cons n l ih =>
    intro p q h
    rw [findPrev] at h
    split at h
    · exact .inl h
    · rcases ih h with hn | hq
      · exact .inr (Option.some.inj hn ▸ List.mem_cons_self)
      · exact .inr (List.mem_cons_of_mem _ hq)

variable {s} {timer t : T} {now : UInt64}

omit [DecidableEq T] in
/-- `coap_timer_init` empties a list that is empty. -/
theorem Ok.list_eq (h : s.Ok) : (if s.isInitialized then s.timerList else []) = s.timerList := by
  cases hinit : s.isInitialized with
  | false => exact (h.init hinit).symm
  | true => rfl

section

variable (h : s.Ok)

include h

theorem addTimer_perm (timer : T) :
    (s.addTimer timer).timerList.Perm (timer :: listRemove s.timerList timer) := by
  rw [addTimer, h.list_eq]
  refine listInsert_perm (fun hmem => ((mem_listRemove h.nodup).mp hmem).1 rfl) fun q hq => ?_
  exact (findPrev_mem hq).resolve_left (Option.some_ne_none q).symm

theorem addTimer_ok (timer : T) : (s.addTimer timer).Ok where
  nodup := by
    rw [(addTimer_perm h timer).nodup_iff, List.nodup_cons]
    exact ⟨fun hmem => ((mem_listRemove h.nodup).mp hmem).1 rfl, nodup_listRemove h.nodup⟩
  init hinit := by cases hinit

theorem mem_addTimer : t ∈ (s.addTimer timer).timerList ↔ t = timer ∨ t ∈ s.timerList := by
  rw [(addTimer_perm h timer).mem_iff, List.mem_cons, mem_listRemove h.nodup]
  by_cases ht : t = timer <;> simp [ht]

theorem coapTimerSet_ok (timer : T) (time now : UInt64) : (s.coapTimerSet timer time now).Ok := by
  have hs : Ok { s with expirationTime := update s.expirationTime timer (now + time) } :=
    ⟨h.nodup, h.init⟩
  exact addTimer_ok hs timer

theorem mem_coapTimerSet {time now : UInt64} :
    t ∈ (s.coapTimerSet timer time now).timerList ↔ t = timer ∨ t ∈ s.timerList := by
  have hs : Ok { s with expirationTime := update s.expirationTime timer (now + time) } :=
    ⟨h.nodup, h.init⟩
  exact mem_addTimer hs

theorem coapTimerStop_ok (timer : T) (now : UInt64) : (s.coapTimerStop timer now).Ok where
  nodup := nodup_listRemove h.nodup
  init hinit := by
    show listRemove s.timerList timer = []
    rw [h.init hinit]
    rfl

theorem mem_coapTimerStop :
    t ∈ (s.coapTimerStop timer now).timerList ↔ t ≠ timer ∧ t ∈ s.timerList :=
  mem_listRemove h.nodup

theorem takeTimer_ok (next : T) : (s.takeTimer next).Ok where
  nodup := nodup_listRemove h.nodup
  init hinit := by
    show listRemove s.timerList next = []
    rw [h.init hinit]
    rfl

theorem mem_takeTimer {next t : T} :
    t ∈ (s.takeTimer next).timerList ↔ t ≠ next ∧ t ∈ s.timerList :=
  mem_listRemove h.nodup

end

omit [DecidableEq T] in
theorem mem_of_expiredTimer {next : T} (h : s.expiredTimer now = some next) :
    next ∈ s.timerList := by
  obtain ⟨hhead, -⟩ := Option.filter_eq_some_iff.mp h
  exact List.mem_of_head? hhead

end Timers

end Nespy.Coap
