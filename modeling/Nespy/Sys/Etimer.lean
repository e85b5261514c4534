import Nespy.Sys.Process
import Nespy.Sys.Timer

/-!
# Sys — event timers

`sys/etimer.c`, at the level of its pointers: `timerlist` and the `next` of each timer, which need
not make a list.  `T` are the timers, as many as there are addresses, and `P` the processes other
than `etimer_process`, which nothing exits; `PROCESS_NONE` is `none`, and so is `PROCESS_BROADCAST`,
which is the same address.  A loop over the timers that does not come to an end is `none`.

The kernel is here what `etimer_process` sees of it: the queue of events, which takes
`PROCESS_CONF_NUMEVENTS` of them, and its own `needspoll`.
-/

open Function

namespace Nespy.Sys

open Nespy.Lib

variable (T P : Type)

/-- An event in the queue: `PROCESS_EVENT_TIMER` of an event timer, or any other one. -/
inductive Posted where
  | timer (p : Option P) (t : T)
  | other
  deriving DecidableEq

/-- The event timers, the list of them and the events they have posted. -/
structure Etimers where
  /-- `etimer_process` was started. -/
  running : Bool
  timerlist : Option T
  next : T → Option T
  p : T → Option P
  timer : T → Timer
  /-- `next_expiration`; `none` when `update_time` never returned. -/
  nextExpiration : Option ClockTime
  needspoll : Bool
  events : List (Posted T P)

namespace Etimers

variable {T P : Type} [Fintype T] [DecidableEq T] [DecidableEq P] (s : Etimers T P)

/-- The timers on the list, if they come to an end. -/
def timers : Option (List T) := nodes s.next (Fintype.card T) s.timerlist

/-- `etimer_expiration_time` as a distance from `now`. -/
def distance (now : ClockTime) (t : T) : ClockTime := (s.timer t).start + (s.timer t).interval - now

/-- The next expiration is the nearest of the list. -/
def updateTime (now : ClockTime) : Etimers T P :=
  { s with nextExpiration := s.timers.map fun l =>
      match l with
      | [] => 0
      | t :: l => now + l.foldl (fun tdist t => min tdist (s.distance now t)) (s.distance now t) }

/-- `etimer_request_poll`. -/
def etimerRequestPoll : Etimers T P := { s with needspoll := s.needspoll || s.running }

/-- The search for `timer` in `add_timer`, which is not made if its process is `PROCESS_NONE`. -/
def search (timer : T) : Option (Option T) :=
  if s.p timer = none then some none else walk s.next (· = timer) (Fintype.card T) s.timerlist

/-- `add_timer`; `current` is `PROCESS_CURRENT()`. -/
def addTimer (current : Option P) (now : ClockTime) (timer : T) : Option (Etimers T P) :=
  let s := s.etimerRequestPoll
  match s.search timer with
  | none => none
  | some (some _) => some ({ s with p := update s.p timer current }.updateTime now)
  | some none =>
    some ({ s with p := update s.p timer current
                   next := update s.next timer s.timerlist
                   timerlist := some timer }.updateTime now)

/-- A change of `et->timer`. -/
def setTimer (t : T) (timer : Timer) : Etimers T P :=
  { s with timer := update s.timer t timer }

/-- The timer leaves the list, if it is on it. -/
def etimerStop (now : ClockTime) (et : T) : Option (Etimers T P) :=
  let unlinked :=
    if s.timerlist = some et then
      some ({ s with timerlist := s.next et }.updateTime now)
    else
      match walk s.next (fun t => s.next t = some et) (Fintype.card T) s.timerlist with
      | none => none
      | some (some t) => some ({ s with next := update s.next t (s.next et) }.updateTime now)
      | some none => some s
  unlinked.map fun s =>
    { s with next := update s.next et none, p := update s.p et none }

/-- `etimer_process` when the process `p` has exited. -/
def exited (p : P) : Option (Etimers T P) :=
  match walk s.next (fun t => s.p t ≠ some p) (Fintype.card T) s.timerlist with
  | none => none
  | some none => some { s with timerlist := none }
  | some (some t) =>
    (unlinkAll (fun t => s.p t = some p) (Fintype.card T) s.next t).map fun next =>
      { s with timerlist := some t, next := next }

/-- The timer `t` behind `u` has expired and its event was posted. -/
def expire (now : ClockTime) (u : Option T) (t : T) : Etimers T P :=
  let s := { s with events := s.events ++ [Posted.timer (s.p t) t], p := update s.p t none }
  let s := match u with
    | some u => { s with next := update s.next u (s.next t) }
    | none => { s with timerlist := s.next t }
  { s with next := update s.next t none }.updateTime now

/-- One pass of `etimer_process` over the list; it ends early, with `true`, when a timer was taken
off. -/
def scan (now : ClockTime) : ℕ → Etimers T P → Option T → Option T → Option (Etimers T P × Bool)
  | _, s, _, none => some (s, false)
  | 0, _, _, some _ => none
  | fuel + 1, s, u, some t =>
    if timerExpired now (s.timer t) then
      if s.events.length = processConfNumevents then
        scan now fuel s.etimerRequestPoll (some t) (s.next t)
      else some (s.expire now u t, true)
    else scan now fuel s (some t) (s.next t)

/-- The passes, as long as a timer is taken off. -/
def passes (now : ClockTime) : ℕ → Etimers T P → Option (Etimers T P)
  | 0, _ => none
  | fuel + 1, s =>
    match scan now (Fintype.card T) s none s.timerlist with
    | none => none
    | some (s, true) => passes now fuel s
    | some (s, false) => some s

/-- `etimer_process` when it is polled, by `do_poll`. -/
def poll (now : ClockTime) : Option (Etimers T P) :=
  passes now (Fintype.card T + 1) { s with needspoll := false }

end Etimers

/-! ### The machine -/

/-- The calls.  `post` and `deliver` are what the rest of the system does with the queue. -/
inductive EtimerCall where
  | start
  | etimerSet (et : T) (interval : ClockTime)
  | etimerResetWithNewInterval (et : T) (interval : ClockTime)
  | etimerReset (et : T)
  | etimerRestart (et : T)
  | etimerAdjust (et : T) (timediff : Int32)
  | etimerStop (et : T)
  | etimerRequestPoll
  | exited (p : P)
  | poll
  | post
  | deliver

namespace Etimers

variable {T P : Type} [Fintype T] [DecidableEq T] [DecidableEq P] (s : Etimers T P)

/-- One call, made while `current` is `PROCESS_CURRENT()`, at the time `now`. -/
def call (current : Option P) (now : ClockTime) : EtimerCall T P → Option (Etimers T P)
  | .start =>
    if s.running then some s else some { s with running := true, timerlist := none }
  | .etimerSet et interval => (s.setTimer et (timerSet now interval)).addTimer current now et
  | .etimerResetWithNewInterval et interval =>
    (s.setTimer et { timerReset (s.timer et) with interval := interval }).addTimer current now et
  | .etimerReset et => (s.setTimer et (timerReset (s.timer et))).addTimer current now et
  | .etimerRestart et => (s.setTimer et (timerRestart now (s.timer et))).addTimer current now et
  | .etimerAdjust et timediff =>
    let timer := s.timer et
    let start := timer.start + timediff.toInt64.toUInt64
    some ((s.setTimer et { timer with start := start }).updateTime now)
  | .etimerStop et => s.etimerStop now et
  | .etimerRequestPoll => some s.etimerRequestPoll
  | .exited p => if s.running then s.exited p else some s
  | .poll => if s.running then s.poll now else some s
  | .post =>
    if s.events.length = processConfNumevents then some s
    else some { s with events := s.events ++ [.other] }
  | .deliver => some { s with events := s.events.tail }

end Etimers

/-- What a call is made with. -/
structure EtimerInput where
  current : Option P
  now : ClockTime
  call : EtimerCall T P

/-- What a call means for the timers. -/
inductive EtimerEvent where
  | set (t : T) (p : Option P)
  | stopped (t : T)
  | exited (p : P)
  | posted (e : Posted T P)
  deriving DecidableEq

/-- The timer that a call puts on the list. -/
def EtimerCall.adds {T P : Type} : EtimerCall T P → Option T
  | .etimerSet et _ => some et
  | .etimerResetWithNewInterval et _ => some et
  | .etimerReset et => some et
  | .etimerRestart et => some et
  | _ => none

/-- The events of a call; `queued` is what it put into the queue. -/
def EtimerInput.events {T P : Type} (i : EtimerInput T P) (queued : List (Posted T P)) :
    List (EtimerEvent T P) :=
  match i.call with
  | .etimerStop et => [.stopped et]
  | .exited p => [.exited p]
  | .poll => queued.map .posted
  | call => call.adds.toList.map (.set · i.current)

namespace Etimers

variable {T P : Type} [Fintype T] [DecidableEq T] [DecidableEq P]

/-- One call, with the events that it posts. -/
def step (s : Etimers T P) (i : EtimerInput T P) : Option (Etimers T P × List (EtimerEvent T P)) :=
  (s.call i.current i.now i.call).map fun s' => (s', i.events (s'.events.drop s.events.length))

end Etimers

end Nespy.Sys
