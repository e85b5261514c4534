import Nespy.Lib.Linked
import Nespy.Lib.Runs

/-!
# Sys — the process kernel

`sys/process.c`.  A process is called by the kernel and may itself call the kernel, so that the
functions below are left in the middle: what is still to be done when the callee returns is a
`Frame`, and the frames of all functions that are active make the stack.  The program has control
when the stack is empty or a thread is on top of it, and may then make any call; what else happens
is `go`, one turn of the loop on top.

`process_list` is a list of pointers, and the loops follow the `next` of processes that may have
left it. A loop that does not come to an end within one function is `none`.  The data of an event is
passed on to the thread and decides nothing in the kernel; it is left out.
-/

open Function

namespace Nespy.Sys

open Nespy.Lib

/-- `process_event_t`. -/
abbrev ProcessEvent := UInt8

/-- To a process that is started. -/
def processEventInit : ProcessEvent := 0x81

/-- To a process that was polled. -/
def processEventPoll : ProcessEvent := 0x82

/-- To a process that is to end. -/
def processEventExit : ProcessEvent := 0x83

/-- To all others when a process has ended. -/
def processEventExited : ProcessEvent := 0x87

/-- The length of the event queue. -/
def processConfNumevents : ℕ := 32

/-- `PROCESS_STATE_NONE`, `PROCESS_STATE_RUNNING` and `PROCESS_STATE_CALLED`. -/
inductive ProcessState where
  | none
  | running
  | called
  deriving DecidableEq

/-- Where a loop over the processes stands: before its test, or at a process, with the rest of the
turn left. -/
inductive Loop (P : Type) where
  | test (q : Option P)
  | turn (q : P)
  deriving DecidableEq

/-- What a function that is active has still to do. -/
inductive Frame (P : Type) where
  /-- `call_process` waits for the thread of `p`. -/
  | callProcess (p : P) (ev : ProcessEvent)
  /-- `exit_process` tells the other processes that `p` exits. -/
  | exitProcess (p : P) (fromprocess oldCurrent : Option P) (pos : Loop P)
  /-- `exit_process` waits for the thread of `p`, which it calls itself. -/
  | exitThread (p : P)
  /-- `exit_process` takes `p` off the list. -/
  | unlink (p : P) (oldCurrent : Option P)
  | doPoll (pos : Loop P)
  /-- `do_event` broadcasts an event. -/
  | doEvent (ev : ProcessEvent) (pos : Loop P)
  /-- The same, between the poll and the call of `q`. -/
  | doEventCall (ev : ProcessEvent) (q : P)
  | processPostSynch (caller : Option P)
  /-- `process_run` between its two halves. -/
  | processRun
  deriving DecidableEq

/-- The variables of the kernel, with the functions that are at work. -/
structure Kernel (P : Type) where
  processList : Option P
  next : P → Option P
  state : P → ProcessState
  needspoll : P → Bool
  /-- `p->thread` is not `NULL`. -/
  thread : P → Bool
  pollRequested : Bool
  processCurrent : Option P
  /-- The queue; `PROCESS_BROADCAST` is `none`. -/
  events : List (ProcessEvent × Option P)
  stack : List (Frame P)

/-- The functions that a program calls. -/
inductive ProcessCall (P : Type) where
  | processStart (p : P)
  | processExit (p : P)
  | processPost (p : Option P) (ev : ProcessEvent)
  | processPostSynch (p : P) (ev : ProcessEvent)
  | processPoll (p : Option P)
  | processRun
  deriving DecidableEq

/-- What can happen: the program that has control makes a call or, if it is a thread, returns, with
`exited` if that is `PT_EXITED` or `PT_ENDED`; or the kernel goes on. -/
inductive KernelInput (P : Type) where
  | call (c : ProcessCall P)
  | ret (exited : Bool)
  | go
  deriving DecidableEq

/-- The program has control above this frame. -/
def Frame.isThread {P : Type} : Frame P → Bool
  | .callProcess .. => true
  | .exitThread _ => true
  | _ => false

/-- The process whose thread `call_process` waits for. -/
def Frame.calls {P : Type} : Frame P → Option P
  | .callProcess p _ => some p
  | _ => none

namespace Kernel

variable {P : Type} (s : Kernel P)

/-- The processes whose threads are at work, the innermost first. -/
def calls : List P := s.stack.filterMap Frame.calls

/-- A function begins its work. -/
@[simp] def push (f : Frame P) : Kernel P := { s with stack := f :: s.stack }

section

variable [DecidableEq P]

/-- Writing the state of a process. -/
@[simp] def setState (p : P) (state : ProcessState) : Kernel P :=
  { s with state := update s.state p state }

/-- `call_process`, up to where the thread is called. -/
def callProcess (p : P) (ev : ProcessEvent) : Kernel P :=
  if s.state p = .running ∧ s.thread p then
    { s.setState p .called with processCurrent := some p, stack := .callProcess p ev :: s.stack }
  else s

/-- `process_post_synch`: the process is called at once. -/
def processPostSynch (p : P) (ev : ProcessEvent) : Kernel P :=
  (s.push (.processPostSynch s.processCurrent)).callProcess p ev

/-- `process_post`; an event that finds the queue full is lost. -/
def processPost (p : Option P) (ev : ProcessEvent) : Kernel P :=
  if s.events.length = processConfNumevents then s else { s with events := s.events ++ [(ev, p)] }

/-- `process_poll`. -/
def processPoll (p : Option P) : Kernel P :=
  match p with
  | some p =>
    if s.state p = .running ∨ s.state p = .called then
      { s with needspoll := update s.needspoll p true, pollRequested := true }
    else s
  | none => s

/-- `do_poll`, up to its loop. -/
def doPoll : Kernel P :=
  { s with pollRequested := false, stack := .doPoll (.test s.processList) :: s.stack }

/-- `do_event`, up to its loop. -/
def doEvent : Kernel P :=
  match s.events with
  | [] => s
  | (ev, receiver) :: events =>
    let s := { s with events := events }
    match receiver with
    | none => s.push (.doEvent ev (.test s.processList))
    | some p => (if ev = processEventInit then s.setState p .running else s).callProcess p ev

/-- `process_run`: the polls, and then one event. -/
def processRun : Kernel P :=
  if s.pollRequested then (s.push .processRun).doPoll else s.doEvent

end

variable [Fintype P] [DecidableEq P]

/-- The search for a process on the list. -/
def search (p : P) : Option (Option P) := walk s.next (· = p) (Fintype.card P) s.processList

/-- `process_start`, unless the process is on the list. -/
def processStart (p : P) : Option (Kernel P) :=
  match s.search p with
  | none => none
  | some (some _) => some s
  | some none =>
    let s := { s with next := update s.next p s.processList, processList := some p }
    some ((s.setState p .running).processPostSynch p processEventInit)

/-- `exit_process`, up to its loop. -/
def exitProcess (p : P) (fromprocess : Option P) : Option (Kernel P) :=
  match s.search p with
  | none => none
  | some none => some s
  | some (some _) =>
    if s.state p ≠ .none then
      some ((s.setState p .none).push
        (.exitProcess p fromprocess s.processCurrent (.test s.processList)))
    else some (s.push (.unlink p s.processCurrent))

/-- A call of the program. -/
def call : ProcessCall P → Option (Kernel P)
  | .processStart p => s.processStart p
  | .processExit p => s.exitProcess p s.processCurrent
  | .processPost p ev => some (s.processPost p ev)
  | .processPostSynch p ev => some (s.processPostSynch p ev)
  | .processPoll p => some (s.processPoll p)
  | .processRun => some s.processRun

/-- The thread on top returns. -/
def ret (exited : Bool) : Option (Kernel P) :=
  match s.stack with
  | .callProcess p ev :: stack =>
    let s := { s with stack := stack }
    if exited ∨ ev = processEventExit then s.exitProcess p (some p)
      else some (s.setState p .running)
  | .exitThread _ :: stack => some { s with stack := stack }
  | _ => none

/-- The function on top goes on. -/
def go : Option (Kernel P) :=
  match s.stack with
  | .exitProcess p fromprocess oldCurrent (.test none) :: stack =>
    let s := { s with stack := .unlink p oldCurrent :: stack }
    if s.thread p ∧ some p ≠ fromprocess then
      some { s with processCurrent := some p, stack := .exitThread p :: s.stack }
    else some s
  | .exitProcess p fromprocess oldCurrent (.test (some q)) :: stack =>
    let s := { s with stack := .exitProcess p fromprocess oldCurrent (.turn q) :: stack }
    some (if p ≠ q then s.callProcess q processEventExited else s)
  | .exitProcess p fromprocess oldCurrent (.turn q) :: stack =>
    some { s with stack := .exitProcess p fromprocess oldCurrent (.test (s.next q)) :: stack }
  | .unlink p oldCurrent :: stack =>
    (remove (Fintype.card P) s.processList s.next p).map fun (processList, next) =>
      { s with
        processList := processList, next := next, processCurrent := oldCurrent, stack := stack }
  | .doPoll (.test none) :: stack => some { s with stack := stack }
  | .doPoll (.test (some q)) :: stack =>
    let s := { s with stack := .doPoll (.turn q) :: stack }
    if s.needspoll q then
      let s := { s.setState q .running with needspoll := update s.needspoll q false }
      some (s.callProcess q processEventPoll)
    else some s
  | .doPoll (.turn q) :: stack => some { s with stack := .doPoll (.test (s.next q)) :: stack }
  | .doEvent _ (.test none) :: stack => some { s with stack := stack }
  | .doEvent ev (.test (some q)) :: stack =>
    if s.pollRequested then some (doPoll { s with stack := .doEventCall ev q :: stack })
    else some (callProcess { s with stack := .doEvent ev (.turn q) :: stack } q ev)
  | .doEventCall ev q :: stack =>
    some (callProcess { s with stack := .doEvent ev (.turn q) :: stack } q ev)
  | .doEvent ev (.turn q) :: stack =>
    some { s with stack := .doEvent ev (.test (s.next q)) :: stack }
  | .processPostSynch caller :: stack => some { s with processCurrent := caller, stack := stack }
  | .processRun :: stack => some (doEvent { s with stack := stack })
  | _ => none

/-- The program has control. -/
@[simp] def atProgram : Bool := s.stack.head?.all Frame.isThread

end Kernel

/-- One step of the machine. -/
def Kernel.step {P : Type} [Fintype P] [DecidableEq P] (s : Kernel P) (i : KernelInput P) :
    Option (Kernel P × Unit) :=
  match i with
  | .call c => if s.atProgram then (s.call c).map (·, ()) else none
  | .ret exited => (s.ret exited).map (·, ())
  | .go => s.go.map (·, ())

end Nespy.Sys
