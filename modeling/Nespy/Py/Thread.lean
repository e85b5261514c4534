import Nespy.Py.Args
import Nespy.Sys.Process

/-!
# Py — threads

`lib/py/obj-process.c` and `NS_PROCESS_THREAD` of `lib/py/obj-process.h`, over the process kernel
with the ten processes `thread0` to `thread9`.  A thread that the kernel calls either goes to its
first wait, or calls the callback of its slot, or gives the slot up; a callback is Python code, and
has control until it returns.

The Python object of a thread is a copy of its slot that nothing changes any more; of its fields the
methods read `id` and `is_used`.  Nothing protects the C code from a callback that raises: it is
left as it stands, with the processes that it was calling in `PROCESS_STATE_CALLED`.  The interrupt
flag is left out.
-/

open Function

namespace Nespy.Py

open Nespy.Sys

/-- The slots for threads. -/
def threadObjAllNum : ℕ := 10

/-- A slot. -/
abbrev ThreadId := Fin threadObjAllNum

instance : NeZero threadObjAllNum := ⟨by decide⟩

/-- `ns_thread_obj_t` in its slot. -/
structure ThreadObj where
  cb : Value
  id : ThreadId
  data : Value
  isUsed : Bool
  deriving DecidableEq

/-- The Python object of a thread. -/
structure Handle where
  id : ThreadId
  isUsed : Bool
  deriving DecidableEq

/-- By which handle, the first one being `0`, an event was posted, and with which data. -/
structure Post where
  handle : ℕ
  data : Value
  deriving DecidableEq

/-- The slots over the kernel, with what is known of posts and handles. -/
structure Threads where
  kernel : Kernel ThreadId
  thread : ThreadId → ThreadObj
  remain : UInt8
  isProcessObjCreated : Bool
  /-- The protothread stands at its wait. -/
  waiting : ThreadId → Bool
  /-- The thread on top of the stack was called and has not begun. -/
  fresh : Bool
  handles : List Handle
  /-- The calls that the events of the queue come from. -/
  posts : List Post
  /-- The call that the event comes from which `process_run` has just taken from the queue. -/
  arrived : Option Post

/-- What the program does, and how the kernel goes on. -/
inductive ThreadInput where
  | create (args : CallArgs) (memory : Bool)
  | start (h : ℕ)
  | post (h : ℕ) (event data : Value)
  | delete (h : ℕ)
  | run
  /-- The callback returns. -/
  | ret
  /-- The callback raises an exception, which Python code behind `depth` more frames catches. -/
  | throw (depth : ℕ)
  /-- The C code goes on. -/
  | go

/-- What the program sees. -/
inductive ThreadEvent where
  | raised (e : PyError)
  /-- The callback of a thread is called, with an event and data; `posted` is the call that the
  event comes from, if it comes from the queue. -/
  | callback (id : ThreadId) (cb : Value) (ev : ProcessEvent) (data : Value) (posted : Option Post)
  deriving DecidableEq

namespace Threads

variable (s : Threads)

/-- The slot of a thread that is not used. -/
def unusedObj : ThreadObj := ⟨.none, 0, .none, false⟩

/-- The process object, of which there is one. -/
def nsProcessMakeNew : Except PyError Threads :=
  if s.isProcessObjCreated then .error (.valueError "ns: can't create more than one process object")
  else
    .ok { s with
      thread := fun _ => unusedObj, remain := .ofNat threadObjAllNum, isProcessObjCreated := true }

/-- The search of `thread_get_id`. -/
def freeId : Option ThreadId := (List.finRange threadObjAllNum).find? fun i => !(s.thread i).isUsed

/-- `thread_get_id`; `-1` is `none`. -/
def threadGetId : Option (ThreadId × Threads) :=
  s.freeId.map fun id => (id, { s with remain := s.remain - 1 })

/-- The arguments of `ns_thread_make_new`. -/
def checkCallback (args : CallArgs) : Except PyError Value :=
  if args.IsEmpty then .error (.valueError "ns: invalid argument!")
  else
    (args.mpArgParseAll [⟨"callback", .obj, .none⟩]).bind fun args =>
      let callback := args.getD 0 .null
      if callback = .none then .error (.valueError "ns: thread callback can't empty!")
        else .ok callback

/-- A thread gets a slot, and the program a handle with a copy of it. -/
def nsThreadMakeNew (args : CallArgs) (memory : Bool) : Threads × List ThreadEvent :=
  if s.isProcessObjCreated = false then
    (s, [.raised (.valueError "ns: please create process object first!")])
  else
    match checkCallback args with
    | .error e => (s, [.raised e])
    | .ok callback =>
      match s.threadGetId with
      | none =>
        (s, [.raised (.valueError s!"ns: thread container overflow! max({threadObjAllNum})")])
      | some (id, s) =>
        if memory then
          ({ s with
            thread := update s.thread id ⟨callback, id, .none, true⟩
            handles := s.handles ++ [⟨id, true⟩] }, [])
        else (s, [.raised .memoryError])

/-- The kernel goes on to `k`; the thread on top has just been called if it was not there before. -/
@[simp] def setKernel (k : Kernel ThreadId) : Threads :=
  { s with
    kernel := k
    fresh := (k.stack.head?.any Frame.isThread) && !decide (k.stack <:+ s.kernel.stack)
    arrived := none }

/-- `process_post`, and the call it comes from. -/
def processPost (p : ThreadId) (ev : ProcessEvent) (post : Post) : Threads :=
  { s.setKernel (s.kernel.processPost (some p) ev) with
    posts := if s.kernel.events.length = processConfNumevents then s.posts else s.posts ++ [post] }

/-- `ns_thread_start`. -/
def nsThreadStart (id : ThreadId) : Option Threads :=
  (s.kernel.processStart id).map fun k =>
    { s.setKernel k with
      -- `PT_INIT`, unless the process is on the list
      waiting := if s.kernel.search id = some none then update s.waiting id false else s.waiting }

/-- The data of a slot. -/
def setData (p : ThreadId) (data : Value) : Threads :=
  { s with thread := update s.thread p { s.thread p with data := data } }

/-- The data is stored before the event is looked at. -/
def nsThreadPost (h : ℕ) (id : ThreadId) (event data : Value) : Threads × List ThreadEvent :=
  let s := s.setData id data
  match mpObjGetInt event with
  | .error e => (s, [.raised e])
  | .ok n => (s.processPost (s.thread id).id (.ofInt n) ⟨h, data⟩, [])

/-- Deleting only posts an event, whatever the slot holds by now. -/
def nsThreadDelete (h : ℕ) (handle : Handle) : Threads × List ThreadEvent :=
  if handle.isUsed then (s.processPost handle.id processEventExit ⟨h, .none⟩, [])
  else (s, [.raised (.valueError s!"ns: thread id ({handle.id}) is not used")])

/-- `process_run`, with the post of the event that it takes. -/
def nsProcessRun : Threads :=
  { s.setKernel s.kernel.processRun with posts := s.posts.drop 1, arrived := s.posts.head? }

/-- The thread on top returns. -/
def threadRet (exited : Bool) : Option Threads := (s.kernel.ret exited).map s.setKernel

/-- `NS_PROCESS_THREAD`, called with an event. -/
def nsProcessThread (p : ThreadId) (ev : ProcessEvent) : Option (Threads × List ThreadEvent) :=
  if !s.waiting p then
    (threadRet { s with waiting := update s.waiting p true } false).map (·, [])
  else if ev ≠ processEventExit then
    if (s.thread p).isUsed then
      some ({ s with fresh := false, arrived := none },
        [.callback p (s.thread p).cb ev (s.thread p).data s.arrived])
    else (s.threadRet false).map (·, [])
  else
    (threadRet { s with
      thread := update s.thread p unusedObj
      remain := s.remain + 1
      waiting := update s.waiting p false } true).map (·, [])

/-- The callback of the thread on top returns. -/
def callbackRet : Option Threads :=
  match s.kernel.stack with
  | .callProcess p _ :: _ => (s.setData p .none).threadRet false
  | _ => none

/-- The callback of the thread on top raises: the frames of the C code are left where they are. -/
def callbackThrow (depth : ℕ) : Option Threads :=
  let k := { s.kernel with stack := s.kernel.stack.drop (depth + 1) }
  if k.atProgram then some (s.setKernel k) else none

/-- The C code goes on: a thread that was called begins, or the kernel goes on. -/
def go : Option (Threads × List ThreadEvent) :=
  if s.fresh then
    match s.kernel.stack with
    | .callProcess p ev :: _ => s.nsProcessThread p ev
    | .exitThread p :: _ => s.nsProcessThread p processEventExit
    | _ => none
  else s.kernel.go.map fun k => (s.setKernel k, [])

/-- Python code has control. -/
@[simp] def atProgram : Bool := !s.fresh && s.kernel.atProgram

/-- A method of a handle. -/
def withHandle (h : ℕ) (f : Handle → Option (Threads × List ThreadEvent)) :
    Option (Threads × List ThreadEvent) :=
  if s.atProgram then s.handles[h]?.bind f else none

/-- One step of the machine. -/
def step : ThreadInput → Option (Threads × List ThreadEvent)
  | .create args memory => if s.atProgram then some (s.nsThreadMakeNew args memory) else none
  | .start h => s.withHandle h fun handle => (s.nsThreadStart handle.id).map (·, [])
  | .post h event data => s.withHandle h fun handle => some (s.nsThreadPost h handle.id event data)
  | .delete h => s.withHandle h fun handle => some (s.nsThreadDelete h handle)
  | .run => if s.atProgram then some (s.nsProcessRun, []) else none
  | .ret => if s.atProgram ∧ s.kernel.stack ≠ [] then s.callbackRet.map (·, []) else none
  | .throw depth =>
    if s.atProgram ∧ s.kernel.stack ≠ [] then (s.callbackThrow depth).map (·, []) else none
  | .go => if s.atProgram then none else s.go

/-- When the process object has been created, and no thread yet. -/
def initial : Threads :=
  { kernel :=
      { processList := none, next := fun _ => none, state := fun _ => .none,
        needspoll := fun _ => false, thread := fun _ => true, pollRequested := false,
        processCurrent := none, events := [], stack := [] }
    thread := fun _ => unusedObj
    remain := .ofNat threadObjAllNum
    isProcessObjCreated := true
    waiting := fun _ => false
    fresh := false
    handles := []
    posts := []
    arrived := none }

end Threads

end Nespy.Py
