import Nespy.Sys.Process

/-!
# Sys — the list of processes

`process_list` is the list of the processes that run: whose state is not `PROCESS_STATE_NONE`.  Only
while `exit_process` is at work a process is on the list that does not run any more (`Listed`).

Three assignments of the kernel do not look at the list.  `call_process` sets the state to
`PROCESS_STATE_RUNNING` when the thread returns, though the process may have exited during the call;
`do_poll` does so for a process it comes to by the `next` of one that has left the list; and
`exit_process` takes the process off the list at the end, though it may have been started again.
`Safe` is that none of these happens, and it is all that is needed: a step keeps `Listed` exactly
when it is safe.
-/

open List Option

namespace Nespy.Sys

open Nespy.Lib

/-- The process whose `exit_process` this is. -/
def Frame.exits {P : Type} : Frame P → Option P
  | .exitProcess p .. => some p
  | .unlink p _ => some p
  | _ => none

/-- `PROCESS_EVENT_INIT` is not posted. -/
def KernelInput.NoInit {P : Type} : KernelInput P → Prop
  | .call (.processPost _ ev) => ev ≠ processEventInit
  | _ => True

instance {P : Type} : ∀ i : KernelInput P, Decidable i.NoInit
  | .call (.processPost _ ev) => inferInstanceAs (Decidable (ev ≠ processEventInit))
  | .call (.processStart _) | .call (.processExit _) | .call (.processPostSynch ..)
  | .call (.processPoll _) | .call .processRun | .ret _ | .go => .isTrue trivial

namespace Kernel

variable {P : Type} {s s' : Kernel P} {l : List P}

/-- `exit_process` is at work on `p`. -/
def Exiting (s : Kernel P) (p : P) : Prop := ∃ f ∈ s.stack, f.exits = some p

/-- The list is `l`, and holds the processes that run and such that are exiting. -/
structure Listed (s : Kernel P) (l : List P) : Prop where
  linked : Linked s.next s.processList l
  running : ∀ p, s.state p ≠ .none → p ∈ l
  exiting : ∀ p ∈ l, s.state p = .none → s.Exiting p
  posted : ∀ e ∈ s.events, e.1 ≠ processEventInit

/-- The list is finite and acyclic, no process is on it twice, and it holds the processes that run,
and one that does not only while `exit_process` is at work on it. -/
def Consistent (s : Kernel P) : Prop :=
  ∃ l, Linked s.next s.processList l ∧ l.Nodup ∧ (∀ p, s.state p ≠ .none → p ∈ l) ∧
    ∀ p ∈ l, s.state p = .none → s.Exiting p

theorem Listed.consistent (h : s.Listed l) : s.Consistent :=
  ⟨l, h.linked, h.linked.nodup, h.running, h.exiting⟩

variable {i : KernelInput P} {stack : List (Frame P)} {p : P}

/-- In a consistent state a process that runs is on the list. -/
theorem Consistent.mem (h : s.Consistent) (hl : Linked s.next s.processList l)
    (hp : s.state p ≠ .none) : p ∈ l := by
  obtain ⟨l', hl', -, hrunning, -⟩ := h
  exact hl.unique hl' ▸ hrunning p hp

/-- The condition decides whether the state is consistent. -/
def Decides (c : Prop) (s : Kernel P) : Prop := (c → ∃ l, s.Listed l) ∧ (s.Consistent → c)

theorem decides_of_listed {c : Prop} (hc : c) (h : s.Listed l) : Decides c s :=
  ⟨fun _ => ⟨l, h⟩, fun _ => hc⟩

/-- What does not touch the list, does not start or stop a process and takes no `exit_process`
away. -/
structure Keeps (s s' : Kernel P) : Prop where
  next : s'.next = s.next
  processList : s'.processList = s.processList
  state : ∀ p, s'.state p = .none ↔ s.state p = .none
  exiting : ∀ p, s.Exiting p → s'.Exiting p
  events : ∀ e ∈ s'.events, e ∈ s.events ∨ e.1 ≠ processEventInit

theorem Listed.keeps (h : s.Listed l) (hk : s.Keeps s') : s'.Listed l := by
  refine ⟨hk.next ▸ hk.processList ▸ h.linked, fun p hp => ?_,
    fun p hp hstate => ?_, fun e he => ?_⟩
  · exact h.running p fun hnone => hp ((hk.state p).mpr hnone)
  · exact hk.exiting p (h.exiting p hp ((hk.state p).mp hstate))
  · rcases hk.events e he with hold | hnew
    · exact h.posted e hold
    · exact hnew

theorem Keeps.refl (s : Kernel P) : s.Keeps s :=
  ⟨rfl, rfl, fun _ => Iff.rfl, fun _ => id, fun _ => .inl⟩

theorem Keeps.trans {s'' : Kernel P} (h : s.Keeps s') (h' : s'.Keeps s'') : s.Keeps s'' := by
  refine ⟨h'.next.trans h.next, h'.processList.trans h.processList,
    fun p => (h'.state p).trans (h.state p), fun p hp => h'.exiting p (h.exiting p hp),
      fun e he => ?_⟩
  rcases h'.events e he with hold | hnew
  · exact h.events e hold
  · exact .inr hnew

theorem keeps_push (f : Frame P) : s.Keeps (s.push f) :=
  ⟨rfl, rfl, fun _ => Iff.rfl, fun _ ⟨f', hf', hp⟩ => ⟨f', mem_cons_of_mem _ hf', hp⟩,
    fun _ => .inl⟩

/-- The frame on top is left, or another one takes its place. -/
theorem keeps_pop {f : Frame P} (processCurrent : Option P)
    (hstack : s.stack = f :: stack) (hf : f.exits = none) :
    s.Keeps { s with processCurrent := processCurrent, stack := stack } := by
  refine ⟨rfl, rfl, fun _ => Iff.rfl, fun p ⟨f', hf', hp⟩ => ⟨f', ?_, hp⟩, fun _ => .inl⟩
  rcases mem_cons.mp (hstack ▸ hf') with rfl | hmem
  · cases hf.symm.trans hp
  · exact hmem

theorem keeps_replace {f f' : Frame P} (hstack : s.stack = f :: stack)
    (hf : f'.exits = f.exits) : s.Keeps { s with stack := f' :: stack } := by
  refine ⟨rfl, rfl, fun _ => Iff.rfl, fun p ⟨f'', hf'', hp⟩ => ?_, fun _ => .inl⟩
  rcases mem_cons.mp (hstack ▸ hf'') with rfl | hmem
  · exact ⟨f', mem_cons_self, hf.trans hp⟩
  · exact ⟨f'', mem_cons_of_mem _ hmem, hp⟩

variable [DecidableEq P]

theorem keeps_setState {state : ProcessState} (h : state = .none ↔ s.state p = .none) :
    s.Keeps (s.setState p state) := by
  refine ⟨rfl, rfl, fun q => ?_, fun _ => id, fun _ => .inl⟩
  by_cases hqp : q = p
  · subst hqp
    simpa using h
  · simp [hqp]

theorem keeps_callProcess (p : P) (ev : ProcessEvent) : s.Keeps (s.callProcess p ev) := by
  rw [callProcess]
  split_ifs with hcond
  · have hstate : ProcessState.called = .none ↔ s.state p = .none := by simp [hcond.1]
    have hkeeps := (keeps_setState hstate).trans (keeps_push (.callProcess p ev))
    exact { hkeeps with }
  · exact .refl s

theorem keeps_processPostSynch (p : P) (ev : ProcessEvent) : s.Keeps (s.processPostSynch p ev) :=
  (keeps_push _).trans (keeps_callProcess p ev)

omit [DecidableEq P] in
theorem keeps_processPost (p : Option P) {ev : ProcessEvent} (hev : ev ≠ processEventInit) :
    s.Keeps (s.processPost p ev) := by
  rw [processPost]
  split
  · exact .refl s
  · refine ⟨rfl, rfl, fun _ => Iff.rfl, fun _ => id, fun e he => ?_⟩
    rcases mem_append.mp he with hold | hnew
    · exact .inl hold
    · exact .inr (mem_singleton.mp hnew ▸ hev)

theorem keeps_processPoll (p : Option P) : s.Keeps (s.processPoll p) := by
  cases p with
  | none => exact .refl s
  | some p =>
    rw [processPoll]
    split
    · exact ⟨rfl, rfl, fun _ => Iff.rfl, fun _ => id, fun _ => .inl⟩
    · exact .refl s

omit [DecidableEq P] in
theorem keeps_doPoll : s.Keeps s.doPoll := by
  have hkeeps := keeps_push (s := s) (.doPoll (.test s.processList))
  exact ⟨rfl, rfl, hkeeps.state, hkeeps.exiting, hkeeps.events⟩

section

variable (h : ∀ e ∈ s.events, e.1 ≠ processEventInit)

include h

theorem keeps_doEvent : s.Keeps s.doEvent := by
  rw [doEvent]
  split
  · exact .refl s
  · rename_i ev receiver events hevents
    have htail : s.Keeps { s with events := events } :=
      ⟨rfl, rfl, fun _ => Iff.rfl, fun _ => id, fun e he => .inl (hevents ▸ mem_cons_of_mem _ he)⟩
    have hev : ev ≠ processEventInit := h (ev, receiver) (hevents ▸ mem_cons_self)
    cases receiver with
    | none => exact htail.trans (keeps_push _)
    | some p =>
      simp only [if_neg hev]
      exact htail.trans (keeps_callProcess p ev)

theorem keeps_processRun : s.Keeps s.processRun := by
  rw [processRun]
  split
  · exact (keeps_push _).trans keeps_doPoll
  · exact keeps_doEvent h

end

/-! ### What starts and stops a process -/

/-- The state becomes `PROCESS_STATE_RUNNING`: the process has to be on the list. -/
theorem setState_running (h : s.Listed l) (hmem : p ∈ l) : (s.setState p .running).Listed l := by
  refine ⟨h.linked, fun q hq => ?_, fun q hq hstate => ?_, h.posted⟩
  · by_cases hqp : q = p
    · exact hqp ▸ hmem
    · exact h.running q (by simpa [hqp] using hq)
  · have hqp : q ≠ p := fun he => by simp [he] at hstate
    exact h.exiting q hq (by simpa [hqp] using hstate)

variable [Fintype P]

theorem search_eq (h : Linked s.next s.processList l) (p : P) :
    s.search p = some (if p ∈ l then some p else none) := h.walk_eq h.length_le

/-- The process is on the list. -/
def OnList (s : Kernel P) (p : P) : Prop := s.search p = some (some p)

instance {p : P} : Decidable (s.OnList p) := inferInstanceAs (Decidable (_ = _))

theorem onList_iff (h : Linked s.next s.processList l) : s.OnList p ↔ p ∈ l := by
  rw [OnList, search_eq h]
  split <;> simp [*]

omit [Fintype P] in
/-- A process is put on the list, and runs. -/
theorem Listed.push (h : s.Listed l) (hp : p ∉ l) : Listed (setState { s with
    next := Function.update s.next p s.processList, processList := some p } p .running)
      (p :: l) := by
  refine ⟨h.linked.push hp, fun q hq => ?_, fun q hq hstate => ?_, h.posted⟩
  · by_cases hqp : q = p
    · exact hqp ▸ mem_cons_self
    · exact mem_cons_of_mem _ (h.running q (by simpa [hqp] using hq))
  · have hqp : q ≠ p := fun he => by simp [he] at hstate
    exact h.exiting q ((mem_cons.mp hq).resolve_left hqp) (by simpa [hqp] using hstate)

theorem processStart_listed (h : s.Listed l) (hs' : s.processStart p = some s') :
    ∃ l', s'.Listed l' := by
  rw [processStart, search_eq h.linked] at hs'
  by_cases hmem : p ∈ l
  · simp only [if_pos hmem, some.injEq] at hs'
    exact ⟨l, hs' ▸ h⟩
  · simp only [if_neg hmem, some.injEq] at hs'
    subst hs'
    exact ⟨p :: l, (h.push hmem).keeps (keeps_processPostSynch p processEventInit)⟩

/-- A process ends. -/
theorem exitProcess_listed (h : s.Listed l) {fromprocess : Option P}
    (hs' : s.exitProcess p fromprocess = some s') : s'.Listed l := by
  rw [exitProcess, search_eq h.linked] at hs'
  by_cases hmem : p ∈ l
  · simp only [if_pos hmem] at hs'
    split at hs'
    · cases hs'
      refine ⟨h.linked, fun q hq => ?_, fun q hq hstate => ?_, h.posted⟩
      · by_cases hqp : q = p
        · exact hqp ▸ hmem
        · exact h.running q (by simpa [hqp] using hq)
      · by_cases hqp : q = p
        · exact ⟨_, mem_cons_self, congrArg some hqp.symm⟩
        · have hold := h.exiting q hq (by simpa [hqp] using hstate)
          exact (keeps_push _).exiting q hold
    · exact some.inj hs' ▸ h.keeps (keeps_push _)
  · simp only [if_neg hmem, some.injEq] at hs'
    exact hs' ▸ h

omit [Fintype P] in
/-- A process that does not run leaves the list, at the end of `exit_process`. -/
theorem Listed.unlink (h : s.Listed l) {next : P → Option P}
    {processList processCurrent oldCurrent : Option P}
    (hstack : s.stack = .unlink p oldCurrent :: stack) (hstate : s.state p = .none)
    (hlinked : Linked next processList (l.erase p)) :
    Listed { s with processList, next, processCurrent, stack } (l.erase p) := by
  refine ⟨hlinked, fun q hq => ?_, fun q hq hnone => ?_, h.posted⟩
  · have hqp : q ≠ p := fun he => hq (he ▸ hstate)
    exact (mem_erase_of_ne hqp).mpr (h.running q hq)
  · obtain ⟨hqp, hmem⟩ := h.linked.nodup.mem_erase_iff.mp hq
    obtain ⟨f, hf, hexits⟩ := h.exiting q hmem hnone
    rcases mem_cons.mp (hstack ▸ hf) with rfl | hrest
    · exact absurd (some.inj hexits).symm hqp
    · exact ⟨f, hrest, hexits⟩

/-- The process leaves the list: it must not run. -/
theorem unlink_decides (h : s.Listed l) {oldCurrent : Option P}
    (hstack : s.stack = .unlink p oldCurrent :: stack) (hs' : s.go = some s') :
    Decides (s.state p = .none) s' := by
  obtain ⟨head', next', hremove, hlinked⟩ := h.linked.remove h.linked.length_le p
  simp only [go, hstack, hremove, map_some, some.injEq] at hs'
  subst hs'
  constructor
  · exact fun hstate => ⟨l.erase p, h.unlink hstack hstate hlinked⟩
  · intro hcons
    by_contra hstate
    exact h.linked.nodup.not_mem_erase (hcons.mem hlinked hstate)

/-! ### One step -/

/-- The process whose thread returns to `call_process` and goes on running. -/
def yields (s : Kernel P) : KernelInput P → Option P
  | .ret false =>
    match s.stack with
    | .callProcess p ev :: _ => if ev = processEventExit then none else some p
    | _ => none
  | _ => none

/-- The process that `do_poll` polls. -/
def polls (s : Kernel P) : KernelInput P → Option P
  | .go =>
    match s.stack with
    | .doPoll (.test (some q)) :: _ => if s.needspoll q then some q else none
    | _ => none
  | _ => none

/-- The process that `exit_process` takes off the list. -/
def unlinks (s : Kernel P) : KernelInput P → Option P
  | .go =>
    match s.stack with
    | .unlink p _ :: _ => some p
    | _ => none
  | _ => none

/-- The three places where the kernel does not look: the process whose thread returns has not left
the list, nor has a process that is polled, and a process that leaves the list was not started
again. -/
def Safe (s : Kernel P) (i : KernelInput P) : Prop :=
  (∀ p ∈ s.yields i, s.OnList p) ∧ (∀ p ∈ s.polls i, s.OnList p) ∧
    ∀ p ∈ s.unlinks i, s.state p = .none

instance (i : KernelInput P) : Decidable (s.Safe i) := inferInstanceAs (Decidable (_ ∧ _ ∧ _))

theorem safe_of_none (hyields : s.yields i = none) (hpolls : s.polls i = none)
    (hunlinks : s.unlinks i = none) : s.Safe i := by
  simp [Safe, hyields, hpolls, hunlinks]

/-- A thread returns. -/
theorem ret_decides (h : s.Listed l) {exited : Bool} (hs' : s.ret exited = some s') :
    Decides (s.Safe (.ret exited)) s' := by
  rw [ret] at hs'
  split at hs'
  · rename_i p ev stack hstack
    have hpop := h.keeps (keeps_pop s.processCurrent hstack rfl)
    split_ifs at hs' with hexits
    · have hyields : s.yields (.ret exited) = none := by
        rcases hexits with rfl | hev
        · rfl
        · cases exited <;> simp [yields, hstack, hev]
      exact decides_of_listed (safe_of_none hyields rfl rfl) (exitProcess_listed hpop hs')
    · obtain ⟨hnot, hev⟩ := not_or.mp hexits
      obtain rfl : exited = false := by simpa using hnot
      cases hs'
      have hyields : s.yields (.ret false) = some p := by simp [yields, hstack, hev]
      constructor
      · intro hsafe
        exact ⟨l, setState_running hpop ((onList_iff h.linked).mp (hsafe.1 p hyields))⟩
      · intro hcons
        refine ⟨fun p' hp' => (onList_iff h.linked).mpr ?_, by simp [polls], by simp [unlinks]⟩
        obtain rfl := some.inj (hyields.symm.trans hp')
        exact hcons.mem hpop.linked (by simp)
  · rename_i p stack hstack
    cases hs'
    have hyields : s.yields (.ret exited) = none := by cases exited <;> simp [yields, hstack]
    exact decides_of_listed (safe_of_none hyields rfl rfl)
      (h.keeps (keeps_pop s.processCurrent hstack rfl))
  · cases hs'

theorem call_listed (h : s.Listed l) {c : ProcessCall P} (hc : KernelInput.NoInit (.call c))
    (hs' : s.call c = some s') : ∃ l', s'.Listed l' := by
  cases c with
  | processStart p => exact processStart_listed h hs'
  | processExit p => exact ⟨l, exitProcess_listed h hs'⟩
  | processPost p ev => exact ⟨l, some.inj hs' ▸ h.keeps (keeps_processPost p hc)⟩
  | processPostSynch p ev => exact ⟨l, some.inj hs' ▸ h.keeps (keeps_processPostSynch p ev)⟩
  | processPoll p => exact ⟨l, some.inj hs' ▸ h.keeps (keeps_processPoll p)⟩
  | processRun => exact ⟨l, some.inj hs' ▸ h.keeps (keeps_processRun h.posted)⟩

/-- `do_poll` comes to a process. -/
theorem poll_decides (h : s.Listed l) {q : P}
    (hstack : s.stack = .doPoll (.test (some q)) :: stack) (hs' : s.go = some s') :
    Decides (s.Safe .go) s' := by
  have hturn : Listed { s with stack := .doPoll (.turn q) :: stack } l :=
    h.keeps (keeps_replace hstack rfl)
  have hunlinks : s.unlinks .go = none := by simp [unlinks, hstack]
  simp only [go, hstack] at hs'
  split_ifs at hs' with hneeds
  · have hpolls : s.polls .go = some q := by simp [polls, hstack, hneeds]
    cases hs'
    constructor
    · intro hsafe
      have hset := setState_running hturn ((onList_iff h.linked).mp (hsafe.2.1 q hpolls))
      refine ⟨l, Listed.keeps ?_ (keeps_callProcess q _)⟩
      exact { hset with }
    · intro hcons
      refine ⟨by simp [yields], fun q' hq' => (onList_iff h.linked).mpr ?_, by simp [hunlinks]⟩
      obtain rfl := some.inj (hpolls.symm.trans hq')
      -- whether `call_process` calls the thread or not, the state is not `PROCESS_STATE_NONE`
      refine hcons.mem ?_ ?_
      · rw [callProcess]
        split <;> exact h.linked
      · rw [callProcess]
        split <;> simp
  · have hpolls : s.polls .go = none := by simp [polls, hstack, hneeds]
    cases hs'
    exact decides_of_listed (safe_of_none rfl hpolls hunlinks) hturn

/-- What the other functions do when they go on. -/
theorem keeps_go (hposted : ∀ e ∈ s.events, e.1 ≠ processEventInit) (hs' : s.go = some s')
    (hpoll : ∀ q stack, s.stack ≠ .doPoll (.test (some q)) :: stack)
    (hunlink : ∀ p oldCurrent stack, s.stack ≠ .unlink p oldCurrent :: stack) : s.Keeps s' := by
  rw [go] at hs'
  split at hs'
  · rename_i p fromprocess oldCurrent stack hstack
    have hkeeps : s.Keeps { s with stack := .unlink p oldCurrent :: stack } :=
      keeps_replace hstack rfl
    dsimp only at hs'
    split at hs'
    · cases hs'
      have hpush := hkeeps.trans (keeps_push (.exitThread p))
      exact ⟨rfl, rfl, hpush.state, hpush.exiting, hpush.events⟩
    · exact some.inj hs' ▸ hkeeps
  · rename_i p fromprocess oldCurrent q stack hstack
    have hkeeps :
        s.Keeps { s with stack := .exitProcess p fromprocess oldCurrent (.turn q) :: stack } :=
      keeps_replace hstack rfl
    cases hs'
    split
    · exact hkeeps.trans (keeps_callProcess q _)
    · exact hkeeps
  · rename_i hstack
    exact some.inj hs' ▸ keeps_replace hstack rfl
  · rename_i hstack
    exact (hunlink _ _ _ hstack).elim
  · rename_i hstack
    exact some.inj hs' ▸ keeps_pop s.processCurrent hstack rfl
  · rename_i hstack
    exact (hpoll _ _ hstack).elim
  · rename_i hstack
    exact some.inj hs' ▸ keeps_replace hstack rfl
  · rename_i hstack
    exact some.inj hs' ▸ keeps_pop s.processCurrent hstack rfl
  · rename_i ev q stack hstack
    have hpolls : s.Keeps { s with stack := .doEventCall ev q :: stack } := keeps_replace hstack rfl
    have hcalls : s.Keeps { s with stack := .doEvent ev (.turn q) :: stack } :=
      keeps_replace hstack rfl
    split at hs'
    · exact some.inj hs' ▸ hpolls.trans keeps_doPoll
    · exact some.inj hs' ▸ hcalls.trans (keeps_callProcess q ev)
  · rename_i ev q stack hstack
    have hcalls : s.Keeps { s with stack := .doEvent ev (.turn q) :: stack } :=
      keeps_replace hstack rfl
    exact some.inj hs' ▸ hcalls.trans (keeps_callProcess q ev)
  · rename_i hstack
    exact some.inj hs' ▸ keeps_replace hstack rfl
  · rename_i hstack
    exact some.inj hs' ▸ keeps_pop _ hstack rfl
  · rename_i stack hstack
    have hpop := keeps_pop s.processCurrent hstack rfl
    exact some.inj hs' ▸ hpop.trans (keeps_doEvent hposted)
  · cases hs'

/-- The kernel goes on. -/
theorem go_decides (h : s.Listed l) (hs' : s.go = some s') : Decides (s.Safe .go) s' := by
  by_cases hpoll : ∃ q stack, s.stack = .doPoll (.test (some q)) :: stack
  · obtain ⟨q, stack, hstack⟩ := hpoll
    exact poll_decides h hstack hs'
  · by_cases hunlink : ∃ p oldCurrent stack, s.stack = .unlink p oldCurrent :: stack
    · obtain ⟨p, oldCurrent, stack, hstack⟩ := hunlink
      have hsafe : s.Safe .go ↔ s.state p = .none := by simp [Safe, yields, polls, unlinks, hstack]
      rw [hsafe]
      exact unlink_decides h hstack hs'
    · push Not at hpoll hunlink
      have hpolls : s.polls .go = none := by
        rw [polls]
        split
        · rename_i hstack
          exact (hpoll _ _ hstack).elim
        · rfl
      have hunlinks : s.unlinks .go = none := by
        rw [unlinks]
        split
        · rename_i hstack
          exact (hunlink _ _ _ hstack).elim
        · rfl
      exact decides_of_listed (safe_of_none rfl hpolls hunlinks)
        (h.keeps (keeps_go h.posted hs' hpoll hunlink))

/-- **One step.**  It leaves the list consistent exactly when it is safe. -/
theorem step_decides (h : s.Listed l) (hi : i.NoInit)
    (hstep : s.step i = some (s', ())) : Decides (s.Safe i) s' := by
  cases i with
  | call c =>
    obtain ⟨-, hcall⟩ := ite_none_right_eq_some.mp hstep
    obtain ⟨s'', hs'', hpair⟩ := map_eq_some_iff.mp hcall
    obtain ⟨rfl, -⟩ := Prod.mk.inj hpair
    exact ⟨fun _ => call_listed h hi hs'', fun _ => safe_of_none rfl rfl rfl⟩
  | ret exited =>
    obtain ⟨s'', hs'', hpair⟩ := map_eq_some_iff.mp hstep
    obtain ⟨rfl, -⟩ := Prod.mk.inj hpair
    exact ret_decides h hs''
  | go =>
    obtain ⟨s'', hs'', hpair⟩ := map_eq_some_iff.mp hstep
    obtain ⟨rfl, -⟩ := Prod.mk.inj hpair
    exact go_decides h hs''

/-! ### Runs -/

/-- As `process_init` leaves it, with no process started yet. -/
def Initial (s : Kernel P) : Prop :=
  s.processList = none ∧ (∀ p, s.state p = .none) ∧ s.events = [] ∧ s.stack = []

omit [Fintype P] [DecidableEq P] in
theorem Initial.listed (h : s.Initial) : s.Listed [] := by
  obtain ⟨hlist, hstate, hevents, -⟩ := h
  refine ⟨hlist, fun p hp => absurd (hstate p) hp, fun p hp => ?_, fun e he => ?_⟩
  · cases hp
  · rw [hevents] at he
    cases he

/-- The step posts no `PROCESS_EVENT_INIT` and is safe. -/
def Guarded (s : Kernel P) (i : KernelInput P) : Prop := i.NoInit ∧ s.Safe i

instance (i : KernelInput P) : Decidable (s.Guarded i) := inferInstanceAs (Decidable (_ ∧ _))

section

variable {s₀ : Kernel P} {tr : List (KernelInput P × Unit)} (h₀ : s₀.Initial)
  (hrun : Runs step Guarded s₀ tr s)

include h₀ hrun

theorem run_listed : ∃ l, s.Listed l := by
  refine (hrun.invariant (fun s => ∃ l, s.Listed l) (fun _ => True) ?_ ⟨[], h₀.listed⟩).1
  rintro s i s' ⟨⟩ ⟨l, hl⟩ ⟨hi, hsafe⟩ hstep
  exact ⟨(step_decides hl hi hstep).1 hsafe, trivial⟩

/-- **The process list.**  In a run of safe steps the list is consistent at every moment: whenever
no `exit_process` is at work, so in particular when no function of the kernel is active, the
processes on the list are those whose state is not `PROCESS_STATE_NONE`.  The next step leaves it
consistent exactly when it is safe. -/
theorem process_list_consistent_iff :
    s.Consistent ∧
      ((∀ p, ¬s.Exiting p) → ∃ l, Linked s.next s.processList l ∧ l.Nodup ∧
        ∀ p, p ∈ l ↔ s.state p ≠ .none) ∧
      ∀ i s', i.NoInit → s.step i = some (s', ()) → (s'.Consistent ↔ s.Safe i) := by
  obtain ⟨l, hl⟩ := run_listed h₀ hrun
  refine ⟨hl.consistent, fun hexits => ⟨l, hl.linked, hl.linked.nodup, fun p => ?_⟩, ?_⟩
  · exact ⟨fun hp hnone => hexits p (hl.exiting p hp hnone), hl.running p⟩
  · intro i s' hi hstep
    obtain ⟨hlisted, hsafe⟩ := step_decides hl hi hstep
    refine ⟨hsafe, fun hs => ?_⟩
    obtain ⟨l', hl'⟩ := hlisted hs
    exact hl'.consistent

end

/-- One process, which was not started. -/
def idle : Kernel Unit :=
  { processList := none, next := fun _ => none, state := fun _ => .none,
    needspoll := fun _ => false, thread := fun _ => true, pollRequested := false,
    processCurrent := none, events := [], stack := [] }

/-- The process is started, and calls `process_exit` for itself. -/
def exitsItself : List (KernelInput Unit) :=
  [.call (.processStart ()), .call (.processExit ()), .go, .go, .go, .go]

/-- The thread returns `PT_EXITED` or `PT_ENDED` then. -/
theorem process_list_consistent_exited :
    ∃ tr s, Runs step Guarded idle tr s ∧ s.stack = [] ∧ s.state () = .none ∧ s.Consistent := by
  have hexec : (execute step Guarded idle (exitsItself ++ [.ret true, .go])).map
      (fun r => (r.1.stack, r.1.state ())) = some ([], .none) := by decide +kernel
  obtain ⟨⟨s, tr⟩, hrun, hs⟩ := exists_run_of_map hexec
  obtain ⟨hstack, hstate⟩ := Prod.mk.inj hs
  have h₀ : idle.Initial := ⟨rfl, fun _ => rfl, rfl, rfl⟩
  exact ⟨tr, s, hrun, hstack, hstate, (process_list_consistent_iff h₀ hrun).1⟩

/-- The thread yields instead, and the process runs without being on the list. -/
theorem runs_off_the_list :
    ∃ tr s, Runs step (fun _ i => i.NoInit) idle tr s ∧ s.stack = [] ∧ s.processList = none ∧
      s.state () = .running := by
  have hexec : (execute step (fun _ i => i.NoInit) idle (exitsItself ++ [.ret false, .go])).map
      (fun r => (r.1.stack, r.1.processList, r.1.state ())) = some ([], none, .running) := by
    decide +kernel
  obtain ⟨⟨s, tr⟩, hrun, hs⟩ := exists_run_of_map hexec
  obtain ⟨hstack, hrest⟩ := Prod.mk.inj hs
  obtain ⟨hlist, hstate⟩ := Prod.mk.inj hrest
  exact ⟨tr, s, hrun, hstack, hlist, hstate⟩

end Kernel

end Nespy.Sys
