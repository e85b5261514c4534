import Nespy.Sys.Etimer

/-!
# Sys — the list of event timers

What the event timers are for: a list of timers that wait, with the process that waits for each.
`Timers.call` says what each call does to them, and `Etimers.call_refines` that the pointers of
`sys/etimer.c` do that, as long as no timer is set that is on the list with `PROCESS_NONE`.  That
one call makes the list a cycle, since `add_timer` takes `PROCESS_NONE` to mean that the timer is
not on the list.
-/

open Function List Option

namespace Nespy.Sys

open Nespy.Lib

/-- The event timers as a list. -/
structure Timers (T P : Type) where
  running : Bool
  list : List T
  p : T → Option P
  timer : T → Timer
  needspoll : Bool
  events : List (Posted T P)

variable {T P : Type}

namespace Timers

variable [DecidableEq T] [DecidableEq P] (a : Timers T P)

/-- The timer `t` waits for its interval, on behalf of the process `current`. -/
def add (current : Option P) (t : T) (timer : Timer) : Timers T P :=
  { a with
    list := if t ∈ a.list then a.list else t :: a.list
    p := update a.p t current
    timer := update a.timer t timer
    needspoll := a.needspoll || a.running }

variable (now : ClockTime)

/-- The timers that are expired. -/
def due : List T := a.list.filter fun t => timerExpired now (a.timer t)

/-- The timers that have expired, as many as the queue takes. -/
def posted : List T :=
  (a.due now).take (processConfNumevents - a.events.length)

/-- The timers `ts` leave the list and their events are queued. -/
def post (ts : List T) : Timers T P :=
  { a with
    list := a.list.filter (· ∉ ts)
    p := fun t => if t ∈ ts then none else a.p t
    events := a.events ++ ts.map fun t => .timer (a.p t) t }

/-- What can be posted is, and another poll is requested if something is left. -/
def passes : Timers T P :=
  { a.post (a.posted now) with
    needspoll := a.needspoll || (a.running && decide ((a.posted now).length < (a.due now).length)) }

/-- `etimer_process` is polled. -/
def poll : Timers T P := passes { a with needspoll := false } now

/-- A call, on the list. -/
def call (current : Option P) (now : ClockTime) : EtimerCall T P → Timers T P
  | .start => if a.running then a else { a with running := true, list := [] }
  | .etimerSet et interval => a.add current et (timerSet now interval)
  | .etimerResetWithNewInterval et interval =>
    a.add current et { timerReset (a.timer et) with interval := interval }
  | .etimerReset et => a.add current et (timerReset (a.timer et))
  | .etimerRestart et => a.add current et (timerRestart now (a.timer et))
  | .etimerAdjust et timediff =>
    let start := (a.timer et).start + timediff.toInt64.toUInt64
    { a with timer := update a.timer et { a.timer et with start := start } }
  | .etimerStop et => { a with list := a.list.erase et, p := update a.p et none }
  | .etimerRequestPoll => { a with needspoll := a.needspoll || a.running }
  | .exited p => if a.running then { a with list := a.list.filter (a.p · ≠ some p) } else a
  | .poll => if a.running then a.poll now else a
  | .post =>
    if a.events.length = processConfNumevents then a else { a with events := a.events ++ [.other] }
  | .deliver => { a with events := a.events.tail }

/-! ### Posting one by one -/

omit [DecidableEq P]
variable {a} {now : ClockTime}

theorem post_post {ts ts' : List T} (hts : ∀ t ∈ ts', t ∉ ts) :
    (a.post ts).post ts' = a.post (ts ++ ts') := by
  have hevents : ts'.map (fun t => Posted.timer ((a.post ts).p t) t) =
      ts'.map fun t => Posted.timer (a.p t) t :=
    map_congr_left fun t ht => congrArg (Posted.timer · t) (if_neg (hts t ht))
  simp only [post, Timers.mk.injEq, true_and]
  refine ⟨?_, ?_, ?_⟩
  · rw [List.filter_filter]
    exact filter_congr fun t _ => by simp [Bool.and_comm]
  · funext t
    by_cases ht : t ∈ ts' <;> simp [ht]
  · rw [append_assoc, map_append]
    exact congrArg (fun es => a.events ++ (ts.map (fun t => .timer (a.p t) t) ++ es)) hevents

/-- The first timer that has expired is posted first. -/
theorem due_eq_cons {t : T} (hnodup : a.list.Nodup)
    (hfind : a.list.find? (fun t => timerExpired now (a.timer t)) = some t) :
    a.due now = t :: (a.post [t]).due now := by
  obtain ⟨hexp, l₁, l₂, hl, hl₁⟩ := find?_eq_some_iff_append.mp hfind
  have hnil : l₁.filter (fun b => timerExpired now (a.timer b)) = [] :=
    filter_eq_nil_iff.mpr fun b hb => by simpa using hl₁ b hb
  have hrest : l₂.filter (· ∉ [t]) = l₂ := filter_eq_self.mpr fun b hb => by
    have hne : b ≠ t := fun he =>
      (nodup_cons.mp (nodup_append.mp (hl ▸ hnodup)).2.1).1 (he ▸ hb)
    simpa using hne
  simp only [due, post, hl]
  rw [filter_append, filter_cons_of_pos (p := fun b => timerExpired now (a.timer b)) hexp,
    filter_append, filter_append, filter_comm, hnil, filter_cons_of_neg (by simp), hrest]
  rfl

section

variable {t : T} (hdue : a.due now = t :: (a.post [t]).due now)
  (hroom : a.events.length < processConfNumevents)

include hdue hroom

theorem posted_eq_cons :
    a.posted now = t :: (a.post [t]).posted now := by
  have hlen : processConfNumevents - a.events.length =
      processConfNumevents - (a.post [t]).events.length + 1 := by
    simp only [post, map_cons, map_nil, length_append, length_singleton]
    omega
  rw [posted, hdue, hlen, take_succ_cons, posted]

theorem passes_cons : a.passes now = (a.post [t]).passes now := by
  have hposted := posted_eq_cons hdue hroom
  have hpost : (a.post [t]).post ((a.post [t]).posted now) = a.post (a.posted now) := by
    rw [post_post, hposted, singleton_append]
    intro b hb
    simpa using (mem_filter.mp (mem_of_mem_filter (mem_of_mem_take hb))).2
  rw [passes, passes, hpost, hposted, hdue]
  simp only [length_cons, Nat.succ_lt_succ_iff]
  rfl

end

/-- With nothing posted only the request is left. -/
theorem passes_of_posted_nil (hposted : a.posted now = []) :
    a.passes now = { a with needspoll := a.needspoll || (a.running && a.due now ≠ []) } := by
  simp [passes, hposted, post, length_pos_iff]

end Timers

namespace Etimers

variable {s : Etimers T P} {a : Timers T P}

/-- The pointers hold the list. -/
structure Refines (s : Etimers T P) (a : Timers T P) : Prop where
  linked : Linked s.next s.timerlist a.list
  running : s.running = a.running
  p : s.p = a.p
  timer : s.timer = a.timer
  needspoll : s.needspoll = a.needspoll
  events : s.events = a.events

/-- The list is finite and acyclic, and every timer is on it at most once. -/
def IsList (s : Etimers T P) : Prop := ∃ l, Linked s.next s.timerlist l ∧ l.Nodup

/-- The list of timers, read off the pointers. -/
@[simp] def toTimers (s : Etimers T P) (l : List T) : Timers T P :=
  ⟨s.running, l, s.p, s.timer, s.needspoll, s.events⟩

theorem refines_toTimers {l : List T} (h : Linked s.next s.timerlist l) :
    s.Refines (s.toTimers l) :=
  ⟨h, rfl, rfl, rfl, rfl, rfl⟩

theorem Refines.isList (h : s.Refines a) : s.IsList := ⟨a.list, h.linked, h.linked.nodup⟩

theorem Refines.eq_toTimers (h : s.Refines a) : a = s.toTimers a.list := by
  obtain ⟨-, hrunning, hp, htimer, hneeds, hevents⟩ := h
  rw [toTimers, hrunning, hp, htimer, hneeds, hevents]

section Calls

variable [Fintype T] [DecidableEq T] {l : List T} {current : Option P} {now : ClockTime} {t : T}

/-! ### Scans -/

/-- Where the scan stands: at the first timer, or behind the timer `u`. -/
def At (s : Etimers T P) (u head : Option T) : Prop :=
  (u = none ∧ s.timerlist = head) ∨ ∃ b, u = some b ∧ s.next b = head

/-- A scan with the queue full only asks for another poll. -/
theorem scan_full {fuel : ℕ} {u head : Option T} (h : Linked s.next head l)
    (hfuel : l.length ≤ fuel) (hfull : s.events.length = processConfNumevents) :
    scan now fuel s u head = some
      ({ s with needspoll := s.needspoll || (s.running && l.any fun t =>
        timerExpired now (s.timer t)) }, false) := by
  induction l generalizing s fuel u head with
  | nil =>
    rw [show head = none from h]
    simp [scan]
  | cons t l ih =>
    rw [h.1]
    cases fuel with
    | zero => exact absurd hfuel (Nat.not_succ_le_zero _)
    | succ fuel =>
      have hfuel' := Nat.le_of_succ_le_succ hfuel
      rw [scan, any_cons]
      cases timerExpired now (s.timer t) with
      | true =>
        rw [if_pos hfull, ih (s := s.etimerRequestPoll) h.2 hfuel' hfull]
        cases hn : s.needspoll <;> cases hr : s.running <;> simp [etimerRequestPoll, hn, hr]
      | false =>
        rw [if_neg Bool.false_ne_true, ih h.2 hfuel' hfull, Bool.false_or]

variable (now) in
/-- A scan with room in the queue goes on to the first timer that has expired. -/
theorem scan_room {fuel : ℕ} {u head : Option T} (h : Linked s.next head l)
    (hfuel : l.length ≤ fuel) (hroom : s.events.length ≠ processConfNumevents) (hat : s.At u head) :
    match l.find? fun t => timerExpired now (s.timer t) with
    | none => scan now fuel s u head = some (s, false)
    | some t => ∃ u', scan now fuel s u head = some (s.expire now u' t, true) ∧ s.At u' (some t) ∧
        ∀ b ∈ u', b ∈ u ∨ b ∈ l := by
  induction l generalizing fuel u head with
  | nil =>
    rw [show head = none from h]
    simp [scan]
  | cons t l ih =>
    obtain ⟨rfl, hl⟩ := h
    cases fuel with
    | zero => exact absurd hfuel (Nat.not_succ_le_zero _)
    | succ fuel =>
      rw [scan, find?_cons]
      cases timerExpired now (s.timer t) with
      | true =>
        rw [if_neg hroom]
        exact ⟨u, rfl, hat, fun b hb => .inl hb⟩
      | false =>
        have hrest := ih hl (Nat.le_of_succ_le_succ hfuel) (.inr ⟨t, rfl, rfl⟩)
        revert hrest
        cases l.find? fun t => timerExpired now (s.timer t) with
        | none => exact id
        | some t' =>
          rintro ⟨u', hscan, hat', hu'⟩
          refine ⟨u', hscan, hat', fun b hb => .inr ?_⟩
          rcases hu' b hb with hbt | hbl
          · exact some.inj hbt ▸ mem_cons_self
          · exact mem_cons_of_mem _ hbl

variable (h : Linked s.next s.timerlist l)

include h

/-! ### Setting and stopping -/

theorem search_eq :
    s.search t = some (if t ∈ l ∧ s.p t ≠ none then some t else none) := by
  rw [search, h.walk_eq h.length_le]
  by_cases hp : s.p t = none
  · rw [if_pos hp, if_neg fun hmem => hmem.2 hp]
  · rw [if_neg hp]
    exact congrArg some (if_congr (and_iff_left hp).symm rfl rfl)

/-- A timer is set. -/
theorem addTimer_refines (timer : Timer) (hsafe : ¬(t ∈ l ∧ s.p t = none)) :
    ∃ s', (s.setTimer t timer).addTimer current now t = some s' ∧
      s'.Refines ((s.toTimers l).add current t timer) := by
  have hsearch : (s.setTimer t timer).etimerRequestPoll.search t =
      some (if t ∈ l ∧ s.p t ≠ none then some t else none) := search_eq h
  by_cases hmem : t ∈ l
  · rw [if_pos ⟨hmem, fun hp => hsafe ⟨hmem, hp⟩⟩] at hsearch
    refine ⟨_, by simp only [addTimer, hsearch]; rfl, ?_⟩
    have hlist : ((s.toTimers l).add current t timer).list = l := if_pos hmem
    exact ⟨by rw [hlist]; exact h, rfl, rfl, rfl, rfl, rfl⟩
  · rw [if_neg fun hfound => hmem hfound.1] at hsearch
    refine ⟨_, by simp only [addTimer, hsearch]; rfl, ?_⟩
    have hlist : ((s.toTimers l).add current t timer).list = t :: l := if_neg hmem
    exact ⟨by rw [hlist]; exact h.push hmem, rfl, rfl, rfl, rfl, rfl⟩

/-- A timer on the list whose process is `PROCESS_NONE` is put on it again, and the list is one no
more. -/
theorem addTimer_cycle (timer : Timer) (hmem : t ∈ l) (hp : s.p t = none) :
    ∃ s', (s.setTimer t timer).addTimer current now t = some s' ∧ ¬s'.IsList := by
  have hsearch : (s.setTimer t timer).etimerRequestPoll.search t =
      some (if t ∈ l ∧ s.p t ≠ none then some t else none) := search_eq h
  rw [if_neg fun hfound => hfound.2 hp] at hsearch
  refine ⟨_, by simp only [addTimer, hsearch]; rfl, ?_⟩
  rintro ⟨l', hl', -⟩
  exact h.push_mem hmem l' hl'

/-- A timer is stopped. -/
theorem etimerStop_refines : ∃ s', s.etimerStop now t = some s' ∧
    s'.Refines { s.toTimers l with list := l.erase t, p := update s.p t none } := by
  have hnot : t ∉ l.erase t := h.nodup.not_mem_erase
  by_cases hhead : s.timerlist = some t
  · refine ⟨_, by simp only [etimerStop, hhead]; rfl, ?_⟩
    exact ⟨(Linked.tail (hhead ▸ h)).update hnot, rfl, rfl, rfl, rfl, rfl⟩
  · have hwalk := h.walk (q := fun b => s.next b = some t) h.length_le
    cases hfind : l.find? (fun b => s.next b = some t) with
    | none =>
      rw [hfind] at hwalk
      have hmem : t ∉ l := fun hmem => by
        rcases h.mem_iff.mp hmem with hfirst | ⟨b, hb, hnext⟩
        · exact hhead hfirst
        · simpa [hnext] using find?_eq_none.mp hfind b hb
      refine ⟨_, by simp only [etimerStop, hhead, hwalk]; rfl, ?_⟩
      have hlist : l.erase t = l := erase_of_not_mem hmem
      exact ⟨by simpa only [hlist] using h.update hmem, rfl, rfl, rfl, rfl, rfl⟩
    | some b =>
      rw [hfind] at hwalk
      have hnext : s.next b = some t := by simpa using find?_some hfind
      refine ⟨_, by simp only [etimerStop, hhead, hwalk]; rfl, ?_⟩
      exact ⟨(h.unlink (mem_of_find?_eq_some hfind) hnext).update hnot, rfl, rfl, rfl, rfl, rfl⟩

/-! ### The exit of a process -/

/-- A process has ended, and its timers with it. -/
theorem exited_refines [DecidableEq P] (q : P) : ∃ s', s.exited q = some s' ∧
    s'.Refines { s.toTimers l with list := l.filter (s.p · ≠ some q) } := by
  have hwalk := h.walk (q := fun t => s.p t ≠ some q) h.length_le
  cases hfind : l.find? (fun t => s.p t ≠ some q) with
  | none =>
    rw [hfind] at hwalk
    have hlist : l.filter (s.p · ≠ some q) = [] :=
      filter_eq_nil_iff.mpr (find?_eq_none.mp hfind)
    refine ⟨_, by simp only [exited, hwalk]; rfl, ?_⟩
    exact ⟨by simp only [hlist]; rfl, rfl, rfl, rfl, rfl, rfl⟩
  | some t =>
    rw [hfind] at hwalk
    obtain ⟨hq, l₁, l₂, rfl, hl₁⟩ := find?_eq_some_iff_append.mp hfind
    have hlinked : Linked s.next (some t) (t :: l₂) := ⟨rfl, h.behind⟩
    have hfuel : l₂.length < Fintype.card T := hlinked.length_le
    obtain ⟨next', hnext', hl', -⟩ := unlinkAll_spec (q := fun t => s.p t = some q) hlinked hfuel
    refine ⟨_, by simp only [exited, hwalk, hnext']; rfl, ?_⟩
    have hlist : (l₁ ++ t :: l₂).filter (s.p · ≠ some q) =
        t :: l₂.filter fun b => !decide (s.p b = some q) := by
      rw [filter_append, filter_eq_nil_iff.mpr fun a ha => by simpa using hl₁ a ha,
        filter_cons_of_pos (p := (s.p · ≠ some q)) hq, nil_append]
      simp only [decide_not]
    exact ⟨by simp only [hlist]; exact hl', rfl, rfl, rfl, rfl, rfl⟩

/-! ### Polls -/

variable (now) in
/-- One expired timer is posted and unlinked. -/
theorem expire_refines {u : Option T} (hat : s.At u (some t)) (hu : ∀ b ∈ u, b ∈ l) :
    (s.expire now u t).Refines ((s.toTimers l).post [t]) := by
  have hnot : t ∉ l.erase t := h.nodup.not_mem_erase
  have hlist : l.filter (· ∉ [t]) = l.erase t := by
    rw [h.nodup.erase_eq_filter]
    exact filter_congr fun b _ => by simp [bne, BEq.beq]
  have hp : update s.p t none = fun b => if b ∈ [t] then none else s.p b := by
    funext b
    simp only [update_apply, mem_singleton]
  rcases hat with ⟨rfl, hhead⟩ | ⟨b, rfl, hnext⟩
  · refine ⟨?_, rfl, hp, rfl, rfl, rfl⟩
    simp only [Timers.post, toTimers, hlist]
    exact (Linked.tail (hhead ▸ h)).update hnot
  · refine ⟨?_, rfl, hp, rfl, rfl, rfl⟩
    simp only [Timers.post, toTimers, hlist]
    exact (h.unlink (hu b rfl) hnext).update hnot

/-- The passes post the timers that have expired, as many as the queue takes. -/
theorem passes_refines {fuel : ℕ} (hfuel : ((s.toTimers l).due now).length < fuel)
    (hevents : s.events.length ≤ processConfNumevents) :
    ∃ s', passes now fuel s = some s' ∧ s'.Refines ((s.toTimers l).passes now) := by
  induction fuel generalizing s l with
  | zero => cases hfuel
  | succ fuel ih =>
    rw [passes]
    by_cases hfull : s.events.length = processConfNumevents
    · have hposted : (s.toTimers l).posted now = [] := by
        rw [Timers.posted, show (s.toTimers l).events = s.events from rfl, hfull, Nat.sub_self,
          take_zero]
      rw [scan_full h h.length_le hfull, Timers.passes_of_posted_nil hposted]
      refine ⟨_, rfl, h, rfl, rfl, rfl, ?_, rfl⟩
      have hany : (l.any fun t => timerExpired now (s.timer t)) =
          decide ((s.toTimers l).due now ≠ []) := by
        rw [Bool.eq_iff_iff]
        simp [Timers.due, filter_eq_nil_iff]
      simp only [hany, toTimers]
    · have hscan := scan_room now h h.length_le hfull (.inl ⟨rfl, rfl⟩)
      cases hfind : l.find? fun t => timerExpired now (s.timer t) with
      | none =>
        have hdue : (s.toTimers l).due now = [] :=
          filter_eq_nil_iff.mpr (find?_eq_none.mp hfind)
        have hposted : (s.toTimers l).posted now = [] := by rw [Timers.posted, hdue, take_nil]
        rw [hfind] at hscan
        rw [hscan, Timers.passes_of_posted_nil hposted, hdue]
        exact ⟨_, rfl, h, rfl, rfl, rfl, by simp, rfl⟩
      | some t =>
        rw [hfind] at hscan
        obtain ⟨u, hscan, hat, hu⟩ := hscan
        have hs' := expire_refines now h hat fun b hb => (hu b hb).resolve_left (by simp)
        have hdue : (s.toTimers l).due now = t :: ((s.toTimers l).post [t]).due now :=
          Timers.due_eq_cons h.nodup hfind
        have hroom := lt_of_le_of_ne hevents hfull
        rw [hscan, Timers.passes_cons hdue hroom, hs'.eq_toTimers]
        refine ih hs'.linked ?_ ?_
        · rw [← hs'.eq_toTimers]
          rw [hdue] at hfuel
          exact Nat.lt_of_succ_lt_succ hfuel
        · rw [hs'.events]
          simp only [Timers.post, map_cons, map_nil, length_append,
            length_singleton]
          exact hroom

theorem poll_refines (hevents : s.events.length ≤ processConfNumevents) :
    ∃ s', s.poll now = some s' ∧ s'.Refines ((s.toTimers l).poll now) :=
  passes_refines (s := { s with needspoll := false }) h
    (Nat.lt_succ_of_le ((length_filter_le _ _).trans h.length_le)) hevents

end Calls

/-! ### The list stays a list -/

section Machine

variable [Fintype T]

/-- `update_time` returns when the list is one. -/
theorem updateTime_returns_iff (now : ClockTime) :
    (s.updateTime now).nextExpiration.isSome ↔ s.IsList := by
  rw [updateTime, isSome_map, isSome_iff_exists]
  constructor
  · rintro ⟨l, hl⟩
    exact ⟨l, linked_of_nodes hl, (linked_of_nodes hl).nodup⟩
  · rintro ⟨l, hl, -⟩
    exact ⟨l, hl.nodes hl.length_le⟩

/-- The timer that is set is not on the list with `PROCESS_NONE`. -/
def Safe (s : Etimers T P) (i : EtimerInput T P) : Prop :=
  ∀ t ∈ i.call.adds, ∀ l ∈ s.timers, ¬(t ∈ l ∧ s.p t = none)

instance [DecidableEq T] {i : EtimerInput T P} : Decidable (s.Safe i) :=
  inferInstanceAs (Decidable (∀ t ∈ i.call.adds, ∀ l ∈ s.timers, ¬(t ∈ l ∧ s.p t = none)))

variable {l : List T} {i : EtimerInput T P} (h : Linked s.next s.timerlist l)

include h

theorem safe_iff : s.Safe i ↔ ∀ t ∈ i.call.adds, ¬(t ∈ l ∧ s.p t = none) := by
  simp only [Safe, timers, h.nodes h.length_le, mem_def, some_inj, forall_eq']

variable [DecidableEq T] [DecidableEq P]

/-- **Refinement.**  A call does to the pointers what it does to the list. -/
theorem call_refines (hevents : s.events.length ≤ processConfNumevents) (hsafe : s.Safe i) :
    ∃ s', s.call i.current i.now i.call = some s' ∧
      s'.Refines ((s.toTimers l).call i.current i.now i.call) := by
  obtain ⟨current, now, call⟩ := i
  rw [safe_iff h] at hsafe
  cases call with
  | start =>
    by_cases hr : s.running
    · rw [Timers.call, if_pos (show (s.toTimers l).running from hr)]
      exact ⟨s, if_pos hr, refines_toTimers h⟩
    · rw [Timers.call, if_neg (show ¬(s.toTimers l).running from hr)]
      exact ⟨_, if_neg hr, rfl, rfl, rfl, rfl, rfl, rfl⟩
  | etimerSet et | etimerResetWithNewInterval et | etimerReset et | etimerRestart et =>
    exact addTimer_refines h _ (hsafe et rfl)
  | etimerStop et => exact etimerStop_refines h
  | exited q =>
    rw [Etimers.call, Timers.call, show (s.toTimers l).running = s.running from rfl]
    split
    · exact exited_refines h q
    · exact ⟨s, rfl, refines_toTimers h⟩
  | poll =>
    rw [Etimers.call, Timers.call, show (s.toTimers l).running = s.running from rfl]
    split
    · exact poll_refines h hevents
    · exact ⟨s, rfl, refines_toTimers h⟩
  | post =>
    rw [Etimers.call, Timers.call, show (s.toTimers l).events = s.events from rfl]
    split
    · exact ⟨s, rfl, refines_toTimers h⟩
    · exact ⟨_, rfl, h, rfl, rfl, rfl, rfl, rfl⟩
  | etimerAdjust | etimerRequestPoll | deliver => exact ⟨_, rfl, h, rfl, rfl, rfl, rfl, rfl⟩

/-- The call that sets a timer which is on the list with `PROCESS_NONE`. -/
theorem call_cycle (hsafe : ¬s.Safe i) :
    ∃ s', s.call i.current i.now i.call = some s' ∧ ¬s'.IsList := by
  obtain ⟨current, now, call⟩ := i
  rw [safe_iff h] at hsafe
  push Not at hsafe
  obtain ⟨t, ht, hmem, hp⟩ := hsafe
  cases call with
  | etimerSet | etimerResetWithNewInterval | etimerReset | etimerRestart =>
    exact addTimer_cycle h _ (some.inj ht ▸ hmem) (some.inj ht ▸ hp)
  | _ => cases ht

end Machine

end Etimers

/-! ### Runs -/

namespace Timers

variable [DecidableEq T] {a : Timers T P}

theorem passes_events_le (now : ClockTime) (h : a.events.length ≤ processConfNumevents) :
    (a.passes now).events.length ≤ processConfNumevents := by
  have hle : (a.posted now).length ≤ processConfNumevents - a.events.length := length_take_le _ _
  simp only [passes, post, length_append, length_map]
  omega

/-- The queue never holds more than it takes. -/
theorem call_events_le [DecidableEq P] {current : Option P} {now : ClockTime} (c : EtimerCall T P)
    (h : a.events.length ≤ processConfNumevents) :
    (a.call current now c).events.length ≤ processConfNumevents := by
  cases c with
  | poll =>
    rw [call]
    split
    · exact passes_events_le now h
    · exact h
  | post =>
    rw [call]
    split
    · exact h
    · simp only [length_append, length_singleton]
      omega
  | deliver => exact (length_tail ▸ Nat.sub_le _ _).trans h
  | start | exited => rw [call]; split <;> exact h
  | _ => exact h

end Timers

namespace Etimers

variable {s₀ s : Etimers T P}

/-- As the memory is at first: no timer is on the list, and nothing is queued. -/
def Initial (s : Etimers T P) : Prop := s.timerlist = none ∧ s.events = []

/-- The pointers hold a list and the queue is no longer than it may be. -/
def Sound (s : Etimers T P) : Prop :=
  ∃ l, Linked s.next s.timerlist l ∧ s.events.length ≤ processConfNumevents

theorem Sound.isList (h : s.Sound) : s.IsList := by
  obtain ⟨l, hl, -⟩ := h
  exact ⟨l, hl, hl.nodup⟩

theorem Initial.sound (h : s.Initial) : s.Sound := ⟨[], h.1, h.2 ▸ Nat.zero_le _⟩

variable [Fintype T] [DecidableEq T] [DecidableEq P]

theorem step_sound {s' : Etimers T P} {i : EtimerInput T P} {es : List (EtimerEvent T P)}
    (h : s.Sound) (hsafe : s.Safe i) (hstep : s.step i = some (s', es)) : s'.Sound := by
  obtain ⟨l, hl, hevents⟩ := h
  obtain ⟨s'', hcall, href⟩ := call_refines hl hevents hsafe
  rw [step, hcall] at hstep
  cases hstep
  exact ⟨_, href.linked, href.events ▸ Timers.call_events_le i.call hevents⟩

section

variable {tr : List (EtimerInput T P × List (EtimerEvent T P))} (h₀ : s₀.Initial)
  (hrun : Runs step Safe s₀ tr s)

include h₀ hrun

theorem run_sound : s.Sound :=
  (hrun.invariant Sound (fun _ => True) (fun h hG hi => ⟨step_sound h hG hi, trivial⟩) h₀.sound).1

/-- **The list of event timers.**  In a run that never sets a timer which is on the list with
`PROCESS_NONE` the pointers hold a finite list without repetition at every moment, and from there
every call returns; it leaves such a list exactly when it does not set such a timer either. -/
theorem timerlist_isList_iff :
    s.IsList ∧ ∀ i, ∃ s' es, s.step i = some (s', es) ∧ (s'.IsList ↔ s.Safe i) := by
  have hs := run_sound h₀ hrun
  refine ⟨hs.isList, fun i => ?_⟩
  obtain ⟨l, hl, hevents⟩ := hs
  by_cases hsafe : s.Safe i
  · obtain ⟨s', hcall, href⟩ := call_refines hl hevents hsafe
    exact ⟨s', _, by rw [step, hcall]; rfl, iff_of_true href.isList hsafe⟩
  · obtain ⟨s', hcall, hcycle⟩ := call_cycle hl hsafe
    exact ⟨s', _, by rw [step, hcall]; rfl, iff_of_false hcycle hsafe⟩

end

/-- A timer on its own, and a process. -/
def fresh : Etimers Unit Unit :=
  { running := true, timerlist := none, next := fun _ => none, p := fun _ => none,
    timer := fun _ => ⟨0, 0⟩, nextExpiration := some 0, needspoll := false, events := [] }

/-- A process sets a timer, and sets it again. -/
theorem timerlist_isList_set_again :
    ∃ s, (∃ tr, Runs step Safe fresh tr s) ∧ s.timerlist = some () ∧ s.IsList := by
  have hexec : (execute step Safe fresh
      [⟨some (), 5, .etimerSet () 10⟩, ⟨some (), 6, .etimerSet () 10⟩]).map (·.1.timerlist) =
      some (some ()) := rfl
  obtain ⟨⟨s, tr⟩, hrun, hhead⟩ := exists_run_of_map hexec
  exact ⟨s, ⟨tr, hrun⟩, hhead, (timerlist_isList_iff ⟨rfl, rfl⟩ hrun).1⟩

/-- With no process running a timer is started twice: it is its own successor, and `update_time` is
never done with the list. -/
theorem started_twice_without_process :
    ∃ s s' es es', fresh.step ⟨none, 5, .etimerSet () 10⟩ = some (s, es) ∧
      s.step ⟨none, 6, .etimerSet () 10⟩ = some (s', es') ∧ s'.timerlist = some () ∧
      s'.next () = some () ∧ ¬s'.IsList ∧ s'.nextExpiration = none := by
  refine ⟨_, _, _, _, rfl, rfl, rfl, rfl, ?_, rfl⟩
  rw [← updateTime_returns_iff 6]
  exact Bool.false_ne_true

end Etimers

end Nespy.Sys
