import Nespy.Sys.TimerList

/-!
# Sys — no event timer is lost

A timer waits from the call that sets it to the moment its event is posted, unless it is stopped
before, set again, or its process exits.  `Armed` is that, told from the events of a run alone.
When timers are set by processes the list holds exactly the timers that wait, so that one whose
interval is over leaves the list with one event for its process, or stays on it because the queue is
full.
-/

open List Function

namespace Nespy.Sys

open Nespy.Lib

/-- The process that waits for each timer. -/
abbrev Armed (T P : Type) := T → Option P

variable {T P : Type} {a : Timers T P} {es : List (EtimerEvent T P)} {t : T} {q : P}
  {now : ClockTime} {i : EtimerInput T P}

namespace Armed

/-- An event timer's event goes to the process that waits for it. -/
def Good (armed : Armed T P) : EtimerEvent T P → Prop
  | .posted (.timer p t) => p.isSome ∧ armed t = p
  | _ => True

variable [DecidableEq T] [DecidableEq P]

/-- What an event means for the timers that wait. -/
def update (armed : Armed T P) : EtimerEvent T P → Armed T P
  | .set t p => Function.update armed t p
  | .stopped t => Function.update armed t none
  | .exited p => fun t => if armed t = some p then none else armed t
  | .posted (.timer _ t) => Function.update armed t none
  | .posted .other => armed

theorem foldl_posted (armed : Armed T P) (p : T → Option P) (ts : List T) :
    (ts.map fun t => EtimerEvent.posted (.timer (p t) t)).foldl update armed =
      fun t => if t ∈ ts then none else armed t := by
  induction ts generalizing armed with
  | nil => funext t; simp
  | cons b ts ih =>
    rw [map_cons, foldl_cons, ih]
    funext t
    by_cases htb : t = b
    · simp [htb, update]
    · simp [htb, update]

theorem allGood_posted {armed : Armed T P} {p : T → Option P} {ts : List T} (hnodup : ts.Nodup)
    (hts : ∀ t ∈ ts, (p t).isSome ∧ armed t = p t) :
    AllGood update Good armed (ts.map fun t => EtimerEvent.posted (.timer (p t) t)) := by
  induction ts generalizing armed with
  | nil => trivial
  | cons b ts ih =>
    obtain ⟨hb, hnodup'⟩ := nodup_cons.mp hnodup
    refine ⟨hts b mem_cons_self, ih hnodup' fun t ht => ?_⟩
    have hne : t ≠ b := fun he => hb (he ▸ ht)
    obtain ⟨hsome, hp⟩ := hts t (mem_cons_of_mem _ ht)
    exact ⟨hsome, (update_of_ne hne _ _).trans hp⟩

end Armed

/-- A timer is set while a process runs. -/
def FromProcess {T P : Type} (_ : Etimers T P) (i : EtimerInput T P) : Prop :=
  i.call.adds.isSome → i.current.isSome

instance {T P : Type} {s : Etimers T P} {i : EtimerInput T P} : Decidable (FromProcess s i) :=
  inferInstanceAs (Decidable (i.call.adds.isSome → i.current.isSome))

namespace Timers

/-- `etimer_process` runs, and a process waits for every timer on the list. -/
structure Waits (a : Timers T P) : Prop where
  running : a.running
  events : a.events.length ≤ processConfNumevents
  nodup : a.list.Nodup
  waits : ∀ t ∈ a.list, (a.p t).isSome

theorem Waits.sublist (h : a.Waits) {l : List T} (hl : l.Sublist a.list) :
    Waits { a with list := l } :=
  ⟨h.running, h.events, h.nodup.sublist hl, fun t ht => h.waits t (hl.subset ht)⟩

variable [DecidableEq T]

/-- Who waits for a timer on the list. -/
def armed (a : Timers T P) : Armed T P := fun t => if t ∈ a.list then a.p t else none

theorem Waits.mem_iff (h : a.Waits) : t ∈ a.list ↔ (a.armed t).isSome := by
  rw [armed]
  split_ifs with hmem
  · exact iff_of_true hmem (h.waits t hmem)
  · exact iff_of_false hmem Bool.false_ne_true

/-! ### Setting a timer -/

section Add

variable {current : Option P} {timer : Timer}

theorem mem_add {b : T} : b ∈ (a.add current t timer).list ↔ b = t ∨ b ∈ a.list := by
  simp only [Timers.add]
  split_ifs with hmem
  · exact ⟨.inr, fun h => h.elim (fun he => he ▸ hmem) id⟩
  · exact mem_cons

theorem Waits.add (h : a.Waits) (hcurrent : current.isSome) : (a.add current t timer).Waits := by
  refine ⟨h.running, h.events, ?_, ?_⟩
  · simp only [Timers.add]
    split_ifs with hmem
    · exact h.nodup
    · exact nodup_cons.mpr ⟨hmem, h.nodup⟩
  · intro b hb
    by_cases hbt : b = t
    · simpa [Timers.add, hbt] using hcurrent
    · simpa [Timers.add, hbt] using h.waits b ((mem_add.mp hb).resolve_left hbt)

theorem armed_add : (a.add current t timer).armed = update a.armed t current := by
  funext b
  rw [armed, update_apply]
  split
  · rename_i hb
    split_ifs with hbt
    · exact hbt ▸ update_self ..
    · rw [armed, if_pos ((mem_add.mp hb).resolve_left hbt)]
      exact update_of_ne hbt ..
  · rename_i hb
    obtain ⟨hbt, hmem⟩ := not_or.mp (mem_add.not.mp hb)
    rw [if_neg hbt, armed, if_neg hmem]

end Add

/-! ### Taking timers off the list -/

theorem Waits.stop (h : a.Waits) (t : T) :
    Waits { a with list := a.list.erase t, p := update a.p t none } := by
  refine ⟨h.running, h.events, h.nodup.erase t, fun b hb => ?_⟩
  obtain ⟨hbt, hmem⟩ := h.nodup.mem_erase_iff.mp hb
  simpa [hbt] using h.waits b hmem

theorem armed_stop (t : T) :
    armed { a with list := a.list.erase t, p := update a.p t none } =
      update a.armed t none := by
  funext b
  simp only [armed, update_apply]
  by_cases hbt : b = t <;> simp [hbt]

theorem armed_exited [DecidableEq P] (q : P) :
    armed { a with list := a.list.filter (a.p · ≠ some q) } =
      fun t => if a.armed t = some q then none else a.armed t := by
  funext b
  simp only [armed]
  by_cases hmem : b ∈ a.list <;> by_cases hq : a.p b = some q <;> simp [hq]

theorem Waits.post (h : a.Waits) {ts : List T}
    (hevents : (a.post ts).events.length ≤ processConfNumevents) : (a.post ts).Waits := by
  refine ⟨h.running, hevents, h.nodup.filter _, fun t ht => ?_⟩
  obtain ⟨hmem, hts⟩ := mem_filter.mp ht
  have hp : (a.post ts).p t = a.p t := if_neg (by simpa using hts)
  exact hp ▸ h.waits t hmem

theorem armed_post (ts : List T) :
    (a.post ts).armed = fun t => if t ∈ ts then none else a.armed t := by
  funext b
  simp only [armed, Timers.post]
  by_cases hts : b ∈ ts <;> simp [hts]

/-! ### One call -/

variable [DecidableEq P]

theorem poll_armed (h : a.Waits) (now : ClockTime)
    (hes : es = ((a.poll now).events.drop a.events.length).map .posted) :
    (a.poll now).Waits ∧ es.foldl Armed.update a.armed = (a.poll now).armed ∧
      AllGood Armed.update Armed.Good a.armed es := by
  have hevents : es = (a.posted now).map fun t => .posted (.timer (a.p t) t) := by
    rw [hes, show (a.poll now).events = a.events ++ (a.posted now).map fun t =>
      .timer (a.p t) t from rfl, drop_left, map_map]
    rfl
  have hnodup : (a.posted now).Nodup := (h.nodup.filter _).sublist (take_sublist _ _)
  have hwaits := h.post (passes_events_le now h.events)
  refine ⟨{ hwaits with }, ?_, ?_⟩
  · rw [hevents, Armed.foldl_posted]
    exact (armed_post (a.posted now)).symm
  · rw [hevents]
    refine Armed.allGood_posted hnodup fun t ht => ?_
    have hmem : t ∈ a.list := mem_of_mem_filter (mem_of_mem_take ht)
    exact ⟨h.waits t hmem, if_pos hmem⟩

/-- **What a call does to the timers that wait.**  The events of the call tell it. -/
theorem call_armed {a' : Timers T P} (h : a.Waits) (hi : i.call.adds.isSome → i.current.isSome)
    (ha' : a' = a.call i.current i.now i.call)
    (hes : es = i.events (a'.events.drop a.events.length)) :
    a'.Waits ∧ es.foldl Armed.update a.armed = a'.armed ∧
      AllGood Armed.update Armed.Good a.armed es := by
  obtain ⟨current, now, c⟩ := i
  have hlen : a'.events.length ≤ processConfNumevents := ha' ▸ call_events_le c h.events
  cases c with
  | start =>
    rw [call, if_pos h.running] at ha'
    subst ha' hes
    exact ⟨h, rfl, trivial⟩
  | exited q =>
    rw [call, if_pos h.running] at ha'
    subst ha' hes
    exact ⟨h.sublist filter_sublist, (armed_exited q).symm, trivial, trivial⟩
  | poll =>
    rw [call, if_pos h.running] at ha'
    subst ha'
    exact poll_armed h now hes
  | etimerStop et =>
    subst ha' hes
    exact ⟨h.stop et, (armed_stop et).symm, trivial, trivial⟩
  | post =>
    have hsame : a' = { a with events := a'.events } := by
      rw [ha', call]
      split <;> rfl
    rw [hes, hsame]
    exact ⟨{ h with events := hlen }, rfl, trivial⟩
  | deliver | etimerAdjust et timediff | etimerRequestPoll =>
    subst ha' hes
    exact ⟨{ h with events := hlen }, rfl, trivial⟩
  | etimerSet et interval | etimerResetWithNewInterval et interval
  | etimerReset et | etimerRestart et =>
    subst ha' hes
    exact ⟨h.add (hi rfl), armed_add.symm, trivial, trivial⟩

/-! ### Polls -/

omit [DecidableEq P] in
/-- A timer that has expired stays on the list only if the queue is full. -/
theorem poll_due (h : a.Waits) (hmem : t ∈ (a.poll now).list)
    (hexp : timerExpired now (a.timer t)) :
    (a.poll now).events.length = processConfNumevents ∧ (a.poll now).needspoll := by
  obtain ⟨hlist, hposted⟩ := mem_filter.mp hmem
  replace hposted : t ∉ a.posted now := of_decide_eq_true hposted
  have hdue : t ∈ a.due now := mem_filter.mpr ⟨hlist, hexp⟩
  -- something was left, so the queue took all it could
  have hlt : processConfNumevents - a.events.length < (a.due now).length := by
    by_contra hle
    rw [posted, take_of_length_le (Nat.le_of_not_lt hle)] at hposted
    exact hposted hdue
  have hlen : (a.posted now).length = processConfNumevents - a.events.length := by
    rw [posted, length_take]
    exact min_eq_left hlt.le
  constructor
  · have hevents := h.events
    rw [show (a.poll now).events = a.events ++ (a.posted now).map fun t =>
      .timer (a.p t) t from rfl, length_append, length_map]
    omega
  · have hneeds : (a.poll now).needspoll =
        (false || (a.running && decide ((a.posted now).length < (a.due now).length))) := rfl
    rw [hneeds, h.running, hlen]
    simpa using hlt

end Timers

/-! ### What happens to a timer that is set -/

namespace EtimerEvent

variable [DecidableEq T] [DecidableEq P]

/-- The event of the timer `t` is posted. -/
def posts (t : T) : EtimerEvent T P → Bool
  | .posted (.timer _ t') => t' = t
  | _ => false

/-- The timer `t` is set again or stopped, or the process `q` that waits for it exits. -/
@[simp] def ends (t : T) (q : P) : EtimerEvent T P → Bool
  | .set t' _ => t' = t
  | .stopped t' => t' = t
  | .exited p => p = q
  | .posted _ => false

omit [DecidableEq P] in
theorem exists_of_posts {e : EtimerEvent T P} (h : e.posts t) : ∃ p, e = .posted (.timer p t) := by
  cases e with
  | posted e =>
    cases e with
    | timer p t' => exact ⟨p, by simpa [posts] using h⟩
    | other => cases h
  | _ => cases h

theorem update_of_not_ends {armed : Armed T P} {e : EtimerEvent T P} (he : ¬e.ends t q)
    (hposts : ¬e.posts t) (harmed : armed t = some q ∨ armed t = none) :
    armed.update e t = armed t := by
  cases e with
  | set | stopped => exact update_of_ne (by simpa [eq_comm] using he) ..
  | exited p =>
    refine if_neg fun hp => ?_
    rcases harmed with hq | hnone
    · exact he (by simpa using Option.some.inj (hp.symm.trans hq))
    · exact absurd (hp.symm.trans hnone) (Option.some_ne_none p)
  | posted e =>
    cases e with
    | timer p t' => exact update_of_ne (by simpa [posts, eq_comm] using hposts) ..
    | other => rfl

end EtimerEvent

namespace Armed

open EtimerEvent

variable [DecidableEq T] [DecidableEq P] {armed : Armed T P} (hgood : AllGood update Good armed es)

include hgood

/-- Nobody waits, and no event is posted. -/
theorem not_posted_again (hes : ∀ e ∈ es, ¬e.ends t q) (harmed : armed t = none) :
    es.filter (posts t) = [] ∧ es.foldl update armed t = none := by
  induction es generalizing armed with
  | nil => exact ⟨rfl, harmed⟩
  | cons e es ih =>
    have hposts : ¬e.posts t := fun hp => by
      obtain ⟨p, rfl⟩ := exists_of_posts hp
      obtain ⟨hsome, hp⟩ := hgood.1
      simp [← hp, harmed] at hsome
    have hupdate := update_of_not_ends (hes e mem_cons_self) hposts (.inr harmed)
    rw [filter_cons_of_neg hposts]
    exact ih hgood.2 (fun e he => hes e (mem_cons_of_mem _ he)) (hupdate.trans harmed)

/-- A process waits until the event is posted, which happens once. -/
theorem posted_once (hes : ∀ e ∈ es, ¬e.ends t q) (harmed : armed t = some q) :
    (es.filter (posts t) = [] ∧ es.foldl update armed t = some q) ∨
      (es.filter (posts t) = [.posted (.timer (some q) t)] ∧ es.foldl update armed t = none) := by
  induction es generalizing armed with
  | nil => exact .inl ⟨rfl, harmed⟩
  | cons e es ih =>
    have hrest : ∀ e ∈ es, ¬e.ends t q := fun e he => hes e (mem_cons_of_mem _ he)
    by_cases hposts : e.posts t
    · obtain ⟨p, rfl⟩ := exists_of_posts hposts
      obtain rfl : some q = p := harmed.symm.trans hgood.1.2
      obtain ⟨hnil, hnone⟩ := not_posted_again hgood.2 hrest (update_self ..)
      rw [filter_cons_of_pos hposts, hnil]
      exact .inr ⟨rfl, hnone⟩
    · have hupdate := update_of_not_ends (hes e mem_cons_self) hposts (.inl harmed)
      rw [filter_cons_of_neg hposts]
      exact ih hgood.2 hrest (hupdate.trans harmed)

end Armed

/-! ### Runs -/

namespace Etimers

variable [Fintype T] [DecidableEq T] [DecidableEq P] {s₀ s : Etimers T P}

/-- The pointers hold the timers that wait. -/
def Keeps (s : Etimers T P) (armed : Armed T P) : Prop :=
  ∃ a, s.Refines a ∧ a.Waits ∧ armed = a.armed

theorem step_refines (href : s.Refines a) (h : a.Waits) (i : EtimerInput T P) :
    ∃ s', s.step i = some (s', i.events (s'.events.drop s.events.length)) ∧
      s'.Refines (a.call i.current i.now i.call) := by
  have hsafe : s.Safe i := (safe_iff href.linked).mpr fun t _ ⟨hmem, hp⟩ => by
    simpa [← href.p, hp] using h.waits t hmem
  obtain ⟨s', hcall, href'⟩ := call_refines href.linked (href.events ▸ h.events) hsafe
  rw [← href.eq_toTimers] at href'
  exact ⟨s', by rw [step, hcall]; rfl, href'⟩

theorem step_keeps {s' : Etimers T P} {armed : Armed T P} (h : s.Keeps armed) (hi : FromProcess s i)
    (hstep : s.step i = some (s', es)) :
    s'.Keeps (es.foldl Armed.update armed) ∧ AllGood Armed.update Armed.Good armed es := by
  obtain ⟨a, href, hwaits, rfl⟩ := h
  obtain ⟨s'', hstep', href'⟩ := step_refines href hwaits i
  obtain ⟨rfl, rfl⟩ := Prod.mk.inj (Option.some.inj (hstep'.symm.trans hstep))
  have hes : i.events (s''.events.drop s.events.length) =
      i.events ((a.call i.current i.now i.call).events.drop a.events.length) := by
    rw [href'.events, href.events]
  obtain ⟨hwaits', harmed, hgood⟩ := Timers.call_armed hwaits hi rfl hes
  exact ⟨⟨_, href', hwaits', harmed⟩, hgood⟩

omit [Fintype T] [DecidableEq P] in
theorem Initial.keeps (h : s.Initial) (hrunning : s.running) : s.Keeps fun _ => none := by
  have hevents : s.events.length ≤ processConfNumevents := h.2 ▸ Nat.zero_le _
  refine ⟨s.toTimers [], refines_toTimers h.1, ⟨hrunning, hevents, nodup_nil, ?_⟩, ?_⟩
  · simp
  · funext t
    simp [Timers.armed]

/-- A poll of `etimer_process` when `t` waits on the list and its interval is over. -/
theorem poll_of_expired (href : s.Refines a) (h : a.Waits) (current : Option P)
    (harmed : a.armed t = some q) (hexp : timerExpired now (s.timer t)) :
    ∃ s' es l, s.step ⟨current, now, .poll⟩ = some (s', es) ∧ Linked s'.next s'.timerlist l ∧
      ((t ∉ l ∧ es.filter (EtimerEvent.posts t) = [.posted (.timer (some q) t)]) ∨
        (t ∈ l ∧ es.filter (EtimerEvent.posts t) = [] ∧ s'.events.length = processConfNumevents ∧
          s'.needspoll)) := by
  obtain ⟨s', hstep, href'⟩ := step_refines href h ⟨current, now, .poll⟩
  rw [Timers.call, if_pos h.running] at href'
  obtain ⟨hwaits', hfold, hgood⟩ := Timers.poll_armed h now rfl
  rw [← href'.events, ← href.events] at hfold hgood
  refine ⟨s', _, _, hstep, href'.linked, ?_⟩
  have hends : ∀ e ∈ (s'.events.drop s.events.length).map .posted, ¬EtimerEvent.ends t q e := by
    intro e he
    obtain ⟨posted, -, rfl⟩ := mem_map.mp he
    exact Bool.false_ne_true
  rcases Armed.posted_once hgood hends harmed with ⟨hposts, hsome⟩ | ⟨hposts, hnone⟩
  · have hmem : t ∈ (a.poll now).list := hwaits'.mem_iff.mpr (by rw [← hfold, hsome]; rfl)
    obtain ⟨hfull, hneeds⟩ := Timers.poll_due h hmem (href.timer ▸ hexp)
    exact .inr ⟨hmem, hposts, href'.events ▸ hfull, href'.needspoll ▸ hneeds⟩
  · refine .inl ⟨fun hmem => ?_, hposts⟩
    have hsome := hwaits'.mem_iff.mp hmem
    rw [← hfold, hnone] at hsome
    cases hsome

/-- **No timer is lost or posted twice.**  In a run where timers are set by processes, a timer that
the process `q` sets, and which is not stopped or set again, nor its process exits, is on the list
until its event is posted to `q`, which happens once.  A poll after its interval is over posts it,
or leaves it on the list, with the queue full and another poll requested. -/
theorem set_timer_posted_once {tr : List (EtimerInput T P × List (EtimerEvent T P))}
    (h₀ : s₀.Initial) (hrunning : s₀.running) (hrun : Runs step FromProcess s₀ tr s)
    {before since : List (EtimerEvent T P)}
    {t : T} {q : P} (htr : Lib.events tr = before ++ .set t (some q) :: since)
    (hsince : ∀ e ∈ since, ¬e.ends t q) :
    ∃ l, Linked s.next s.timerlist l ∧
      ((t ∉ l ∧ since.filter (EtimerEvent.posts t) = [.posted (.timer (some q) t)]) ∨
        (t ∈ l ∧ since.filter (EtimerEvent.posts t) = [] ∧ s.p t = some q ∧
          ∀ current now, timerExpired now (s.timer t) →
            ∃ s' es l', s.step ⟨current, now, .poll⟩ = some (s', es) ∧
              Linked s'.next s'.timerlist l' ∧
              ((t ∉ l' ∧ es.filter (EtimerEvent.posts t) = [.posted (.timer (some q) t)]) ∨
                (t ∈ l' ∧ es.filter (EtimerEvent.posts t) = [] ∧
                  s'.events.length = processConfNumevents ∧ s'.needspoll)))) := by
  obtain ⟨⟨a, href, hwaits, harmed⟩, hgood⟩ := hrun.history Keeps step_keeps (h₀.keeps hrunning)
  rw [htr, foldl_append, foldl_cons] at harmed
  rw [htr, allGood_append] at hgood
  refine ⟨a.list, href.linked, ?_⟩
  rcases Armed.posted_once hgood.2.2 hsince (update_self ..) with
    ⟨hposts, hsome⟩ | ⟨hposts, hnone⟩
  · rw [harmed] at hsome
    have hmem : t ∈ a.list := hwaits.mem_iff.mpr (by rw [hsome]; rfl)
    refine .inr ⟨hmem, hposts, ?_, fun current now => poll_of_expired href hwaits current hsome⟩
    rw [href.p, ← hsome, Timers.armed, if_pos hmem]
  · refine .inl ⟨fun hmem => ?_, hposts⟩
    have hsome := hwaits.mem_iff.mp hmem
    rw [← harmed, hnone] at hsome
    cases hsome

/-- A process sets a timer of ten ticks at 5, which is not over at 14 and is at 15. -/
theorem set_timer_posted_at_fifteen : ∃ tr s l, Runs step FromProcess fresh tr s ∧
      Lib.events tr = [.set () (some ()), .posted (.timer (some ()) ())] ∧
      Linked s.next s.timerlist l ∧ () ∉ l := by
  have hexec : (execute step FromProcess fresh [⟨some (), 5, .etimerSet () 10⟩, ⟨none, 14, .poll⟩,
      ⟨none, 15, .poll⟩]).map (fun r => Lib.events r.2) =
      some [.set () (some ()), .posted (.timer (some ()) ())] := by decide +kernel
  obtain ⟨tr, s, hrun, hes⟩ := exists_run_of_events hexec
  have hset : Lib.events tr = [] ++ .set () (some ()) :: [.posted (.timer (some ()) ())] := hes
  obtain ⟨l, hl, hposted | hwaits⟩ :=
    set_timer_posted_once ⟨rfl, rfl⟩ rfl hrun hset (by simp)
  · exact ⟨tr, s, l, hrun, hes, hl, hposted.1⟩
  · cases hwaits.2.1

end Etimers

end Nespy.Sys
