import Mathlib.Data.List.Nodup
import Mathlib.Data.List.Range

/-!
# Lib — an outbox

Jobs are submitted one after the other.  An outbox refuses a job, or accepts it and puts it at the
end of the queue of its key; it makes attempts at the job at the head of a queue, at most as many as
its budget allows, and takes it off the queue when it is done.

`Served` ties the queues to the events that have happened.  Its field `fifo` is the whole order of
service: for each key, the jobs accepted are those done, in the order in which they were done,
followed by those that still wait.  With the numbers of the jobs, which no two share, it gives that
an accepted job is done once when it has left its queue and not before (`Served.once`).
-/

open List Function

namespace Nespy.Lib.Outbox

/-- What happens to jobs. -/
inductive Event (J R : Type*) where
  | accepted (j : J)
  | refused (j : J)
  | attempt (j : J)
  | done (j : J) (r : R)
  deriving DecidableEq, Repr

section Projections

variable {J R : Type*}

/-- The job that was accepted. -/
@[simp] def Event.accepted? : Event J R → Option J
  | .accepted j => some j
  | _ => none

/-- The job that was refused. -/
@[simp] def Event.refused? : Event J R → Option J
  | .refused j => some j
  | _ => none

/-- The job that was submitted. -/
@[simp] def Event.submitted? : Event J R → Option J
  | .accepted j | .refused j => some j
  | _ => none

/-- The job that was attempted. -/
@[simp] def Event.attempt? : Event J R → Option J
  | .attempt j => some j
  | _ => none

/-- The job that was done, with its result. -/
@[simp] def Event.done? : Event J R → Option (J × R)
  | .done j r => some (j, r)
  | _ => none

variable (es : List (Event J R))

/-- The accepted jobs, in order. -/
def accepted : List J := es.filterMap Event.accepted?

/-- The refused jobs. -/
@[simp] def refused : List J := es.filterMap Event.refused?

/-- The jobs accepted or refused. -/
@[simp] def submitted : List J := es.filterMap Event.submitted?

/-- The attempts. -/
@[simp] def attempts : List J := es.filterMap Event.attempt?

/-- The jobs done, with their results. -/
def dones : List (J × R) := es.filterMap Event.done?

variable {es} {j : J} {r : R} (es' : List (Event J R))

@[simp] theorem refused_append : refused (es ++ es') = refused es ++ refused es' := filterMap_append

@[simp] theorem submitted_append : submitted (es ++ es') = submitted es ++ submitted es' :=
  filterMap_append

theorem mem_dones : (j, r) ∈ dones es ↔ .done j r ∈ es := by
  rw [dones, mem_filterMap]
  constructor
  · rintro ⟨e, he, hj⟩
    cases e <;> simp_all [Event.done?]
  · exact fun he => ⟨_, he, rfl⟩

theorem filter_dones_eq_nil [DecidableEq J] (h : j ∉ (dones es).map Prod.fst) :
    (dones es).filter (·.1 = j) = [] :=
  filter_eq_nil_iff.mpr fun _ hx hxj => h (of_decide_eq_true hxj ▸ mem_map_of_mem hx)

theorem accepted_sublist_submitted (es : List (Event J R)) :
    (accepted es).Sublist (submitted es) := by
  induction es with
  | nil => exact .slnil
  | cons e es ih =>
    cases e with
    | accepted j => exact ih.cons_cons j
    | refused j => exact ih.cons j
    | attempt j => exact ih
    | done j r => exact ih

/-- Every submitted job is accepted or refused, and no place among them is both. -/
theorem submitted_perm (es : List (Event J R)) :
    (submitted es).Perm (accepted es ++ refused es) := by
  induction es with
  | nil => exact .nil
  | cons e es ih =>
    cases e with
    | accepted j => exact ih.cons j
    | refused j => exact (ih.cons j).trans perm_middle.symm
    | attempt j => exact ih
    | done j r => exact ih

end Projections

/-! ### The outbox -/

/-- The queues, with how many attempts were made at each job, and how many jobs were submitted. -/
@[ext] structure State (K J : Type*) where
  queue : K → List (J × ℕ)
  calls : ℕ

variable {K J R : Type*} [DecidableEq K] [DecidableEq J]

namespace State

variable (o : State K J)

/-- Nothing waits. -/
def initial : State K J where
  queue _ := []
  calls := 0

/-- A job is refused. -/
def refuse : State K J := { o with calls := o.calls + 1 }

/-- A job waits behind the others of its key. -/
def accept (k : K) (j : J) : State K J where
  queue := update o.queue k (o.queue k ++ [(j, 0)])
  calls := o.calls + 1

/-- One more attempt at the job `j`, at which there were `m`, with `q` behind it. -/
def attempt (k : K) (j : J) (m : ℕ) (q : List (J × ℕ)) : State K J :=
  { o with queue := update o.queue k ((j, m + 1) :: q) }

/-- The job at the head is done; `q` is behind it. -/
def finish (k : K) (q : List (J × ℕ)) : State K J := { o with queue := update o.queue k q }

end State

/-- What the events so far say about the queues. -/
structure Served (key : J → K) (id budget : J → ℕ) (refusal : R) (o : State K J)
    (es : List (Event J R)) : Prop where
  submitted : (submitted es).map id = range o.calls
  known : ∀ j, j ∈ attempts es ∨ j ∈ (dones es).map Prod.fst → j ∈ Outbox.submitted es
  fifo : ∀ k, (accepted es).filter (key · = k) =
    ((dones es).map Prod.fst).filter (fun j => key j = k ∧ j ∈ accepted es) ++
      (o.queue k).map Prod.fst
  refused : ∀ j ∈ refused es, (dones es).filter (·.1 = j) = [(j, refusal)]
  queued : ∀ k, ∀ jm ∈ o.queue k, (attempts es).count jm.1 = jm.2
  bound : ∀ j ∈ accepted es, (attempts es).count j ≤ budget j
  last : es.Pairwise fun e e' => ∀ j r, e = .done j r → e' ≠ .attempt j

namespace Served

variable {key : J → K} {id budget : J → ℕ} {refusal r : R} {o : State K J}
  {es : List (Event J R)} {j : J}
  {k : K} {m : ℕ} {q : List (J × ℕ)} (h : Served key id budget refusal o es)

theorem initial : Served key id budget refusal .initial ([] : List (Event J R)) where
  submitted := rfl
  known := by simp [dones]
  fifo _ := rfl
  refused := nofun
  queued := nofun
  bound := nofun
  last := .nil

include h

/-! ### What is known of a job -/

theorem nodup_submitted : (Outbox.submitted es).Nodup :=
  List.Nodup.of_map id (h.submitted ▸ nodup_range)

theorem nodup_accepted : (accepted es).Nodup :=
  h.nodup_submitted.sublist (accepted_sublist_submitted es)

/-- The next job has not been seen. -/
theorem not_mem_submitted (hj : id j = o.calls) : j ∉ Outbox.submitted es := fun hmem => by
  have hid : id j ∈ (Outbox.submitted es).map id := mem_map_of_mem hmem
  rw [h.submitted, mem_range] at hid
  omega

theorem not_mem_accepted (hj : id j = o.calls) : j ∉ accepted es := fun hmem =>
  h.not_mem_submitted hj ((accepted_sublist_submitted es).subset hmem)

theorem not_mem_dones (hj : id j = o.calls) : j ∉ (dones es).map Prod.fst := fun hmem =>
  h.not_mem_submitted hj (h.known j (.inr hmem))

theorem not_accepted_of_refused (hj : j ∈ Outbox.refused es) : j ∉ accepted es := fun hacc =>
  disjoint_of_nodup_append ((submitted_perm es).nodup_iff.mp h.nodup_submitted) hacc hj

/-- A job that waits was accepted, and waits in the queue of its key. -/
theorem of_queued (hq : j ∈ (o.queue k).map Prod.fst) : j ∈ accepted es ∧ key j = k := by
  have hmem : j ∈ (accepted es).filter (key · = k) := h.fifo k ▸ mem_append_right _ hq
  simpa using hmem

theorem nodup_queue : ((o.queue k).map Prod.fst).Nodup := by
  have hnodup := h.nodup_accepted.filter (key · = k)
  rw [h.fifo k] at hnodup
  exact hnodup.of_append_right

/-- A job that waits is not done. -/
theorem not_done_of_queued (hq : j ∈ (o.queue k).map Prod.fst) : j ∉ (dones es).map Prod.fst := by
  intro hdone
  obtain ⟨hacc, hkey⟩ := h.of_queued hq
  have hnodup := h.nodup_accepted.filter (key · = k)
  rw [h.fifo k] at hnodup
  refine disjoint_of_nodup_append hnodup (mem_filter.mpr ⟨hdone, ?_⟩) hq
  simp [hacc, hkey]

/-- **Once.**  An accepted job waits and is not done, or it has left its queue and was done once. -/
theorem once (hacc : j ∈ accepted es) :
    (j ∈ (o.queue (key j)).map Prod.fst ∧ (dones es).filter (·.1 = j) = []) ∨
      (j ∉ (o.queue (key j)).map Prod.fst ∧ ∃ r, (dones es).filter (·.1 = j) = [(j, r)]) := by
  by_cases hq : j ∈ (o.queue (key j)).map Prod.fst
  · exact .inl ⟨hq, filter_dones_eq_nil (h.not_done_of_queued hq)⟩
  · refine .inr ⟨hq, ?_⟩
    -- the job is once among the accepted ones of its key, so it is once among the done ones
    have hmem : j ∈ (accepted es).filter (key · = key j) := by simpa using hacc
    have hcount := count_eq_one_of_mem (h.nodup_accepted.filter _) hmem
    rw [h.fifo (key j), count_append, count_eq_zero_of_not_mem hq,
      count_filter (by simp [hacc])] at hcount
    have hlength : ((dones es).filter (·.1 = j)).length = 1 := by
      rw [← countP_eq_length_filter, ← hcount, count, countP_map]
      exact countP_congr fun x _ => by simp
    obtain ⟨x, hx⟩ := length_eq_one_iff.mp hlength
    have hxj : x ∈ (dones es).filter (·.1 = j) := hx ▸ mem_singleton_self x
    obtain rfl := of_decide_eq_true (mem_filter.mp hxj).2
    exact ⟨x.2, hx⟩

/-! ### What the operations do -/

/-- **Step.**  A job that is refused. -/
theorem refuse (hj : id j = o.calls) :
    Served key id budget refusal o.refuse (es ++ [.refused j, .done j refusal]) := by
  have hacc : accepted (es ++ [.refused j, .done j refusal]) = accepted es := by simp [accepted]
  have hsub : Outbox.submitted [Event.refused j, Event.done j refusal] = [j] := rfl
  have hdone : dones (es ++ [.refused j, .done j refusal]) = dones es ++ [(j, refusal)] := by
    simp [dones, filterMap_cons]
  have hatt : attempts (es ++ [.refused j, .done j refusal]) = attempts es := by simp
  refine ⟨?_, fun x hx => ?_, fun k => ?_, fun x hx => ?_, fun k x hx => ?_, fun x hx => ?_, ?_⟩
  · rw [submitted_append, hsub, map_append, h.submitted, map_singleton, hj,
      State.refuse, range_succ]
  · rw [submitted_append, hsub]
    rw [hatt, hdone, map_append, mem_append] at hx
    rcases hx with hx | hx | hx
    · exact mem_append_left _ (h.known x (.inl hx))
    · exact mem_append_left _ (h.known x (.inr hx))
    · exact mem_append_right _ hx
  · have hnew : ([j] : List J).filter (fun x => key x = k ∧ x ∈ accepted es) = [] := by
      simp [h.not_mem_accepted hj]
    rw [hacc, hdone, map_append, map_singleton, filter_append, hnew, append_nil]
    exact h.fifo k
  · rw [refused_append, mem_append] at hx
    rw [hdone]
    rcases hx with hx | hx
    · have hne : x ≠ j := by
        rintro rfl
        exact h.not_mem_submitted hj ((submitted_perm es).mem_iff.mpr (mem_append_right _ hx))
      simp [h.refused x hx, Ne.symm hne]
    · obtain rfl : x = j := by simpa using hx
      simp [filter_dones_eq_nil (h.not_mem_dones hj)]
  · rw [hatt]
    exact h.queued k x hx
  · rw [hatt]
    exact h.bound x (hacc ▸ hx)
  · refine pairwise_append.mpr ⟨h.last, by simp, fun e _ e' he' => ?_⟩
    rcases mem_pair.mp he' with rfl | rfl <;> simp

/-- **Step.**  A job that waits. -/
theorem accept (hj : id j = o.calls) :
    Served key id budget refusal (o.accept (key j) j) (es ++ [.accepted j]) := by
  have hacc : accepted (es ++ [(.accepted j : Event J R)]) = accepted es ++ [j] := by
    simp [accepted]
  have hsub : Outbox.submitted [(Event.accepted j : Event J R)] = [j] := rfl
  have hdone : dones (es ++ [(.accepted j : Event J R)]) = dones es := by simp [dones]
  have hatt : attempts (es ++ [(.accepted j : Event J R)]) = attempts es := by simp
  have hnone : (attempts es).count j = 0 :=
    count_eq_zero_of_not_mem fun hmem => h.not_mem_submitted hj (h.known j (.inl hmem))
  refine ⟨?_, fun x hx => ?_, fun k => ?_, fun x hx => ?_, fun k x hx => ?_, fun x hx => ?_, ?_⟩
  · rw [submitted_append, hsub, map_append, h.submitted, map_singleton, hj,
      State.accept, range_succ]
  · rw [submitted_append]
    rw [hatt, hdone] at hx
    exact mem_append_left _ (h.known x hx)
  · -- the new job is not among the done ones
    have hsame : ((dones es).map Prod.fst).filter (fun x => key x = k ∧ x ∈ accepted es ++ [j]) =
        ((dones es).map Prod.fst).filter (fun x => key x = k ∧ x ∈ accepted es) := by
      refine filter_congr fun x hx => ?_
      have hne : x ≠ j := fun hxj => h.not_mem_dones hj (hxj ▸ hx)
      simp [hne]
    rw [hacc, hdone, hsame, filter_append, h.fifo k, State.accept]
    by_cases hk : key j = k
    · simp [hk]
    · simp [hk, update_of_ne (Ne.symm hk)]
  · rw [hdone]
    exact h.refused x (by simpa using hx)
  · rw [hatt]
    by_cases hk : k = key j
    · subst hk
      simp only [State.accept, update_self, mem_append, mem_singleton] at hx
      rcases hx with hx | rfl
      · exact h.queued _ x hx
      · exact hnone
    · simp only [State.accept, update_of_ne hk] at hx
      exact h.queued k x hx
  · rw [hatt]
    rw [hacc, mem_append, mem_singleton] at hx
    rcases hx with hx | rfl
    · exact h.bound x hx
    · rw [hnone]
      exact Nat.zero_le _
  · refine pairwise_append.mpr ⟨h.last, by simp, fun e _ e' he' => ?_⟩
    obtain rfl := mem_singleton.mp he'
    simp

/-- **Step.**  An attempt at a job. -/
theorem attempt (hq : o.queue k = (j, m) :: q) (hm : m < budget j) :
    Served key id budget refusal (o.attempt k j m q) (es ++ [.attempt j]) := by
  have hjq : j ∈ (o.queue k).map Prod.fst := by simp [hq]
  obtain ⟨hacc, hkey⟩ := h.of_queued hjq
  have hfst : ∀ k', ((o.attempt k j m q).queue k').map Prod.fst = (o.queue k').map Prod.fst := by
    intro k'
    by_cases hk : k' = k
    · subst hk
      simp [State.attempt, hq]
    · simp [State.attempt, update_of_ne hk]
  have hdone : dones (es ++ [(.attempt j : Event J R)]) = dones es := by simp [dones]
  have haccs : accepted (es ++ [(.attempt j : Event J R)]) = accepted es := by simp [accepted]
  have hatt : attempts (es ++ [(.attempt j : Event J R)]) = attempts es ++ [j] := by
    simp
  have hcount : ∀ x, x ≠ j → (attempts es ++ [j]).count x = (attempts es).count x := fun x hx => by
    rw [count_append, count_singleton, if_neg (by simpa using Ne.symm hx), Nat.add_zero]
  have hmore : (attempts es ++ [j]).count j = m + 1 := by
    rw [count_append, h.queued k (j, m) (by simp [hq]), count_singleton_self]
  refine ⟨?_, fun x hx => ?_, fun k' => ?_, fun x hx => ?_, fun k' x hx => ?_, fun x hx => ?_, ?_⟩
  · simpa [filterMap_cons, State.attempt] using h.submitted
  · rw [hatt, hdone, mem_append, mem_singleton] at hx
    rw [submitted_append]
    refine mem_append_left _ ?_
    rcases hx with (hx | rfl) | hx
    · exact h.known x (.inl hx)
    · exact (accepted_sublist_submitted es).subset hacc
    · exact h.known x (.inr hx)
  · rw [haccs, hdone, hfst]
    exact h.fifo k'
  · rw [hdone]
    exact h.refused x (by simpa using hx)
  · rw [hatt]
    by_cases hk : k' = k
    · subst hk
      simp only [State.attempt, update_self, mem_cons] at hx
      rcases hx with rfl | hx
      · exact hmore
      · have hnodup : ((o.queue k').map Prod.fst).Nodup := h.nodup_queue
        rw [hq, map_cons, nodup_cons] at hnodup
        rw [hcount x.1 fun hxj => hnodup.1 (mem_map.mpr ⟨x, hx, hxj⟩)]
        exact h.queued k' x (hq ▸ mem_cons_of_mem _ hx)
    · simp only [State.attempt, update_of_ne hk] at hx
      have hkey' := (h.of_queued (mem_map_of_mem hx)).2
      rw [hcount x.1 fun hxj => hk (hkey'.symm.trans (hxj ▸ hkey))]
      exact h.queued k' x hx
  · rw [hatt]
    by_cases hxj : x = j
    · subst hxj
      omega
    · rw [hcount x hxj]
      exact h.bound x (haccs ▸ hx)
  · refine pairwise_append.mpr ⟨h.last, by simp, fun e he e' he' x r hx => ?_⟩
    obtain rfl := mem_singleton.mp he'
    rintro hxj
    obtain rfl : j = x := by simpa using hxj
    subst hx
    exact h.not_done_of_queued hjq (mem_map_of_mem (mem_dones.mpr he))

/-- **Step.**  A job that is done. -/
theorem finish (hq : o.queue k = (j, m) :: q) (r : R) :
    Served key id budget refusal (o.finish k q) (es ++ [.done j r]) := by
  have hjq : j ∈ (o.queue k).map Prod.fst := by simp [hq]
  obtain ⟨hacc, hkey⟩ := h.of_queued hjq
  have hdone : dones (es ++ [.done j r]) = dones es ++ [(j, r)] := by simp [dones]
  have haccs : accepted (es ++ [.done j r]) = accepted es := by simp [accepted]
  have hatt : attempts (es ++ [.done j r]) = attempts es := by simp
  refine ⟨?_, fun x hx => ?_, fun k' => ?_, fun x hx => ?_, fun k' x hx => ?_, fun x hx => ?_, ?_⟩
  · simpa [filterMap_cons, State.finish] using h.submitted
  · rw [hatt, hdone, map_append, mem_append] at hx
    rw [submitted_append]
    refine mem_append_left _ ?_
    rcases hx with hx | hx | hx
    · exact h.known x (.inl hx)
    · exact h.known x (.inr hx)
    · obtain rfl : x = j := by simpa using hx
      exact (accepted_sublist_submitted es).subset hacc
  · rw [haccs, hdone, h.fifo k']
    by_cases hk : k' = k
    · subst hk
      simp [State.finish, hq, hacc, hkey]
    · have hne : key j ≠ k' := fun hjk => hk (hjk.symm.trans hkey)
      simp [State.finish, update_of_ne hk, hne]
  · have hx' : x ∈ Outbox.refused es := by simpa using hx
    have hne : j ≠ x := fun hjx => h.not_accepted_of_refused hx' (hjx ▸ hacc)
    rw [hdone, filter_append, h.refused x hx']
    simp [hne]
  · rw [hatt]
    by_cases hk : k' = k
    · subst hk
      simp only [State.finish, update_self] at hx
      exact h.queued k' x (hq ▸ mem_cons_of_mem _ hx)
    · simp only [State.finish, update_of_ne hk] at hx
      exact h.queued k' x hx
  · rw [hatt]
    exact h.bound x (haccs ▸ hx)
  · refine pairwise_append.mpr ⟨h.last, by simp, fun e _ e' he' => ?_⟩
    obtain rfl := mem_singleton.mp he'
    simp

end Served

end Nespy.Lib.Outbox
