import Mathlib.Data.Int.ModEq
import Nespy.Sys.Process

/-!
# Sys — the event queue

The queue of `sys/process.c` as it is stored: `nevents` slots of the array `events`, from `fevent`
on and round its end.  `Kernel` has it as a list, which is `queued` here (`queued_processPost`,
`queued_doEvent`).

The size `n` of the array is `PROCESS_CONF_NUMEVENTS`, which a build may set.  `process_post`
reduces the sum of the two counters to 8 bits and takes that modulo `n`.  The sum is up to `2 * n -
2`, so with more than 128 slots an event may be stored in the slot of another.
-/

open List Function

namespace Nespy.Sys

/-- `struct event_data`; `PROCESS_BROADCAST` is `none`. -/
structure EventData (D P : Type) where
  ev : ProcessEvent
  data : D
  p : Option P

/-- The ring of events. -/
structure EventQueue (D P : Type) where
  nevents : UInt8
  fevent : UInt8
  events : ℕ → EventData D P

namespace EventQueue

variable {D P : Type} (n : ℕ) (q : EventQueue D P)

/-- The result is whether that is `PROCESS_ERR_OK`. -/
def processPost (e : EventData D P) : EventQueue D P × Bool :=
  if q.nevents.toNat = n then (q, false)
  else
    ({ q with
        events := update q.events ((q.fevent + q.nevents).toNat % n) e
        nevents := q.nevents + 1 }, true)

/-- `do_event`, up to where the event is delivered. -/
def doEvent : EventQueue D P × Option (EventData D P) :=
  if 0 < q.nevents then
    ({ q with
        fevent := UInt8.ofNat ((q.fevent.toNat + 1) % n)
        nevents := q.nevents - 1 }, some (q.events q.fevent.toNat))
  else (q, none)

/-- The events that are queued, the first one first. -/
def queued : List (EventData D P) :=
  (range q.nevents.toNat).map fun i => q.events ((q.fevent.toNat + i) % n)

/-- Any calls of the two functions, with the events that were accepted and those that were taken
out. -/
inductive Runs : EventQueue D P → List (EventData D P) → List (EventData D P) → Prop where
  | init (events : ℕ → EventData D P) : Runs ⟨0, 0, events⟩ [] []
  | post {q : EventQueue D P} {accepted taken : List (EventData D P)} (e : EventData D P) :
      Runs q accepted taken →
      Runs (q.processPost n e).1 (accepted ++ if (q.processPost n e).2 then [e] else []) taken
  | take {q : EventQueue D P} {accepted taken : List (EventData D P)} : Runs q accepted taken →
      Runs (q.doEvent n).1 accepted (taken ++ (q.doEvent n).2.toList)

/-- What was accepted is what was taken out and what is queued, in this order, and an event is
refused, with nothing changed, exactly when `n` are queued. -/
def IsFifo (D P : Type) (n : ℕ) : Prop :=
  ∀ {q : EventQueue D P} {accepted taken : List (EventData D P)}, Runs n q accepted taken →
    accepted = taken ++ q.queued n ∧
      ∀ e, q.processPost n e = (q, false) ↔ accepted.length = taken.length + n

/-- The counters are in range. -/
structure Bounded : Prop where
  size : n ≤ 128
  fevent : q.fevent.toNat % n = q.fevent.toNat
  nevents : q.nevents.toNat ≤ n

variable {n q}

theorem length_queued : (q.queued n).length = q.nevents.toNat := by simp [queued]

theorem getElem?_queued {i : ℕ} (h : i < q.nevents.toNat) :
    (q.queued n)[i]? = some (q.events ((q.fevent.toNat + i) % n)) := by
  simp [queued, h]

theorem processPost_full (h : q.nevents.toNat = n) (e : EventData D P) :
    q.processPost n e = (q, false) := if_pos h

theorem processPost_room (h : q.nevents.toNat ≠ n) (e : EventData D P) : q.processPost n e =
    ({ q with
        events := update q.events ((q.fevent + q.nevents).toNat % n) e
        nevents := q.nevents + 1 }, true) := if_neg h

theorem processPost_refused_iff (e : EventData D P) :
    q.processPost n e = (q, false) ↔ q.nevents.toNat = n := by
  refine ⟨fun h => ?_, fun h => processPost_full h e⟩
  by_contra hne
  rw [processPost_room hne] at h
  cases (Prod.mk.inj h).2

namespace Bounded

variable (hb : Bounded n q)

include hb

theorem toNat_succ : (q.nevents + 1).toNat = q.nevents.toNat + 1 := by
  have := hb.size
  have := hb.nevents
  rw [UInt8.toNat_add]
  exact Nat.mod_eq_of_lt (by change _ + 1 < 256; omega)

/-- With at most 128 slots the sum of the counters fits. -/
theorem toNat_sum (h : q.nevents.toNat ≠ n) :
    (q.fevent + q.nevents).toNat = q.fevent.toNat + q.nevents.toNat := by
  have := hb.size
  have := hb.nevents
  have hlt : q.fevent.toNat < n := hb.fevent ▸ Nat.mod_lt _ (by omega)
  rw [UInt8.toNat_add]
  exact Nat.mod_eq_of_lt (by omega)

theorem processPost (e : EventData D P) : Bounded n (q.processPost n e).1 := by
  by_cases h : q.nevents.toNat = n
  · rwa [processPost_full h]
  · have := hb.nevents
    rw [processPost_room h]
    refine ⟨hb.size, hb.fevent, ?_⟩
    rw [hb.toNat_succ]
    omega

theorem queued_processPost (e : EventData D P) : (q.processPost n e).1.queued n =
    q.queued n ++ if (q.processPost n e).2 then [e] else [] := by
  by_cases h : q.nevents.toNat = n
  · simp [processPost_full h]
  · have hle := hb.nevents
    simp only [processPost_room h, queued, hb.toNat_succ, hb.toNat_sum h, range_succ, map_append,
      map_singleton, update_self, if_true, append_left_inj]
    -- the slots in use are other ones
    refine map_congr_left fun i hi => update_of_ne (fun heq => ?_) ..
    have hlt := mem_range.mp hi
    have hmod : i ≡ q.nevents.toNat [MOD n] := Nat.ModEq.add_left_cancel' q.fevent.toNat heq
    have := hmod.eq_of_lt_of_lt (by omega) (by omega)
    omega

theorem doEvent_pos (h : 0 < q.nevents) : (q.nevents - 1).toNat + 1 = q.nevents.toNat ∧
    (UInt8.ofNat ((q.fevent.toNat + 1) % n)).toNat = (q.fevent.toNat + 1) % n := by
  have hpos : 0 < q.nevents.toNat := UInt8.lt_iff_toNat_lt.mp h
  have hn := hb.nevents
  have hlt : (q.fevent.toNat + 1) % n < n := Nat.mod_lt _ (by omega)
  have hsize := hb.size
  constructor
  · have hone : (1 : UInt8) ≤ q.nevents := UInt8.le_iff_toNat_le.mpr hpos
    rw [UInt8.toNat_sub_of_le _ _ hone]
    exact Nat.sub_add_cancel hpos
  · exact UInt8.toNat_ofNat_of_lt' (by change _ < 256; omega)

theorem doEvent : Bounded n (q.doEvent n).1 := by
  rw [EventQueue.doEvent]
  split_ifs with h
  · obtain ⟨hn, hf⟩ := hb.doEvent_pos h
    have := hb.nevents
    refine ⟨hb.size, ?_, ?_⟩
    · rw [hf, Nat.mod_mod]
    · change (q.nevents - 1).toNat ≤ n
      omega
  · exact hb

theorem queued_doEvent : q.queued n = (q.doEvent n).2.toList ++ (q.doEvent n).1.queued n := by
  rw [EventQueue.doEvent]
  split_ifs with h
  · obtain ⟨hn, hf⟩ := hb.doEvent_pos h
    simp only [queued, hf, ← hn, range_succ_eq_map, map_cons, map_map, Nat.add_zero, hb.fevent,
      Option.toList_some, singleton_append, cons.injEq, true_and]
    refine map_congr_left fun i _ => ?_
    simp only [comp_apply, Nat.mod_add_mod]
    rw [Nat.add_right_comm, Nat.add_assoc]
  · rfl

end Bounded

theorem Runs.bounded {accepted taken : List (EventData D P)} (h : Runs n q accepted taken)
    (hn : n ≤ 128) : Bounded n q ∧ accepted = taken ++ q.queued n := by
  induction h with
  | init events => exact ⟨⟨hn, Nat.zero_mod n, Nat.zero_le n⟩, rfl⟩
  | post e _ ih =>
    obtain ⟨hb, rfl⟩ := ih
    exact ⟨hb.processPost e, by rw [hb.queued_processPost, append_assoc]⟩
  | take _ ih =>
    obtain ⟨hb, rfl⟩ := ih
    exact ⟨hb.doEvent, by rw [append_assoc, ← hb.queued_doEvent]⟩

/-! ### More than 128 slots -/

section Large

variable {accepted taken : List (EventData D P)}

/-- An event that is posted to an empty queue and taken out moves the first slot on. -/
theorem exists_runs_fevent [Inhabited D] {f : ℕ} (hf : f < n) (hf' : f < 256) :
    ∃ (q : EventQueue D P) (accepted taken : List (EventData D P)),
      Runs n q accepted taken ∧ q.nevents = 0 ∧ q.fevent.toNat = f := by
  induction f with
  | zero => exact ⟨_, _, _, .init fun _ => ⟨0, default, none⟩, rfl, rfl⟩
  | succ f ih =>
    obtain ⟨q, accepted, taken, hrun, hn, hq⟩ := ih (by omega) (by omega)
    have hroom : q.nevents.toNat ≠ n := by
      rw [hn]
      exact (Nat.zero_lt_of_lt hf).ne
    have hnext := (hrun.post ⟨0, default, none⟩).take
    simp only [processPost_room hroom, hn, doEvent] at hnext
    refine ⟨_, _, _, hnext, rfl, ?_⟩
    rw [hq, Nat.mod_eq_of_lt hf]
    exact UInt8.toNat_ofNat_of_lt' hf'

theorem exists_runs [Inhabited D] {f k : ℕ} (hf : f < n) (hf' : f < 256) (hk : k ≤ n)
    (hk' : k < 256) : ∃ (q : EventQueue D P) (accepted taken : List (EventData D P)),
      Runs n q accepted taken ∧ q.nevents.toNat = k ∧ q.fevent.toNat = f := by
  induction k with
  | zero =>
    obtain ⟨q, accepted, taken, hrun, hn, hq⟩ := exists_runs_fevent (D := D) hf hf'
    exact ⟨q, accepted, taken, hrun, congrArg UInt8.toNat hn, hq⟩
  | succ k ih =>
    obtain ⟨q, accepted, taken, hrun, hn, hq⟩ := ih (by omega) (by omega)
    have hnext := hrun.post ⟨0, default, none⟩
    rw [processPost_room (by omega)] at hnext
    refine ⟨_, _, _, hnext, ?_, hq⟩
    rw [UInt8.toNat_add, hn]
    exact Nat.mod_eq_of_lt hk'

/-- In a first-in first-out queue an event that is accepted is queued last. -/
theorem IsFifo.queued_processPost (h : IsFifo D P n) (hrun : Runs n q accepted taken)
    (hroom : q.nevents.toNat ≠ n) (e : EventData D P) :
    (q.processPost n e).1.queued n = q.queued n ++ [e] := by
  have hnext := (h (hrun.post e)).1
  rw [(h hrun).1, append_assoc, if_pos (by rw [processPost_room hroom])] at hnext
  exact (append_cancel_left hnext).symm

/-- A longer queue overwrites its first event. -/
theorem not_isFifo [Inhabited D] (hn : 128 < n) : ¬ IsFifo D P n := by
  intro h
  rcases Nat.lt_or_ge n 256 with hlt | hge
  · -- the second event queued is in slot 0, and the sum of the counters is 256
    obtain ⟨q, accepted, taken, hrun, hk, hf⟩ := exists_runs (D := D) (P := P) (n := n) (f := n - 1)
      (k := 257 - n) (by omega) (by omega) (by omega) (by omega)
    have hroom : q.nevents.toNat ≠ n := by omega
    have hsum : (q.fevent + q.nevents).toNat = 0 := by
      rw [UInt8.toNat_add, hf, hk, show n - 1 + (257 - n) = 256 by omega]
    have hsucc : (q.nevents + 1).toNat = 258 - n := by
      rw [UInt8.toNat_add, hk]
      change (257 - n + 1) % 256 = _
      omega
    have hslot : (q.fevent.toNat + 1) % n = 0 := by
      rw [hf, Nat.sub_add_cancel (by omega), Nat.mod_self]
    have hfifo := congrArg (·[1]?)
      (h.queued_processPost hrun hroom { q.events 0 with ev := (q.events 0).ev + 1 })
    simp only [processPost_room hroom] at hfifo
    rw [getElem?_append_left (by rw [length_queued]; omega),
      getElem?_queued (by change 1 < (q.nevents + 1).toNat; omega),
        getElem?_queued (by omega), hslot,
      hsum] at hfifo
    simpa using congrArg (Option.map EventData.ev) hfifo
  · -- the count wraps
    obtain ⟨q, accepted, taken, hrun, hk, hf⟩ := exists_runs (D := D) (P := P)
      (k := 255) (by omega) (by omega) (by omega) (by omega)
    have hroom : q.nevents.toNat ≠ n := by omega
    have hzero : (q.nevents + 1).toNat = 0 := by rw [UInt8.toNat_add, hk]; rfl
    have hfifo := congrArg length (h.queued_processPost hrun hroom (q.events 0))
    rw [processPost_room hroom, length_queued, length_append] at hfifo
    exact absurd (hzero.symm.trans hfifo) (Nat.succ_ne_zero _).symm

end Large

/-- **The queue is first-in first-out**, for all calls, exactly when it has at most 128 slots; it
has 32 unless a build says otherwise. -/
theorem event_queue_fifo_iff (D P : Type) [Inhabited D] (n : ℕ) : IsFifo D P n ↔ n ≤ 128 := by
  constructor
  · intro h
    by_contra hn
    exact not_isFifo (by omega) h
  · intro hn q accepted taken h
    obtain ⟨-, rfl⟩ := h.bounded hn
    refine ⟨rfl, fun e => ?_⟩
    rw [processPost_refused_iff, length_append, length_queued, Nat.add_left_cancel_iff]

/-- With 129 slots an event is overwritten before it is delivered. -/
theorem queue_of_129_overwrites : ¬ IsFifo ℕ ℕ 129 := not_isFifo (by decide)

end EventQueue

end Nespy.Sys
