import Mathlib.Data.List.Basic

/-!
# Lib — runs of a machine

A machine takes an input in each step and makes an output: `step s i = some (s', o)`, or `none` when
the step has no meaning in that state.  `Runs step G s tr s'` says that the machine goes from `s` to
`s'` along the trace `tr` of inputs and outputs, each step meeting the condition `G` on the state it
starts from and the input it takes.

`Runs.invariant` is the rule for safety: what holds at first and is kept by a step holds at the end,
and what every step's output satisfies holds of every output of the run.

When the outputs are lists of events, a history is what a fold over the events gives.
`Runs.history` is the rule for properties that look back: an invariant between the state and the
history, and a condition that each event has to meet in the history it happens in (`AllGood`).
-/

namespace Nespy.Lib

variable {S I O : Type*}

/-- The machine goes from the first state to the second along the trace. -/
inductive Runs (step : S → I → Option (S × O)) (G : S → I → Prop) :
    S → List (I × O) → S → Prop where
  | nil (s : S) : Runs step G s [] s
  | cons {s s' s'' : S} {i : I} {o : O} {tr : List (I × O)} :
      G s i → step s i = some (s', o) → Runs step G s' tr s'' → Runs step G s ((i, o) :: tr) s''

variable {step : S → I → Option (S × O)} {G : S → I → Prop}

variable {tr : List (I × O)} {s s' : S}

/-- **Invariant rule.**  A step lemma, for the state and for the output, gives the run lemma. -/
theorem Runs.invariant (Inv : S → Prop) (Out : O → Prop)
    (hstep : ∀ {s i s' o}, Inv s → G s i → step s i = some (s', o) → Inv s' ∧ Out o)
    (h : Runs step G s tr s') (hs : Inv s) :
    Inv s' ∧ ∀ io ∈ tr, Out io.2 := by
  induction h with
  | nil => exact ⟨hs, List.forall_mem_nil _⟩
  | cons hG hi _ ih =>
    obtain ⟨hs', ho⟩ := hstep hs hG hi
    obtain ⟨hs'', hout⟩ := ih hs'
    exact ⟨hs'', List.forall_mem_cons.mpr ⟨ho, hout⟩⟩

/-- Two conditions that agree wherever the machine comes to allow the same runs. -/
theorem runs_congr {G' : S → I → Prop} (Inv : S → Prop)
    (hstep : ∀ {s i s' o}, Inv s → step s i = some (s', o) → Inv s')
    (hG : ∀ {s i}, Inv s → (G s i ↔ G' s i)) (hs : Inv s) :
    Runs step G s tr s' ↔ Runs step G' s tr s' := by
  constructor
  · intro h
    induction h with
    | nil s => exact .nil s
    | cons hg hi _ ih => exact .cons ((hG hs).mp hg) hi (ih (hstep hs hi))
  · intro h
    induction h with
    | nil s => exact .nil s
    | cons hg hi _ ih => exact .cons ((hG hs).mpr hg) hi (ih (hstep hs hi))

/-- The run along the inputs, as far as each step meets `G`. -/
def execute (step : S → I → Option (S × O)) (G : S → I → Prop) [∀ s i, Decidable (G s i)] :
    S → List I → Option (S × List (I × O))
  | s, [] => some (s, [])
  | s, i :: is =>
    if G s i then
      match step s i with
      | some (s', o) => (execute step G s' is).map fun r => (r.1, (i, o) :: r.2)
      | none => none
    else none

theorem runs_of_execute [∀ s i, Decidable (G s i)] {is : List I} : ∀ {s s' : S} {tr : List (I × O)},
    execute step G s is = some (s', tr) → Runs step G s tr s' := by
  induction is with
  | nil =>
    intro s s' tr h
    cases h
    exact .nil s
  | cons i is ih =>
    intro s s' tr h
    obtain ⟨hG, h⟩ := Option.ite_none_right_eq_some.mp h
    split at h
    · rename_i s₁ o hi
      obtain ⟨r, hr, hrs⟩ := Option.map_eq_some_iff.mp h
      cases hrs
      exact .cons hG hi (ih hr)
    · cases h

section Found

variable [∀ s i, Decidable (G s i)] {is : List I}

/-- A run found by execution, with what is read off its end. -/
theorem exists_run_of_map {B : Type*} {f : S × List (I × O) → B} {b : B}
    (h : (execute step G s is).map f = some b) :
    ∃ r : S × List (I × O), Runs step G s r.2 r.1 ∧ f r = b := by
  obtain ⟨r, hr, hb⟩ := Option.map_eq_some_iff.mp h
  exact ⟨r, runs_of_execute hr, hb⟩

/-- The same with what is checked at its end. -/
theorem exists_run_of_decide {P : S × List (I × O) → Prop} [DecidablePred P]
    (h : (execute step G s is).map (fun r => decide (P r)) = some true) :
    ∃ r : S × List (I × O), Runs step G s r.2 r.1 ∧ P r := by
  obtain ⟨r, hrun, hP⟩ := exists_run_of_map h
  exact ⟨r, hrun, of_decide_eq_true hP⟩

end Found

/-! ### Histories -/

section History

variable {E H : Type*} (update : H → E → H) (Good : H → E → Prop)

/-- Each event is good in the history that the events before it give. -/
def AllGood : H → List E → Prop
  | _, [] => True
  | h, e :: es => Good h e ∧ AllGood (update h e) es

variable {h : H} {tr : List (I × List E)} {es es' : List E} {is : List I}
  {step : S → I → Option (S × List E)}

theorem allGood_append : AllGood update Good h (es ++ es') ↔
      AllGood update Good h es ∧ AllGood update Good (es.foldl update h) es' := by
  induction es generalizing h with
  | nil => exact ⟨fun hes => ⟨trivial, hes⟩, fun hes => hes.2⟩
  | cons e es ih =>
    rw [List.cons_append, AllGood, AllGood, ih, List.foldl_cons, and_assoc]

theorem AllGood.of_mem {pre post : List E} {e : E}
    (hgood : AllGood update Good h (pre ++ e :: post)) : Good (pre.foldl update h) e :=
  ((allGood_append update Good).mp hgood).2.1

theorem allGood_of_forall (hgood : ∀ h e, Good h e) : ∀ {h : H} {es : List E},
    AllGood update Good h es
  | _, [] => trivial
  | _, _ :: _ => ⟨hgood _ _, allGood_of_forall hgood⟩

/-- The events of a trace. -/
def events (tr : List (I × List E)) : List E := tr.flatMap Prod.snd

theorem events_cons (io : I × List E) (tr : List (I × List E)) :
    events (io :: tr) = io.2 ++ events tr := by
  rw [events, List.flatMap_cons, events]

/-- A run that makes these events, found by execution. -/
theorem exists_run_of_events [∀ s i, Decidable (G s i)]
    (h : (execute step G s is).map (fun r => events r.2) = some es) :
    ∃ tr s', Runs step G s tr s' ∧ events tr = es := by
  obtain ⟨r, hrun, hes⟩ := exists_run_of_map h
  exact ⟨r.2, r.1, hrun, hes⟩

/-- The same with one more step, whose output is kept apart. -/
theorem exists_step_of_events [∀ s i, Decidable (G s i)] {i : I}
    (h : ((execute step G s is).bind fun r => (step r.1 i).map fun q => (events r.2, q.2)) =
      some (es, es')) :
    ∃ tr s' s'', Runs step G s tr s' ∧ events tr = es ∧ step s' i = some (s'', es') := by
  obtain ⟨r, hr, hmap⟩ := Option.bind_eq_some_iff.mp h
  obtain ⟨q, hq, hpair⟩ := Option.map_eq_some_iff.mp hmap
  obtain ⟨hes, rfl⟩ := Prod.mk.inj hpair
  exact ⟨r.2, r.1, q.1, runs_of_execute hr, hes, hq⟩

/-- **Trace rule.**  The history is the list of all events so far. -/
theorem Runs.trace (Inv : S → List E → Prop)
    (hstep : ∀ {s es i s' es'}, Inv s es → G s i → step s i = some (s', es') → Inv s' (es ++ es'))
    (hrun : Runs step G s tr s') : ∀ {es : List E}, Inv s es → Inv s' (es ++ events tr) := by
  induction hrun with
  | nil => exact fun hs => (List.append_nil _).symm ▸ hs
  | cons hG hi _ ih =>
    intro es hs
    rw [events_cons, ← List.append_assoc]
    exact ih (hstep hs hG hi)

variable {update Good}

/-- **History rule.**  A step lemma between the state and the history gives the run lemma, and with
it that every event of the run is good in the history it happens in. -/
theorem Runs.history (Inv : S → H → Prop)
    (hstep : ∀ {s h i s' es}, Inv s h → G s i → step s i = some (s', es) →
      Inv s' (es.foldl update h) ∧ AllGood update Good h es)
    (hrun : Runs step G s tr s') : ∀ {h : H}, Inv s h →
      Inv s' ((events tr).foldl update h) ∧ AllGood update Good h (events tr) := by
  induction hrun with
  | nil => exact fun hs => ⟨hs, trivial⟩
  | cons hG hi _ ih =>
    intro h hs
    obtain ⟨hs', hgood⟩ := hstep hs hG hi
    obtain ⟨hs'', hgood'⟩ := ih hs'
    rw [events_cons, List.foldl_append, allGood_append]
    exact ⟨hs'', hgood, hgood'⟩

end History

end Nespy.Lib
