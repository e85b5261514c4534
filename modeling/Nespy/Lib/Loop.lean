import Mathlib.Data.Nat.Notation
import Mathlib.Tactic.Basic

/-!
# Lib — loops

A loop goes from state to state until its body leaves it with a result.  `loop body fuel s` gives
the result, or `none` when the body has no meaning in a state or takes more than `fuel` turns.

`loop_spec` is the rule for total correctness: an invariant that each turn keeps, a measure that
each turn makes smaller, and a postcondition for the turn that leaves.  `loop_eq_none` is for a loop
that does not end.

`Settles f r` says of a function of the fuel that `r` is its result whenever the fuel suffices.
`runAll_settles` is the rule for a machine whose steps are such functions: where every step ends as
a specification allows, so does every run.
-/

namespace Nespy.Lib

variable {S R : Type*}

/-- The result of the loop; a turn goes on with `.inl` and leaves with `.inr`. -/
def loop (body : S → Option (S ⊕ R)) : ℕ → S → Option R
  | 0, _ => none
  | fuel + 1, s =>
    match body s with
    | none => none
    | some (.inl s') => loop body fuel s'
    | some (.inr r) => some r

variable {f : S → Option (S ⊕ R)}

variable {r : R} {s : S} {fuel : ℕ} {g : ℕ → Option R} (Inv : S → Prop)

/-- More fuel than a loop needs changes nothing. -/
theorem loop_add (h : loop f fuel s = some r) (k : ℕ) : loop f (fuel + k) s = some r := by
  induction fuel generalizing s with
  | zero => cases h
  | succ fuel ih =>
    rw [Nat.add_right_comm, loop]
    rw [loop] at h
    cases hf : f s with
    | none => simp [hf] at h
    | some x =>
      cases x with
      | inl s' => exact ih (by simpa [hf] using h)
      | inr r' => simpa [hf] using h

/-- A loop does not end when every turn goes on, to a state of which the same holds. -/
theorem loop_eq_none (hturn : ∀ s, Inv s → ∃ s', f s = some (.inl s') ∧ Inv s') (fuel : ℕ)
    (hs : Inv s) :
    loop f fuel s = none := by
  induction fuel generalizing s with
  | zero => rfl
  | succ fuel ih =>
    obtain ⟨s', hs', hinv⟩ := hturn s hs
    rw [loop, hs']
    exact ih hinv

/-- With fuel enough the result is `r`. -/
def Settles (g : ℕ → Option R) (r : R) : Prop := ∃ n, ∀ fuel, n ≤ fuel → g fuel = some r

theorem Settles.of_eq (h : ∀ fuel, g fuel = some r) : Settles g r :=
  ⟨0, fun fuel _ => h fuel⟩

@[simp] theorem settles_some {a : R} : Settles (fun _ => some a) r ↔ a = r := by
  constructor
  · rintro ⟨n, hn⟩
    exact Option.some.inj (hn n (Nat.le_refl n))
  · rintro rfl
    exact .of_eq fun _ => rfl

section Rule

variable (measure : S → ℕ) (Post : R → Prop)
  (hturn : ∀ s, Inv s → (∃ s', f s = some (.inl s') ∧ Inv s' ∧ measure s' < measure s) ∨
    ∃ r, f s = some (.inr r) ∧ Post r)
  (hs : Inv s)

include hturn hs

/-- **Loop rule.**  With an invariant and a measure the loop ends, in a result that the last turn
makes. -/
theorem loop_spec (hfuel : measure s < fuel) : ∃ r, loop f fuel s = some r ∧ Post r := by
  induction fuel generalizing s with
  | zero => cases hfuel
  | succ fuel ih =>
    rcases hturn s hs with ⟨s', hs', hinv, hlt⟩ | ⟨r, hr, hpost⟩
    · rw [loop, hs']
      exact ih hinv (Nat.lt_of_lt_of_le hlt (Nat.le_of_lt_succ hfuel))
    · exact ⟨r, by rw [loop, hr], hpost⟩

/-- The loop rule, for the result that the loop settles with. -/
theorem loop_settles : ∃ r, Settles (fun fuel => loop f fuel s) r ∧ Post r := by
  obtain ⟨r, hr, hpost⟩ := loop_spec Inv measure Post hturn hs (Nat.lt_succ_self (measure s))
  refine ⟨r, ⟨measure s + 1, fun fuel hfuel => ?_⟩, hpost⟩
  obtain ⟨k, rfl⟩ := Nat.exists_eq_add_of_le hfuel
  exact loop_add hr k

end Rule

/-- Without a result for any fuel there is none to settle with. -/
theorem not_settles (h : ∀ fuel, g fuel = none) (r : R) : ¬ Settles g r := by
  rintro ⟨n, hn⟩
  have := (h n).symm.trans (hn n (Nat.le_refl n))
  cases this

/-- A function that is the next one of the fuel settles with that one. -/
theorem Settles.succ (h : Settles (fun fuel => g (fuel + 1)) r) : Settles g r := by
  obtain ⟨n, hn⟩ := h
  refine ⟨n + 1, fun fuel hfuel => ?_⟩
  obtain ⟨fuel, rfl⟩ := Nat.exists_eq_add_of_le' (Nat.le_trans (Nat.le_add_left 1 n) hfuel)
  exact hn fuel (Nat.le_of_succ_le_succ hfuel)

/-- Two functions, one after the other. -/
theorem Settles.bind {g : ℕ → Option S} {k : ℕ → S → Option R} (hg : Settles g s)
    (hk : Settles (fun fuel => k fuel s) r) : Settles (fun fuel => (g fuel).bind (k fuel)) r := by
  obtain ⟨n, hn⟩ := hg
  obtain ⟨n', hn'⟩ := hk
  refine ⟨max n n', fun fuel hfuel => ?_⟩
  change (g fuel).bind (k fuel) = some r
  rw [hn fuel (Nat.le_trans (Nat.le_max_left n n') hfuel)]
  exact hn' fuel (Nat.le_trans (Nat.le_max_right n n') hfuel)

theorem Settles.map {g : ℕ → Option S} (hg : Settles g s) (k : S → R) :
    Settles (fun fuel => (g fuel).map k) (k s) := by
  obtain ⟨n, hn⟩ := hg
  exact ⟨n, fun fuel hfuel => congrArg (Option.map k) (hn fuel hfuel)⟩

/-! ### Machines with fuel -/

variable {A I O : Type*}

/-- The run of a machine along the inputs, with the outputs that it makes. -/
def runAll (step : S → I → Option (S × O)) : S → List I → Option (S × List O)
  | s, [] => some (s, [])
  | s, i :: is => (step s i).bind fun r => (runAll step r.1 is).map fun r' => (r'.1, r.2 :: r'.2)

/-- A run that the specification allows: `spec a i o a'` says that the input `i` in `a` may give the
output `o` and lead to `a'`. -/
inductive SpecRun (spec : A → I → O → A → Prop) : A → List I → List O → A → Prop where
  | nil (a : A) : SpecRun spec a [] [] a
  | cons {a a' a'' : A} {i : I} {o : O} {is : List I} {os : List O} :
      spec a i o a' → SpecRun spec a' is os a'' → SpecRun spec a (i :: is) (o :: os) a''

/-- **Simulation rule.**  A step lemma gives the run lemma. -/
theorem runAll_settles {step : ℕ → S → I → Option (S × O)} {spec : A → I → O → A → Prop}
    (Holds : S → A → Prop)
    (hstep : ∀ s a i, Holds s a → ∃ s' o a', Holds s' a' ∧ spec a i o a' ∧
      Settles (fun fuel => step fuel s i) (s', o)) (is : List I) :
    ∀ {s : S} {a : A}, Holds s a → ∃ s' os a', Holds s' a' ∧ SpecRun spec a is os a' ∧
      Settles (fun fuel => runAll (step fuel) s is) (s', os) := by
  induction is with
  | nil =>
    intro s a hs
    exact ⟨s, [], a, hs, .nil a, Settles.of_eq fun _ => rfl⟩
  | cons i is ih =>
    intro s a hs
    obtain ⟨s', o, a', hs', hspec, hsettles⟩ := hstep s a i hs
    obtain ⟨s'', os, a'', hs'', hrun, hrest⟩ := ih hs'
    exact ⟨s'', o :: os, a'', hs'', .cons hspec hrun, hsettles.bind (hrest.map _)⟩

end Nespy.Lib
