import Mathlib.Data.List.Induction
import Nespy.Rpl.Dag

/-!
# Rpl — which parent is the best one

`best_parent` of `rpl-dag.c` folds the comparison of `rpl-mrhof.c` over the neighbour table.  The
comparison keeps the preferred parent when the costs are about the same, so it is not transitive.

**The result does not depend on the order of the table** (`best_parent_selects`).  What carries the
fold is that the running best is the preferred parent, near to every parent so far, or one of
minimum cost with the preferred parent far above it.
-/

open List

namespace Nespy.Rpl.RplState

variable {n m : ℕ} {N : Type} [DecidableEq N] (env : Env N) (s : RplState n m N) (d : DagRef n m)
  (freshOnly : Bool)

/-- `best_parent` compares the parent. -/
def compares (p : N) : Bool :=
  (s.parent p).dag = some d ∧ (s.parent p).rank ≠ rplInfiniteRank ∧
    (s.inst d.1).rootRank ≤ (s.parent p).rank ∧
    (freshOnly → env.fresh p) ∧ env.reachable p

/-- The acceptable candidates, in the order of the table. -/
def candidates : List N :=
  (env.keys.filter s.isParent).filter fun p =>
    s.compares env d freshOnly p && s.parentIsAcceptable env p

/-- The preferred parent if it is in `l` and its cost is below the minimum plus the threshold, else
one of minimum cost. -/
def Selects (l : List N) : Option N → Prop
  | none => l = []
  | some b => b ∈ l ∧ (((s.dag d).preferredParent = some b ∧
        ∀ q ∈ l, s.parentPathCost env b < s.parentPathCost env q + 96) ∨
      (∀ q ∈ l, s.parentPathCost env b ≤ s.parentPathCost env q) ∧
        ∀ p ∈ l, (s.dag d).preferredParent = some p →
          s.parentPathCost env b + 96 ≤ s.parentPathCost env p)

variable {env s d freshOnly} {l : List N} {best : Option N} {p : N}

omit [DecidableEq N] in
theorem Selects.filter (h : s.Selects env d l best) (hl : ∀ q ∈ l, s.parentIsAcceptable env q) :
    best.filter (s.parentIsAcceptable env) = best := by
  cases best with
  | none => rfl
  | some b => exact Option.filter_some_pos (hl b h.1)

/-- **Step.**  The comparison with one more parent. -/
theorem Selects.mrhofBestParent (h : s.Selects env d l best)
    (hl : ∀ q ∈ l, s.parentIsAcceptable env q)
    (hp : p ∉ l) (hacc : s.parentIsAcceptable env p) :
    s.Selects env d (l ++ [p]) (s.mrhofBestParent env d best p) := by
  rw [RplState.mrhofBestParent, h.filter hl]
  cases best with
  | none =>
    obtain rfl : l = [] := h
    rw [if_pos hacc]
    refine ⟨mem_singleton_self p, ?_⟩
    by_cases hpref : (s.dag d).preferredParent = some p
    · exact .inl ⟨hpref, by simp⟩
    · exact .inr ⟨by simp, by simp [hpref]⟩
  | some b =>
    obtain ⟨hb, hbest⟩ := h
    dsimp only
    rw [if_pos hacc]
    split_ifs with hclose hlt
    · rcases hclose.1 with hpref | hpref
      · rw [← hpref]
        exact ⟨mem_append_left _ hb, .inl ⟨hpref.symm, by grind⟩⟩
      · -- the preferred parent was not there before, so the best one is of minimum cost
        rw [← hpref]
        exact ⟨mem_append_right _ mem_cons_self, .inl ⟨hpref.symm, by grind⟩⟩
    · refine ⟨mem_append_left _ hb, ?_⟩
      rcases hbest with ⟨hpref, hnear⟩ | ⟨hmin, hfar⟩
      · exact .inl ⟨hpref, by grind⟩
      · exact .inr ⟨by grind, by grind⟩
    · refine ⟨mem_append_right _ mem_cons_self, ?_⟩
      by_cases hpref : (s.dag d).preferredParent = some p
      · exact .inl ⟨hpref, by grind⟩
      · exact .inr ⟨by grind, by grind⟩

/-- **Run.**  The fold over a table without repetitions. -/
theorem selects_foldl (hl : l.Nodup) :
    s.Selects env d (l.filter fun p => s.compares env d freshOnly p && s.parentIsAcceptable env p)
      (l.foldl (fun best p => if s.compares env d freshOnly p then s.mrhofBestParent env d best p
        else best)
        none) := by
  induction l using reverseRecOn with
  | nil => rfl
  | append_singleton l p ih =>
    have hnodup := nodup_append.mp hl
    have hnew : p ∉ l := fun hmem => hnodup.2.2 p hmem p mem_cons_self rfl
    have ih := ih hnodup.1
    have hl : ∀ q ∈ l.filter fun p => s.compares env d freshOnly p && s.parentIsAcceptable env p,
        s.parentIsAcceptable env q := fun q hq => by simp_all
    rw [foldl_append, foldl_cons, foldl_nil, filter_append, filter_singleton]
    cases hcomp : s.compares env d freshOnly p with
    | false => simpa using ih
    | true =>
      cases hacc : s.parentIsAcceptable env p with
      | true => exact ih.mrhofBestParent hl (fun hmem => hnew (mem_filter.mp hmem).1) hacc
      | false =>
        rw [if_pos rfl, RplState.mrhofBestParent, ih.filter hl, hacc]
        generalize l.foldl _ none = best at ih ⊢
        cases best <;> simpa using ih

/-- **Best parent.**  `best_parent` finds none exactly when no candidate is acceptable.  Otherwise
it finds the preferred parent when its cost is below every acceptable candidate's plus 96, and else
a candidate of minimum cost, in whatever order the table is.  The rank by way of it is infinite or
at least the parent's rank and `min_hoprankinc`. -/
theorem best_parent_selects (hof : (s.inst d.1).of.isSome) (hkeys : env.keys.Nodup)
    (freshOnly : Bool) :
    s.Selects env d (s.candidates env d freshOnly) (s.bestParent env d freshOnly) ∧
      ∀ p, s.bestParent env d freshOnly = some p →
        s.rplRankViaParent env (some p) = rplInfiniteRank ∨
        (s.parent p).rank.toNat + (s.inst d.1).minHoprankinc.toNat ≤
          (s.rplRankViaParent env (some p)).toNat := by
  have hfold : s.bestParent env d freshOnly = (env.keys.filter s.isParent).foldl (fun best p =>
      if s.compares env d freshOnly p then s.mrhofBestParent env d best p else best) none := by
    rw [bestParent, if_neg (by simpa [Option.isNone_iff_eq_none,
      Option.isSome_iff_ne_none] using hof)]
    congr
    funext best p
    grind [compares]
  have hsel : s.Selects env d (s.candidates env d freshOnly) (s.bestParent env d freshOnly) := by
    rw [hfold]
    exact selects_foldl (hkeys.filter _)
  refine ⟨hsel, fun p hp => ?_⟩
  rw [hp] at hsel
  have hdag : (s.parent p).dag = some d := by
    have hmem := hsel.1
    simp only [candidates, compares, mem_filter, Bool.and_eq_true, decide_eq_true_eq] at hmem
    exact hmem.2.1.1
  obtain ⟨of, hof⟩ := Option.isSome_iff_exists.mp hof
  rw [rplRankViaParent, hdag]
  dsimp only
  rw [hof]
  -- both costs are cut off at the infinite rank
  have hcost : s.parentPathCost env p ≤ 0xffff := Nat.min_le_right ..
  by_cases hinf : 0xffff ≤ (s.parent p).rank.toNat + (s.inst d.1).minHoprankinc.toNat
  · left
    rw [min_eq_right hinf, max_eq_left hcost]
    rfl
  · right
    rw [min_eq_left (by omega), Nat.toUInt16_eq, UInt16.toNat_ofNat', Nat.mod_eq_of_lt (by omega)]
    exact Nat.le_max_left ..

/-- Two neighbours with links of the same metric. -/
def twoNeighbours : Env Bool :=
  ⟨[false, true], fun _ => 128, fun _ => true, fun _ => true, false, [], none, none, []⟩

/-- Both are parents, and the first, with the given rank, is preferred. -/
def twoParents (rank : UInt16) : RplState 1 1 Bool where
  inst _ :=
    { (zeroInstance : Instance 1 Bool) with
      of := some .mrhof
      dagTable := fun _ => { (zeroDag : Dag Bool) with preferredParent := some false } }
  parent p := ⟨some (Fin.last 0, Fin.last 0), if p then 256 else rank, false⟩
  isParent _ := true

/-- The preferred parent stays with a cost that is 44 above the other's, and goes when it is 96
above. -/
theorem best_parent_selects_preferred :
    ((twoParents 300).bestParent twoNeighbours (0, 0) false = some false ∧
      (twoParents 300).Selects twoNeighbours (0, 0)
        ((twoParents 300).candidates twoNeighbours (0, 0) false) (some false)) ∧
      (twoParents 352).bestParent twoNeighbours (0, 0) false = some true ∧
        (twoParents 352).Selects twoNeighbours (0, 0)
          ((twoParents 352).candidates twoNeighbours (0, 0) false) (some true) := by
  have hkeys : twoNeighbours.keys.Nodup := by decide
  exact ⟨⟨by decide, (best_parent_selects rfl hkeys false).1⟩,
    ⟨by decide, (best_parent_selects rfl hkeys false).1⟩⟩

end Nespy.Rpl.RplState
