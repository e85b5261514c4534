import Nespy.Rpl.Dag

/-!
# Rpl — what the functions keep

Most functions of `rpl-dag.c` work on ranks, parents and DAGs, and keep the parameters of every
instance (`Keeps`).  They need usable parameters themselves: `DAG_RANK` divides by one of them, and
an interval is two to the power of another.  In a sound state each of them runs to its end.
-/

open Option Function

namespace Nespy.Rpl

variable {n m : ℕ} {N : Type}

/-! ### What the functions keep -/

/-- The parameters are the same, and the interval is as it was or the smallest. -/
structure Instance.Same (x y : Instance m N) : Prop where
  used : y.used = x.used
  instanceId : y.instanceId = x.instanceId
  minHoprankinc : y.minHoprankinc = x.minHoprankinc
  dioIntmin : y.dioIntmin = x.dioIntmin
  dioIntdoubl : y.dioIntdoubl = x.dioIntdoubl
  currentDag : y.currentDag.isSome = x.currentDag.isSome
  dioIntcurrent : y.dioIntcurrent = x.dioIntcurrent ∨ y.dioIntcurrent = x.dioIntmin

namespace Instance

theorem Same.refl (x : Instance m N) : x.Same x := ⟨rfl, rfl, rfl, rfl, rfl, rfl, .inl rfl⟩

variable {x y : Instance m N}

theorem Same.trans {z : Instance m N} (h : x.Same y) (h' : y.Same z) : x.Same z where
  used := h'.used.trans h.used
  instanceId := h'.instanceId.trans h.instanceId
  minHoprankinc := h'.minHoprankinc.trans h.minHoprankinc
  dioIntmin := h'.dioIntmin.trans h.dioIntmin
  dioIntdoubl := h'.dioIntdoubl.trans h.dioIntdoubl
  currentDag := h'.currentDag.trans h.currentDag
  dioIntcurrent := by
    rcases h'.dioIntcurrent with hc | hc
    · rw [hc]
      exact h.dioIntcurrent
    · exact .inr (hc.trans h.dioIntmin)

/-- An instance that can be used, if it is. -/
structure Sound (x : Instance m N) : Prop where
  usable : Rpl.Usable x.minHoprankinc x.dioIntmin x.dioIntdoubl
  current : x.currentDag.isSome
  interval : x.dioIntcurrent.toNat < 32

theorem Sound.intmin_lt (h : x.Sound) : x.dioIntmin.toNat < 32 := by
  have hsum := h.usable.2
  omega

theorem Sound.same (h : x.Sound) (hs : x.Same y) : y.Sound where
  usable := by
    rw [hs.minHoprankinc, hs.dioIntmin, hs.dioIntdoubl]
    exact h.usable
  current := hs.currentDag.trans h.current
  interval := by
    rcases hs.dioIntcurrent with hc | hc <;> rw [hc]
    · exact h.interval
    · exact h.intmin_lt

theorem newDioInterval_eq (h : x.dioIntcurrent.toNat < 32) :
    x.newDioInterval = some { x with dioSend := true } :=
  if_pos (UInt8.lt_iff_toNat_lt.mpr h)

theorem same_of_rplResetDioTimer (h : x.rplResetDioTimer = some y) : x.Same y := by
  rw [rplResetDioTimer] at h
  split at h
  · rw [newDioInterval] at h
    split_ifs at h
    rw [← some.inj h]
    exact ⟨rfl, rfl, rfl, rfl, rfl, rfl, .inr rfl⟩
  · rw [← some.inj h]
    exact .refl x

theorem rplResetDioTimer_same (h : x.dioIntmin.toNat < 32) :
    ∃ y, x.rplResetDioTimer = some y ∧ x.Same y := by
  obtain ⟨y, hy⟩ : ∃ y, x.rplResetDioTimer = some y := by
    rw [rplResetDioTimer]
    split
    · exact ⟨_, newDioInterval_eq h⟩
    · exact ⟨x, rfl⟩
  exact ⟨y, hy, same_of_rplResetDioTimer hy⟩

theorem Sound.handleDioTimer (h : x.Sound) :
    ∃ y, x.handleDioTimer = some y ∧ y.used = x.used ∧ y.Sound := by
  obtain ⟨husable, hcurrent, hinterval⟩ := id h
  rw [Instance.handleDioTimer]
  split
  · exact ⟨_, rfl, rfl, husable, hcurrent, hinterval⟩
  · have hlt :
      (if x.dioIntcurrent.toNat < x.dioIntmin.toNat + x.dioIntdoubl.toNat then x.dioIntcurrent + 1
        else x.dioIntcurrent).toNat < 32 := by
      have hsum := husable.2
      split
      · rw [UInt8.toNat_add, UInt8.toNat_one]
        omega
      · exact hinterval
    rw [newDioInterval_eq hlt]
    exact ⟨_, rfl, rfl, husable, hcurrent, hlt⟩

end Instance

namespace RplState

variable {s s' s'' : RplState n m N} {d : DagRef n m} {i : Fin n} {p : N}

/-- The instances are the same in their parameters, and there are no new parents. -/
structure Keeps (s s' : RplState n m N) : Prop where
  inst : ∀ i, (s.inst i).Same (s'.inst i)
  parent : ∀ p, s'.isParent p → s.isParent p ∧ (s'.parent p).dag = (s.parent p).dag

theorem Keeps.refl (s : RplState n m N) : s.Keeps s := ⟨fun _ => .refl _, fun _ h => ⟨h, rfl⟩⟩

theorem Keeps.trans (h : s.Keeps s') (h' : s'.Keeps s'') : s.Keeps s'' where
  inst i := (h.inst i).trans (h'.inst i)
  parent p hp := by
    obtain ⟨hp', hdag'⟩ := h'.parent p hp
    obtain ⟨hp, hdag⟩ := h.parent p hp'
    exact ⟨hp, hdag'.trans hdag⟩

theorem Keeps.used (hk : s.Keeps s') (h : (s.inst i).used) : (s'.inst i).used :=
  (hk.inst i).used.trans h

/-- Every parent is in a DAG of a used instance. -/
def Linked (s : RplState n m N) : Prop :=
  ∀ p, s.isParent p → ∃ d, (s.parent p).dag = some d ∧ (s.inst d.1).used

theorem Linked.keeps (h : s.Linked) (hk : s.Keeps s') : s'.Linked := by
  intro p hp
  obtain ⟨hp, hdag⟩ := hk.parent p hp
  obtain ⟨d, hd, hused⟩ := h p hp
  exact ⟨d, hdag.trans hd, hk.used hused⟩

/-- The used instances can be used. -/
structure Sound (s : RplState n m N) : Prop where
  inst : ∀ i, (s.inst i).used → (s.inst i).Sound
  linked : s.Linked

theorem Sound.keeps (h : s.Sound) (hk : s.Keeps s') : s'.Sound where
  inst i hi := (h.inst i ((hk.inst i).used.symm.trans hi)).same (hk.inst i)
  linked := h.linked.keeps hk

variable {x : Instance m N} {r : Option N}

@[simp] theorem setInst_self : (s.setInst i x).inst i = x := update_self ..

theorem setInst_of_ne {j : Fin n} (h : j ≠ i) : (s.setInst i x).inst j = s.inst j :=
  update_of_ne h ..

theorem keeps_setInst (h : (s.inst i).Same x) : s.Keeps (s.setInst i x) where
  inst j := by
    by_cases hj : j = i
    · subst hj
      rw [setInst_self]
      exact h
    · rw [setInst_of_ne hj]
      exact .refl _
  parent p hp := ⟨hp, rfl⟩

theorem keeps_setDag {f : Dag N → Dag N} : s.Keeps (s.setDag d f) :=
  keeps_setInst ⟨rfl, rfl, rfl, rfl, rfl, rfl, .inl rfl⟩

/-- A loop keeps what each turn keeps. -/
theorem foldlM_keeps {A : Type} {f : RplState n m N → A → Option (RplState n m N)}
    (P : RplState n m N → Prop) (hP : ∀ {s s'}, P s → s.Keeps s' → P s')
    (hstep : ∀ s a, P s → ∃ s', f s a = some s' ∧ s.Keeps s') (l : List A) (hs : P s) :
    ∃ s', l.foldlM f s = some s' ∧ s.Keeps s' := by
  induction l generalizing s with
  | nil => exact ⟨s, rfl, .refl s⟩
  | cons a l ih =>
    obtain ⟨s₁, h₁, hk₁⟩ := hstep s a hs
    obtain ⟨s₂, h₂, hk₂⟩ := ih (hP hs hk₁)
    refine ⟨s₂, ?_, hk₁.trans hk₂⟩
    rw [List.foldlM_cons, h₁]
    exact h₂

theorem exists_acceptableRank (h : (s.inst d.1).Sound) (rank : UInt16) :
    ∃ b, s.acceptableRank d rank = some b := by
  have hne : (s.inst d.1).minHoprankinc ≠ 0 := UInt16.pos_iff_ne_zero.mp h.usable.1
  rw [acceptableRank]
  split
  · exact ⟨_, rfl⟩
  · split
    · exact ⟨_, rfl⟩
    · rw [dagRank, dagRank, if_neg hne, if_neg hne]
      exact ⟨_, rfl⟩

theorem keeps_of_rplResetDioTimer (h : s.rplResetDioTimer i = some s') : s.Keeps s' := by
  obtain ⟨x, hx, rfl⟩ := map_eq_some_iff.mp h
  exact keeps_setInst (Instance.same_of_rplResetDioTimer hx)

theorem keeps_rplResetDioTimer (h : (s.inst i).Sound) :
    ∃ s', s.rplResetDioTimer i = some s' ∧ s.Keeps s' := by
  obtain ⟨x, hx, hsame⟩ := Instance.rplResetDioTimer_same h.intmin_lt
  refine ⟨s.setInst i x, ?_, keeps_setInst hsame⟩
  rw [RplState.rplResetDioTimer, hx]
  rfl

theorem keeps_switchDag (cur best : Fin m) (h : (s.inst i).currentDag.isSome) :
    s.Keeps (s.switchDag i cur best) := by
  rw [switchDag]
  split
  · exact .refl s
  · have hk : s.Keeps ((s.setDag (i, best) fun x => { x with joined := true }).setDag (i, cur)
        fun x => { x with joined := false }) := keeps_setDag.trans keeps_setDag
    refine hk.trans (keeps_setInst ⟨rfl, rfl, rfl, rfl, rfl, ?_, .inl rfl⟩)
    exact ((hk.inst i).currentDag.trans h).symm

/-- As `Keeps`, with `r` as a parent in `d`. -/
structure Adds (d : DagRef n m) (s s' : RplState n m N) (r : Option N) : Prop where
  inst : ∀ i, (s.inst i).Same (s'.inst i)
  parent : ∀ p, s'.isParent p →
    (s.isParent p ∧ (s'.parent p).dag = (s.parent p).dag) ∨
      (r = some p ∧ (s'.parent p).dag = some d)
  added : ∀ p, r = some p → s'.isParent p ∧ (s'.parent p).dag = some d

theorem Keeps.adds (hk : s.Keeps s') (h : Adds d s' s'' r) : Adds d s s'' r where
  inst i := (hk.inst i).trans (h.inst i)
  parent p hp := by
    rcases h.parent p hp with ⟨hp', hdag⟩ | hnew
    · obtain ⟨hp, hdag'⟩ := hk.parent p hp'
      exact .inl ⟨hp, hdag.trans hdag'⟩
    · exact .inr hnew
  added := h.added

theorem Keeps.adds_none (hk : s.Keeps s') : Adds d s s' none where
  inst := hk.inst
  parent p hp := .inl (hk.parent p hp)
  added _ h := by cases h

theorem Sound.adds (h : s.Sound) (hd : (s.inst d.1).used) (ha : Adds d s s' r) : s'.Sound where
  inst i hi := (h.inst i ((ha.inst i).used.symm.trans hi)).same (ha.inst i)
  linked p hp := by
    rcases ha.parent p hp with ⟨hp, hdag⟩ | ⟨-, hdag⟩
    · obtain ⟨d', hd', hused⟩ := h.linked p hp
      exact ⟨d', hdag.trans hd', (ha.inst d'.1).used.trans hused⟩
    · exact ⟨d, hdag, (ha.inst d.1).used.trans hd⟩

theorem keeps_updateRank (env : Env N) (lastParent : Option N) :
    s.Keeps (s.updateRank env d lastParent) := by
  have hk :
      s.Keeps (s.setDag d fun x => { x with rank := s.rplRankViaParent env x.preferredParent }) :=
    keeps_setDag
  rw [updateRank]
  exact hk.trans keeps_setDag

variable [DecidableEq N]

@[simp] theorem setParent_self {x : Parent n m} : (s.setParent p x).parent p = x := update_self ..

theorem setParent_of_ne {q : N} {x : Parent n m} (h : q ≠ p) :
    (s.setParent p x).parent q = s.parent q :=
  update_of_ne h ..

theorem keeps_setParent {x : Parent n m} (h : x.dag = (s.parent p).dag) :
    s.Keeps (s.setParent p x) where
  inst _ := .refl _
  parent q hq := by
    refine ⟨hq, ?_⟩
    by_cases hqp : q = p
    · subst hqp
      rw [setParent_self, h]
    · rw [setParent_of_ne hqp]

/-! ### Removing parents -/

section

variable (h : s.Linked)

include h

theorem Linked.rplNullifyParent (hp : s.isParent p) :
    ∃ s', s.rplNullifyParent p = some s' ∧ s.Keeps s' ∧ s'.isParent = s.isParent ∧
      s'.parent = s.parent := by
  obtain ⟨d, hd, -⟩ := h p hp
  rw [RplState.rplNullifyParent, hd, bind_eq_bind, bind_some]
  dsimp only
  split
  · exact ⟨_, rfl, keeps_setDag, rfl, rfl⟩
  · exact ⟨s, rfl, .refl s, rfl, rfl⟩

theorem Linked.rplRemoveParent (hp : s.isParent p) :
    ∃ s', s.rplRemoveParent p = some s' ∧ s.Keeps s' := by
  obtain ⟨s₁, h₁, hk₁, -⟩ := h.rplNullifyParent hp
  refine ⟨{ s₁ with isParent := update s₁.isParent p false }, ?_, hk₁.trans ⟨fun _ => .refl _, ?_⟩⟩
  · rw [RplState.rplRemoveParent, h₁]
    rfl
  · intro q hq
    refine ⟨?_, rfl⟩
    by_cases hqp : q = p
    · subst hqp
      simp at hq
    · exact (update_of_ne hqp ..).symm.trans hq

theorem Linked.nbrCallback (p : N) : ∃ s', s.nbrCallback p = some s' ∧ s.Keeps s' := by
  rw [RplState.nbrCallback]
  split_ifs with hp
  · exact h.rplRemoveParent hp
  · exact ⟨s, rfl, .refl s⟩

theorem Linked.evict (l : List N) :
    ∃ s', l.foldlM (fun s p => s.nbrCallback p) s = some s' ∧ s.Keeps s' :=
  foldlM_keeps Linked Linked.keeps (fun _ p hs => hs.nbrCallback p) l h

theorem Linked.removeParents (env : Env N) (d : DagRef n m) :
    ∃ s', s.removeParents env d = some s' ∧ s.Keeps s' := by
  refine foldlM_keeps Linked Linked.keeps (fun s p hs => ?_) env.keys h
  split_ifs with hp
  · exact hs.rplRemoveParent (of_decide_eq_true hp).1
  · exact ⟨s, rfl, .refl s⟩

theorem Linked.nullifyParents (env : Env N) (d : DagRef n m) :
    ∃ s', s.nullifyParents env d = some s' ∧ s.Keeps s' := by
  refine foldlM_keeps Linked Linked.keeps (fun s p hs => ?_) env.keys h
  split_ifs with hp
  · obtain ⟨s', hs', hk, -⟩ := hs.rplNullifyParent (of_decide_eq_true hp).1
    exact ⟨s', hs', hk⟩
  · exact ⟨s, rfl, .refl s⟩

end

/-- A local repair. -/
theorem Sound.rplLocalRepair (h : s.Sound) (env : Env N) (hi : (s.inst i).used) :
    ∃ s', s.rplLocalRepair env i = some s' ∧ s.Keeps s' := by
  obtain ⟨s₁, h₁, hk₁⟩ := foldlM_keeps (f := fun (s : RplState n m N) j =>
      if (s.dag (i, j)).used then
        (s.setDag (i, j) fun x => { x with rank := rplInfiniteRank }).nullifyParents env (i, j)
      else some s) Linked Linked.keeps (fun s j hs => by
    split
    · obtain ⟨s', hs', hk⟩ := (hs.keeps keeps_setDag).nullifyParents env (i, j)
      exact ⟨s', hs', keeps_setDag.trans hk⟩
    · exact ⟨s, rfl, .refl s⟩) (List.finRange m) h.linked
  obtain ⟨s₂, h₂, hk₂⟩ := keeps_rplResetDioTimer ((h.keeps hk₁).inst i (hk₁.used hi))
  refine ⟨s₂, ?_, hk₁.trans hk₂⟩
  rw [RplState.rplLocalRepair, h₁]
  exact h₂

/-! ### Selecting a DAG -/

theorem keeps_rplSelectParent (env : Env N) : s.Keeps (s.rplSelectParent env d) := by
  have hk : s.Keeps (s.rplSetPreferredParent d (s.chosenParent env d)) := keeps_setDag
  rw [rplSelectParent]
  exact hk.trans keeps_setDag

theorem keeps_useDag (h : (s.inst i).Sound) (best : Fin m) (lastParent : Option N) :
    ∃ s' b, s.useDag i best lastParent = some (s', b) ∧ s.Keeps s' := by
  obtain ⟨b, hb⟩ := exists_acceptableRank (d := (i, best)) h (s.dag (i, best)).rank
  rw [RplState.useDag, hb, bind_eq_bind, bind_some]
  cases b with
  | false => exact ⟨_, _, rfl, keeps_setDag⟩
  | true =>
    rw [if_pos rfl]
    split
    · obtain ⟨s', hs', hk⟩ := keeps_rplResetDioTimer h
      exact ⟨s', true, by rw [hs']; rfl, hk⟩
    · exact ⟨s, true, rfl, .refl s⟩

theorem keeps_selectOwn (env : Env N) (hp : (s.parent p).dag.isSome) (cur : Fin m) :
    ∃ s', s.selectOwn env i cur p = some s' ∧ s.Keeps s' := by
  obtain ⟨d, hd⟩ := isSome_iff_exists.mp hp
  rw [selectOwn]
  split
  · rw [hd]
    exact ⟨_, rfl, keeps_rplSelectParent env⟩
  · exact ⟨s, rfl, .refl s⟩

section

variable (h : s.Sound) (env : Env N) (hi : (s.inst i).used)

include h env hi

/-- The best DAG is chosen. -/
theorem Sound.rplSelectDag (hp : (s.parent p).dag.isSome) :
    ∃ s' b, s.rplSelectDag env i p = some (s', b) ∧ s.Keeps s' := by
  obtain ⟨cur, hcur⟩ := isSome_iff_exists.mp (h.inst i hi).current
  obtain ⟨s₁, h₁, hk₁⟩ := keeps_selectOwn env hp cur
  rw [RplState.rplSelectDag, hcur, bind_eq_bind, bind_some]
  rw [h₁, bind_eq_bind, bind_some]
  cases hbest : s₁.bestDag i with
  | none => exact ⟨s₁, false, rfl, hk₁⟩
  | some best =>
    have hi₁ : (s₁.inst i).Sound := (h.inst i hi).same (hk₁.inst i)
    have hk₂ := (keeps_switchDag cur best hi₁.current).trans
      (keeps_updateRank (d := (i, best)) env (s.dag (i, cur)).preferredParent)
    obtain ⟨s₃, b, h₃, hk₃⟩ := keeps_useDag (hi₁.same (hk₂.inst i)) best
      (s.dag (i, cur)).preferredParent
    exact ⟨s₃, b, h₃, hk₁.trans (hk₂.trans hk₃)⟩

theorem Sound.selectOrRepair (hp : (s.parent p).dag.isSome)
    (lastParent : Option N) (value : Bool) :
    ∃ s' b, s.selectOrRepair env i p lastParent value = some (s', b) ∧ s.Keeps s' := by
  obtain ⟨s₁, b, h₁, hk₁⟩ := h.rplSelectDag env hi hp
  rw [RplState.selectOrRepair, h₁, bind_eq_bind, bind_some]
  dsimp only
  split
  · obtain ⟨s₂, h₂, hk₂⟩ := (h.keeps hk₁).rplLocalRepair env (hk₁.used hi)
    exact ⟨s₂, false, by rw [h₂]; rfl, hk₁.trans hk₂⟩
  · exact ⟨s₁, value, rfl, hk₁⟩

/-- A parent has changed. -/
theorem Sound.rplProcessParentEvent (hp : s.isParent p) :
    ∃ s' b, s.rplProcessParentEvent env i p = some (s', b) ∧ s.Keeps s' := by
  obtain ⟨cur, hcur⟩ := isSome_iff_exists.mp (h.inst i hi).current
  obtain ⟨d, hd, hused⟩ := h.linked p hp
  obtain ⟨b, hb⟩ := exists_acceptableRank (h.inst d.1 hused) (s.parent p).rank
  rw [RplState.rplProcessParentEvent, hcur, bind_eq_bind, bind_some]
  rw [hd, bind_eq_bind, bind_some, hb, bind_eq_bind, bind_some]
  have hdag : (s.parent p).dag.isSome := by rw [hd]; rfl
  cases b with
  | true => exact h.selectOrRepair env hi hdag _ _
  | false =>
    obtain ⟨s₁, h₁, hk₁, -, hparent⟩ := h.linked.rplNullifyParent hp
    rw [if_neg Bool.false_ne_true, h₁, bind_eq_bind, bind_some]
    split
    · exact ⟨s₁, false, rfl, hk₁⟩
    · rw [← hparent] at hdag
      obtain ⟨s₂, b, h₂, hk₂⟩ := (h.keeps hk₁).selectOrRepair env (hk₁.used hi) hdag
        (s.dag (i, cur)).preferredParent false
      exact ⟨s₂, b, h₂, hk₁.trans hk₂⟩

end

/-- The ranks are counted again. -/
theorem Sound.rplRecalculateRanks (h : s.Sound) (env : Env N) :
    ∃ s', s.rplRecalculateRanks env = some s' ∧ s.Keeps s' := by
  refine foldlM_keeps Sound Sound.keeps (fun s p hs => ?_) env.keys h
  cases hd : (s.parent p).dag with
  | none => exact ⟨s, rfl, .refl s⟩
  | some d =>
    dsimp only
    split_ifs with hp
    · obtain ⟨d', hd', hused⟩ := hs.linked p hp.1
      obtain rfl : d = d' := some.inj (hd.symm.trans hd')
      have hk : s.Keeps (s.setParent p { s.parent p with updated := false }) := keeps_setParent rfl
      obtain ⟨s₁, b, h₁, hk₁⟩ := (hs.keeps hk).rplProcessParentEvent env hused hp.1
      exact ⟨s₁, by rw [h₁]; rfl, hk.trans hk₁⟩
    · exact ⟨s, rfl, .refl s⟩

/-! ### Adding parents -/

theorem Linked.rplAddParent (h : s.Linked) (env : Env N) (d : DagRef n m) (dio : Dio) :
    ∃ s', s.rplAddParent env d dio = some (s', env.added) ∧ Adds d s s' env.added := by
  obtain ⟨s₁, h₁, hk₁⟩ := h.evict env.addEvicted
  rw [RplState.rplAddParent, h₁]
  cases hadded : env.added with
  | none => exact ⟨s₁, rfl, hk₁.adds_none⟩
  | some p =>
    refine ⟨_, rfl, hk₁.adds ⟨fun _ => .refl _, fun q hq => ?_, fun q hq => ?_⟩⟩
    · by_cases hqp : q = p
      · subst hqp
        exact .inr ⟨rfl, congrArg Parent.dag setParent_self⟩
      · exact .inl ⟨(update_of_ne hqp ..).symm.trans hq, congrArg Parent.dag (setParent_of_ne hqp)⟩
    · cases hq
      exact ⟨update_self .., congrArg Parent.dag setParent_self⟩

theorem adds_rplMoveParent {src : DagRef n m} (hp : s.isParent p) :
    Adds d s (s.rplMoveParent src d p) (some p) := by
  obtain ⟨s₁, hs₁, hk, hp₁⟩ : ∃ s₁, s.rplMoveParent src d p =
    s₁.setParent p { s₁.parent p with dag := some d } ∧
      s.Keeps s₁ ∧ s₁.isParent p := by
    by_cases hpref : (s.dag src).preferredParent = some p
    · refine ⟨s.setDag src fun x => { x with preferredParent := none, rank := rplInfiniteRank }, ?_,
        keeps_setDag, hp⟩
      rw [rplMoveParent, if_pos hpref]
    · refine ⟨s, ?_, .refl s, hp⟩
      rw [rplMoveParent, if_neg hpref]
  rw [hs₁]
  refine hk.adds ⟨fun _ => .refl _, fun q hq => ?_, fun q hq => ?_⟩
  · by_cases hqp : q = p
    · subst hqp
      exact .inr ⟨rfl, congrArg Parent.dag setParent_self⟩
    · exact .inl ⟨hq, congrArg Parent.dag (setParent_of_ne hqp)⟩
  · cases hq
    exact ⟨hp₁, congrArg Parent.dag setParent_self⟩

theorem Linked.parentFor (h : s.Linked) (env : Env N) (d : DagRef n m) (dio : Dio) :
    ∃ s' r, s.parentFor env d dio = some (s', r) ∧ Adds d s s' r := by
  rw [RplState.parentFor]
  cases hfound : (s.findParentAny env).bind fun p => (s.parent p).dag.map (p, ·) with
  | none =>
    obtain ⟨s', hs', ha⟩ := h.rplAddParent env d dio
    exact ⟨s', env.added, hs', ha⟩
  | some found =>
    obtain ⟨p, previous⟩ := found
    obtain ⟨q, hq, hmap⟩ := bind_eq_some_iff.mp hfound
    obtain ⟨d', hd', heq⟩ := map_eq_some_iff.mp hmap
    obtain ⟨rfl, rfl⟩ := Prod.mk.inj heq
    have hp : s.isParent q := (filter_eq_some_iff.mp hq).2
    refine ⟨_, some q, rfl, ?_⟩
    split_ifs with hsame
    · refine ⟨fun _ => .refl _, fun _ hp => .inl ⟨hp, rfl⟩, fun r hr => ?_⟩
      cases hr
      exact ⟨hp, hd'.trans (congrArg some hsame)⟩
    · exact adds_rplMoveParent hp

end RplState

end Nespy.Rpl
