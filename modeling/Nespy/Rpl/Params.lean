import Mathlib.Algebra.GroupWithZero.Nat
import Nespy.Lib.Runs
import Nespy.Rpl.Keeps

/-!
# Rpl — routing parameters learnt from the network

An instance takes its parameters from the message it is joined by, and a newer version of the DAG
changes some of them.  Nothing checks them.  While all messages carry usable parameters every used
instance has usable parameters, and no call divides by zero or shifts too far; one message that is
joined with other parameters is enough to end that.
-/

open Option

namespace Nespy.Rpl

open Nespy.Lib
open Nespy.Sicslowpan (Ipaddr)

variable {n m : ℕ} {N : Type}

namespace RplState

variable {s s' s'' : RplState n m N} {d : DagRef n m} {i : Fin n} {p : N}

/-! ### Finding and making instances -/

variable {dio : Dio} {env : Env N} {instanceId mopDefault : UInt8}

section

variable (of : Of) (dio : Dio)

theorem used_of_rplGetInstance (h : s.rplGetInstance instanceId = some i) : (s.inst i).used := by
  have hi := List.find?_some h
  exact (of_decide_eq_true hi).1

theorem rplGetInstance_keeps (hk : s.Keeps s') (instanceId : UInt8) :
    s'.rplGetInstance instanceId = s.rplGetInstance instanceId := by
  unfold rplGetInstance
  congr 1
  funext i
  rw [(hk.inst i).used, (hk.inst i).instanceId]

theorem getDag_fst {dagId : Ipaddr} (h : s.getDag instanceId dagId = some d) :
    s.rplGetInstance instanceId = some d.1 := by
  obtain ⟨i, hi, hrest⟩ := bind_eq_some_iff.mp h
  obtain ⟨j, -, hd⟩ := bind_eq_some_iff.mp hrest
  cases hd
  exact hi

/-- A known instance only gets a DAG. -/
theorem rplAllocDag_known (h : s.rplGetInstance instanceId = some i) :
    ∃ s' r, s.rplAllocDag instanceId = (s', r) ∧ s.Keeps s' ∧ ∀ d, r = some d → d.1 = i := by
  rw [rplAllocDag, instanceFor, h]
  dsimp only
  cases (List.finRange m).find? fun j => (s.dag (i, j)).used = false with
  | none => exact ⟨s, none, rfl, .refl s, nofun⟩
  | some j =>
    refine ⟨_, some (i, j), rfl, keeps_setDag, fun d hd => ?_⟩
    rw [← some.inj hd]

/-- An instance that is not known is put in a free place, with all parameters zero, and there is a
DAG for it. -/
theorem rplAllocDag_new [NeZero m] (h : s.rplGetInstance instanceId = none) :
    (s.rplAllocDag instanceId = (s, none) ∧ ∀ i, (s.inst i).used) ∨
      ∃ s' d, s.rplAllocDag instanceId = (s', some d) ∧ (s.inst d.1).used = false ∧
        (s'.inst d.1).used ∧ (∀ i, i ≠ d.1 → s'.inst i = s.inst i) ∧ s'.parent = s.parent ∧
        s'.isParent = s.isParent := by
  rw [rplAllocDag, instanceFor, h, rplAllocInstance]
  cases hfree : (List.finRange n).find? fun i => (s.inst i).used = false with
  | none =>
    refine .inl ⟨rfl, fun i => ?_⟩
    have hi := List.find?_eq_none.mp hfree i (List.mem_finRange i)
    simpa using hi
  | some i =>
    rw [bind_eq_bind, bind_some]
    dsimp only
    have hi : (s.inst i).used = false := by
      have hfree := List.find?_some hfree
      exact of_decide_eq_true hfree
    cases hslot : (List.finRange m).find? fun j =>
        ((s.setInst i { zeroInstance with used := true, instanceId }).dag (i, j)).used = false with
    | none =>
      -- all DAGs of the new instance are free, and there is one
      have hno := List.find?_eq_none.mp hslot 0 (List.mem_finRange 0)
      simp [RplState.dag, zeroInstance, zeroDag] at hno
    | some j =>
      refine .inr ⟨_, (i, j), rfl, hi, ?_, fun k hk => ?_, rfl, rfl⟩
      · simp [setDag]
      · rw [setDag, setInst_of_ne hk, setInst_of_ne hk]

theorem Linked.alloc (h : s.Linked) (hused : (s'.inst i).used)
    (hother : ∀ j, j ≠ i → s'.inst j = s.inst j)
    (hparent : s'.parent = s.parent) (hisParent : s'.isParent = s.isParent) : s'.Linked := by
  intro p hp
  rw [hisParent] at hp
  rw [hparent]
  obtain ⟨d, hd, hdused⟩ := h p hp
  refine ⟨d, hd, ?_⟩
  by_cases hdi : d.1 = i
  · rw [hdi]
    exact hused
  · rw [hother d.1 hdi]
    exact hdused

/-- A new instance in a free place leaves the others as they are. -/
theorem Sound.join (h : s.Sound) (hi : (s.inst i).used = false)
    (hother : ∀ j, j ≠ i → (s.inst j).Same (s'.inst j))
    (hnew : (s'.inst i).used → (s'.inst i).Sound)
    (hparent : ∀ p, s'.isParent p → (s.isParent p ∧ (s'.parent p).dag = (s.parent p).dag) ∨
      ∃ d, (s'.parent p).dag = some d ∧ (s'.inst d.1).used) : s'.Sound where
  inst j hj := by
    by_cases hji : j = i
    · subst hji
      exact hnew hj
    · exact (h.inst j ((hother j hji).used.symm.trans hj)).same (hother j hji)
  linked p hp := by
    rcases hparent p hp with ⟨hp, hdag⟩ | hnew
    · obtain ⟨d, hd, hused⟩ := h.linked p hp
      have hne : d.1 ≠ i := by
        rintro rfl
        rw [hi] at hused
        cases hused
      exact ⟨d, hdag.trans hd, (hother d.1 hne).used.trans hused⟩
    · exact hnew

theorem takeDio_self (hdio : dio.conf.Usable) : ((s.takeDio of d dio).inst d.1).Sound := by
  rw [takeDio]
  rw [setInst_self]
  have hsum : dio.dagIntmin.toNat + dio.dagIntdoubl.toNat < 32 := hdio.2
  refine ⟨hdio, rfl, ?_⟩
  rw [UInt8.toNat_add]
  omega

theorem takeDio_used (hd : (s.inst d.1).used) :
    ((s.takeDio of d dio).inst d.1).used := by
  rw [takeDio]
  rw [setInst_self]
  exact (keeps_setDag.inst d.1).used.trans hd

theorem takeDio_of_ne (h : i ≠ d.1) : (s.takeDio of d dio).inst i = s.inst i := by
  rw [takeDio]
  rw [setInst_of_ne h, setDag, setInst_of_ne h]

end

/-- Joining ends with the timer. -/
theorem joinVia_eq (env : Env N) (of : Of) (d : DagRef n m) (p : N) (dio : Dio) :
    ∃ s', s.joinVia env of d p dio = s'.rplResetDioTimer d.1 ∧ (s.takeDio of d dio).Keeps s' := by
  generalize hs₁ : (s.takeDio of d dio).rplSetPreferredParent d (some p) = s₁
  have hk₁ : (s.takeDio of d dio).Keeps s₁ := hs₁ ▸ keeps_setDag
  refine ⟨(s₁.setDag d fun x => { x with rank := s₁.rplRankViaParent env (some p) }).setDag d
    fun x => { x with minRank := x.rank }, ?_, hk₁.trans (keeps_setDag.trans keeps_setDag)⟩
  rw [joinVia, ← hs₁]

theorem Sound.setInst (h : s.Sound) {x : Instance m N} (hused : x.used = (s.inst i).used)
    (hx : x.used → x.Sound) : (s.setInst i x).Sound where
  inst j hj := by
    by_cases hji : j = i
    · subst hji
      rw [setInst_self] at hj ⊢
      exact hx hj
    · rw [setInst_of_ne hji] at hj ⊢
      exact h.inst j hj
  linked p hp := by
    obtain ⟨d, hd, hdused⟩ := h.linked p hp
    refine ⟨d, hd, ?_⟩
    by_cases hdi : d.1 = i
    · rw [hdi, setInst_self, hused, ← hdi]
      exact hdused
    · rw [setInst_of_ne hdi]
      exact hdused

theorem Sound.copyConf (h : s.Sound) (hdio : dio.conf.Usable) (i : Fin n) :
    (s.copyConf i dio).Sound :=
  h.setInst rfl fun hi =>
    ⟨⟨(h.inst i hi).usable.1, hdio.2⟩, (h.inst i hi).current, (h.inst i hi).interval⟩

theorem copyConf_used (dio : Dio) : ((s.copyConf i dio).inst i).used = (s.inst i).used := by
  rw [copyConf, setInst_self]

theorem exists_dagLifetimeOf {x : Instance m N} (h : x.Sound) :
    ∃ lifetime, dagLifetimeOf x = some lifetime :=
  ⟨_, if_pos h.usable.2⟩

/-- Every used instance has usable parameters. -/
def ParamsUsable (s : RplState n m N) : Prop :=
  ∀ i, (s.inst i).used → Usable (s.inst i).minHoprankinc (s.inst i).dioIntmin (s.inst i).dioIntdoubl

instance {s : RplState n m N} : Decidable s.ParamsUsable :=
  inferInstanceAs (Decidable (∀ _ : Fin n, _ → _))

theorem Sound.paramsUsable (h : s.Sound) : s.ParamsUsable := fun i hi => (h.inst i hi).usable

theorem sound_initial : (initial : RplState n m N).Sound := ⟨nofun, nofun⟩

theorem Sound.handleDioTimer (h : s.Sound) (hi : (s.inst i).used) :
    ∃ s', (s.inst i).handleDioTimer.map (s.setInst i) = some s' ∧ s'.Sound := by
  obtain ⟨x, hx, hused, hsound⟩ := (h.inst i hi).handleDioTimer
  exact ⟨s.setInst i x, by rw [hx]; rfl, h.setInst hused fun _ => hsound⟩

variable [DecidableEq N]

/-! ### Processing a message -/

theorem Linked.addNbrFromDio (h : s.Linked) (env : Env N) :
    ∃ s', s.addNbrFromDio env = some (s', env.nbrAdded) ∧ s.Keeps s' := by
  obtain ⟨s', hs', hk⟩ := h.evict env.nbrEvicted
  refine ⟨s', ?_, hk⟩
  rw [RplState.addNbrFromDio, hs']
  rfl

theorem keeps_resetIfLost (h : (s.inst d.1).Sound) (p : N) (dio : Dio) :
    ∃ s', s.resetIfLost d p dio = some s' ∧ s.Keeps s' ∧ s'.isParent = s.isParent := by
  rw [resetIfLost]
  split
  · obtain ⟨x, hx, hsame⟩ := Instance.rplResetDioTimer_same h.intmin_lt
    refine ⟨s.setInst d.1 x, ?_, keeps_setInst hsame, rfl⟩
    rw [RplState.rplResetDioTimer, hx]
    rfl
  · exact ⟨s, rfl, .refl s, rfl⟩

section

variable (env) (h : s.Sound)

include h

theorem Sound.addDagVia (hd : (s.inst d.1).used) (hp : s.isParent p) (dio : Dio) :
    ∃ s' r, s.addDagVia env d p dio = some (s', r) ∧ s.Keeps s' ∧ ∀ d', r = some d' → d' = d := by
  rw [RplState.addDagVia]
  have hk₁ : s.Keeps (s.setParent p { s.parent p with rank := dio.rank }) := keeps_setParent rfl
  split
  · obtain ⟨s₂, hs₂⟩ :
      ∃ s₂, s₂ = (s.setParent p { s.parent p with rank := dio.rank }).setDag d fun x =>
      { x with
          used := true, grounded := dio.grounded,
            preference := dio.preference, version := dio.version
          dagId := dio.dagId, preferredParent := some p } := ⟨_, rfl⟩
    have hk₂ : s.Keeps s₂ := hk₁.trans (hs₂ ▸ keeps_setDag)
    have hp₂ : s₂.isParent p := hs₂ ▸ hp
    have hk₃ :
      s.Keeps ((s₂.setDag d fun x => { x with rank := s₂.rplRankViaParent env (some p) }).setDag d
        fun x => { x with minRank := x.rank }) := hk₂.trans (keeps_setDag.trans keeps_setDag)
    obtain ⟨s₄, b, h₄, hk₄⟩ := (h.keeps hk₃).rplProcessParentEvent env (hk₃.used hd) hp₂
    rw [← hs₂]
    dsimp only
    rw [h₄]
    exact ⟨s₄, some d, rfl, hk₃.trans hk₄, fun d' hd' => (some.inj hd').symm⟩
  · obtain ⟨s₂, h₂, hk₂⟩ := (h.linked.keeps hk₁).rplRemoveParent hp
    rw [h₂]
    exact ⟨_, none, rfl, hk₁.trans (hk₂.trans keeps_setDag), nofun⟩

/-- A further DAG. -/
theorem Sound.rplAddDag (hi : s.rplGetInstance dio.instanceId = some i) :
    ∃ s' r, s.rplAddDag env dio = some (s', r) ∧ s'.Sound ∧ ∀ d, r = some d →
      (s'.inst d.1).used := by
  obtain ⟨s₁, r, h₁, hk₁, hr⟩ := rplAllocDag_known hi
  rw [RplState.rplAddDag, h₁]
  cases r with
  | none => exact ⟨s₁, none, rfl, h.keeps hk₁, nofun⟩
  | some d =>
    have hd : (s₁.inst d.1).used := by
      rw [hr d rfl]
      exact hk₁.used (used_of_rplGetInstance hi)
    obtain ⟨s₂, q, h₂, ha⟩ := (h.linked.keeps hk₁).parentFor env d dio
    have hs₂ : s₂.Sound := (h.keeps hk₁).adds hd ha
    dsimp only
    rw [h₂]
    cases q with
    | none => exact ⟨_, none, rfl, hs₂.keeps keeps_setDag, nofun⟩
    | some p =>
      have hd₂ : (s₂.inst d.1).used := (ha.inst d.1).used.trans hd
      obtain ⟨s₃, r, h₃, hk₃, hr⟩ := hs₂.addDagVia env hd₂ (ha.added p rfl).1 dio
      refine ⟨s₃, r, h₃, hs₂.keeps hk₃, fun d' hd' => ?_⟩
      rw [hr d' hd']
      exact hk₃.used hd₂

/-- A DIO of a DAG that is known, from a possible parent. -/
theorem Sound.processCandidate (hd : (s.inst d.1).used) (dio : Dio) :
    ∃ s', s.processCandidate env d dio = some s' ∧ s'.Sound := by
  obtain ⟨lifetime, hlifetime⟩ := exists_dagLifetimeOf (h.inst d.1 hd)
  have hk₁ : s.Keeps (s.setDag d fun x => { x with lifetime }) := keeps_setDag
  obtain ⟨s₂, r, h₂, ha⟩ := (h.linked.keeps hk₁).parentFor env d dio
  have hd₁ := hk₁.used hd
  have hsound₂ : s₂.Sound := (h.keeps hk₁).adds hd₁ ha
  rw [RplState.processCandidate, hlifetime, bind_eq_bind, bind_some]
  dsimp only
  rw [h₂, bind_eq_bind, bind_some]
  cases r with
  | none => exact ⟨s₂, rfl, hsound₂⟩
  | some p =>
    have hd₂ : (s₂.inst d.1).used := (ha.inst d.1).used.trans hd₁
    have hk₃ : s₂.Keeps (s₂.setParent p { s₂.parent p with rank := dio.rank }) :=
      keeps_setParent rfl
    obtain ⟨s₄, h₄, hk₄, hp₄⟩ := keeps_resetIfLost
      ((hsound₂.inst d.1 hd₂).same (hk₃.inst d.1)) p dio
    have hk₅ : s₂.Keeps (s₄.setParent p { s₄.parent p with updated := true }) :=
      hk₃.trans (hk₄.trans (keeps_setParent rfl))
    have hp₅ : s₄.isParent p := by
      rw [hp₄]
      exact (ha.added p rfl).1
    obtain ⟨s₆, b, h₆, hk₆⟩ :=
      (hsound₂.keeps hk₅).rplProcessParentEvent env (hk₅.used hd₂) hp₅
    refine ⟨s₆, ?_, hsound₂.keeps (hk₅.trans hk₆)⟩
    dsimp only
    rw [h₄, bind_eq_bind, bind_some, h₆]
    rfl

theorem Sound.processDag (hd : (s.inst d.1).used) (dio : Dio) :
    ∃ s', s.processDag env d dio = some s' ∧ s'.Sound := by
  rw [RplState.processDag]
  split
  · exact ⟨s, rfl, h⟩
  obtain ⟨s₁, h₁, hk₁⟩ := h.linked.addNbrFromDio env
  rw [h₁, bind_eq_bind, bind_some]
  cases env.nbrAdded with
  | false => exact ⟨s₁, rfl, h.keeps hk₁⟩
  | true =>
    dsimp only
    split
    · exact ⟨s₁, rfl, h.keeps hk₁⟩
    · exact (h.keeps hk₁).processCandidate env (hk₁.used hd) dio

theorem Sound.processInstance (hi : s.rplGetInstance dio.instanceId = some i)
    (r : Option (DagRef n m)) (hr : ∀ d, r = some d → (s.inst d.1).used) :
    ∃ s', s.processInstance env i r dio = some s' ∧ s'.Sound := by
  obtain ⟨cur, hcur⟩ := isSome_iff_exists.mp (h.inst i (used_of_rplGetInstance hi)).current
  unfold RplState.processInstance
  rw [hcur, bind_eq_bind, bind_some]
  split
  · exact ⟨s, rfl, h⟩
  cases r with
  | some d => exact h.processDag env (hr d rfl) dio
  | none =>
    obtain ⟨s₁, h₁, hk₁⟩ := h.linked.addNbrFromDio env
    rw [h₁, bind_eq_bind, bind_some]
    cases env.nbrAdded with
    | false => exact ⟨s₁, rfl, h.keeps hk₁⟩
    | true =>
      have hi₁ : s₁.rplGetInstance dio.instanceId = some i := (rplGetInstance_keeps hk₁ _).trans hi
      obtain ⟨s₂, r, h₂, hsound₂, hr⟩ := (h.keeps hk₁).rplAddDag env hi₁
      dsimp only
      rw [h₂]
      cases r with
      | none => exact ⟨s₂, rfl, hsound₂⟩
      | some d => exact hsound₂.processDag env (hr d rfl) dio

/-! ### Joining -/

variable (hdio : dio.conf.Usable)

include hdio

section

variable (mopDefault : UInt8)

/-- **Joining.**  The new instance has the parameters of the message, whatever they are. -/
theorem Sound.rplJoinInstance [NeZero m]
    (hnew : s.rplGetInstance dio.instanceId = none) :
    ∃ s', s.rplJoinInstance env mopDefault dio = some s' ∧ s'.Sound := by
  rw [RplState.rplJoinInstance]
  split
  · exact ⟨s, rfl, h⟩
  cases rplFindOf dio.ocp with
  | none => exact ⟨s, rfl, h⟩
  | some of =>
    rcases rplAllocDag_new hnew with ⟨halloc, -⟩ | ⟨s₁, d, halloc, hfree, hused,
      hother, hparent, hisParent⟩
    · rw [halloc]
      exact ⟨s, rfl, h⟩
    · rw [halloc]
      have hlinked : s₁.Linked := h.linked.alloc hused hother hparent hisParent
      obtain ⟨s₂, h₂, ha⟩ := hlinked.rplAddParent env d dio
      dsimp only
      rw [h₂]
      cases hadded : env.added with
      | none =>
        refine ⟨_, rfl, h.join hfree (fun j hj => ?_) (fun hused => ?_) fun p hp => .inl ?_⟩
        · rw [setInst_of_ne hj, ← hother j hj]
          exact ha.inst j
        · rw [setInst_self] at hused
          cases hused
        · rcases ha.parent p hp with hold | ⟨hr, -⟩
          · rwa [hparent, hisParent] at hold
          · rw [hadded] at hr
            cases hr
      | some p =>
        obtain ⟨s₃, h₃, hk₃⟩ := s₂.joinVia_eq env of d p dio
        obtain ⟨s₄, h₄, hk₄⟩ := keeps_rplResetDioTimer
          ((takeDio_self of dio hdio).same (hk₃.inst d.1))
        have hused₂ : (s₂.inst d.1).used := (ha.inst d.1).used.trans hused
        refine ⟨s₄, h₃.trans h₄, Sound.keeps
          (h.join hfree (fun j hj => ?_) (fun _ => takeDio_self of dio hdio)
          fun q hq => ?_) (hk₃.trans hk₄)⟩
        · rw [takeDio_of_ne of dio hj, ← hother j hj]
          exact ha.inst j
        · rcases ha.parent q hq with hold | ⟨-, hdag⟩
          · rw [hparent, hisParent] at hold
            exact .inl hold
          · exact .inr ⟨d, hdag, takeDio_used of dio hused₂⟩

/-- The DAG begins again. -/
theorem Sound.globalRepair (hd : (s.inst d.1).used) :
    ∃ s', s.globalRepair env d dio = some s' ∧ s'.Sound := by
  obtain ⟨s₁, h₁, hk₁⟩ := h.linked.removeParents env d
  obtain ⟨s₂, hs₂⟩ :
    ∃ s₂, s₂ = ((s₁.setDag d fun x => { x with version := dio.version }).copyConf d.1 dio).setDag d
      fun x => { x with minRank := rplInfiniteRank } := ⟨_, rfl⟩
  have hsound₂ :
    s₂.Sound := hs₂ ▸ (((h.keeps hk₁).keeps keeps_setDag).copyConf hdio d.1).keeps keeps_setDag
  have hd₂ : (s₂.inst d.1).used := by
    rw [hs₂, (keeps_setDag.inst d.1).used, copyConf_used,
      (keeps_setDag.inst d.1).used, (hk₁.inst d.1).used]
    exact hd
  obtain ⟨s₃, h₃, ha⟩ := hsound₂.linked.rplAddParent env d dio
  have hsound₃ : s₃.Sound := hsound₂.adds hd₂ ha
  rw [RplState.globalRepair, h₁, bind_eq_bind, bind_some]
  dsimp only
  rw [← hs₂, h₃, bind_eq_bind, bind_some]
  cases hadded : env.added with
  | none => exact ⟨_, rfl, hsound₃.keeps keeps_setDag⟩
  | some p =>
    have hk₄ :
      s₃.Keeps ((s₃.setDag d fun x => { x with rank := s₃.rplRankViaParent env (some p) }).setDag d
        fun x => { x with minRank := x.rank }) := keeps_setDag.trans keeps_setDag
    have hd₄ := hk₄.used ((ha.inst d.1).used.trans hd₂)
    obtain ⟨s₅, b, h₅, hk₅⟩ := (hsound₃.keeps hk₄).rplProcessParentEvent env
      hd₄ (ha.added p hadded).1
    exact ⟨s₅, by dsimp only; rw [h₅]; rfl, hsound₃.keeps (hk₄.trans hk₅)⟩

theorem Sound.processNew [NeZero m] (hnew : s.rplGetInstance dio.instanceId = none) :
    ∃ s', s.processNew env mopDefault dio = some s' ∧ s'.Sound := by
  obtain ⟨s₁, h₁, hk₁⟩ := h.linked.addNbrFromDio env
  rw [RplState.processNew, h₁]
  cases env.nbrAdded with
  | false => exact ⟨s₁, rfl, h.keeps hk₁⟩
  | true =>
    exact (h.keeps hk₁).rplJoinInstance env hdio mopDefault
      ((rplGetInstance_keeps hk₁ _).trans hnew)

theorem Sound.processNewer (hd : (s.inst d.1).used) :
    ∃ s', s.processNewer env d dio = some s' ∧ s'.Sound := by
  rw [RplState.processNewer]
  split
  · have hk : s.Keeps (s.setDag d fun x => { x with version := lollipopIncrement dio.version }) :=
      keeps_setDag
    obtain ⟨s', hs', hk'⟩ := keeps_rplResetDioTimer ((h.inst d.1 hd).same (hk.inst d.1))
    exact ⟨s', hs', h.keeps (hk.trans hk')⟩
  · exact h.globalRepair env hdio hd

/-- **Step.**  A DIO. -/
theorem Sound.rplProcessDio [NeZero m] :
    ∃ s', s.rplProcessDio env mopDefault dio = some s' ∧ s'.Sound := by
  rw [RplState.rplProcessDio]
  split
  · exact ⟨s, rfl, h⟩
  cases hi : s.rplGetInstance dio.instanceId with
  | none =>
    cases s.getDag dio.instanceId dio.dagId <;> exact h.processNew env hdio mopDefault hi
  | some i =>
    have hused := used_of_rplGetInstance hi
    cases hd : s.getDag dio.instanceId dio.dagId with
    | none => exact h.processInstance env hi none nofun
    | some d =>
      have hdi : d.1 = i := some.inj ((getDag_fst hd).symm.trans hi)
      have hd : (s.inst d.1).used := hdi ▸ hused
      dsimp only
      split
      · exact h.processNewer env hdio hd
      split
      · obtain ⟨s', hs', hk⟩ := keeps_rplResetDioTimer (h.inst i hused)
        exact ⟨s', hs', h.keeps hk⟩
      · refine h.processInstance env hi (some d) fun d' hd' => ?_
        rw [← some.inj hd']
        exact hd

end

end

/-! ### Runs -/

/-- A message carries usable parameters. -/
def Call.Usable : Call n N → Prop
  | .dioInput _ buffer bufferLength => (messageConf buffer bufferLength).Usable
  | _ => True

instance {c : Call n N} : Decidable c.Usable :=
  match c with
  | .dioInput _ buffer bufferLength =>
    inferInstanceAs (Decidable (messageConf buffer bufferLength).Usable)
  | .handleDioTimer _ | .nbrCallback _ | .rplRecalculateRanks _ => inferInstanceAs (Decidable True)

/-- **Step.**  In a sound state a call with usable parameters runs to its end, and the state is
sound again. -/
theorem Sound.call [NeZero m] (h : s.Sound) (mopDefault : UInt8) {c : Call n N} (hc : c.Usable) :
    ∃ s', s.call mopDefault c = some s' ∧ s'.Sound := by
  cases c with
  | dioInput env buffer bufferLength =>
    rw [RplState.call]
    cases hdio : Rpl.dioInput buffer bufferLength with
    | none => exact ⟨s, rfl, h⟩
    | some dio =>
      refine h.rplProcessDio env ?_ mopDefault
      rw [dioInput_conf hdio]
      exact hc
  | handleDioTimer i =>
    rw [RplState.call]
    split_ifs with hi
    · exact h.handleDioTimer hi
    · exact ⟨s, rfl, h⟩
  | nbrCallback p =>
    obtain ⟨s', hs', hk⟩ := h.linked.nbrCallback p
    exact ⟨s', hs', h.keeps hk⟩
  | rplRecalculateRanks env =>
    obtain ⟨s', hs', hk⟩ := h.rplRecalculateRanks env
    exact ⟨s', hs', h.keeps hk⟩

/-- **Run.**  While the messages carry usable parameters the state is sound. -/
theorem sound_of_runs [NeZero m] {tr : List (Call n N × Unit)}
    (h : Runs (step · mopDefault) (fun _ c => c.Usable) initial tr s) : s.Sound := by
  refine (h.invariant Sound (fun _ => True) (fun {s c s' o} hs hc hstep => ?_) sound_initial).1
  obtain ⟨s₁, hs₁, hsound⟩ := hs.call mopDefault hc
  rw [step, hs₁] at hstep
  cases hstep
  exact ⟨hsound, trivial⟩

/-! ### A message with other parameters -/

/-- The message is for an instance that is not known, and there is room for the instance and the
sender. -/
structure Joins (s : RplState n m N) (env : Env N) (mopDefault : UInt8) (dio : Dio) : Prop where
  mop : dio.mop = mopDefault
  ocp : (rplFindOf dio.ocp).isSome
  unknown : s.rplGetInstance dio.instanceId = none
  room : ∃ i, (s.inst i).used = false
  nbrAdded : env.nbrAdded
  added : env.added.isSome

/-- The instance that is joined has the parameters of the message. -/
theorem Sound.usable_of_joins [NeZero m] (h : s.Sound)
    (hjoin : s.Joins env mopDefault dio) (hs' : s.rplProcessDio env mopDefault dio = some s')
    (husable : s'.ParamsUsable) : dio.conf.Usable := by
  have hdag : s.getDag dio.instanceId dio.dagId = none := by
    rw [getDag, hjoin.unknown]
    rfl
  obtain ⟨of, hof⟩ := isSome_iff_exists.mp hjoin.ocp
  obtain ⟨p, hp⟩ := isSome_iff_exists.mp hjoin.added
  obtain ⟨s₁, h₁, hk₁⟩ := h.linked.addNbrFromDio env
  rw [RplState.rplProcessDio, if_neg (not_not.mpr hjoin.mop), hdag, hjoin.unknown] at hs'
  rw [RplState.processNew, h₁, hjoin.nbrAdded, bind_eq_bind, bind_some] at hs'
  dsimp only at hs'
  have hmop :
    ¬((mopDefault ≠ rplMopNonStoring ∧ dio.mop = rplMopNonStoring) ∨
      (mopDefault = rplMopNonStoring ∧
      (dio.mop = rplMopStoringNoMulticast ∨ dio.mop = rplMopStoringMulticast))) := by
    rw [hjoin.mop]
    rintro (⟨hne, heq⟩ | ⟨rfl, heq⟩)
    · exact hne heq
    · revert heq
      decide
  rw [RplState.rplJoinInstance, if_neg hmop, hof] at hs'
  rcases rplAllocDag_new ((rplGetInstance_keeps hk₁ _).trans hjoin.unknown) with
    ⟨-, hfull⟩ | ⟨s₂, d, halloc, -, hused, hother, hparent, hisParent⟩
  · obtain ⟨i, hi⟩ := hjoin.room
    rw [← (hk₁.inst i).used, hfull i] at hi
    cases hi
  · have hlinked : s₂.Linked := (h.linked.keeps hk₁).alloc hused hother hparent hisParent
    obtain ⟨s₃, h₃, ha⟩ := hlinked.rplAddParent env d dio
    rw [halloc] at hs'
    dsimp only at hs'
    rw [h₃, hp] at hs'
    obtain ⟨s₄, h₄, hk₄⟩ := s₃.joinVia_eq env of d p dio
    have hk := hk₄.trans (keeps_of_rplResetDioTimer (h₄.symm.trans hs'))
    -- what the last two steps keep is what the instance took from the message
    have hsame := hk.inst d.1
    have hused' : (s'.inst d.1).used :=
      hsame.used.trans (takeDio_used of dio ((ha.inst d.1).used.trans hused))
    have husable := husable d.1 hused'
    rw [hsame.minHoprankinc, hsame.dioIntmin, hsame.dioIntdoubl, takeDio] at husable
    rwa [setInst_self] at husable

theorem Sound.joins_iff [NeZero m] (h : s.Sound) (hjoin : s.Joins env mopDefault dio) :
    (∃ s', s.rplProcessDio env mopDefault dio = some s' ∧ s'.ParamsUsable) ↔ dio.conf.Usable := by
  constructor
  · rintro ⟨s', hs', husable⟩
    exact h.usable_of_joins hjoin hs' husable
  · intro hdio
    obtain ⟨s', hs', hsound⟩ := h.rplProcessDio env hdio mopDefault
    exact ⟨s', hs', hsound.paramsUsable⟩

/-- **Parameters learnt from the network.**  While the messages carry usable parameters, every used
instance has usable parameters, and the next such call does not divide by zero or shift too far.  A
message by which an instance is joined leaves usable parameters just when it carries some. -/
theorem rpl_params_usable_iff [NeZero m] (mopDefault : UInt8) (tr : List (Call n N × Unit))
    (s : RplState n m N) (hrun : Runs (step · mopDefault) (fun _ c => c.Usable) initial tr s) :
    s.ParamsUsable ∧
      (∀ i, (s.inst i).used →
        (∀ rank, (dagRank rank (s.inst i).minHoprankinc).isSome) ∧
          (s.inst i).newDioInterval.isSome ∧
          (dagLifetimeOf (s.inst i)).isSome) ∧
      (∀ c : Call n N, c.Usable → ∃ s', s.call mopDefault c = some s' ∧ s'.ParamsUsable) ∧
      ∀ env buffer bufferLength dio, Rpl.dioInput buffer bufferLength = some dio →
        s.Joins env mopDefault dio →
        ((∃ s', s.call mopDefault (.dioInput env buffer bufferLength) = some s' ∧ s'.ParamsUsable) ↔
          (messageConf buffer bufferLength).Usable) := by
  have h := sound_of_runs hrun
  refine ⟨h.paramsUsable, fun i hi => ⟨fun rank => ?_, ?_, ?_⟩, fun c hc => ?_, ?_⟩
  · rw [dagRank, if_neg (UInt16.pos_iff_ne_zero.mp (h.inst i hi).usable.1)]
    rfl
  · rw [Instance.newDioInterval_eq (h.inst i hi).interval]
    rfl
  · obtain ⟨lifetime, hlifetime⟩ := exists_dagLifetimeOf (h.inst i hi)
    rw [hlifetime]
    rfl
  · obtain ⟨s', hs', hsound⟩ := h.call mopDefault hc
    exact ⟨s', hs', hsound.paramsUsable⟩
  · intro env buffer bufferLength dio hdio hjoin
    rw [RplState.call, hdio, ← dioInput_conf hdio]
    exact h.joins_iff hjoin

/-- A message of instance 30 from a node with rank 256, with a configuration option. -/
def dioMessage (intdoubl intmin : UInt8) (minHoprankinc : UInt8) (i : ℕ) : UInt8 :=
  ([30, 240, 1, 0, 0x90, 0, 0, 0, 0xfd, 0, 0, 0, 0, 0, 0, 0, 2, 0, 0, 0, 0, 0, 0, 1,
    4, 14, 0, intdoubl, intmin, 10, 7, 0, 0, minHoprankinc, 0, 1, 0, 30, 0, 60] : List UInt8).getD i
      0

/-- One neighbour, which sends the messages. -/
def oneNeighbour : Env (Fin 1) where
  keys := [0]
  linkMetric := fun _ => 128
  fresh := fun _ => true
  reachable := fun _ => true
  nbrAdded := true
  nbrEvicted := []
  sender := some 0
  added := some 0
  addEvicted := []

/-- Two messages and a timer. -/
theorem rpl_params_usable_iff_joined :
    ∃ (tr : List (Call 1 (Fin 1) × Unit)) (s : RplState 1 2 (Fin 1)),
    Runs (step · 2) (fun _ c => c.Usable) initial tr s ∧ (s.inst 0).used ∧ s.ParamsUsable := by
  have hexec : (execute (step · 2) (fun _ c => c.Usable) (initial : RplState 1 2 (Fin 1))
      [.dioInput oneNeighbour (dioMessage 8 12 128) 40, .handleDioTimer 0,
        .dioInput oneNeighbour (dioMessage 8 12 128) 40]).map (fun r => (r.1.inst 0).used) =
          some true := by
    decide +kernel
  obtain ⟨r, hrun, hused⟩ := exists_run_of_map hexec
  exact ⟨r.2, r.1, hrun, hused, (rpl_params_usable_iff 2 r.2 r.1 hrun).1⟩

/-- A configuration option with a minimum rank increase of 0 is taken as it is, and the next message
from the parent makes `DAG_RANK` divide by it.  One with intervals up to `2 ^ 40` is taken too. -/
theorem rpl_params_unusable : (∃ (tr : List (Call 1 (Fin 1) × Unit)) (s : RplState 1 2 (Fin 1)),
      Runs (step · 2) (fun _ _ => True) initial tr s ∧ (s.inst 0).used ∧
      (s.inst 0).minHoprankinc = 0 ∧
      s.step 2 (.dioInput oneNeighbour (dioMessage 8 12 0) 40) = none) ∧
    ∃ (tr : List (Call 1 (Fin 1) × Unit)) (s : RplState 1 2 (Fin 1)),
      Runs (step · 2) (fun _ _ => True) initial tr s ∧ (s.inst 0).used ∧
      (s.inst 0).dioIntmin.toNat + (s.inst 0).dioIntdoubl.toNat = 40 := by
  have hzero : (execute (step · 2) (fun _ _ => True) (initial : RplState 1 2 (Fin 1))
      [.dioInput oneNeighbour (dioMessage 8 12 0) 40]).map (fun r => decide ((r.1.inst 0).used ∧
        (r.1.inst 0).minHoprankinc = 0 ∧
        (r.1.step 2 (.dioInput oneNeighbour (dioMessage 8 12 0) 40)).isNone)) = some true := by
    decide +kernel
  have hlong : (execute (step · 2) (fun _ _ => True) (initial : RplState 1 2 (Fin 1))
      [.dioInput oneNeighbour (dioMessage 20 20 128) 40]).map (fun r => decide ((r.1.inst 0).used ∧
        (r.1.inst 0).dioIntmin.toNat + (r.1.inst 0).dioIntdoubl.toNat = 40)) = some true := by
    decide +kernel
  obtain ⟨r, hr, hused, hmin, hnone⟩ := exists_run_of_decide hzero
  obtain ⟨r', hr', hsum⟩ := exists_run_of_decide hlong
  exact ⟨⟨r.2, r.1, hr, hused, hmin, isNone_iff_eq_none.mp hnone⟩, r'.2, r'.1, hr', hsum⟩

end RplState

end Nespy.Rpl
