import Mathlib.Data.Fintype.Card

/-!
# Lib — linked lists in memory

Nodes are linked by a field of their own, `next`, and a list is where its first node is.  `Linked
next head l` says that the nodes met from `head` on are `l`, and that they end: a list that runs
into a cycle is no `l`.  So what a list is made of is determined (`Linked.unique`), and no node is
met twice (`Linked.nodup`).

`walk` is a loop over the nodes; it takes `fuel` turns at most, and on a linked list that is enough.
`Linked.push`, `Linked.remove` and `unlinkAll_spec` say what the usual assignments do to the list.
-/

open List Option Function

namespace Nespy.Lib

variable {α : Type*} {next : α → Option α} {head : Option α} {l : List α}

/-- The nodes from `head` on are `l`. -/
def Linked (next : α → Option α) : Option α → List α → Prop
  | head, [] => head = none
  | head, a :: l => head = some a ∧ Linked next (next a) l

theorem Linked.unique {l' : List α} (h : Linked next head l) (h' : Linked next head l') :
    l = l' := by
  induction l generalizing head l' with
  | nil =>
    cases l' with
    | nil => rfl
    | cons b l' => exact absurd (h.symm.trans h'.1) (some_ne_none b).symm
  | cons a l ih =>
    cases l' with
    | nil => exact absurd (h'.symm.trans h.1) (some_ne_none a).symm
    | cons b l' =>
      obtain rfl := some.inj (h.1.symm.trans h'.1)
      rw [ih h.2 h'.2]

variable {a : α} {q : α → Bool} {fuel : ℕ}

/-- The rest of a list behind one of its nodes. -/
theorem Linked.behind {l₁ l₂ : List α} (h : Linked next head (l₁ ++ a :: l₂)) :
    Linked next (next a) l₂ := by
  induction l₁ generalizing head with
  | nil => exact h.2
  | cons b l₁ ih => exact ih h.2

theorem Linked.nodup (h : Linked next head l) : l.Nodup := by
  induction l generalizing head with
  | nil => exact nodup_nil
  | cons a l ih =>
    refine nodup_cons.mpr ⟨fun hmem => ?_, ih h.2⟩
    -- met again, the node has the same rest as before
    obtain ⟨l₁, l₂, rfl⟩ := append_of_mem hmem
    have hlen := congrArg length (h.2.unique h.2.behind)
    simp only [length_append, length_cons] at hlen
    omega

/-- A node is the first one or comes behind another one. -/
theorem Linked.mem_iff (h : Linked next head l) :
    a ∈ l ↔ head = some a ∨ ∃ b ∈ l, next b = some a := by
  induction l generalizing head with
  | nil => simp [show head = none from h]
  | cons c l ih => simp [ih h.2, h.1, eq_comm]

section Update

variable [DecidableEq α] {a b : α} {v : Option α}

section

variable (h : Linked next head l)

include h

theorem Linked.update (ha : a ∉ l) :
    Linked (update next a v) head l := by
  induction l generalizing head with
  | nil => exact h
  | cons b l ih =>
    obtain ⟨hne, hl⟩ := not_or.mp (mem_cons.not.mp ha)
    refine ⟨h.1, ?_⟩
    rw [update_of_ne (Ne.symm hne)]
    exact ih h.2 hl

/-- A node in front. -/
theorem Linked.push (ha : a ∉ l) :
    Linked (Function.update next a head) (some a) (a :: l) := by
  refine ⟨rfl, ?_⟩
  rw [update_self]
  exact h.update ha

/-- A node that is on the list already, put in front, makes it a cycle. -/
theorem Linked.push_mem (ha : a ∈ l) (l' : List α) :
    ¬Linked (Function.update next a head) (some a) l' := by
  intro h'
  cases l' with
  | nil => exact some_ne_none a h'
  | cons b l' =>
    obtain rfl := some.inj h'.1
    obtain ⟨ha', -⟩ := nodup_cons.mp h'.nodup
    -- what comes behind `a` is the list as it was
    have hrest := h'.2.update (v := next a) ha'
    rw [update_self, update_idem, update_eq_self] at hrest
    exact ha' (h.unique hrest ▸ ha)

/-- The node behind `b` is unlinked. -/
theorem Linked.unlink (hb : b ∈ l) (hnext : next b = some a) :
    Linked (Function.update next b (next a)) head (l.erase a) := by
  induction l generalizing head with
  | nil => cases hb
  | cons c l ih =>
    obtain ⟨hc, hnodup⟩ := nodup_cons.mp h.nodup
    by_cases hcb : c = b
    · subst hcb
      -- `a` comes next
      have hl := h.2
      rw [hnext] at hl
      cases l with
      | nil => exact absurd hl (some_ne_none a)
      | cons a' l =>
        obtain rfl := some.inj hl.1
        have hca : c ≠ a := fun he => hc (he ▸ mem_cons_self)
        rw [erase_cons_tail (by simpa using hca), erase_cons_head]
        refine ⟨h.1, ?_⟩
        rw [update_self]
        exact hl.2.update fun hmem => hc (mem_cons_of_mem _ hmem)
    · have hbl : b ∈ l := (mem_cons.mp hb).resolve_left fun he => hcb he.symm
      have hal : a ∈ l := h.2.mem_iff.mpr (.inr ⟨b, hbl, hnext⟩)
      have hca : c ≠ a := fun he => hc (he ▸ hal)
      rw [erase_cons_tail (by simpa using hca)]
      refine ⟨h.1, ?_⟩
      rw [update_of_ne hcb]
      exact ih h.2 hbl

end

/-- The first node is dropped. -/
theorem Linked.tail (h : Linked next (some a) l) : Linked next (next a) (l.erase a) := by
  cases l with
  | nil => exact absurd h (some_ne_none a)
  | cons b l =>
    obtain rfl := some.inj h.1
    rw [erase_cons_head]
    exact h.2

end Update

/-! ### Loops -/

/-- The loop over the nodes from `head` on that stops at the first one that satisfies `q`; `none`
when it does not come to an end in `fuel` turns. -/
def walk (next : α → Option α) (q : α → Bool) : ℕ → Option α → Option (Option α)
  | _, none => some none
  | 0, some _ => none
  | fuel + 1, some a => if q a then some (some a) else walk next q fuel (next a)

/-- The walk finds the first element with the property. -/
theorem Linked.walk (h : Linked next head l) (hfuel : l.length ≤ fuel) :
    walk next q fuel head = some (l.find? q) := by
  induction l generalizing head fuel with
  | nil =>
    rw [show head = none from h]
    cases fuel <;> rfl
  | cons a l ih =>
    rw [h.1]
    cases fuel with
    | zero => exact absurd hfuel (Nat.not_succ_le_zero _)
    | succ fuel =>
      rw [Lib.walk, find?_cons]
      cases q a with
      | true => rfl
      | false => exact ih h.2 (Nat.le_of_succ_le_succ hfuel)

/-- The search for one node. -/
theorem Linked.walk_eq [DecidableEq α] (h : Linked next head l) (hfuel : l.length ≤ fuel) :
    Lib.walk next (· = a) fuel head = some (if a ∈ l then some a else none) := by
  rw [h.walk hfuel, some_inj]
  cases hfind : l.find? (· = a) with
  | none => exact (if_neg fun hmem => by simpa using find?_eq_none.mp hfind a hmem).symm
  | some b =>
    obtain rfl : b = a := by simpa using find?_some hfind
    exact (if_pos (mem_of_find?_eq_some hfind)).symm

/-- The nodes from `head` on; `none` when they do not come to an end in `fuel` turns. -/
def nodes (next : α → Option α) : ℕ → Option α → Option (List α)
  | _, none => some []
  | 0, some _ => none
  | fuel + 1, some a => (nodes next fuel (next a)).map (a :: ·)

theorem Linked.nodes (h : Linked next head l) (hfuel : l.length ≤ fuel) :
    nodes next fuel head = some l := by
  induction l generalizing head fuel with
  | nil =>
    rw [show head = none from h]
    cases fuel <;> rfl
  | cons a l ih =>
    rw [h.1]
    cases fuel with
    | zero => exact absurd hfuel (Nat.not_succ_le_zero _)
    | succ fuel =>
      rw [Lib.nodes, ih h.2 (Nat.le_of_succ_le_succ hfuel)]
      rfl

theorem linked_of_nodes (h : nodes next fuel head = some l) : Linked next head l := by
  induction fuel generalizing head l with
  | zero =>
    cases head with
    | none => exact some.inj h ▸ rfl
    | some a => cases h
  | succ fuel ih =>
    cases head with
    | none => exact some.inj h ▸ rfl
    | some a =>
      obtain ⟨l', hl', rfl⟩ := map_eq_some_iff.mp h
      exact ⟨rfl, ih hl'⟩

/-- As many turns as there are nodes at all are enough. -/
theorem Linked.length_le [Fintype α] (h : Linked next head l) : l.length ≤ Fintype.card α :=
  h.nodup.length_le_card

/-- The node `a` is taken off the list: it is the first one, or the loop looks for the one before
it. -/
def remove [DecidableEq α] (fuel : ℕ) (head : Option α) (next : α → Option α) (a : α) :
    Option (Option α × (α → Option α)) :=
  if head = some a then some (next a, next)
  else
    (walk next (fun b => next b = some a) fuel head).map fun found =>
      match found with
      | some b => (head, update next b (next a))
      | none => (head, next)

/-- `remove` is `erase` on the list. -/
theorem Linked.remove [DecidableEq α] (h : Linked next head l) (hfuel : l.length ≤ fuel) (a : α) :
    ∃ head' next', Lib.remove fuel head next a = some (head', next') ∧
      Linked next' head' (l.erase a) := by
  rw [Lib.remove]
  split_ifs with hhead
  · exact ⟨next a, next, rfl, Linked.tail (hhead ▸ h)⟩
  · rw [h.walk hfuel]
    cases hfind : l.find? (fun b => next b = some a) with
    | none =>
      have hmem : a ∉ l := fun hmem => by
        rcases h.mem_iff.mp hmem with hfirst | ⟨b, hb, hnext⟩
        · exact hhead hfirst
        · simpa [hnext] using find?_eq_none.mp hfind b hb
      exact ⟨head, next, rfl, by rw [erase_of_not_mem hmem]; exact h⟩
    | some b =>
      have hnext : next b = some a := by simpa using find?_some hfind
      exact ⟨head, _, rfl, h.unlink (mem_of_find?_eq_some hfind) hnext⟩

/-- The loop that unlinks the nodes behind `a` which satisfy `q`. -/
def unlinkAll [DecidableEq α] (q : α → Bool) : ℕ → (α → Option α) → α → Option (α → Option α)
  | 0, _, _ => none
  | fuel + 1, next, a =>
    match next a with
    | none => some next
    | some b =>
      if q b then unlinkAll q fuel (update next a (next b)) a
      else unlinkAll q fuel next b

/-- What is left are the other nodes, and nodes off the list are not touched. -/
theorem unlinkAll_spec [DecidableEq α]
    (h : Linked next (some a) (a :: l)) (hfuel : l.length < fuel) :
    ∃ next', unlinkAll q fuel next a = some next' ∧
      Linked next' (some a) (a :: l.filter fun b => !q b) ∧ ∀ c ∉ a :: l, next' c = next c := by
  induction fuel generalizing next a l with
  | zero => cases hfuel
  | succ fuel ih =>
    obtain ⟨ha, hnodup⟩ := nodup_cons.mp h.nodup
    have hl := h.2
    rw [unlinkAll]
    cases l with
    | nil =>
      rw [show next a = none from hl]
      exact ⟨next, rfl, h, fun _ _ => rfl⟩
    | cons b l =>
      rw [hl.1]
      have hfuel' : l.length < fuel := Nat.lt_of_succ_lt_succ hfuel
      cases hq : q b with
      | true =>
        have hrest : Linked (update next a (next b)) (some a) (a :: l) := by
          refine ⟨rfl, ?_⟩
          rw [update_self]
          exact hl.2.update fun hmem => ha (mem_cons_of_mem _ hmem)
        obtain ⟨next', hnext', hlinked, hsame⟩ := ih hrest hfuel'
        refine ⟨next', (if_pos hq).trans hnext', ?_, fun c hc => ?_⟩
        · rw [filter_cons_of_neg (by simp [hq])]
          exact hlinked
        · have hc' : c ∉ a :: l := fun hmem => hc (cons_subset_cons a (subset_cons_self b l) hmem)
          have hca : c ≠ a := fun he => hc (he ▸ mem_cons_self)
          rw [hsame c hc', update_of_ne hca]
      | false =>
        obtain ⟨next', hnext', hlinked, hsame⟩ := ih (a := b) ⟨rfl, hl.2⟩ hfuel'
        refine ⟨next', (if_neg (by simp [hq])).trans hnext', ?_, fun c hc => ?_⟩
        · rw [filter_cons_of_pos (by simp [hq])]
          refine ⟨rfl, ?_⟩
          rw [hsame a ha, hl.1]
          exact hlinked
        · exact hsame c fun hmem => hc (mem_cons_of_mem _ hmem)

end Nespy.Lib
