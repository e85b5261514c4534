import Nespy.Lib.Linked

/-!
# Lib — doubly linked lists in memory

A list whose nodes have a `prev` as well.  `Back prev b l` says that the `prev` of each node of `l`
is the node before it, and that of the first one `b`.
-/

open List Function

namespace Nespy.Lib

variable {α : Type*} {next prev : α → Option α} {head b : Option α} {l : List α} {a c : α}

/-- Each node's `prev` is the node before. -/
def Back (prev : α → Option α) : Option α → List α → Prop
  | _, [] => True
  | b, a :: l => prev a = b ∧ Back prev (some a) l

/-- The nodes from `head` on are `l`, in both directions. -/
structure DLinked (next prev : α → Option α) (head : Option α) (l : List α) : Prop where
  linked : Linked next head l
  back : Back prev none l

/-- The node before the first one is as given; any other node comes behind its `prev`. -/
theorem Back.prev_eq (h : Back prev b l) (hl : Linked next head l) (ha : a ∈ l) :
    (head = some a ∧ prev a = b) ∨ ∃ c ∈ l, prev a = some c ∧ next c = some a := by
  induction l generalizing head b with
  | nil => cases ha
  | cons c l ih =>
    rcases mem_cons.mp ha with rfl | ha
    · exact .inl ⟨hl.1, h.1⟩
    · rcases ih h.2 hl.2 ha with ⟨hnext, hprev⟩ | ⟨d, hd, hprev, hnext⟩
      · exact .inr ⟨c, mem_cons_self, hprev, hnext⟩
      · exact .inr ⟨d, mem_cons_of_mem _ hd, hprev, hnext⟩

theorem DLinked.prev_head (h : DLinked next prev (some a) l) : prev a = none := by
  cases l with
  | nil => exact absurd h.linked (Option.some_ne_none a)
  | cons c l => exact Option.some.inj h.linked.1 ▸ h.back.1

variable [DecidableEq α]

theorem Back.update {v : Option α} (h : Back prev b l) (ha : a ∉ l) :
    Back (update prev a v) b l := by
  induction l generalizing b with
  | nil => trivial
  | cons c l ih =>
    obtain ⟨hne, hl⟩ := not_or.mp (mem_cons.not.mp ha)
    refine ⟨?_, ih h.2 hl⟩
    rw [update_of_ne (Ne.symm hne)]
    exact h.1

/-- The `prev` of the node `head`, if that is one, is set. -/
def setPrev (prev : α → Option α) (head v : Option α) : α → Option α :=
  match head with
  | some a => update prev a v
  | none => prev

theorem setPrev_setPrev (prev : α → Option α) (head v w : Option α) :
    setPrev (setPrev prev head v) head w = setPrev prev head w := by
  cases head with
  | none => rfl
  | some a => exact Function.update_idem ..

theorem Back.setPrev (h : Back prev b l) (hl : Linked next head l) (v : Option α) :
    Back (setPrev prev head v) v l := by
  cases l with
  | nil => trivial
  | cons a l =>
    rw [hl.1]
    refine ⟨update_self .., h.2.update ?_⟩
    exact (nodup_cons.mp hl.nodup).1

/-- **Unlinking.**  The `prev` of the node behind `a` becomes that of `a`. -/
theorem Back.erase (h : Back prev b l) (hl : Linked next head l) (ha : a ∈ l) :
    Back (Lib.setPrev prev (next a) (prev a)) b (l.erase a) := by
  induction l generalizing head b with
  | nil => cases ha
  | cons c l ih =>
    by_cases hca : c = a
    · subst hca
      rw [erase_cons_head, h.1]
      exact h.2.setPrev hl.2 b
    · have hal : a ∈ l := (mem_cons.mp ha).resolve_left (Ne.symm hca)
      rw [erase_cons_tail (by simpa using hca)]
      refine ⟨?_, ih h.2 hl.2 hal⟩
      -- the node behind `a` is not `c`, which comes before
      obtain ⟨hc, -⟩ := nodup_cons.mp hl.nodup
      cases hn : next a with
      | none => exact h.1
      | some d =>
        have hd : d ∈ l := hl.2.mem_iff.mpr (.inr ⟨a, hal, hn⟩)
        have hne : c ≠ d := fun he => hc (he ▸ hd)
        exact (update_of_ne hne ..).trans h.1

/-- A node in front. -/
theorem DLinked.push (h : DLinked next prev head l) (ha : a ∉ l) :
    DLinked (update next a head) (Lib.setPrev (update prev a none) head (some a)) (some a)
      (a :: l) := by
  refine ⟨h.linked.push ha, ?_, (h.back.update ha).setPrev h.linked (some a)⟩
  cases hhead : head with
  | none => exact update_self ..
  | some c =>
    have hc : c ∈ l := h.linked.mem_iff.mpr (.inl hhead)
    have hne : a ≠ c := fun he => ha (he ▸ hc)
    exact (update_of_ne hne ..).trans (update_self ..)

/-- The first node is dropped. -/
theorem DLinked.tail (h : DLinked next prev (some a) l) :
    DLinked next (Lib.setPrev prev (next a) none) (next a) (l.erase a) := by
  refine ⟨h.linked.tail, ?_⟩
  cases l with
  | nil => trivial
  | cons c l =>
    obtain rfl := Option.some.inj h.linked.1
    rw [erase_cons_head]
    exact h.back.2.setPrev h.linked.2 none

/-- Another node is unlinked: it has a node before it. -/
theorem DLinked.unlink (h : DLinked next prev head l) (ha : a ∈ l) (hhead : head ≠ some a) :
    ∃ c ∈ l, prev a = some c ∧
      DLinked (update next c (next a)) (Lib.setPrev prev (next a) (prev a)) head (l.erase a) := by
  rcases h.back.prev_eq h.linked ha with ⟨hfirst, -⟩ | ⟨c, hc, hprev, hnext⟩
  · exact absurd hfirst hhead
  · exact ⟨c, hc, hprev, h.linked.unlink hc hnext, h.back.erase h.linked ha⟩

end Nespy.Lib
