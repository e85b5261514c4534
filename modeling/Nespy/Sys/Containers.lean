import Mathlib.Algebra.GroupWithZero.Nat
import Mathlib.Data.List.Nodup
import Mathlib.Data.List.Perm.Basic
import Mathlib.Order.Fin.Basic

/-!
# Sys — lists and memory blocks

`lib/list.c` and `lib/memb.c`.  The items of a list are linked through a field of their own, so an
item is on a list at most once; a list is the list of its items from the head on, and the operations
keep `List.Nodup`.  Of a `MEMB` only the reference counts are kept here: the blocks themselves
belong to the program that declares it.  `Holds` says which blocks are in use, and `Owned` that they
are those to which the items of a list refer.
-/

open List Function

namespace Nespy.Sys

/-! ### Lists -/

section List

variable {α : Type*} [DecidableEq α]

section

variable (l : List α)

/-- `list_remove`. -/
def listRemove (item : α) : List α := l.erase item

/-- `list_add`, at the end. -/
def listAdd (item : α) : List α := listRemove l item ++ [item]

/-- `list_push`, at the head. -/
def listPush (item : α) : List α := item :: listRemove l item

/-- The item put behind `previtem`. -/
def insertBehind (previtem item : α) : List α → List α
  | [] => []
  | x :: l => if x = previtem then x :: item :: l else x :: insertBehind previtem item l

/-- `list_insert`. -/
def listInsert (previtem : Option α) (newitem : α) : List α :=
  match previtem with
  | none => listPush l newitem
  | some p => insertBehind p newitem (listRemove l newitem)

end

variable {l : List α} {x y : α}

theorem nodup_listRemove (h : l.Nodup) : (listRemove l x).Nodup := h.erase x

theorem mem_listRemove (h : l.Nodup) : y ∈ listRemove l x ↔ y ≠ x ∧ y ∈ l := h.mem_erase_iff

theorem nodup_listAdd (h : l.Nodup) : (listAdd l x).Nodup := by
  rw [listAdd, nodup_append_comm]
  exact nodup_cons.mpr ⟨fun hx => ((mem_listRemove h).mp hx).1 rfl, nodup_listRemove h⟩

theorem mem_listAdd (h : l.Nodup) : y ∈ listAdd l x ↔ y = x ∨ y ∈ l := by
  rw [listAdd, mem_append, mem_listRemove h]
  by_cases hy : y = x <;> simp [hy]

theorem insertBehind_perm {p : α} (hp : p ∈ l) : (insertBehind p x l).Perm (x :: l) := by
  induction l with
  | nil => cases hp
  | cons y l ih =>
    rw [insertBehind]
    split_ifs with hy
    · exact List.Perm.swap x y l
    · have hp' : p ∈ l := (mem_cons.mp hp).resolve_left fun he => hy he.symm
      exact ((ih hp').cons y).trans (List.Perm.swap x y l)

/-- An item that is not on the list, inserted at the head or behind one that is. -/
theorem listInsert_perm {p : Option α} (hx : x ∉ l) (hp : ∀ q, p = some q → q ∈ l) :
    (listInsert l p x).Perm (x :: l) := by
  cases p with
  | none =>
    rw [listInsert, listPush, listRemove, erase_of_not_mem hx]
  | some q =>
    rw [listInsert, listRemove, erase_of_not_mem hx]
    exact insertBehind_perm (hp q rfl)

/-- One of the lists of a concatenation gets a new element. -/
theorem flatMap_update_perm {β : Type*} {f : α → List β} {b : β} {bs : List β} (hl : l.Nodup)
    (hx : x ∈ l)
    (hbs : bs.Perm (b :: f x)) : (l.flatMap (update f x bs)).Perm (b :: l.flatMap f) := by
  obtain ⟨l₁, l₂, rfl⟩ := append_of_mem hx
  have hnot : x ∉ l₁ ++ l₂ := (nodup_middle.mp hl).notMem
  have hsame : ∀ l' : List α, (∀ y ∈ l', y ∈ l₁ ++ l₂) →
      l'.flatMap (update f x bs) = l'.flatMap f := by
    intro l' hsub
    refine flatMap_congr fun y hy => ?_
    rw [update_of_ne fun hyx : y = x => hnot (hyx ▸ hsub y hy)]
  rw [flatMap_append, flatMap_append, flatMap_cons, update_self,
    hsame l₁ fun y hy => mem_append_left _ hy, hsame l₂ fun y hy => mem_append_right _ hy]
  exact ((hbs.append_right _).append_left _).trans perm_middle

end List

/-! ### Memory blocks -/

/-- The reference counts of a `MEMB` of `n` blocks. -/
abbrev Memb (n : ℕ) := Fin n → ℕ

variable {n : ℕ}

/-- `memb_alloc`: the first block that is not used. -/
def membAlloc (count : Memb n) : Option (Fin n × Memb n) :=
  ((finRange n).find? fun i => count i = 0).map fun i => (i, update count i (count i + 1))

/-- `memb_free`. -/
def membFree (count : Memb n) (i : Fin n) : Memb n :=
  if 0 < count i then update count i (count i - 1) else count

variable {i : Fin n} {count count' : Memb n}

theorem membAlloc_eq_some (h : membAlloc count = some (i, count')) :
    count i = 0 ∧ count' = update count i 1 := by
  obtain ⟨j, hj, hji⟩ := Option.map_eq_some_iff.mp h
  obtain ⟨rfl, rfl⟩ := Prod.mk.inj hji
  have hzero : count j = 0 := by simpa using find?_some hj
  exact ⟨hzero, by rw [hzero]⟩

theorem membFree_one (h : count i = 1) : membFree count i = update count i 0 := by
  rw [membFree, h, if_pos Nat.one_pos]

/-- A block that was just allocated and is freed again. -/
theorem membFree_of_membAlloc (h : membAlloc count = some (i, count')) :
    membFree count' i = count := by
  obtain ⟨hzero, rfl⟩ := membAlloc_eq_some h
  rw [membFree_one (update_self ..), update_idem, ← hzero, update_eq_self]

/-! ### What a memory block holds -/

/-- The blocks in use are those on the list. -/
structure Holds (count : Memb n) (l : List (Fin n)) : Prop where
  nodup : l.Nodup
  count : ∀ i, count i = if i ∈ l then 1 else 0

namespace Holds

variable {l l' : List (Fin n)}

theorem nil : Holds (fun _ : Fin n => 0) [] := ⟨nodup_nil, fun _ => rfl⟩

theorem perm (h : Holds count l) (hp : l.Perm l') : Holds count l' :=
  ⟨hp.nodup_iff.mp h.nodup, fun i => by simp only [h.count i, hp.mem_iff]⟩

theorem alloc (h : Holds count l) (ha : membAlloc count = some (i, count')) :
    i ∉ l ∧ Holds count' (i :: l) := by
  obtain ⟨hzero, rfl⟩ := membAlloc_eq_some ha
  have hi : i ∉ l := fun hmem => by simp [h.count i, hmem] at hzero
  refine ⟨hi, nodup_cons.mpr ⟨hi, h.nodup⟩, fun j => ?_⟩
  by_cases hj : j = i
  · simp [hj]
  · simp [h.count j, hj]

theorem free (h : Holds count (i :: l)) : Holds (membFree count i) l := by
  obtain ⟨hi, hnodup⟩ := nodup_cons.mp h.nodup
  rw [membFree_one (by simp [h.count i])]
  refine ⟨hnodup, fun j => ?_⟩
  by_cases hj : j = i
  · simp [hj, hi]
  · simp [h.count j, hj]

/-- There is no block left when all of them are on the list. -/
theorem length_of_membAlloc_none (h : Holds count l) (ha : membAlloc count = none) :
    l.length = n := by
  have hall : ∀ i, i ∈ l := by
    intro i
    by_contra hi
    have hfind := find?_eq_none.mp (Option.map_eq_none_iff.mp ha) i (mem_finRange i)
    exact hfind (by simp [h.count i, hi])
  have hperm : l.Perm (finRange n) :=
    (perm_ext_iff_of_nodup h.nodup (nodup_finRange n)).mpr fun i =>
      ⟨fun _ => mem_finRange i, fun _ => hall i⟩
  rw [hperm.length_eq, length_finRange]

theorem length_le (h : Holds count l) : l.length ≤ n := by
  have hsub : l ⊆ finRange n := fun i _ => mem_finRange i
  simpa using (subperm_of_subset h.nodup hsub).length_le

end Holds

/-- The blocks in use are those that the items of the list refer to, each to one of its own. -/
structure Owned {P : Type*} (f : P → Option (Fin n)) (l : List P) (count : Memb n) : Prop where
  refers : ∀ p ∈ l, ∃ i, f p = some i
  holds : Holds count (l.filterMap f)

namespace Owned

variable {P : Type*} {f g : P → Option (Fin n)} {l l' : List P} {p : P}

theorem nil : Owned f [] (fun _ : Fin n => 0) := ⟨nofun, .nil⟩

theorem perm (h : Owned f l count) (hp : l.Perm l') : Owned f l' count :=
  ⟨fun p hmem => h.refers p (hp.mem_iff.mpr hmem), h.holds.perm (hp.filterMap f)⟩

theorem congr (h : Owned f l count) (hfg : ∀ p ∈ l, f p = g p) : Owned g l count := by
  refine ⟨fun p hp => hfg p hp ▸ h.refers p hp, ?_⟩
  rw [← filterMap_congr hfg]
  exact h.holds

theorem add (h : Owned f l count) (ha : membAlloc count = some (i, count')) (hp : f p = some i) :
    Owned f (p :: l) count' := by
  refine ⟨forall_mem_cons.mpr ⟨⟨i, hp⟩, h.refers⟩, ?_⟩
  rw [filterMap_cons_some hp]
  exact (h.holds.alloc ha).2

theorem remove (h : Owned f (p :: l) count) (hp : f p = some i) : Owned f l (membFree count i) := by
  refine ⟨fun q hq => h.refers q (mem_cons_of_mem _ hq), ?_⟩
  have hholds := h.holds
  rw [filterMap_cons_some hp] at hholds
  exact hholds.free

end Owned

end Nespy.Sys
