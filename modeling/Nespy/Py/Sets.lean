import Nespy.Py.Dict

/-!
# Py — sets are finite sets

A set is a finite map from the classes of equal objects to the object that was added.  `SetHolds`
says that a table holds one, and `mpSetLookup_spec` and `mpSetRemoveFirst_spec` are what the two
functions of `py/map.c` do to it.  The object that `mp_set_remove_first` takes is any one of the
set.

`tables_are_finite_maps` puts dictionaries and sets together: along every sequence of operations
from an empty table, the calls end and give what the dictionary or the set gives.
-/

namespace Nespy.Py

open Lib

variable {K T V : Type} {O : Objects K T}

/-- A set. -/
abbrev Members (O : Objects K T) : Type := Finmap fun _ : O.Key => K

/-- The set after a call with `index`. -/
def Members.after (m : Members O) (index : K) (kind : LookupKind) : Members O :=
  match m.lookup (O.toKey index) with
  | some _ => if kind.removes then m.erase (O.toKey index) else m
  | none => if kind.adds then m.insert (O.toKey index) index else m

/-- The object that the call returns. -/
def Members.answer (m : Members O) (index : K) (kind : LookupKind) : Option K :=
  match m.lookup (O.toKey index) with
  | some elem => some elem
  | none => if kind.adds then some index else none

/-- The hash of a key in sets. -/
def Objects.setHome (O : Objects K T) : O.Key → ℕ := Quotient.lift O.unaryHash O.unaryHash_eq

/-- The table holds the set. -/
structure SetHolds (O : Objects K T) (set : MpSet K) (m : Members O) : Prop where
  stores : Stores O.toKey O.setHome set.table m
  used_eq : set.used = m.keys.card

variable {set : MpSet K} {m : Members O} {index elem : K} {kind : LookupKind} {i : ℕ}

theorem setHolds_init (n : ℕ) : SetHolds O (mpSetInit n) ∅ where
  stores := stores_replicate _ _ n
  used_eq := by simp [mpSetInit]

theorem SetHolds.add (h : SetHolds O set m) (habs : m.lookup (O.toKey index) = none)
    (hfree : Free set.table (O.setHome (O.toKey index)) i) :
    SetHolds O (set.add i index) (m.insert (O.toKey index) index) where
  stores := h.stores.fill habs hfree
  used_eq := by
    rw [card_keys_insert habs, ← h.used_eq]
    rfl

variable [DecidableEq K]

theorem delete_table (set : MpSet K) (i : ℕ) :
    (set.delete i).table = set.table.set i (vacated set.table i) := by
  refine congrArg (set.table.set i) ?_
  unfold vacated MpSet.alloc
  split <;> simp_all

theorem SetHolds.delete (h : SetHolds O set m) (hi : set.table[i]? = some (.live elem)) :
    SetHolds O (set.delete i) (m.erase (O.toKey elem)) where
  stores := by
    rw [delete_table]
    exact h.stores.vacate hi
  used_eq := by
    rw [h.stores.card_keys_erase hi, ← h.used_eq]
    rfl

/-! ### A call -/

theorem setProbe_for (m : Members O) (index : K) (kind : LookupKind) :
    (setProbe O index kind).For O.toKey O.setHome m (O.toKey index) :=
  ⟨rfl, fun _ _ => Objects.toKey_eq_iff.symm⟩

/-- What the call does where its search ends. -/
theorem setDone {r : MpSet K × Option K} (h : SetHolds O set m)
    (hdone : Done (setProbe O index kind) O.setHome m (O.toKey index) set r) :
    SetHolds O r.1 (m.after index kind) ∧ r.2 = m.answer index kind ∧
      (kind = .addIfNotFound → r.1.alloc = set.alloc) := by
  cases hdone with
  | found hi hq =>
    rename_i i elem
    have hkey : O.toKey elem = O.toKey index := ((h.stores.lookup_iff _ _).mp hq).1
    simp only [setProbe, Members.after, Members.answer, hq]
    cases hremoves : kind.removes with
    | true =>
      refine ⟨hkey ▸ h.delete hi, rfl, ?_⟩
      rintro rfl
      cases hremoves
    | false => exact ⟨h, rfl, fun _ => rfl⟩
  | absent hq hadds =>
    have hadds' : kind.adds = false := hadds
    simp only [Members.after, Members.answer, hq, hadds']
    exact ⟨h, rfl, fun _ => trivial⟩
  | filled hq hadds hfree =>
    have hadds' : kind.adds = true := hadds
    simp only [Members.after, Members.answer, hq, hadds']
    exact ⟨h.add hq hfree, rfl, fun _ => List.length_set ..⟩

/-- The calls of `mp_set_rehash` add to the new table. -/
theorem addsIn_set : AddsIn (S := MpSet K) O.toKey MpSet.table (SetHolds O) fun fuel set elem =>
    (mpSetLookup O fuel set elem .addIfNotFound).map Prod.fst := by
  intro set m elem h hroom habs
  obtain ⟨r, hdone, hr⟩ := Probe.run_room h.stores (setProbe_for m elem .addIfNotFound) hroom
  obtain ⟨hholds, -, halloc⟩ := setDone h hdone
  simp only [Members.after, habs] at hholds
  refine ⟨r.1, hholds, halloc rfl, Settles.succ ⟨set.table.length, fun fuel hfuel => ?_⟩⟩
  obtain ⟨fuel, rfl⟩ := Nat.exists_eq_add_of_le' hfuel
  exact congrArg (Option.map Prod.fst) (hr _ fuel)

/-- **Rehashing** keeps the set, in a table with room. -/
theorem mpSetRehash_settles (h : SetHolds O set m) :
    ∃ set', SetHolds O set' m ∧ m.keys.card < set'.table.length ∧
      Settles
        (fun fuel => mpSetRehash (fun set' elem => mpSetLookup O fuel set' elem .addIfNotFound) set)
        set' := by
  refine rehash_settles addsIn_set (setHolds_init _) h.stores ?_
  refine Nat.lt_of_lt_of_le (Nat.lt_succ_self _) ((le_getHashAlloc _).trans_eq ?_)
  exact (List.length_replicate ..).symm

/-- **A call of `mp_set_lookup`**, whatever its kind. -/
theorem mpSetLookup_spec (h : SetHolds O set m) (index : K) (kind : LookupKind) :
    ∃ set', SetHolds O set' (m.after index kind) ∧
      Settles (fun fuel => mpSetLookup O fuel set index kind) (set', m.answer index kind) := by
  obtain ⟨set', r, hset', hdone, hsettles⟩ := Probe.run_settles (fun set' => SetHolds O set' m)
    (setProbe_for m index kind) (fun _ h' => h'.stores) (fun _ h' => mpSetRehash_settles h') h
  obtain ⟨hholds, hanswer, -⟩ := setDone hset' hdone
  rw [← hanswer]
  exact ⟨r.1, hholds, Settles.succ hsettles⟩

/-! ### The first object -/

/-- The loop of `mp_set_remove_first` stops at the first slot that is filled. -/
theorem removeFirstFrom_cases (set : MpSet K) (l : List (Slot K)) (pos : ℕ) :
    (removeFirstFrom set l pos = (set, none) ∧ ∀ elem, .live elem ∉ l) ∨
      ∃ i elem, l[i]? = some (.live elem) ∧
        removeFirstFrom set l pos = (set.delete (pos + i), some elem) := by
  induction l generalizing pos with
  | nil => exact .inl ⟨rfl, by simp⟩
  | cons slot rest ih =>
    cases slot with
    | live elem => exact .inr ⟨0, elem, rfl, rfl⟩
    | _ =>
      rcases ih (pos + 1) with ⟨hnone, hall⟩ | ⟨i, elem, hi, heq⟩
      · exact .inl ⟨hnone, by simpa using hall⟩
      · refine .inr ⟨i + 1, elem, hi, ?_⟩
        rw [← Nat.add_assoc, Nat.add_right_comm]
        exact heq

/-- **A call of `mp_set_remove_first`.** -/
theorem mpSetRemoveFirst_spec (h : SetHolds O set m) :
    (m = ∅ ∧ mpSetRemoveFirst set = (set, none)) ∨
      ∃ q elem set', m.lookup q = some elem ∧ mpSetRemoveFirst set = (set', some elem) ∧
        SetHolds O set' (m.erase q) := by
  rcases removeFirstFrom_cases set set.table 0 with ⟨hnone, hall⟩ | ⟨i, elem, hi, heq⟩
  · refine .inl ⟨Finmap.ext_lookup fun q => ?_, hnone⟩
    by_contra hne
    obtain ⟨elem, helem⟩ := Option.ne_none_iff_exists'.mp hne
    obtain ⟨-, i, hi⟩ := (h.stores.lookup_iff q elem).mp helem
    exact hall elem (List.mem_of_getElem? hi)
  · rw [Nat.zero_add] at heq
    exact .inr ⟨O.toKey elem, elem, set.delete i, h.stores.lookup_live hi, heq, h.delete hi⟩

/-! ### Operations -/

/-- The operations of a set. -/
inductive SetOp (K : Type) where
  | call (index : K) (kind : LookupKind)
  | removeFirst

/-- The operation on the table. -/
def setStep (O : Objects K T) (fuel : ℕ) (set : MpSet K) : SetOp K → Option (MpSet K × Option K)
  | .call index kind => mpSetLookup O fuel set index kind
  | .removeFirst => some (mpSetRemoveFirst set)

/-- The operation on the set. -/
def Members.Step (m : Members O) : SetOp K → Option K → Members O → Prop
  | .call index kind, answer, m' => answer = m.answer index kind ∧ m' = m.after index kind
  | .removeFirst, answer, m' =>
    m = ∅ ∧ answer = none ∧ m' = ∅ ∨
      ∃ q elem, m.lookup q = some elem ∧ answer = some elem ∧ m' = m.erase q

/-- **A step of a set.** -/
theorem setStep_spec (set : MpSet K) (m : Members O) (op : SetOp K) (h : SetHolds O set m) :
    ∃ set' answer m', SetHolds O set' m' ∧ m.Step op answer m' ∧
      Settles (fun fuel => setStep O fuel set op) (set', answer) := by
  cases op with
  | call index kind =>
    obtain ⟨set', hholds, hsettles⟩ := mpSetLookup_spec h index kind
    exact ⟨set', _, _, hholds, ⟨rfl, rfl⟩, hsettles⟩
  | removeFirst =>
    rcases mpSetRemoveFirst_spec h with ⟨rfl, heq⟩ | ⟨q, elem, set', hq, heq, hholds⟩
    · exact ⟨set, none, ∅, h, .inl ⟨rfl, rfl, rfl⟩, Settles.of_eq fun _ => congrArg some heq⟩
    · exact ⟨set', some elem, _, hholds, .inr ⟨q, elem, hq, rfl, rfl⟩,
        Settles.of_eq fun _ => congrArg some heq⟩

/-- **Dictionaries and sets are finite maps.**  Along every sequence of operations from an empty
table, with fuel enough, the calls end with the answers of the dictionary or the set; and the live
slots of the table are then its entries, each once, and as many as `used` says. -/
theorem tables_are_finite_maps (O : Objects K T) (n : ℕ) :
    (∀ ops : List (MapOp K V), ∃ map answers, ∃ d : Dict O V,
      Settles (fun fuel => runAll (mapStep O fuel) (mpMapInit n) ops) (map, answers) ∧
      SpecRun Dict.Step ∅ ops answers d ∧ Lists O.entryKey map.slots d ∧ map.used = d.keys.card) ∧
    ∀ ops : List (SetOp K), ∃ set answers, ∃ m : Members O,
      Settles (fun fuel => runAll (setStep O fuel) (mpSetInit n) ops) (set, answers) ∧
      SpecRun Members.Step ∅ ops answers m ∧ Lists O.toKey set.table m ∧
        set.used = m.keys.card := by
  constructor
  · intro ops
    obtain ⟨map, answers, d, hholds, hrun, hsettles⟩ :=
      runAll_settles (MapHolds O) mapStep_spec ops (mapHolds_init n)
    exact ⟨map, answers, d, hsettles, hrun, hholds.stores.toLists, hholds.used_eq⟩
  · intro ops
    obtain ⟨set, answers, m, hholds, hrun, hsettles⟩ :=
      runAll_settles (SetHolds O) setStep_spec ops (setHolds_init n)
    exact ⟨set, answers, m, hsettles, hrun, hholds.stores.toLists, hholds.used_eq⟩

/-- Strings by their number, interned or not, with two hashes for all of them. -/
def fewHashes : Objects (Bool × ℕ) ℕ where
  isQstr a := a.1
  isStr a := !a.1
  text a := a.2
  equal a b := a.2 == b.2
  qstrHash a := a.2 % 2
  unaryHash a := a.2 % 2
  equal_refl a := by simp
  equal_symm a b h := by simpa using (by simpa using h : a.2 = b.2).symm
  equal_trans a b c h h' := by
    simp only [beq_iff_eq] at h h' ⊢
    exact h.trans h'
  unaryHash_eq a b h := by rw [(by simpa using h : a.2 = b.2)]
  hash_eq a b h := by simp [(by simpa using h : a.2 = b.2)]
  equal_qstr a b _ h := ⟨by simp, by simpa using h⟩
  interned a b ha hb h := by
    obtain ⟨a₁, a₂⟩ := a
    obtain ⟨b₁, b₂⟩ := b
    simp_all

-- a third key that collides makes the table grow, and the deleted slot is passed
example : (runAll (mapStep fewHashes 9) (mpMapInit 0)
      [.store (true, 2) (some 'a'), .store (true, 4) (some 'b'), .call (true, 2) .removeIfFound,
        .store (false, 6) (some 'c'), .store (true, 8) (some 'd'), .call (false, 4) .lookup,
        .call (true, 6) .addIfNotFound]).map Prod.snd =
    some [some (some (true, 2), some 'a'), some (some (true, 4), some 'b'), some (none, some 'a'),
      some (some (false, 6), some 'c'), some (some (true, 8), some 'd'),
        some (some (true, 4), some 'b'),
      some (some (false, 6), some 'c')] := by
  decide +kernel

end Nespy.Py
