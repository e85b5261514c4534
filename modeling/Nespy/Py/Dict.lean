import Nespy.Py.Map

/-!
# Py — dictionaries are finite maps

A dictionary is a finite map from the classes of equal objects to a key and a value: the key is the
object that was added first, and stays when an equal one is looked up.  `MapHolds` says that a table
holds one.  `mpMapLookup_spec` is what `mp_map_lookup` does to it, with fuel enough: the slot that
it returns has the entry of the dictionary, and the table holds the dictionary that the call leaves.

The search stands on `Lib.scan`.  It can come round without a free slot only in a table that is
full, and `mp_map_rehash` then makes a larger one, which has room for all keys; so the search after
it ends.
-/

open List Option

namespace Nespy.Py

open Lib

variable {K T V : Type} {O : Objects K T}

/-! ### Dictionaries -/

/-- Objects are the same key when they are equal. -/
def Objects.setoid (O : Objects K T) : Setoid K where
  r a b := O.equal a b = true
  iseqv := ⟨O.equal_refl, fun h => O.equal_symm _ _ h, fun h h' => O.equal_trans _ _ _ h h'⟩

/-- The keys of dictionaries. -/
def Objects.Key (O : Objects K T) : Type := Quotient O.setoid

instance : DecidableEq O.Key :=
  @Quotient.decidableEq K O.setoid fun a b => inferInstanceAs (Decidable (O.equal a b = true))

/-- The key that an object is. -/
def Objects.toKey (O : Objects K T) (a : K) : O.Key := Quotient.mk O.setoid a

theorem Objects.toKey_eq_iff {a b : K} : O.toKey a = O.toKey b ↔ O.equal a b = true :=
  @Quotient.eq K O.setoid a b

/-- The hash of a key. -/
def Objects.home (O : Objects K T) : O.Key → ℕ := Quotient.lift O.hash O.hash_eq

/-- A dictionary. -/
abbrev Dict (O : Objects K T) (V : Type) : Type := Finmap fun _ : O.Key => K × Option V

/-- The key that is in the dictionary for `index`, or would be if it was added. -/
def Dict.keyFor (d : Dict O V) (index : K) : K :=
  ((d.lookup (O.toKey index)).map Prod.fst).getD index

/-- The dictionary after a call with `index`. -/
def Dict.after (d : Dict O V) (index : K) : LookupKind → Dict O V
  | .addIfNotFound =>
    match d.lookup (O.toKey index) with
    | some _ => d
    | none => d.insert (O.toKey index) (index, none)
  | .removeIfFound => d.erase (O.toKey index)
  | _ => d

/-- The key and the value that the caller finds in the slot that the call returns. -/
def Dict.answer (d : Dict O V) (index : K) : LookupKind → Option (Option K × Option V)
  | .addIfNotFound =>
    match d.lookup (O.toKey index) with
    | some (key, value) => some (some key, value)
    | none => some (some index, none)
  | .removeIfFound => (d.lookup (O.toKey index)).map fun entry => (none, entry.2)
  | _ => (d.lookup (O.toKey index)).map fun entry => (some entry.1, entry.2)

/-! ### Tables that hold one -/

/-- The key of an entry. -/
def Objects.entryKey (O : Objects K T) (entry : K × Option V) : O.Key := O.toKey entry.1

/-- The table holds the dictionary. -/
structure MapHolds (O : Objects K T) (map : MpMap K V) (d : Dict O V) : Prop where
  stores : Stores O.entryKey O.home map.slots d
  used_eq : map.used = d.keys.card
  qstrs : map.allKeysAreQstrs = true → ∀ q entry, d.lookup q = some entry → O.isQstr entry.1 = true

variable {map : MpMap K V} {d : Dict O V} {i : ℕ}

theorem length_slots (map : MpMap K V) : map.slots.length = map.alloc := length_map ..

theorem getElem?_slots (map : MpMap K V) (i : ℕ) : map.slots[i]? = map.table[i]?.map MapElem.slot :=
  getElem?_map ..

variable {key : K} {entry : K × Option V} {value : Option V} {index : K} {kind : LookupKind}

theorem MapElem.slot_eq_live {elem : MapElem K V} :
    elem.slot = .live entry ↔ elem = ⟨.live entry.1, entry.2⟩ := by
  obtain ⟨key, value⟩ := elem
  obtain ⟨key', value'⟩ := entry
  cases key <;> simp [MapElem.slot]

theorem live_slots :
    map.slots[i]? = some (.live entry) ↔ map.table[i]? = some ⟨.live entry.1, entry.2⟩ := by
  rw [getElem?_slots, map_eq_some_iff]
  constructor
  · rintro ⟨elem, helem, hslot⟩
    rw [helem, MapElem.slot_eq_live.mp hslot]
  · intro helem
    exact ⟨_, helem, MapElem.slot_eq_live.mpr rfl⟩

theorem slots_add (map : MpMap K V) (i : ℕ) (index : K) :
    (map.add O i index).slots = map.slots.set i (.live (index, none)) := map_set ..

theorem map_modify {α β : Type} (f : α → β) (g : α → α) {l : List α} {i : ℕ} {b : β}
    (h : ∀ a, l[i]? = some a → f (g a) = b) : (l.modify i g).map f = (l.map f).set i b := by
  refine ext_getElem? fun j => ?_
  rw [List.getElem?_map, List.getElem?_modify]
  rcases eq_or_ne i j with rfl | hne
  · cases hi : l[i]? with
    | none => simp [List.getElem?_eq_none_iff.mp hi]
    | some a => simp [h a hi, (List.getElem?_eq_some_iff.mp hi).1]
  · simp [hne]

theorem slots_setValue (value' : Option V) (h : map.table[i]? = some ⟨.live key, value⟩) :
    (map.setValue i value').slots = map.slots.set i (.live (key, value')) := by
  refine map_modify MapElem.slot _ fun elem helem => ?_
  rw [h, some.injEq] at helem
  subst helem
  rfl

theorem slots_delete [DecidableEq K] (map : MpMap K V) (i : ℕ) :
    (map.delete i).slots = map.slots.set i (vacated map.slots i) := by
  refine map_modify MapElem.slot _ fun elem _ => ?_
  unfold vacated
  rw [length_slots, getElem?_slots]
  cases map.table[(i + 1) % map.alloc]? with
  | none => rfl
  | some next =>
    unfold MapElem.slot
    cases hnext : next.key <;> simp [hnext]

/-! ### Changing the table -/

theorem mapHolds_init (n : ℕ) : MapHolds O (mpMapInit (V := V) n) ∅ where
  stores := by
    have hslots : (mpMapInit (K := K) (V := V) n).slots = replicate n .empty := map_replicate
    rw [hslots]
    exact stores_replicate _ _ n
  used_eq := by simp [mpMapInit]
  qstrs _ q entry h := by simp at h

/-- **Adding** an object that is not in the dictionary. -/
theorem MapHolds.add (h : MapHolds O map d) (habs : d.lookup (O.toKey index) = none)
    (hfree : Free map.slots (O.home (O.toKey index)) i) :
    MapHolds O (map.add O i index) (d.insert (O.toKey index) (index, none)) where
  stores := by
    rw [slots_add]
    exact h.stores.fill habs hfree
  used_eq := by
    rw [card_keys_insert habs, ← h.used_eq]
    rfl
  qstrs hq q entry hentry := by
    have hflags : map.allKeysAreQstrs = true ∧ O.isQstr index = true := by
      simpa [MpMap.add] using hq
    rcases eq_or_ne q (O.toKey index) with rfl | hne
    · rw [Finmap.lookup_insert] at hentry
      cases hentry
      exact hflags.2
    · rw [Finmap.lookup_insert_of_ne _ hne] at hentry
      exact h.qstrs hflags.1 q entry hentry

section

variable (h : MapHolds O map d) (hi : map.table[i]? = some ⟨.live key, value⟩)

include h hi

/-- Storing a value. -/
theorem MapHolds.setValue (value' : Option V) :
    MapHolds O (map.setValue i value') (d.insert (O.toKey key) (key, value')) where
  stores := by
    rw [slots_setValue value' hi]
    exact h.stores.put (e := (key, value)) (live_slots.mpr hi) rfl
  used_eq := by
    have hkeys := h.stores.keys_put (key, value') (e := (key, value)) (live_slots.mpr hi)
    rw [show O.toKey key = O.entryKey (key, value) from rfl, hkeys]
    exact h.used_eq
  qstrs hq q entry hentry := by
    rcases eq_or_ne q (O.toKey key) with rfl | hne
    · rw [Finmap.lookup_insert] at hentry
      cases hentry
      exact h.qstrs hq _ (key, value) (h.stores.lookup_live (live_slots.mpr hi))
    · rw [Finmap.lookup_insert_of_ne _ hne] at hentry
      exact h.qstrs hq q entry hentry

/-- **Removing** an entry. -/
theorem MapHolds.delete [DecidableEq K] :
    MapHolds O (map.delete i) (d.erase (O.toKey key)) where
  stores := by
    rw [slots_delete]
    exact h.stores.vacate (e := (key, value)) (live_slots.mpr hi)
  used_eq := by
    have hcard := h.stores.card_keys_erase (e := (key, value)) (live_slots.mpr hi)
    rw [show O.toKey key = O.entryKey (key, value) from rfl, hcard, ← h.used_eq]
    rfl
  qstrs hq q entry hentry := by
    rcases eq_or_ne q (O.toKey key) with rfl | hne
    · rw [Finmap.lookup_erase] at hentry
      cases hentry
    · rw [Finmap.lookup_erase_ne hne] at hentry
      exact h.qstrs hq q entry hentry

end

/-! ### What a call does to the dictionary -/

section

/-- What the caller finds in the slot that a call returns. -/
def MpMap.read (map : MpMap K V) (slot : Option ℕ) : Option (Option K × Option V) :=
  slot.bind fun i => map.table[i]?.map fun elem => (elem.key.live?, elem.value)

/-- A call on a table with the dictionary `d` may leave the table and return the slot. -/
structure Serves (d : Dict O V) (index : K) (kind : LookupKind) (map' : MpMap K V)
    (slot : Option ℕ) : Prop where
  holds : MapHolds O map' (d.after index kind)
  read_eq : map'.read slot = d.answer index kind

theorem read_live {key : K} {value : Option V} (h : map.table[i]? = some ⟨.live key, value⟩) :
    map.read (some i) = some (some key, value) := by
  rw [MpMap.read, bind_some, h]
  rfl

theorem table_add (hi : i < map.alloc) : (map.add O i index).table[i]? = some ⟨.live index, none⟩ :=
  getElem?_set_self hi

/-- Where the index is not in the dictionary, a call that adds takes a free slot. -/
theorem serves_add (h : MapHolds O map d) (hq : d.lookup (O.toKey index) = none)
    (hfree : Free map.slots (O.home (O.toKey index)) i) :
    Serves d index .addIfNotFound (map.add O i index) (some i) where
  holds := by
    simp only [Dict.after, hq]
    exact h.add hq hfree
  read_eq := by
    rw [read_live (table_add (length_slots map ▸ hfree.lt)), Dict.answer, hq]

/-- A call that does not add leaves the table. -/
theorem serves_absent (h : MapHolds O map d) (hq : d.lookup (O.toKey index) = none)
    (hkind : kind ≠ .addIfNotFound) : Serves d index kind map none where
  holds := by
    cases kind with
    | addIfNotFound => exact absurd rfl hkind
    | removeIfFound =>
      rw [Dict.after, erase_of_lookup_eq_none hq]
      exact h
    | _ => exact h
  read_eq := by
    cases kind with
    | addIfNotFound => exact absurd rfl hkind
    | _ => simp [Dict.answer, hq, MpMap.read]

variable {map' : MpMap K V}

/-- The slot that a call returns when it adds. -/
theorem Serves.slot {slot : Option ℕ} (hs : Serves d index .addIfNotFound map' slot) :
    ∃ i value, slot = some i ∧ map'.table[i]? = some ⟨.live (d.keyFor index), value⟩ := by
  have hanswer : ∃ value, d.answer index .addIfNotFound = some (some (d.keyFor index), value) := by
    unfold Dict.answer Dict.keyFor
    cases d.lookup (O.toKey index) with
    | none => exact ⟨none, rfl⟩
    | some entry => exact ⟨entry.2, rfl⟩
  obtain ⟨value, hvalue⟩ := hanswer
  obtain ⟨i, rfl, hi⟩ := bind_eq_some_iff.mp (hs.read_eq.trans hvalue)
  obtain ⟨⟨key, value'⟩, helem, heq⟩ := map_eq_some_iff.mp hi
  rw [Prod.mk.injEq] at heq
  refine ⟨i, value', rfl, ?_⟩
  cases key with
  | live key =>
    rw [helem, some.inj heq.1]
  | _ => cases heq.1

/-- A call that adds, and a value put into the slot that it returns. -/
theorem Serves.store {slot : Option ℕ} (h : MapHolds O map d)
    (hs : Serves d index .addIfNotFound map' slot) (value : Option V) :
    ∃ i, slot = some i ∧ (map'.setValue i value).read (some i) =
      some (some (d.keyFor index), value) ∧
      MapHolds O (map'.setValue i value) (d.insert (O.toKey index) (d.keyFor index, value)) := by
  obtain ⟨i, old, rfl, hi⟩ := hs.slot
  have hkey : O.toKey (d.keyFor index) = O.toKey index := by
    unfold Dict.keyFor
    cases hq : d.lookup (O.toKey index) with
    | none => rfl
    | some entry => exact ((h.stores.lookup_iff _ _).mp hq).1
  have hafter : (d.after index .addIfNotFound).insert (O.toKey index) (d.keyFor index, value) =
      d.insert (O.toKey index) (d.keyFor index, value) := by
    unfold Dict.after
    cases d.lookup (O.toKey index) with
    | none => exact Finmap.insert_insert d
    | some entry => rfl
  refine ⟨i, rfl, ?_, ?_⟩
  · refine read_live ?_
    simp [MpMap.setValue, hi]
  · rw [← hafter, ← hkey]
    exact hs.holds.setValue hi value

/-- An object that is no string is not among interned strings. -/
theorem absent_of_qstrs (h : MapHolds O map d) (hq : map.allKeysAreQstrs = true)
    (hqstr : O.isQstr index = false) (hstr : O.isStr index = false) :
    d.lookup (O.toKey index) = none := by
  by_contra hne
  obtain ⟨entry, hentry⟩ := ne_none_iff_exists'.mp hne
  obtain ⟨hkey, -⟩ := (h.stores.lookup_iff _ _).mp hentry
  have hstrs := (O.equal_qstr entry.1 index (h.qstrs hq _ entry hentry)
    (Objects.toKey_eq_iff.mp hkey)).1
  rw [hqstr, hstr] at hstrs
  cases hstrs

end

/-! ### Comparing pointers only -/

variable [DecidableEq K]

theorem read_delete (h : map.table[i]? = some ⟨.live key, value⟩) :
    (map.delete i).read (some i) = some (none, value) := by
  simp only [MpMap.read, bind_some, MpMap.delete, getElem?_modify, if_true, h]
  split <;> rfl

section

variable (h : MapHolds O map d)

include h

/-- **It is enough to compare pointers** among interned strings, unless the index is a string that
is not. -/
theorem mapProbe_for (index : K) (kind : LookupKind) :
    (mapProbe (V := V) O (map.allKeysAreQstrs && (O.isQstr index || !O.isStr index)) index kind).For
      O.entryKey O.home d (O.toKey index) := by
  refine ⟨rfl, fun entry hentry => ?_⟩
  simp only [mapProbe, Bool.or_eq_true, Bool.and_eq_true, decide_eq_true_eq, Bool.not_eq_true',
    Objects.entryKey, Objects.toKey_eq_iff]
  constructor
  · rintro (heq | ⟨-, hequal⟩)
    · rw [heq]
      exact O.equal_refl index
    · exact hequal
  · intro hequal
    by_cases hptrs : (map.allKeysAreQstrs && (O.isQstr index || !O.isStr index)) = true
    · simp only [Bool.and_eq_true, Bool.or_eq_true, Bool.not_eq_true'] at hptrs
      have hq := h.qstrs hptrs.1 _ entry hentry
      obtain ⟨hstr, htext⟩ := O.equal_qstr entry.1 index hq hequal
      rcases hptrs.2 with hindex | hindex
      · exact .inl (O.interned entry.1 index hq hindex htext)
      · rw [hindex, Bool.or_false] at hstr
        exact .inl (O.interned entry.1 index hq hstr htext)
    · exact .inr ⟨by simpa using hptrs, hequal⟩

/-! ### A call -/

/-- Where the index is in the dictionary, the call finds its slot. -/
theorem serves_hit (hi : map.slots[i]? = some (.live entry))
    (hq : d.lookup (O.toKey index) = some entry) :
    Serves d index kind (if kind = .removeIfFound then map.delete i else map) (some i) := by
  have helem := live_slots.mp hi
  have hkey : O.toKey entry.1 = O.toKey index := ((h.stores.lookup_iff _ _).mp hq).1
  by_cases hkind : kind = .removeIfFound
  · subst hkind
    rw [if_pos rfl]
    constructor
    · rw [Dict.after, ← hkey]
      exact h.delete helem
    · rw [read_delete helem, Dict.answer, hq]
      rfl
  · rw [if_neg hkind]
    constructor
    · cases kind <;> simp only [Dict.after, hq] <;> first | exact h | exact absurd rfl hkind
    · rw [read_live helem]
      cases kind <;> simp only [Dict.answer, hq] <;> first | rfl | exact absurd rfl hkind

/-- What the call does where its search ends. -/
theorem Serves.of_done {compareOnlyPtrs : Bool} {r : MpMap K V × Option ℕ}
    (hdone : Done (mapProbe O compareOnlyPtrs index kind) O.home d (O.toKey index) map r) :
    Serves d index kind r.1 r.2 ∧ r.1.alloc = map.alloc := by
  cases hdone with
  | found hi hq =>
    rename_i i entry
    have hhit : (mapProbe O compareOnlyPtrs index kind).hit map i entry =
        (if kind = .removeIfFound then map.delete i else map, some i) := by
      simp only [mapProbe]
      split <;> rfl
    rw [hhit]
    refine ⟨serves_hit h hi hq, ?_⟩
    split
    · exact length_modify ..
    · rfl
  | absent hq hkind => exact ⟨serves_absent h hq (by simpa [mapProbe] using hkind), rfl⟩
  | filled hq hkind hfree =>
    have hkind' : kind = .addIfNotFound := by simpa [mapProbe] using hkind
    subst hkind'
    exact ⟨serves_add h hq hfree, length_set ..⟩

/-- Adding to a table with room. -/
theorem mpMapLookup_room (hroom : d.keys.card < map.alloc) (index : K) :
    ∃ map' slot, Serves d index .addIfNotFound map' slot ∧ map'.alloc = map.alloc ∧
      Settles (fun fuel => mpMapLookup O fuel map index .addIfNotFound) (map', slot) := by
  obtain ⟨r, hdone, hr⟩ := Probe.run_room h.stores (mapProbe_for h index .addIfNotFound)
    (show d.keys.card < map.slots.length from (length_slots map).symm ▸ hroom)
  obtain ⟨hserves, halloc⟩ := Serves.of_done h hdone
  refine ⟨r.1, r.2, hserves, halloc, Settles.succ ⟨map.slots.length, fun fuel hfuel => ?_⟩⟩
  obtain ⟨fuel, rfl⟩ := Nat.exists_eq_add_of_le' hfuel
  simp only [mpMapLookup, ne_eq, not_true_eq_false, decide_false, Bool.and_false]
  exact hr _ fuel

end

/-- The calls of `mp_map_rehash` add to the new table. -/
theorem addsIn_map :
    AddsIn (S := MpMap K V) O.entryKey MpMap.slots (MapHolds O) fun fuel map elem =>
    (mpMapLookup O fuel map elem.1 .addIfNotFound).bind fun result =>
      result.2.map fun slot => result.1.setValue slot elem.2 := by
  intro map d elem h hroom habs
  rw [length_slots] at hroom
  obtain ⟨map', slot, hserves, halloc, hsettles⟩ := mpMapLookup_room h hroom elem.1
  obtain ⟨i, rfl, -, hset⟩ := hserves.store h elem.2
  have hkey : Dict.keyFor d elem.1 = elem.1 := by
    unfold Dict.keyFor
    rw [show d.lookup (O.toKey elem.1) = none from habs]
    rfl
  rw [hkey] at hset
  refine ⟨map'.setValue i elem.2, hset, ?_, hsettles.bind (Settles.of_eq fun _ => rfl)⟩
  rw [length_slots, length_slots]
  exact (length_modify ..).trans halloc

/-- **Rehashing** keeps the dictionary, in a table with room. -/
theorem mpMapRehash_settles (h : MapHolds O map d) :
    ∃ map', MapHolds O map' d ∧ d.keys.card < map'.slots.length ∧
      Settles
        (fun fuel => mpMapRehash (fun map' key => mpMapLookup O fuel map' key .addIfNotFound) map)
          map' := by
  refine rehash_settles addsIn_map (mapHolds_init _) h.stores ?_
  rw [length_slots, length_slots]
  refine Nat.lt_of_lt_of_le (Nat.lt_succ_self _) ((le_getHashAlloc _).trans_eq ?_)
  exact (length_replicate ..).symm

/-- **A call of `mp_map_lookup`**, whatever its kind. -/
theorem mpMapLookup_spec (h : MapHolds O map d) (index : K) (kind : LookupKind) :
    ∃ map' slot, Serves d index kind map' slot ∧
      Settles (fun fuel => mpMapLookup O fuel map index kind) (map', slot) := by
  by_cases hearly :
    (map.allKeysAreQstrs && !O.isQstr index && !O.isStr index && kind ≠ .addIfNotFound) = true
  · refine ⟨map, none, ?_, Settles.succ (Settles.of_eq fun fuel => ?_)⟩
    · simp only [Bool.and_eq_true, Bool.not_eq_true', decide_eq_true_eq] at hearly
      obtain ⟨⟨⟨hq, hqstr⟩, hstr⟩, hkind⟩ := hearly
      exact serves_absent h (absent_of_qstrs h hq hqstr hstr) hkind
    · rw [mpMapLookup, if_pos hearly]
  · obtain ⟨map', r, hmap', hdone, hsettles⟩ := Probe.run_settles (fun map' => MapHolds O map' d)
      (mapProbe_for h index kind) (fun _ h' => h'.stores) (fun _ h' => mpMapRehash_settles h') h
    refine ⟨r.1, r.2, (Serves.of_done hmap' hdone).1, Settles.succ ?_⟩
    simp only [mpMapLookup, if_neg hearly]
    exact hsettles

/-! ### Operations -/

/-- An operation on a dictionary: a call, or a call that adds and puts a value into the slot, as
`mp_obj_dict_store` does. -/
inductive MapOp (K V : Type) where
  | call (index : K) (kind : LookupKind)
  | store (index : K) (value : Option V)

/-- The operation on the table, with what the caller then finds in the slot. -/
def mapStep (O : Objects K T) (fuel : ℕ) (map : MpMap K V) :
    MapOp K V → Option (MpMap K V × Option (Option K × Option V))
  | .call index kind => (mpMapLookup O fuel map index kind).map fun r => (r.1, r.1.read r.2)
  | .store index value =>
    (mpMapLookup O fuel map index .addIfNotFound).bind fun r =>
      r.2.map fun slot => (r.1.setValue slot value, (r.1.setValue slot value).read (some slot))

/-- The operation on the dictionary. -/
def Dict.Step (d : Dict O V) : MapOp K V → Option (Option K × Option V) → Dict O V → Prop
  | .call index kind, answer, d' => answer = d.answer index kind ∧ d' = d.after index kind
  | .store index value, answer, d' =>
    answer = some (some (d.keyFor index), value) ∧
      d' = d.insert (O.toKey index) (d.keyFor index, value)

/-- **A step of a dictionary.** -/
theorem mapStep_spec (map : MpMap K V) (d : Dict O V) (op : MapOp K V) (h : MapHolds O map d) :
    ∃ map' answer d', MapHolds O map' d' ∧ d.Step op answer d' ∧
      Settles (fun fuel => mapStep O fuel map op) (map', answer) := by
  cases op with
  | call index kind =>
    obtain ⟨map', slot, hserves, hsettles⟩ := mpMapLookup_spec h index kind
    refine ⟨map', map'.read slot, _, hserves.holds, ⟨hserves.read_eq, rfl⟩, ?_⟩
    simp only [mapStep, map_eq_bind]
    exact hsettles.bind (Settles.of_eq fun _ => rfl)
  | store index value =>
    obtain ⟨map', slot, hserves, hsettles⟩ := mpMapLookup_spec h index .addIfNotFound
    obtain ⟨i, rfl, hread, hset⟩ := hserves.store h value
    exact ⟨map'.setValue i value, _, _, hset, ⟨rfl, rfl⟩,
      hsettles.bind (Settles.of_eq fun _ => by rw [map_some, hread])⟩

end Nespy.Py
