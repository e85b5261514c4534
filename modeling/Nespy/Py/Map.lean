import Nespy.Lib.HashTable

/-!
# Py — dictionaries and sets

The hash tables of `py/map.c` that are neither fixed nor ordered.  The search is the same for
dictionaries and sets (`Lib.Probe`); what they do with its result, and how they compare, is given
here for each.

`mp_map_lookup` and `mp_map_rehash` call each other, and the search in `mp_map_lookup` starts again
after a rehash. So the functions have fuel, for the depth of the calls and for the turns of the
search, and `none` says that it did not suffice.  Allocation never fails.

Objects are what the tables ask about them: whether they are interned, their hash, whether two are
equal.  The identity of an object is the equality of the type `K`.
-/

namespace Nespy.Py

open Lib

/-- The objects that can be keys. -/
structure Objects (K T : Type) where
  /-- `MP_OBJ_IS_QSTR` -/
  isQstr : K → Bool
  /-- `MP_OBJ_IS_TYPE(o, &mp_type_str)`, for strings that are not interned -/
  isStr : K → Bool
  /-- the text of a string -/
  text : K → T
  /-- `mp_obj_equal` -/
  equal : K → K → Bool
  /-- `qstr_hash` -/
  qstrHash : K → ℕ
  /-- `MP_UNARY_OP_HASH` -/
  unaryHash : K → ℕ
  equal_refl : ∀ a, equal a a = true
  equal_symm : ∀ a b, equal a b = true → equal b a = true
  equal_trans : ∀ a b c, equal a b = true → equal b c = true → equal a c = true
  unaryHash_eq : ∀ a b, equal a b = true → unaryHash a = unaryHash b
  hash_eq : ∀ a b, equal a b = true →
    (if isQstr a then qstrHash a else unaryHash a) = if isQstr b then qstrHash b else unaryHash b
  equal_qstr : ∀ a b, isQstr a = true → equal a b = true →
    (isQstr b || isStr b) = true ∧ text a = text b
  interned : ∀ a b, isQstr a = true → isQstr b = true → text a = text b → a = b

/-- The hash that `mp_map_lookup` takes, with its fast path for interned strings. -/
def Objects.hash {K T : Type} (O : Objects K T) (index : K) : ℕ :=
  if O.isQstr index then O.qstrHash index else O.unaryHash index

/-- `mp_map_lookup_kind_t`. -/
inductive LookupKind where
  | lookup
  | addIfNotFound
  | removeIfFound
  | addIfNotFoundOrRemoveIfFound
  deriving DecidableEq

/-- `lookup_kind & MP_MAP_LOOKUP_ADD_IF_NOT_FOUND`. -/
def LookupKind.adds : LookupKind → Bool
  | addIfNotFound | addIfNotFoundOrRemoveIfFound => true
  | _ => false

/-- `lookup_kind & MP_MAP_LOOKUP_REMOVE_IF_FOUND`. -/
def LookupKind.removes : LookupKind → Bool
  | removeIfFound | addIfNotFoundOrRemoveIfFound => true
  | _ => false

/-- `hash_allocation_sizes`. -/
def hashAllocationSizes : List ℕ :=
  [0, 2, 4, 6, 8, 10, 12,
    17, 23, 29, 37, 47, 59, 73,
    97, 127, 167, 223, 293, 389, 521, 691, 919, 1223, 1627, 2161,
    3229, 4831, 7243, 10861, 16273, 24407, 36607, 54907]

/-- The next size of a table, which over the last is half as much again. -/
def getHashAllocGreaterOrEqualTo (x : ℕ) : ℕ :=
  match hashAllocationSizes.find? fun size => x ≤ size with
  | some size => size
  | none => (x + x / 2) ||| 1

theorem le_getHashAlloc (x : ℕ) : x ≤ getHashAllocGreaterOrEqualTo x := by
  unfold getHashAllocGreaterOrEqualTo
  split
  · rename_i size hsize
    simpa using List.find?_some hsize
  · exact le_trans (Nat.le_add_right x _) Nat.left_le_or

variable {K T V : Type} [DecidableEq K]

/-! ### Maps -/

/-- `mp_map_elem_t`; a key that is `MP_OBJ_NULL` or `MP_OBJ_SENTINEL` is an empty or a deleted slot,
and a value that is `MP_OBJ_NULL` is `none`. -/
structure MapElem (K V : Type) where
  key : Slot K
  value : Option V

/-- `mp_map_t` -/
structure MpMap (K V : Type) where
  table : List (MapElem K V)
  used : ℕ
  allKeysAreQstrs : Bool

/-- The slot of an element, with key and value. -/
def MapElem.slot (elem : MapElem K V) : Slot (K × Option V) :=
  match elem.key with
  | .empty => .empty
  | .deleted => .deleted
  | .live key => .live (key, elem.value)

namespace MpMap

variable (map : MpMap K V)

/-- The slots of the table. -/
def alloc : ℕ := map.table.length

/-- The table, as slots with their entries. -/
def slots : List (Slot (K × Option V)) := map.table.map MapElem.slot

/-- The slot is given to `index`. -/
def add (O : Objects K T) (map : MpMap K V) (slot : ℕ) (index : K) : MpMap K V where
  table := map.table.set slot ⟨.live index, none⟩
  used := map.used + 1
  allKeysAreQstrs := map.allKeysAreQstrs && O.isQstr index

/-- `slot->value = value` -/
def setValue (slot : ℕ) (value : Option V) : MpMap K V :=
  { map with table := map.table.modify slot fun elem => { elem with value } }

/-- The element at `pos` is deleted; it keeps its value, so that the caller can access it. -/
def delete (pos : ℕ) : MpMap K V :=
  let next := map.table[(pos + 1) % map.alloc]?.map MapElem.key
  { map with
    table := map.table.modify pos fun elem =>
      { elem with key := if next = some .empty then .empty else .deleted }
    used := map.used - 1 }

end MpMap

/-- An empty map with `n` slots. -/
def mpMapInit (n : ℕ) : MpMap K V where
  table := List.replicate n ⟨.empty, none⟩
  used := 0
  allKeysAreQstrs := true

/-- `mp_map_rehash`; `lookup` is `mp_map_lookup` with `MP_MAP_LOOKUP_ADD_IF_NOT_FOUND`. -/
def mpMapRehash (lookup : MpMap K V → K → Option (MpMap K V × Option ℕ)) (map : MpMap K V) :
    Option (MpMap K V) :=
  reinsert
    (fun map' elem => (lookup map' elem.1).bind fun result =>
      result.2.map fun slot => result.1.setValue slot elem.2)
    map.slots (mpMapInit (getHashAllocGreaterOrEqualTo (map.alloc + 1)))

/-- The search of `mp_map_lookup`; the slot that it returns is a position in the table, and `none`
is `NULL`. -/
def mapProbe (O : Objects K T) (compareOnlyPtrs : Bool) (index : K) (kind : LookupKind) :
    Probe (MpMap K V) (K × Option V) (Option ℕ) where
  slots := MpMap.slots
  hash := O.hash index
  hits elem := elem.1 = index || !compareOnlyPtrs && O.equal elem.1 index
  hit map pos _ := if kind = .removeIfFound then (map.delete pos, some pos) else (map, some pos)
  adds := kind = .addIfNotFound
  fill map slot := (map.add O slot index, some slot)
  absent := none

/-- `mp_map_lookup`; the fuel is for the lookups inside of a rehash. -/
def mpMapLookup (O : Objects K T) :
    ℕ → MpMap K V → (index : K) → LookupKind → Option (MpMap K V × Option ℕ)
  | 0, _, _, _ => none
  | fuel + 1, map, index, kind =>
    if map.allKeysAreQstrs && !O.isQstr index && !O.isStr index && kind ≠ .addIfNotFound then
      -- the index can not be among interned strings
      some (map, none)
    else
      let compareOnlyPtrs := map.allKeysAreQstrs && (O.isQstr index || !O.isStr index)
      (mapProbe O compareOnlyPtrs index kind).run
        (mpMapRehash fun map' key => mpMapLookup O fuel map' key .addIfNotFound) fuel map

/-! ### Sets -/

/-- `mp_set_t` -/
structure MpSet (K : Type) where
  table : List (Slot K)
  used : ℕ

namespace MpSet

variable (set : MpSet K)

/-- The slots of the table. -/
def alloc : ℕ := set.table.length

/-- The slot takes the key. -/
def add (slot : ℕ) (index : K) : MpSet K where
  table := set.table.set slot (.live index)
  used := set.used + 1

/-- The slot is empty again, or deleted if the one behind it is not empty. -/
def delete (pos : ℕ) : MpSet K where
  table := set.table.set pos (if set.table[(pos + 1) % set.alloc]? = some .empty then .empty
    else .deleted)
  used := set.used - 1

end MpSet

/-- An empty set with `n` slots. -/
def mpSetInit (n : ℕ) : MpSet K where
  table := List.replicate n .empty
  used := 0

/-- `mp_set_rehash`; `lookup` is `mp_set_lookup` with `MP_MAP_LOOKUP_ADD_IF_NOT_FOUND`. -/
def mpSetRehash (lookup : MpSet K → K → Option (MpSet K × Option K)) (set : MpSet K) :
    Option (MpSet K) :=
  reinsert (fun set' elem => (lookup set' elem).map Prod.fst) set.table
    (mpSetInit (getHashAllocGreaterOrEqualTo (set.alloc + 1)))

/-- The search of `mp_set_lookup`; the object that it returns is `none` for `MP_OBJ_NULL`. -/
def setProbe (O : Objects K T) (index : K) (kind : LookupKind) : Probe (MpSet K) K (Option K) where
  slots := MpSet.table
  hash := O.unaryHash index
  hits elem := O.equal elem index
  hit set pos elem := if kind.removes then (set.delete pos, some elem) else (set, some elem)
  adds := kind.adds
  fill set slot := (set.add slot index, some index)
  absent := none

/-- `mp_set_lookup`; the fuel is for the lookups inside of a rehash. -/
def mpSetLookup (O : Objects K T) :
    ℕ → MpSet K → (index : K) → LookupKind → Option (MpSet K × Option K)
  | 0, _, _, _ => none
  | fuel + 1, set, index, kind =>
    (setProbe O index kind).run
      (mpSetRehash fun set' elem => mpSetLookup O fuel set' elem .addIfNotFound) fuel set

/-- The loop of `mp_set_remove_first` from `pos` on, over what is left of the table. -/
def removeFirstFrom (set : MpSet K) : List (Slot K) → (pos : ℕ) → MpSet K × Option K
  | [], _ => (set, none)
  | .live elem :: _, pos => (set.delete pos, some elem)
  | _ :: rest, pos => removeFirstFrom set rest (pos + 1)

/-- The first element that is found is removed. -/
def mpSetRemoveFirst (set : MpSet K) : MpSet K × Option K := removeFirstFrom set set.table 0

end Nespy.Py
