import Nespy.Py.Sets

/-!
# Py — a table that can not grow

The allocation of a larger table raises `MemoryError` in the middle of an insertion.  Here `alloc`
is a field of its own next to the tables of `Py.Map`, as in `py/map.c`, and the functions that grow
a table make their assignments one by one: an allocation that raises leaves what was assigned before
it.  With memory enough they do what `Py.Map` says (`mpMapRehash_eq`, `mpSetRehash_eq`).

`mp_map_rehash` allocates before it edits the map; an ordered map and a set have their new `alloc`
by then, with the old table (`failed_growth_iff`).
-/

namespace Nespy.Py

open Lib

/-- The tables that grow. -/
inductive TableKind where
  | hashed
  | ordered
  | set
  deriving DecidableEq

/-- `mp_map_t` or `mp_set_t`. -/
abbrev TableKind.Table (K V : Type) : TableKind → Type
  | .hashed | .ordered => MpMap K V
  | .set => MpSet K

/-- How many slots the table has. -/
def TableKind.size {K V : Type} : (kind : TableKind) → kind.Table K V → ℕ
  | .hashed, table | .ordered, table => MpMap.alloc table
  | .set, table => table.alloc

/-- Why a function does not return: it raises, or has not the fuel that those of `Py.Map` have. -/
inductive Stop where
  | memoryError
  | noFuel

/-- A table with its field `alloc`. -/
structure Raw (S : Type) where
  alloc : ℕ
  val : S

namespace Raw

variable {K T V S E R : Type} [DecidableEq K] (O : Objects K T) (memory fuel : ℕ)

/-- `m_new0`, when there is memory for so many slots. -/
def mNew0 (n : ℕ) (null : E) : EStateM Stop (Raw S) (List E) :=
  if n ≤ memory then pure (List.replicate n null) else throw .memoryError

/-- `m_renew`, with `mp_seq_clear` of what is new. -/
def mRenew (table : List E) (n : ℕ) (null : E) : EStateM Stop (Raw S) (List E) :=
  if n ≤ memory then pure (table ++ List.replicate (n - table.length) null) else throw .memoryError

/-- What allocates nothing is done by a function of `Py.Map`. -/
def settle (f : S → Option S) : EStateM Stop (Raw S) Unit := do
  let t ← get
  match f t.val with
  | some val => set { t with val }
  | none => throw .noFuel

/-- `mp_map_rehash` -/
def mpMapRehash (lookup : MpMap K V → K → Option (MpMap K V × Option ℕ)) :
    EStateM Stop (Raw (MpMap K V)) Unit := do
  let old ← get
  let newAlloc := getHashAllocGreaterOrEqualTo (old.alloc + 1)
  let newTable ← mNew0 memory newAlloc ⟨.empty, none⟩
  modify fun map => { map with alloc := newAlloc }
  modify fun map => { map with val.used := 0 }
  modify fun map => { map with val.allKeysAreQstrs := true }
  modify fun map => { map with val.table := newTable }
  settle (reinsert (fun map' elem => (lookup map' elem.1).bind fun result =>
      result.2.map fun slot => result.1.setValue slot elem.2) (old.val.slots.take old.alloc))

/-- The growth of an ordered map in `mp_map_lookup`. -/
def growOrdered : EStateM Stop (Raw (MpMap K V)) Unit := do
  modify fun map => { map with alloc := map.alloc + 4 }
  let map ← get
  let table ← mRenew memory map.val.table map.alloc ⟨.empty, none⟩
  modify fun map => { map with val.table := table }

/-- `mp_set_rehash` -/
def mpSetRehash (lookup : MpSet K → K → Option (MpSet K × Option K)) :
    EStateM Stop (Raw (MpSet K)) Unit := do
  let old ← get
  modify fun set => { set with alloc := getHashAllocGreaterOrEqualTo (set.alloc + 1) }
  modify fun set => { set with val.used := 0 }
  let table ← mNew0 memory (← get).alloc .empty
  modify fun set => { set with val.table := table }
  settle (reinsert (fun set' elem => (lookup set' elem).map Prod.fst)
    (old.val.table.take old.alloc))

/-- The search of an insertion.  It has at most as many turns as there are slots before it grows the
table; the table that was grown has room. -/
def search (P : Probe S E R) (grow : EStateM Stop (Raw S) Unit) (rehash : S → Option S) :
    EStateM Stop (Raw S) Unit := do
  let t ← get
  match P.run (fun _ => none) t.alloc t.val with
  | some r => set { t with val := r.1 }
  | none =>
    grow
    settle fun s => (P.run rehash fuel s).map Prod.fst

/-- An insertion into an ordered map. -/
def insertOrdered (compareOnlyPtrs : Bool) (index : K) : EStateM Stop (Raw (MpMap K V)) Unit := do
  let map ← get
  let found := (map.val.table.take map.val.used).any fun elem =>
    elem.key.live?.any fun key => key = index || !compareOnlyPtrs && O.equal key index
  if !found then
    if map.val.used = map.alloc then
      growOrdered memory
    modify fun map =>
      { map with
        val.table := map.val.table.modify map.val.used fun elem => { elem with key := .live index }
        val.used := map.val.used + 1
        val.allKeysAreQstrs := map.val.allKeysAreQstrs && O.isQstr index }

/-- A lookup of `index` with `MP_MAP_LOOKUP_ADD_IF_NOT_FOUND`. -/
def insert (index : K) : (kind : TableKind) → EStateM Stop (Raw (kind.Table K V)) Unit
  | .hashed => do
    let map ← get
    let compareOnlyPtrs := map.val.allKeysAreQstrs && (O.isQstr index || !O.isStr index)
    let lookup map' key := mpMapLookup O fuel map' key .addIfNotFound
    search fuel (mapProbe O compareOnlyPtrs index .addIfNotFound) (mpMapRehash memory lookup)
      (Py.mpMapRehash lookup)
  | .ordered => do
    let map ← get
    insertOrdered O memory (map.val.allKeysAreQstrs && (O.isQstr index || !O.isStr index)) index
  | .set => do
    let lookup set' key := mpSetLookup O fuel set' key .addIfNotFound
    search fuel (setProbe O index .addIfNotFound) (mpSetRehash memory lookup)
      (Py.mpSetRehash lookup)

/-! ### The assignments -/

section

variable {memory} {A : Type} (t : Raw S) {t' : Raw S}

theorem get_bind (f : Raw S → EStateM Stop (Raw S) A) : (get >>= f) t = f t t := rfl

theorem modify_bind (g : Raw S → Raw S) (f : PUnit → EStateM Stop (Raw S) A) :
    (modify g >>= f) t = f () (g t) := rfl

theorem mNew0_bind (n : ℕ) (null : E) (f : List E → EStateM Stop (Raw S) A) :
    (mNew0 memory n null >>= f) t =
      if n ≤ memory then f (List.replicate n null) t else .error .memoryError t := by
  rw [mNew0]
  split_ifs <;> rfl

theorem mRenew_bind (table : List E) (n : ℕ) (null : E) (f : List E → EStateM Stop (Raw S) A) :
    (mRenew memory table n null >>= f) t =
      if n ≤ memory then f (table ++ List.replicate (n - table.length) null) t
      else .error .memoryError t := by
  rw [mRenew]
  split_ifs <;> rfl

variable {t} {x : EStateM Stop (Raw S) PUnit} {f : PUnit → EStateM Stop (Raw S) A}

theorem bind_ok {u : PUnit} (h : x t = .ok u t') : (x >>= f) t = f u t' := by
  simp only [bind, EStateM.bind, h]

theorem bind_error {e : Stop} (h : x t = .error e t') : (x >>= f) t = .error e t' := by
  simp only [bind, EStateM.bind, h]

theorem settle_some {f : S → Option S} {val : S} (h : f t.val = some val) :
    settle f t = .ok () ⟨t.alloc, val⟩ := by
  rw [settle, get_bind, h]
  rfl

theorem settle_ne (f : S → Option S) : settle f t ≠ .error .memoryError t' := by
  rw [settle, get_bind]
  cases f t.val <;> rintro ⟨⟩

end

section

variable {memory} (t : Raw (MpMap K V)) (u : Raw (MpSet K))

omit [DecidableEq K]

theorem mpMapRehash_run (lookup : MpMap K V → K → Option (MpMap K V × Option ℕ)) :
    mpMapRehash memory lookup t = if getHashAllocGreaterOrEqualTo (t.alloc + 1) ≤ memory then
      settle (reinsert (fun map' elem => (lookup map' elem.1).bind fun result =>
        result.2.map fun slot => result.1.setValue slot elem.2) (t.val.slots.take t.alloc))
        ⟨getHashAllocGreaterOrEqualTo (t.alloc + 1),
          mpMapInit (getHashAllocGreaterOrEqualTo (t.alloc + 1))⟩
      else .error .memoryError t := by
  rw [mpMapRehash, get_bind, mNew0_bind]
  simp only [modify_bind]
  rfl

theorem growOrdered_run : growOrdered memory t = if t.alloc + 4 ≤ memory then
      .ok () ⟨t.alloc + 4, { t.val with
        table := t.val.table ++ List.replicate (t.alloc + 4 - t.val.table.length) ⟨.empty, none⟩ }⟩
      else .error .memoryError { t with alloc := t.alloc + 4 } := by
  rw [growOrdered, modify_bind, get_bind, mRenew_bind]
  rfl

theorem mpSetRehash_run (lookup : MpSet K → K → Option (MpSet K × Option K)) :
    mpSetRehash memory lookup u = if getHashAllocGreaterOrEqualTo (u.alloc + 1) ≤ memory then
      settle (reinsert (fun set' elem => (lookup set' elem).map Prod.fst)
        (u.val.table.take u.alloc))
        ⟨getHashAllocGreaterOrEqualTo (u.alloc + 1),
          mpSetInit (getHashAllocGreaterOrEqualTo (u.alloc + 1))⟩
      else .error .memoryError ⟨getHashAllocGreaterOrEqualTo (u.alloc + 1),
        { u.val with used := 0 }⟩ := by
  rw [mpSetRehash, get_bind, modify_bind, modify_bind, get_bind, mNew0_bind]
  simp only [modify_bind]
  rfl

end

/-! ### With memory enough -/

section

variable {memory} {map map' : MpMap K V} {set set' : MpSet K}

omit [DecidableEq K]

/-- With memory enough it is the rehash of a map. -/
theorem mpMapRehash_eq {lookup : MpMap K V → K → Option (MpMap K V × Option ℕ)}
    (hmem : getHashAllocGreaterOrEqualTo (map.alloc + 1) ≤ memory)
    (h : Py.mpMapRehash lookup map = some map') :
    mpMapRehash memory lookup ⟨map.alloc, map⟩ =
      .ok () ⟨getHashAllocGreaterOrEqualTo (map.alloc + 1), map'⟩ := by
  have hslots : map.slots.take map.alloc = map.slots := List.take_of_length_le (length_slots map).le
  rw [mpMapRehash_run, if_pos hmem, hslots]
  exact settle_some h

/-- With memory enough it is the rehash of a set. -/
theorem mpSetRehash_eq {lookup : MpSet K → K → Option (MpSet K × Option K)}
    (hmem : getHashAllocGreaterOrEqualTo (set.alloc + 1) ≤ memory)
    (h : Py.mpSetRehash lookup set = some set') :
    mpSetRehash memory lookup ⟨set.alloc, set⟩ =
      .ok () ⟨getHashAllocGreaterOrEqualTo (set.alloc + 1), set'⟩ := by
  have hslots : set.table.take set.alloc = set.table := List.take_of_length_le le_rfl
  rw [mpSetRehash_run, if_pos hmem, hslots]
  exact settle_some h

end

/-! ### Without -/

/-- The table as `MemoryError` leaves it. -/
def raised : (kind : TableKind) → Raw (kind.Table K V) → Raw (kind.Table K V)
  | .hashed, t => t
  | .ordered, t => { t with alloc := t.alloc + 4 }
  | .set, t => ⟨getHashAllocGreaterOrEqualTo (t.alloc + 1), { t.val with used := 0 }⟩

variable {O memory fuel} {index : K}

/-- A search raises what the growth raises. -/
theorem search_error {P : Probe S E R} {grow : EStateM Stop (Raw S) Unit} {rehash : S → Option S}
    {t t' : Raw S} (h : search fuel P grow rehash t = .error .memoryError t') :
    grow t = .error .memoryError t' := by
  rw [search, get_bind] at h
  cases hrun : P.run (fun _ => none) t.alloc t.val with
  | some r =>
    rw [hrun] at h
    cases h
  | none =>
    rw [hrun] at h
    cases hgrow : grow t with
    | ok u t₁ =>
      exact absurd ((bind_ok hgrow).symm.trans h) (settle_ne _)
    | error e t₁ => exact (bind_error hgrow).symm.trans h

theorem insertOrdered_error {compareOnlyPtrs : Bool} {t t' : Raw (MpMap K V)}
    (h : insertOrdered O memory compareOnlyPtrs index t = .error .memoryError t') :
    growOrdered memory t = .error .memoryError t' := by
  rw [insertOrdered, get_bind] at h
  dsimp only at h
  split_ifs at h
  · cases hgrow : growOrdered memory t with
    | ok u t₁ => cases (bind_ok hgrow).symm.trans h
    | error e t₁ => exact (bind_error hgrow).symm.trans h
  · cases h
  · cases h

variable {kind : TableKind} {t t' : Raw (kind.Table K V)}

omit [DecidableEq K] in
theorem alloc_raised_iff : (raised kind t).alloc = t.alloc ↔ kind = .hashed := by
  cases kind with
  | hashed => exact iff_of_true rfl rfl
  | ordered => exact iff_of_false (Nat.lt_add_of_pos_right (by decide)).ne' (by decide)
  | set => exact iff_of_false (Nat.lt_of_succ_le (le_getHashAlloc _)).ne' (by decide)

/-- What a growth that raises has assigned. -/
theorem eq_raised (h : insert O memory fuel index kind t = .error .memoryError t') :
    t' = raised kind t := by
  cases kind with
  | hashed =>
    have hgrow := search_error h
    rw [mpMapRehash_run] at hgrow
    split_ifs at hgrow
    · exact absurd hgrow (settle_ne _)
    · cases hgrow
      rfl
  | ordered =>
    have hgrow := insertOrdered_error h
    rw [growOrdered_run] at hgrow
    split_ifs at hgrow
    cases hgrow
    rfl
  | set =>
    have hgrow := search_error h
    rw [mpSetRehash_run] at hgrow
    split_ifs at hgrow
    · exact absurd hgrow (settle_ne _)
    · cases hgrow
      rfl

/-- **A growth that fails** leaves the table as it was, and `alloc` the number of its slots, just
when it is a hashed map. -/
theorem failed_growth_iff (halloc : t.alloc = kind.size t.val)
    (h : insert O memory fuel index kind t = .error .memoryError t') :
    (t' = t ↔ kind = .hashed) ∧ (t'.alloc = kind.size t'.val ↔ kind = .hashed) := by
  obtain rfl := eq_raised h
  have hsize : kind.size (raised kind t).val = kind.size t.val := by cases kind <;> rfl
  constructor
  · constructor
    · intro he
      exact alloc_raised_iff.mp (congrArg alloc he)
    · rintro rfl
      rfl
  · rw [hsize, ← halloc]
    exact alloc_raised_iff

/-- A map and a set of two slots, both taken. -/
def fullMap : MpMap (Bool × ℕ) Unit := ⟨[⟨.live (true, 2), none⟩, ⟨.live (true, 4), none⟩], 2, true⟩

/-- The same as a set. -/
def fullSet : MpSet (Bool × ℕ) := ⟨[.live (true, 2), .live (true, 4)], 2⟩

theorem failed_growth_iff_hashed : ∃ t' : Raw (MpMap (Bool × ℕ) Unit),
    2 = TableKind.hashed.size fullMap ∧
    insert fewHashes 3 9 (true, 6) .hashed ⟨2, fullMap⟩ = .error .memoryError t' ∧
      t' = ⟨2, fullMap⟩ := by
  have h : insert fewHashes 3 9 (true, 6) .hashed ⟨2, fullMap⟩ = .error .memoryError ⟨2, fullMap⟩ :=
    rfl
  exact ⟨_, rfl, h, (failed_growth_iff rfl h).1.mpr rfl⟩

/-- A third key for an ordered map and for a set, with memory for three slots. -/
theorem failed_growth_full : ∃ (t₁ : Raw (MpMap (Bool × ℕ) Unit)) (t₂ : Raw (MpSet (Bool × ℕ))),
    insert (V := Unit) fewHashes 3 9 (true, 6) .ordered ⟨2, fullMap⟩ = .error .memoryError t₁ ∧
      insert (V := Unit) fewHashes 3 9 (true, 6) .set ⟨2, fullSet⟩ = .error .memoryError t₂ ∧
      t₁.val.table.length < t₁.alloc ∧ t₂.val.table.length < t₂.alloc ∧ t₂.val.used = 0 :=
  ⟨_, _, rfl, rfl, by decide, by decide, rfl⟩

end Raw

end Nespy.Py
