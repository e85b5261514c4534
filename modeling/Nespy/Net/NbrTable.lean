import Nespy.Sicslowpan.Address
import Nespy.Sys.Containers

/-!
# Net — the neighbour table

`net/nbr-table.c`.  A neighbour is a key, a block of `neighbor_addr_mem` that is on
`nbr_table_keys`; its index is the place of its item in the data array of every table.  An item is
its index here, and its data belongs to the program that has the table.  For each neighbour a byte
says which tables use it and another which tables lock it.

When there is no block left, `nbr_table_add_lladdr` evicts a neighbour, and calls the callbacks of
the tables that use it while it does so.  A callback may do anything with the state of the program
that the tables are part of, which is a `Host` here.
-/

open Function

namespace Nespy.Net

open Nespy.Sys
open Nespy.Sicslowpan (Linkaddr linkaddrNull)

/-- `NBR_TABLE_MAX_NEIGHBORS`. -/
def nbrTableMaxNeighbors : ℕ := 16

/-- A bitmap has a bit for each table. -/
def maxNumTables : ℕ := 8

instance : NeZero nbrTableMaxNeighbors := ⟨by decide⟩
instance : NeZero maxNumTables := ⟨by decide⟩

/-- The place of a neighbour, the same in all tables. -/
abbrev NbrIndex := Fin nbrTableMaxNeighbors

/-- `nbr_table_t`, without its data; the callback is null or not. -/
structure NbrTable where
  index : Fin maxNumTables
  callback : Bool
  deriving DecidableEq, Repr

/-- The variables of the module, for tables `T`. -/
structure NbrTables (T : Type) where
  usedMap : NbrIndex → BitVec 8
  lockedMap : NbrIndex → BitVec 8
  allTables : Fin maxNumTables → Option T
  numTables : ℕ
  table : T → NbrTable
  count : Memb nbrTableMaxNeighbors
  lladdr : NbrIndex → Linkaddr
  keys : List NbrIndex

/-! ### Bitmaps -/

/-- `(bitmap & (1 << index)) != 0`. -/
def getBit (bitmap : BitVec 8) (index : Fin maxNumTables) : Bool :=
  bitmap &&& (1#8 <<< index.val) != 0

/-- `bitmap |= 1 << index` or `bitmap &= ~(1 << index)`. -/
def setBit (bitmap : BitVec 8) (index : Fin maxNumTables) (value : Bool) : BitVec 8 :=
  if value then bitmap ||| (1#8 <<< index.val) else bitmap &&& ~~~(1#8 <<< index.val)

section

variable (j : Fin maxNumTables) (m : BitVec 8) (i : Fin maxNumTables)

theorem getLsbD_one_shiftLeft : (1#8 <<< i.val).getLsbD j.val = decide (j = i) := by
  have hi : i.val < 8 := i.isLt
  rw [← BitVec.twoPow_eq, BitVec.getLsbD_twoPow, decide_eq_true hi, Bool.true_and]
  exact decide_eq_decide.mpr (Fin.ext_iff.symm.trans eq_comm)

theorem getBit_eq_getLsbD : getBit m i = m.getLsbD i := by
  have hne : BitVec.twoPow 8 i.val ≠ 0#8 := by
    intro h
    have hi := getLsbD_one_shiftLeft i i
    rw [← BitVec.twoPow_eq, h, BitVec.getLsbD_zero, decide_eq_true rfl] at hi
    cases hi
  rw [getBit, ← BitVec.twoPow_eq, BitVec.and_twoPow]
  cases m.getLsbD i.val with
  | true => exact bne_iff_ne.mpr hne
  | false => rfl

@[simp] theorem getBit_zero : getBit 0#8 i = false := by
  rw [getBit_eq_getLsbD]
  simp

/-- A bit that is set or cleared is read back, and no other changes. -/
@[simp] theorem getBit_setBit (value : Bool) :
    getBit (setBit m i value) j = if j = i then value else getBit m j := by
  have hj : j.val < 8 := j.isLt
  rw [getBit_eq_getLsbD, getBit_eq_getLsbD, setBit]
  cases value
  · rw [if_neg Bool.false_ne_true, BitVec.getLsbD_and, BitVec.getLsbD_not, getLsbD_one_shiftLeft]
    by_cases hji : j = i <;> simp [hji, hj]
  · rw [if_pos rfl, BitVec.getLsbD_or, getLsbD_one_shiftLeft]
    by_cases hji : j = i <;> simp [hji]

end

/-- How many tables use a neighbour; `used` is shifted until it is zero. -/
def countUsed (used : ℕ) : ℕ := if used = 0 then 0 else used % 2 + countUsed (used / 2)

namespace NbrTables

variable {T : Type} [DecidableEq T] (s : NbrTables T)

/-- `index_from_lladdr`; the null pointer stands for the null address. -/
def indexFromLladdr (lladdr : Option Linkaddr) : Option NbrIndex :=
  s.keys.find? fun k => s.lladdr k = lladdr.getD linkaddrNull

variable (t : T)

/-- `nbr_get_bit` of `used_map`. -/
def used (item : NbrIndex) : Bool := getBit (s.usedMap item) (s.table t).index

/-- `nbr_get_bit` of `locked_map`. -/
def locked (item : NbrIndex) : Bool := getBit (s.lockedMap item) (s.table t).index

/-- Writing the bit that says that the table has the neighbour. -/
def setUsed (item : NbrIndex) (value : Bool) : NbrTables T :=
  { s with usedMap := update s.usedMap item (setBit (s.usedMap item) (s.table t).index value) }

/-- Writing the bit that says that the neighbour must stay. -/
def setLocked (item : NbrIndex) (value : Bool) : NbrTables T :=
  { s with lockedMap := update s.lockedMap item (setBit (s.lockedMap item)
    (s.table t).index value) }

/-! ### Tables -/

/-- The table has a bit of its own. -/
def nbrTableIsRegistered : Bool := s.allTables (s.table t).index == some t

/-- A table gets the next bit, if there is one. -/
def nbrTableRegister (callback : Bool) : NbrTables T × Bool :=
  if s.nbrTableIsRegistered t then
    ({ s with table := update s.table t { s.table t with callback } }, true)
  else if h : s.numTables < maxNumTables then
    ({ s with
        numTables := s.numTables + 1
        table := update s.table t ⟨⟨s.numTables, h⟩, callback⟩
        allTables := update s.allTables ⟨s.numTables, h⟩ (some t) }, true)
  else (s, false)

/-- The item of the neighbour with this address. -/
def nbrTableGetFromLladdr (lladdr : Option Linkaddr) : Option NbrIndex :=
  (s.indexFromLladdr lladdr).filter (s.used t)

/-- The table gives the neighbour up. -/
@[simp] def nbrTableRemove (item : NbrIndex) : NbrTables T :=
  (s.setUsed t item false).setLocked t item false

/-- The neighbour must stay. -/
def nbrTableLock (item : NbrIndex) : NbrTables T := s.setLocked t item true

/-- The neighbour may go. -/
def nbrTableUnlock (item : NbrIndex) : NbrTables T := s.setLocked t item false

/-- `nbr_table_next`: the first key behind that of the item that the table uses. -/
def nbrTableNext (item : Option NbrIndex) : Option NbrIndex :=
  item.bind fun k => ((s.keys.dropWhile (· ≠ k)).drop 1).find? (s.used t)

/-- The first item of the table. -/
def nbrTableHead : Option NbrIndex :=
  match s.keys.head? with
  | some k => if s.used t k then some k else s.nbrTableNext t (some k)
  | none => s.nbrTableNext t none

/-! ### Allocation -/

/-- The search for the neighbour to evict: not locked, used by fewest tables, oldest.  `best` is the
one found so far with the number of its tables. -/
def findLeastUsed (best : Option (NbrIndex × ℕ)) : List NbrIndex → Option NbrIndex
  | [] => best.map Prod.fst
  | k :: keys =>
    if s.lockedMap k ≠ 0 then findLeastUsed best keys
    else
      let usedCount := countUsed (s.usedMap k).toNat
      if best.all fun b => usedCount < b.2 then
        if usedCount = 0 then some k else findLeastUsed (some (k, usedCount)) keys
      else findLeastUsed best keys

/-- The neighbour that makes room for another.  `policy` is what `NBR_TABLE_FIND_REMOVABLE` returns,
where there is such a function; the neighbour it names may be locked. -/
def leastUsedKey (policy : Option (Option Linkaddr)) : Option NbrIndex :=
  match policy with
  | none => s.findLeastUsed none s.keys
  | some none => none
  | some (some lladdr) =>
    match s.indexFromLladdr (some lladdr) with
    | some k => some k
    | none => s.findLeastUsed none s.keys

/-- The last part of `remove_key`. -/
@[simp] def dropKey (k : NbrIndex) : NbrTables T :=
  { s with usedMap := update s.usedMap k 0, keys := listRemove s.keys k }

/-- The key of a new neighbour. -/
def addKey (k : NbrIndex) (lladdr : Linkaddr) : NbrTables T :=
  { s with keys := listAdd s.keys k, lladdr := update s.lladdr k lladdr }

/-- Before any call. -/
def initial (T : Type) : NbrTables T where
  usedMap _ := 0
  lockedMap _ := 0
  allTables _ := none
  numTables := 0
  table _ := ⟨0, false⟩
  count _ := 0
  lladdr _ := linkaddrNull
  keys := []

end NbrTables

/-- A program with neighbour tables: where they are in its state, what its callbacks do, and what it
keeps of an eviction. -/
structure Host (T S : Type) where
  get : S → NbrTables T
  set : S → NbrTables T → S
  callback : S → T → NbrIndex → S
  evicted : S → NbrIndex → S

namespace Host

variable {T S : Type} [DecidableEq T] (h : Host T S)

/-- One turn of the loop of `remove_key`. -/
def callCallback (k : NbrIndex) (s : S) (i : Fin maxNumTables) : S :=
  match (h.get s).allTables i with
  | some t => if ((h.get s).table t).callback ∧ (h.get s).used t k then h.callback s t k else s
  | none => s

/-- A neighbour goes: its tables are told, and then its bits are cleared. -/
def removeKey (s : S) (k : NbrIndex) : S :=
  let s := (List.finRange maxNumTables).foldl (h.callCallback k) s
  h.evicted (h.set s ((h.get s).dropKey k)) k

variable (policy : Option (Option Linkaddr))

/-- `nbr_table_allocate`.  A neighbour that the policy names is unlocked; one that the search finds
was not locked. -/
def nbrTableAllocate (s : S) : S × Option NbrIndex :=
  match membAlloc (h.get s).count with
  | some (k, count) => (h.set s { h.get s with count }, some k)
  | none =>
    match (h.get s).leastUsedKey policy with
    | none => (s, none)
    | some k =>
      let s := h.set s { h.get s with lockedMap := update (h.get s).lockedMap k 0 }
      (h.removeKey s k, some k)

/-- The item of a neighbour, for which another may have to go. -/
def nbrTableAddLladdr (t : T) (lladdr : Option Linkaddr) (s : S) :
    S × Option NbrIndex :=
  match (h.get s).indexFromLladdr lladdr with
  | some k => (h.set s ((h.get s).setUsed t k true), some k)
  | none =>
    match h.nbrTableAllocate policy s with
    | (s, none) => (s, none)
    | (s, some k) =>
      (h.set s (((h.get s).addKey k (lladdr.getD linkaddrNull)).setUsed t k true), some k)

end Host

end Nespy.Net
