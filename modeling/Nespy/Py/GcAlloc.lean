import Mathlib.Tactic.Ring
import Nespy.Py.Gc

/-!
# Py — allocation

A model of `gc_init`, `gc_alloc`, `gc_free`, `gc_nbytes` and `gc_realloc` of `py/gc.c`, with a
finaliser table. `gc_free`, `gc_nbytes` and `gc_realloc` also give the entries of the allocation
table that they read or change, as the indices of the blocks.  A failed `assert` gives `none`.
-/

namespace Nespy.Py.Gc

open Nespy.Lib

/-- `memset` with zero. -/
def Heap.clear (h : Heap) (a n : ℕ) : Heap :=
  { h with mem := fun x => if a ≤ x ∧ x < a + n then 0 else h.mem x }

/-- `memcpy`. -/
def Heap.copy (h : Heap) (dst src n : ℕ) : Heap :=
  { h with mem := fun x => if dst ≤ x ∧ x < dst + n then h.mem (src + (x - dst)) else h.mem x }

/-- `gc_last_free_atb_index` when `block` becomes free. -/
def Heap.noteFree (h : Heap) (block : ℕ) : Heap :=
  if block / 4 < h.gcLastFreeAtbIndex then { h with gcLastFreeAtbIndex := block / 4 } else h

namespace Layout

/-! ### The tables -/

/-- `gc_alloc_table_byte_len` for a heap of so many bytes; the product is a `size_t`. -/
def tableByteLen (w totalByteLen : ℕ) : ℕ :=
  totalByteLen * 8 % 2 ^ (8 * w) / (8 + 8 * 4 / 8 + 8 * 4 * (4 * w))

theorem tables_fit (w totalByteLen : ℕ) :
    tableByteLen w totalByteLen + (tableByteLen w totalByteLen * 4 + 7) / 8 +
      tableByteLen w totalByteLen * 4 * (4 * w) ≤ totalByteLen := by
  generalize hn : tableByteLen w totalByteLen = n
  have hmod : totalByteLen * 8 % 2 ^ (8 * w) ≤ totalByteLen * 8 := Nat.mod_le _ _
  have hdiv : n * (12 + 128 * w) ≤ totalByteLen * 8 % 2 ^ (8 * w) := by
    rw [← hn, tableByteLen]
    have h := Nat.div_mul_le_self (totalByteLen * 8 % 2 ^ (8 * w)) (8 + 8 * 4 / 8 + 8 * 4 * (4 * w))
    have heq : 8 + 8 * 4 / 8 + 8 * 4 * (4 * w) = 12 + 128 * w := by omega
    rwa [heq] at h ⊢
  have hexp : n * (12 + 128 * w) = 12 * n + 128 * (n * w) := by ring
  have hpool : n * 4 * (4 * w) = 16 * (n * w) := by ring
  omega

/-- The layout that `gc_init` computes, with a finaliser table; `stop` is the end of the memory. -/
def init (w stackSize start stop : ℕ) (hw : 0 < w) (hstop : start ≤ stop - stop % (4 * w)) :
    Layout where
  bytesPerWord := w
  allocGcStackSize := stackSize
  gcAllocTableStart := start
  gcAllocTableByteLen := tableByteLen w (stop - stop % (4 * w) - start)
  gcFinaliserTableStart := some (start + tableByteLen w (stop - stop % (4 * w) - start))
  gcPoolStart := stop - stop % (4 * w) - tableByteLen w
    (stop - stop % (4 * w) - start) * 4 * (4 * w)
  gcPoolEnd := stop - stop % (4 * w)
  bytesPerWord_pos := hw
  table_le := by
    have hfit := tables_fit w (stop - stop % (4 * w) - start)
    omega
  finaliser_le := by
    intro f hf
    cases hf
    have hfit := tables_fit w (stop - stop % (4 * w) - start)
    exact ⟨rfl, by omega⟩
  pool_eq := by
    have hfit := tables_fit w (stop - stop % (4 * w) - start)
    omega
  aligned := Nat.dvd_sub (Nat.dvd_sub_mod stop) (Nat.dvd_mul_left _ _)

variable (L : Layout)

/-- `gc_init`, in a memory with the bytes `mem`. -/
def gcInit (mem : ℕ → BitVec 8) : Heap where
  mem a := if L.gcAllocTableStart ≤ a ∧
      a < L.gcAllocTableStart + L.gcAllocTableByteLen + (L.gcAllocTableByteLen * 4 + 7) / 8 then 0
    else mem a
  gcStackOverflow := false
  gcLockDepth := 0
  gcAutoCollectEnabled := true
  gcAllocAmount := 0
  gcAllocThreshold := 2 ^ (8 * L.bytesPerWord) - 1
  gcLastFreeAtbIndex := 0

variable (h : Heap) (fuel : ℕ) (del : (ℕ → BitVec 8) → ℕ → ℕ → BitVec 8) (roots : Roots)

/-! ### `gc_alloc` -/

/-- The number of blocks for so many bytes; the sum is a `size_t`. -/
def blocksFor (nBytes : ℕ) : ℕ :=
  (nBytes + (L.bytesPerBlock - 1)) % 2 ^ (8 * L.bytesPerWord) / L.bytesPerBlock

/-- The scan for `nBlocks` free blocks in a row: the last of them, and their number. -/
def findRun (nBlocks : ℕ) : List ℕ → ℕ → Option (ℕ × ℕ)
  | [], _ => none
  | block :: rest, nFree =>
    if L.atbGetKind h block = .free then
      if nBlocks ≤ nFree + 1 then some (block, nFree + 1) else findRun nBlocks rest (nFree + 1)
    else findRun nBlocks rest 0

/-- The blocks that the scan looks at, from those of `gc_last_free_atb_index` to the end of the
table. -/
def scanned : List ℕ := List.range' (h.gcLastFreeAtbIndex * 4) (L.blocks - h.gcLastFreeAtbIndex * 4)

/-- The blocks from `startBlock` to `endBlock` become a chain. -/
def makeChain (startBlock endBlock : ℕ) : Heap :=
  (List.range' (startBlock + 1) (endBlock - startBlock)).foldl L.atbFreeToTail
    (L.atbFreeToHead h startBlock)

/-- The new blocks are zeroed, and the flag of the chain is set if it has a finaliser. -/
def clearBlocks (startBlock n : ℕ) (hasFinaliser : Bool) : Heap :=
  let h := h.clear (L.ptrFromBlock startBlock) (n * L.bytesPerBlock)
  if hasFinaliser then L.ftbSet (h.clear (L.ptrFromBlock startBlock) L.bytesPerWord) startBlock
    else h

/-- `gc_alloc` from the label `found` on: `nFree` blocks are found, the last of them is `i`. -/
def found (nBlocks i nFree : ℕ) (hasFinaliser : Bool) : Heap × Option ℕ :=
  let startBlock := i + 1 - nFree
  let h := if nFree = 1 then { h with gcLastFreeAtbIndex := (i + 1) / 4 } else h
  let h := L.makeChain h startBlock i
  let h := { h with gcAllocAmount := (h.gcAllocAmount + nBlocks) % 2 ^ (8 * L.bytesPerWord) }
  (L.clearBlocks h startBlock (i - startBlock + 1) hasFinaliser, some (L.ptrFromBlock startBlock))

/-- The collection before the scan, when enough has been allocated; and `collected`. -/
def collectEarly : Option (Heap × Bool) :=
  if h.gcAutoCollectEnabled ∧ h.gcAllocThreshold ≤ h.gcAllocAmount then
    (L.gcCollect h fuel del roots).map (·, true)
  else some (h, !h.gcAutoCollectEnabled)

/-- `gc_alloc`, with the result `none` for a null pointer. -/
def gcAlloc (nBytes : ℕ) (hasFinaliser : Bool) : Option (Heap × Option ℕ) :=
  let nBlocks := L.blocksFor nBytes
  if nBlocks = 0 ∨ 0 < h.gcLockDepth then some (h, none)
  else do
    let (h, collected) ← L.collectEarly h fuel del roots
    match L.findRun h nBlocks (L.scanned h) 0 with
    | some (i, nFree) => some (L.found h nBlocks i nFree hasFinaliser)
    | none =>
      if collected then some (h, none)
      else do
        let h ← L.gcCollect h fuel del roots
        match L.findRun h nBlocks (L.scanned h) 0 with
        | some (i, nFree) => some (L.found h nBlocks i nFree hasFinaliser)
        | none => some (h, none)

/-! ### `gc_free` and `gc_nbytes` -/

/-- One turn of the loop in `gc_free`, with the entries that it reads or changes. -/
def freeTurn : Heap × ℕ × List ℕ → (Heap × ℕ × List ℕ) ⊕ (Heap × List ℕ)
  | (h, block, log) =>
    let h := L.atbAnyToFree h block
    if L.atbGetKind h (block + 1) = .tail then .inl (h, block + 1, log ++ [block, block + 1])
    else .inr (h, log ++ [block, block + 1])

/-- `gc_free` for a pointer that is not null. -/
def gcFree (ptr : ℕ) : Option (Heap × List ℕ) :=
  if 0 < h.gcLockDepth then some (h, [])
  else if L.verifyPtr ptr ∧ L.atbGetKind h (L.blockFromPtr ptr) = .head then
    let block := L.blockFromPtr ptr
    loop (fun s => some (L.freeTurn s)) fuel ((L.ftbClear h block).noteFree block, block, [])
  else none

/-- `gc_nbytes`, with the entries that it reads. -/
def gcNbytes (ptr : ℕ) : Option (ℕ × List ℕ) :=
  if L.verifyPtr ptr then
    let block := L.blockFromPtr ptr
    if L.atbGetKind h block = .head then
      (L.nBlocks h fuel block).map fun n => (n * L.bytesPerBlock, List.range' block (n + 1))
    else some (0, [block])
  else some (0, [])

/-! ### `gc_realloc` -/

/-- The scan in `gc_realloc` over the blocks behind the head: the blocks of the chain, the free
blocks behind it as far as they are needed, and the entries that are read. -/
def reallocScan (newBlocks : ℕ) : List ℕ → ℕ → ℕ → List ℕ → ℕ × ℕ × List ℕ
  | [], nBlocks, nFree, log => (nBlocks, nFree, log)
  | block :: rest, nBlocks, nFree, log =>
    match L.atbGetKind h block with
    | .tail => reallocScan newBlocks rest (nBlocks + 1) nFree (log ++ [block])
    | .free =>
      if newBlocks ≤ nBlocks + (nFree + 1) then (nBlocks, nFree + 1, log ++ [block])
      else reallocScan newBlocks rest nBlocks (nFree + 1) (log ++ [block])
    | _ => (nBlocks, nFree, log ++ [block])

/-- A block behind the chain becomes part of it. -/
def growTail (h : Heap) (block : ℕ) : Option Heap :=
  if L.atbGetKind h block = .free then some (L.atbFreeToTail h block) else none

/-- The end of `gc_realloc`, when the chain has to be moved. -/
def reallocMove (ptr nBytes nBlocks : ℕ) (log : List ℕ) : Option (Heap × Option ℕ × List ℕ) := do
  -- the pointer is on the machine stack while `gc_alloc` collects
  let (h, out) ← L.gcAlloc h fuel del { roots with more := [ptr] :: roots.more } nBytes
    (L.ftbGet h (L.blockFromPtr ptr))
  match out with
  | none => some (h, none, log)
  | some out => do
      let (h, log') ← L.gcFree (h.copy out ptr (nBlocks * L.bytesPerBlock)) fuel ptr
      some (h, some out, log ++ log')

/-- `gc_realloc` for a pointer that is not null and a size that is not 0. -/
def reallocChain (ptr nBytes : ℕ) (allowMove : Bool) : Option (Heap × Option ℕ × List ℕ) :=
  let block := L.blockFromPtr ptr
  let newBlocks := L.blocksFor nBytes
  let (nBlocks, nFree, log) :=
    L.reallocScan h newBlocks (List.range' (block + 1) (L.blocks - (block + 1))) 1 0 [block]
  if newBlocks = nBlocks then some (h, some ptr, log)
  else if newBlocks < nBlocks then
    let unneeded := List.range' (block + newBlocks) (nBlocks - newBlocks)
    some ((unneeded.foldl L.atbAnyToFree h).noteFree (block + newBlocks), some ptr, log ++ unneeded)
  else if newBlocks ≤ nBlocks + nFree then do
    let needed := List.range' (block + nBlocks) (newBlocks - nBlocks)
    let h ← needed.foldlM L.growTail h
    some (h.clear (ptr + nBlocks * L.bytesPerBlock) ((newBlocks - nBlocks) * L.bytesPerBlock),
      some ptr, log ++ needed)
  else if allowMove then L.reallocMove h fuel del roots ptr nBytes nBlocks log
  else some (h, none, log)

/-- `gc_realloc`, with the entries that it reads. -/
def gcRealloc (ptrIn : Option ℕ) (nBytes : ℕ) (allowMove : Bool) :
    Option (Heap × Option ℕ × List ℕ) :=
  match ptrIn with
  | none => (L.gcAlloc h fuel del roots nBytes false).map fun r => (r.1, r.2, [])
  | some ptr =>
    if nBytes = 0 then (L.gcFree h fuel ptr).map fun r => (r.1, none, r.2)
    else if 0 < h.gcLockDepth then some (h, none, [])
    else if L.verifyPtr ptr ∧ L.atbGetKind h (L.blockFromPtr ptr) = .head then
      L.reallocChain h fuel del roots ptr nBytes allowMove
    else none

end Layout

end Nespy.Py.Gc
