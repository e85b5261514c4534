import Nespy.Lib.Loop
import Nespy.Lib.Packed

/-!
# Py — the garbage collector

A model of the collection in `py/gc.c`.  The memory is one array of bytes.  The allocation table has
two bits for each block of the pool, which say that the block is free, the head of a chain, in the
tail of a chain, or a head that is marked; behind it is the table of the finaliser flags, if there
is one, and then the pool. The macros that read the tables do not know their ends: a scan over a
chain that ends with the last block reads the byte behind the table.

A collection marks what is reachable from the root pointers, with a stack of a fixed size.  When the
stack is full a block is marked without its children, and the whole table is scanned again at the
end.
-/

namespace Nespy.Py.Gc

open Nespy.Lib

/-! ### The heap -/

/-- `AT_FREE`, `AT_HEAD`, `AT_TAIL` and `AT_MARK`. -/
inductive Kind where
  | free
  | head
  | tail
  | mark
  deriving DecidableEq

/-- The kind with the code `v`. -/
def Kind.ofCode (v : BitVec 2) : Kind :=
  if v = 0 then .free else if v = 1 then .head else if v = 2 then .tail else .mark

/-- The configuration of the port and the places of the tables and the pool, which `gc_init`
computes. -/
structure Layout where
  /-- `BYTES_PER_WORD`, the size of a pointer; a block has four words. -/
  bytesPerWord : ℕ
  /-- `MICROPY_ALLOC_GC_STACK_SIZE`. -/
  allocGcStackSize : ℕ
  gcAllocTableStart : ℕ
  gcAllocTableByteLen : ℕ
  /-- The finaliser table, when `MICROPY_ENABLE_FINALISER` is set. -/
  gcFinaliserTableStart : Option ℕ
  gcPoolStart : ℕ
  gcPoolEnd : ℕ
  bytesPerWord_pos : 0 < bytesPerWord
  table_le : gcAllocTableStart + gcAllocTableByteLen ≤ gcPoolStart
  finaliser_le : ∀ start ∈ gcFinaliserTableStart, start = gcAllocTableStart + gcAllocTableByteLen ∧
    start + (gcAllocTableByteLen * 4 + 7) / 8 ≤ gcPoolStart
  pool_eq : gcPoolEnd = gcPoolStart + gcAllocTableByteLen * 4 * (4 * bytesPerWord)
  aligned : 4 * bytesPerWord ∣ gcPoolStart

/-- The memory and the variables of the collector. -/
structure Heap where
  mem : ℕ → BitVec 8
  gcStackOverflow : Bool
  gcLockDepth : ℕ
  gcAutoCollectEnabled : Bool
  gcAllocAmount : ℕ
  gcAllocThreshold : ℕ
  gcLastFreeAtbIndex : ℕ

/-- The pointer of `w` bytes at `a`, the lowest byte first. -/
def loadWord (mem : ℕ → BitVec 8) (a : ℕ) : ℕ → ℕ
  | 0 => 0
  | w + 1 => (mem a).toNat + 256 * loadWord mem (a + 1) w

namespace Layout

variable (L : Layout) (h : Heap)

/-- A block has four words. -/
def bytesPerBlock : ℕ := 4 * L.bytesPerWord

/-- The number of blocks. -/
def blocks : ℕ := L.gcAllocTableByteLen * 4

variable (block : ℕ)

/-- The entry of a block. -/
def atbGetKind : Kind := .ofCode (packedGet 2 h.mem L.gcAllocTableStart block)

/-- The block becomes free. -/
def atbAnyToFree : Heap := { h with mem := packedClear h.mem L.gcAllocTableStart block 3#2 }

/-- A free block becomes a head. -/
def atbFreeToHead : Heap := { h with mem := packedOr h.mem L.gcAllocTableStart block 1#2 }

/-- A free block becomes a tail. -/
def atbFreeToTail : Heap := { h with mem := packedOr h.mem L.gcAllocTableStart block 2#2 }

/-- A head is marked. -/
def atbHeadToMark : Heap := { h with mem := packedOr h.mem L.gcAllocTableStart block 3#2 }

/-- A mark is taken off. -/
def atbMarkToHead : Heap := { h with mem := packedClear h.mem L.gcAllocTableStart block 2#2 }

/-- The block that a pointer is in. -/
def blockFromPtr (ptr : ℕ) : ℕ := (ptr - L.gcPoolStart) / L.bytesPerBlock

/-- The address of a block. -/
def ptrFromBlock : ℕ := block * L.bytesPerBlock + L.gcPoolStart

/-- `VERIFY_PTR`; the size of a block is a power of two. -/
def verifyPtr (ptr : ℕ) : Bool :=
  ptr % L.bytesPerBlock = 0 ∧ L.gcPoolStart ≤ ptr ∧ ptr < L.gcPoolEnd

/-- The flag of a block for its finaliser. -/
def ftbGet : Bool :=
  match L.gcFinaliserTableStart with
  | none => false
  | some start => packedGet 1 h.mem start block = 1

/-- The flag is set. -/
def ftbSet : Heap :=
  match L.gcFinaliserTableStart with
  | none => h
  | some start => { h with mem := packedOr h.mem start block 1#1 }

/-- The flag is cleared. -/
def ftbClear : Heap :=
  match L.gcFinaliserTableStart with
  | none => h
  | some start => { h with mem := packedClear h.mem start block 1#1 }

/-! ### Marking -/

/-- The number of blocks of the chain that begins with `block`. -/
def nBlocks (fuel block : ℕ) : Option ℕ :=
  loop (fun n =>
    some (if L.atbGetKind h (block + (n + 1)) = .tail then .inl (n + 1) else .inr (n + 1))) fuel 0

/-- Pointer `i` of the chain that begins with `block`. -/
def childPtr (block i : ℕ) : ℕ :=
  loadWord h.mem (L.ptrFromBlock block + L.bytesPerWord * i) L.bytesPerWord

/-- A pointer is checked, and its block marked and put on the stack. -/
def visitChild (hs : Heap × List ℕ) (i : ℕ) : Heap × List ℕ :=
  let ptr := L.childPtr hs.1 block i
  if L.verifyPtr ptr ∧ L.atbGetKind hs.1 (L.blockFromPtr ptr) = .head then
    let h := L.atbHeadToMark hs.1 (L.blockFromPtr ptr)
    if hs.2.length < L.allocGcStackSize then (h, L.blockFromPtr ptr :: hs.2)
    else ({ h with gcStackOverflow := true }, hs.2)
  else hs

/-- One turn of `gc_mark_subtree`, for the block and the stack. -/
def markTurn (fuel : ℕ) : Heap × ℕ × List ℕ → Option ((Heap × ℕ × List ℕ) ⊕ Heap)
  | (h, block, stack) => do
      let n ← L.nBlocks h fuel block
      let (h, stack) := (List.range (n * L.bytesPerBlock / L.bytesPerWord)).foldl
        (L.visitChild block) (h, stack)
      match stack with
      | [] => some (.inr h)
      | block :: stack => some (.inl (h, block, stack))

/-- Marks what is reachable from a block that is marked, with the stack of blocks to visit. -/
def gcMarkSubtree (fuel block : ℕ) : Option Heap := loop (L.markTurn fuel) fuel (h, block, [])

/-- One turn of the scan in `gc_deal_with_stack_overflow`. -/
def traceAgain (fuel : ℕ) (h : Heap) (block : ℕ) : Option Heap :=
  if L.atbGetKind h block = .mark then L.gcMarkSubtree h fuel block else some h

/-- As long as the stack was too small, every marked block is traced again. -/
def gcDealWithStackOverflow (fuel : ℕ) : Option Heap :=
  loop (fun h =>
    if h.gcStackOverflow then
      ((List.range L.blocks).foldlM (L.traceAgain fuel) { h with gcStackOverflow := false }).map
        .inl
    else some (.inr h)) fuel h

/-! ### Sweeping -/

variable (del : (ℕ → BitVec 8) → ℕ → ℕ → BitVec 8)

/-- The finaliser of a block that is swept; `del` is what the method `__del__` does to the
memory. -/
def finalise (block : ℕ) : Heap :=
  if L.ftbGet h block then
    let h := if loadWord h.mem (L.ptrFromBlock block) L.bytesPerWord ≠ 0 then
        { h with mem := del h.mem block }
      else h
    L.ftbClear h block
  else h

/-- One turn of `gc_sweep`, with `free_tail`. -/
def sweepBlock (hf : Heap × Bool) (block : ℕ) : Heap × Bool :=
  match L.atbGetKind hf.1 block with
  | .head => (L.atbAnyToFree (L.finalise hf.1 del block) block, true)
  | .tail => if hf.2 then (L.atbAnyToFree hf.1 block, true) else hf
  | .mark => (L.atbMarkToHead hf.1 block, false)
  | .free => hf

/-- One walk over the table. -/
def gcSweep : Heap :=
  ((List.range L.blocks).foldl (L.sweepBlock del) (h, false)).1

/-! ### Collecting -/

/-- One turn of `gc_collect_root`. -/
def collectPtr (fuel : ℕ) (h : Heap) (ptr : ℕ) : Option Heap :=
  if L.verifyPtr ptr ∧ L.atbGetKind h (L.blockFromPtr ptr) = .head then
    L.gcMarkSubtree (L.atbHeadToMark h (L.blockFromPtr ptr)) fuel (L.blockFromPtr ptr)
  else some h

/-- Marks from each of the pointers. -/
def gcCollectRoot (fuel : ℕ) (h : Heap) (ptrs : List ℕ) : Option Heap :=
  ptrs.foldlM (L.collectPtr fuel) h

/-- `gc_collect_start`, for the pointers in `mp_state_ctx` and on the Python stack. -/
def gcCollectStart (fuel : ℕ) (ctx pystack : List ℕ) : Option Heap := do
  let h ← L.gcCollectRoot fuel
    { h with gcLockDepth := h.gcLockDepth + 1, gcAllocAmount := 0, gcStackOverflow := false } ctx
  L.gcCollectRoot fuel h pystack

/-- The rest of a collection, when the roots are marked. -/
def gcCollectEnd (fuel : ℕ) (del : (ℕ → BitVec 8) → ℕ → ℕ → BitVec 8) : Option Heap := do
  let h ← L.gcDealWithStackOverflow h fuel
  let h := L.gcSweep h del
  some { h with gcLastFreeAtbIndex := 0, gcLockDepth := h.gcLockDepth - 1 }

/-- The root pointers of a collection: those of `gc_collect_start`, and the arguments of the calls
of `gc_collect_root` that the port makes. -/
structure Roots where
  ctx : List ℕ
  pystack : List ℕ
  more : List (List ℕ)

/-- A collection, as the ports make it in `gc_collect`. -/
def gcCollect (fuel : ℕ) (del : (ℕ → BitVec 8) → ℕ → ℕ → BitVec 8) (roots : Roots) : Option Heap :=
  do
  let h ← L.gcCollectStart h fuel roots.ctx roots.pystack
  let h ← roots.more.foldlM (L.gcCollectRoot fuel) h
  L.gcCollectEnd h fuel del

end Layout

end Nespy.Py.Gc
