import Mathlib.Data.Int.ModEq
import Nespy.Lib.DoublyLinked
import Nespy.Lib.Runs

/-!
# Sys — the heap

`lib/heapmem.c`.  An address is its distance from `heap_base`, and a chunk is the address of its
header; `sizeof(chunk_t)` and the alignment are those of a 64-bit target.  The headers are the
functions `prev`, `next`, `size` and `allocated` of the address, so that a header that was given up,
or was never written, is still there to be read.  `arena` is `HEAPMEM_ARENA_SIZE`.

A pointer that is `NULL` when it is followed, and a loop that does not come to an end, are `none`.
-/

open Function

namespace Nespy.Sys

open Nespy.Lib

/-- `sizeof(chunk_t)`. -/
def sizeofChunk : ℕ := 32

/-- Sizes are multiples of this. -/
def heapmemAlignment : ℕ := 4

/-- How many free chunks are looked at. -/
def chunkSearchMax : ℕ := 16

/-- The size rounded up. -/
def align (size : ℕ) : ℕ := (size + (heapmemAlignment - 1)) / heapmemAlignment * heapmemAlignment

/-- The heap; a chunk is named by its place. -/
structure Heap where
  heapUsage : ℕ
  freeList : Option ℕ
  prev : ℕ → Option ℕ
  next : ℕ → Option ℕ
  size : ℕ → ℕ
  /-- `CHUNK_ALLOCATED`. -/
  allocated : ℕ → Bool

namespace Heap

variable (arena : ℕ) (h : Heap) (chunk : ℕ)

/-- The place behind a chunk. -/
@[simp] def nextChunk : ℕ := chunk + sizeofChunk + h.size chunk

/-- Nothing is behind the chunk. -/
@[simp] def isLastChunk : Bool := h.nextChunk chunk = h.heapUsage

/-- The pointer to a chunk's memory. -/
def getPtr : ℕ := chunk + sizeofChunk

/-- The chunk of a pointer. -/
def getChunk (ptr : ℕ) : ℕ := ptr - sizeofChunk

/-- Writing the size of a chunk. -/
@[simp] def setSize (chunk size : ℕ) : Heap := { h with size := update h.size chunk size }

/-- Writing the flag of a chunk. -/
@[simp] def setAllocated (allocated : Bool) : Heap :=
  { h with allocated := update h.allocated chunk allocated }

/-- More of the arena comes into use. -/
def extendSpace (size : ℕ) : Option (ℕ × Heap) :=
  if h.heapUsage + size > arena then none
  else some (h.heapUsage, { h with heapUsage := h.heapUsage + size })

/-- The last chunk is given back to the arena, and another comes to the free list. -/
def freeChunk : Heap :=
  let h := h.setAllocated chunk false
  if h.isLastChunk chunk then { h with heapUsage := h.heapUsage - (sizeofChunk + h.size chunk) }
  else
    { h with
      prev := setPrev (update h.prev chunk none) h.freeList (some chunk)
      next := update h.next chunk h.freeList
      freeList := some chunk }

/-- A chunk leaves the free list. -/
def allocateChunk : Option Heap :=
  let h := h.setAllocated chunk true
  let unlinked :=
    if h.freeList = some chunk then
      some { h with freeList := h.next chunk, prev := setPrev h.prev (h.next chunk) none }
    else
      (h.prev chunk).map fun p => { h with next := update h.next p (h.next chunk) }
  unlinked.map fun h => { h with prev := setPrev h.prev (h.next chunk) (h.prev chunk) }

/-- What is behind `offset` becomes a chunk of its own, if there is room for its header. -/
def splitChunk (chunk offset : ℕ) : Heap :=
  let offset := align offset
  if offset + sizeofChunk < h.size chunk then
    let newChunk := getPtr chunk + offset
    let h := h.setSize newChunk (h.size chunk - sizeofChunk - offset)
    let h := (h.setAllocated newChunk false).freeChunk newChunk
    let h := h.setSize chunk offset
    { h with next := update h.next chunk none, prev := update h.prev chunk none }
  else h

/-- The loop of `coalesce_chunks`. -/
def coalesceLoop (chunk : ℕ) : ℕ → Heap → ℕ → Option Heap
  | 0, _, _ => none
  | fuel + 1, h, next =>
    if next < h.heapUsage && !h.allocated next then
      let h := h.setSize chunk (h.size chunk + (sizeofChunk + h.size next))
      (h.allocateChunk next).bind fun h => coalesceLoop chunk fuel h (h.nextChunk next)
    else some h

/-- A chunk is merged with the free ones behind it. -/
def coalesceChunks : Option Heap :=
  coalesceLoop chunk (h.heapUsage + 1) h (h.nextChunk chunk)

/-- The loop of `defrag_chunks`, with `i` turns left. -/
def defragLoop : ℕ → Heap → Option ℕ → Option Heap
  | _, h, none => some h
  | 0, h, some _ => some h
  | i + 1, h, some chunk => (h.coalesceChunks chunk).bind fun h => defragLoop i h (h.next chunk)

/-- Chunks at the front of the free list are merged with those behind them. -/
def defragChunks : Option Heap := defragLoop chunkSearchMax h h.freeList

/-- The better of two chunks that are large enough. -/
def better (best : Option ℕ) : ℕ :=
  match best with
  | none => chunk
  | some best => if h.size chunk < h.size best then chunk else best

/-- The search of `get_free_chunk`, with `i` turns left. -/
def searchLoop (size : ℕ) : ℕ → Option ℕ → Option ℕ → Option ℕ
  | _, best, none => best
  | 0, best, some _ => best
  | i + 1, best, some chunk =>
    if size ≤ h.size chunk then
      let best := h.better chunk best
      if h.size best = size then some best else searchLoop size i (some best) (h.next chunk)
    else searchLoop size i best (h.next chunk)

/-- The best of the free chunks that are looked at. -/
def getFreeChunk (size : ℕ) : Option (Option ℕ × Heap) :=
  h.defragChunks.bind fun h =>
    match h.searchLoop size chunkSearchMax none h.freeList with
    | some best => (h.allocateChunk best).map fun h => (some best, h.splitChunk best size)
    | none => some (none, h)

/-- `heapmem_alloc`; the pointer is `none` if there is no room. -/
def heapmemAlloc (size : ℕ) : Option (Option ℕ × Heap) :=
  let size := align size
  (h.getFreeChunk size).map fun (chunk, h) =>
    match chunk with
    | some chunk => (some (getPtr chunk), h.setAllocated chunk true)
    | none =>
      match h.extendSpace arena (sizeofChunk + size) with
      | some (chunk, h) => (some (getPtr chunk), (h.setSize chunk size).setAllocated chunk true)
      | none => (none, h)

/-- The pointer is trusted to be of a chunk. -/
def heapmemFree (ptr : Option ℕ) : Heap :=
  match ptr with
  | some ptr => h.freeChunk (getChunk ptr)
  | none => h

/-- The difference of two `size_t` as an `int`. -/
def sizeAdj (size old : ℕ) : ℤ := Int.bmod ((size : ℤ) - old) (2 ^ 32)

/-- The end of `heapmem_realloc`, for an object that cannot grow where it is. -/
def moveTo (chunk size : ℕ) : Option (Option ℕ × Heap) :=
  (h.heapmemAlloc arena size).map fun (newptr, h) =>
    match newptr with
    | none => (none, h)
    | some newptr => (some newptr, h.freeChunk chunk)

/-- `heapmem_realloc`: growing in place, or by a copy. -/
def heapmemRealloc (ptr : Option ℕ) (size : ℕ) : Option (Option ℕ × Heap) :=
  match ptr with
  | none => h.heapmemAlloc arena size
  | some ptr =>
    if size = 0 then some (none, h.heapmemFree (some ptr))
    else
      let chunk := getChunk ptr
      let size := align size
      let adj := sizeAdj size (h.size chunk)
      if adj ≤ 0 then some (some ptr, h.splitChunk chunk size)
      else if h.isLastChunk chunk then
        match h.extendSpace arena adj.toNat with
        | some (_, h) => some (some ptr, h.setSize chunk size)
        | none => h.moveTo arena chunk size
      else
        (h.coalesceChunks chunk).bind fun h =>
          if size ≤ h.size chunk then some (some ptr, h.splitChunk chunk size)
          else h.moveTo arena chunk size

/-- What `heapmem_stats` counts. -/
structure Stats where
  allocated : ℕ
  available : ℕ
  overhead : ℕ
  footprint : ℕ
  chunks : ℕ
  deriving DecidableEq

/-- The loop of `heapmem_stats`. -/
def statsLoop : ℕ → Heap → Stats → ℕ → Option (Stats × Heap)
  | 0, _, _, _ => none
  | fuel + 1, h, stats, chunk =>
    if chunk < h.heapUsage then
      let overhead := stats.overhead + sizeofChunk
      if h.allocated chunk then
        statsLoop fuel h
          { stats with allocated := stats.allocated + h.size chunk, overhead := overhead }
          (h.nextChunk chunk)
      else
        (h.coalesceChunks chunk).bind fun h =>
          statsLoop fuel h
            { stats with available := stats.available + h.size chunk, overhead := overhead }
            (h.nextChunk chunk)
    else some (stats, h)

/-- A walk over all chunks, which merges the free ones. -/
def heapmemStats : Option (Stats × Heap) :=
  (statsLoop (h.heapUsage + 1) h ⟨0, 0, 0, 0, 0⟩ 0).map fun (stats, h) =>
    ({ stats with
        available := stats.available + (arena - h.heapUsage)
        footprint := h.heapUsage
        chunks := stats.overhead / sizeofChunk }, h)

end Heap

end Nespy.Sys
