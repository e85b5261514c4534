import Nespy.Sys.HeapInvariant

/-!
# Sys — the calls of the heap

What the calls of `lib/heapmem.c` do to the heap as their callers see it.  A call may end the life
of one object and hand out another (`Served`); every other allocated chunk stays where it is, and
does not shrink. From that the state of the heap and the list of the live objects, each with the
size that was asked for, are followed through any run (`heap_consistent`).

`heapmem_realloc` has the difference of the two sizes in an `int`, so a run must not ask for a
difference that has no place there (`FitsInt`): `realloc_keeps_old_chunk` is a request of four
gigabytes that is answered with the chunk of eight bytes that was there.
-/

open List Option

namespace Nespy.Sys.Heap

open Nespy.Lib

variable {arena : ℕ} {h h' : Heap} {c d size : ℕ} {cs cs' fl l₁ l₂ : List ℕ}
  {gone : Option ℕ} {n : ℕ} {h₁ : Heap}

/-! ### One call -/

/-- The chunk `gone` is given up, and `result` points to one with room for `size` bytes that was not
allocated, unless it is `gone`.  The other allocated chunks are still there. -/
def Served (arena : ℕ) (h h' : Heap) (cs : List ℕ) (gone result : Option ℕ) (size : ℕ) : Prop :=
  ∃ cs' fl', Good arena h' cs' fl' ∧
    (∀ d ∈ cs, some d ≠ gone → h.allocated d → d ∈ cs' ∧ h'.allocated d ∧ h.size d ≤ h'.size d) ∧
    ∀ p ∈ result, ∃ c ∈ cs', p = getPtr c ∧ h'.allocated c ∧ size ≤ h'.size c ∧
      (c ∈ cs → h.allocated c → some c = gone)

theorem Kept.stays (hk : Kept h h' cs' d) : d ∈ cs' ∧ h'.allocated d ∧ h.size d ≤ h'.size d :=
  ⟨hk.1, hk.2.1, hk.2.2.ge⟩

theorem Preserves.served (hp : Preserves arena h h' cs) : Served arena h h' cs none none size := by
  obtain ⟨cs', fl', hg, hkept⟩ := hp
  exact ⟨cs', fl', hg, fun d hd _ ha => (hkept d hd ha).stays, by simp⟩

theorem Allocates.served (hp : Allocates arena h h' cs c n) (hle : size ≤ n) :
    Served arena h h' cs none (some (getPtr c)) size := by
  obtain ⟨⟨cs', fl', hg, hc, hkept⟩, hfresh, ha, hsize⟩ := hp
  refine ⟨cs', fl', hg, fun d hd _ had => (hkept d hd had).stays, ?_⟩
  rintro _ ⟨⟩
  exact ⟨c, hc, rfl, ha, hle.trans hsize, fun hmem hold => absurd ⟨hmem, hold⟩ hfresh⟩

theorem getChunk_getPtr (c : ℕ) : getChunk (getPtr c) = c := Nat.add_sub_cancel ..

theorem align_align (n : ℕ) : align (align n) = align n := by
  simp only [align, heapmemAlignment]
  omega

theorem le_align (n : ℕ) : n ≤ align n := by
  simp only [align, heapmemAlignment]
  omega

theorem setAllocated_self (ha : h.allocated c) : h.setAllocated c true = h := by
  rw [setAllocated, ← ha, Function.update_eq_self]

/-! ### `heapmem_alloc` and `heapmem_free` -/

/-- A chunk at the end of what is in use. -/
theorem extend_good (hg : Good arena h cs fl) (hle : h.heapUsage + (sizeofChunk + size) ≤ arena) :
    Allocates arena h ((({ h with heapUsage := h.heapUsage + (sizeofChunk + size) } : Heap).setSize
      h.heapUsage size).setAllocated h.heapUsage true) cs h.heapUsage size := by
  have hnot : h.heapUsage ∉ cs := fun hmem => by
    have hbounds := (hg.tiles.bounds hmem).2
    have hpos := h.len_pos h.heapUsage
    omega
  have hne : ∀ d ∈ cs, d ≠ h.heapUsage := fun d hd he => hnot (he ▸ hd)
  refine ⟨⟨cs ++ [h.heapUsage], fl, ⟨?_, hle, hg.free, fun d => ?_⟩, by simp, fun d hd ha => ?_⟩,
    fun hmem => hnot hmem.1, by simp, by simp⟩
  · refine tiles_mid.mpr ⟨hg.tiles.of_eq fun d hd => ?_, ?_⟩
    · simp [len, hne d hd]
    · simp [Tiles, len]
  · rw [hg.mem_free_iff]
    by_cases hd : d = h.heapUsage
    · simp [hd, hnot]
    · simp [hd]
  · exact ⟨by simp [hd], by simp [hne d hd, ha],
      by simp [hne d hd]⟩

theorem Allocates.of_kept {cs₁ : List ℕ} (hp : Allocates arena h₁ h' cs₁ c size)
    (hkept₁ : ∀ d ∈ cs, h.allocated d → Kept h h₁ cs₁ d) : Allocates arena h h' cs c size := by
  obtain ⟨⟨cs', fl', hg, hc, hkept⟩, hfresh, ha, hsize⟩ := hp
  refine ⟨⟨cs', fl', hg, hc, fun d hd had => (hkept₁ d hd had).trans (hkept d)⟩, ?_, ha, hsize⟩
  rintro ⟨hmem, hold⟩
  exact hfresh ⟨(hkept₁ c hmem hold).1, (hkept₁ c hmem hold).2.1⟩

section

variable (hg : Good arena h cs fl)

include hg

/-- **`heapmem_alloc`.**  There is no room, or a chunk is found or made. -/
theorem heapmemAlloc_cases (size : ℕ) :
    (∃ h', h.heapmemAlloc arena size = some (none, h') ∧ Preserves arena h h' cs) ∨
      ∃ c h', h.heapmemAlloc arena size = some (some (getPtr c), h') ∧
        Allocates arena h h' cs c (align size) := by
  rcases getFreeChunk_spec hg (align_align size) with ⟨h₁, hcall, hpres⟩ | ⟨c, h₁, hcall, halloc⟩
  · obtain ⟨cs₁, fl₁, hg₁, hkept₁⟩ := hpres
    by_cases hroom : h₁.heapUsage + (sizeofChunk + align size) > arena
    · refine .inl ⟨h₁, ?_, cs₁, fl₁, hg₁, hkept₁⟩
      simp only [heapmemAlloc, hcall, map_some, extendSpace, if_pos hroom]
    · refine .inr ⟨h₁.heapUsage, _, ?_, (extend_good hg₁ (Nat.le_of_not_gt hroom)).of_kept hkept₁⟩
      simp only [heapmemAlloc, hcall, map_some, extendSpace, if_neg hroom]
  · refine .inr ⟨c, h₁, ?_, halloc⟩
    simp only [heapmemAlloc, hcall, map_some, setAllocated_self halloc.allocated]

theorem heapmemAlloc_served (size : ℕ) :
    ∃ result h', h.heapmemAlloc arena size = some (result, h') ∧
      Served arena h h' cs none result size := by
  rcases heapmemAlloc_cases hg size with ⟨h', hcall, hpres⟩ | ⟨c, h', hcall, halloc⟩
  · exact ⟨_, h', hcall, hpres.served⟩
  · exact ⟨_, h', hcall, halloc.served (le_align size)⟩

/-- **`heapmem_free`.** -/
theorem heapmemFree_served (hc : c ∈ cs) (ha : h.allocated c) :
    Served arena h (h.heapmemFree (some (getPtr c))) cs (some c) none size := by
  obtain ⟨cs', fl', hg', hkept⟩ := freeChunk_allocated hg hc ha
  exact ⟨cs', fl', hg', fun d hd hdc had => (hkept d hd (fun he => hdc (he ▸ rfl)) had).stays,
    by simp⟩

end

/-! ### `heapmem_realloc` -/

/-- The difference of the sizes has a place in an `int`. -/
def FitsInt (size old : ℕ) : Prop := -2 ^ 31 ≤ (size : ℤ) - old ∧ (size : ℤ) - old < 2 ^ 31

instance (size old : ℕ) : Decidable (FitsInt size old) := inferInstanceAs (Decidable (_ ∧ _))

theorem sizeAdj_eq {old : ℕ} (hfit : FitsInt size old) : sizeAdj size old = (size : ℤ) - old := by
  obtain ⟨hlo, hhi⟩ := hfit
  exact Int.bmod_eq_of_le (by omega) (by omega)

/-- An object that keeps its place. -/
theorem served_of_split (hg : Good arena h' cs' fl) (hc : c ∈ cs') (ha : h'.allocated c)
    (hle : align size ≤ h'.size c)
    (hkept : ∀ d ∈ cs, d ≠ c → h.allocated d → Kept h h' cs' d) :
    Served arena h (h'.splitChunk c (align size)) cs (some c) (some (getPtr c)) size := by
  have hle' : align (align size) ≤ h'.size c := by rw [align_align]; exact hle
  obtain ⟨cs₂, fl₂, hg₂, hc₂, ha₂, hsize₂, hkept₂⟩ := splitChunk_spec hg hc ha hle'
  rw [align_align] at hsize₂
  refine ⟨cs₂, fl₂, hg₂, fun d hd hdc had => ?_, ?_⟩
  · have hne : d ≠ c := fun he => hdc (he ▸ rfl)
    exact ((hkept d hd hne had).trans fun hd' => hkept₂ d hd' hne).stays
  · rintro _ ⟨⟩
    exact ⟨c, hc₂, rfl, ha₂, (le_align size).trans hsize₂, fun _ _ => rfl⟩

/-- The last chunk grows into the wilderness. -/
theorem grow_good (hg : Good arena h cs fl) (hc : c ∈ cs) (ha : h.allocated c)
    (hlast : h.isLastChunk c)
    (hle : h.size c ≤ n) (hroom : h.heapUsage + (n - h.size c) ≤ arena) (hsize : size ≤ n) :
    Served arena h (({ h with heapUsage := h.heapUsage + (n - h.size c) } : Heap).setSize c n) cs
      (some c)
      (some (getPtr c)) size := by
  obtain ⟨l₁, l₂, rfl⟩ := append_of_mem hc
  have hend : c + h.len c = h.heapUsage := by
    rw [← nextChunk_eq]
    exact of_decide_eq_true hlast
  refine ⟨l₁ ++ c :: l₂, fl, ⟨?_, hroom, hg.free, hg.mem_free⟩, fun d hd hdc had => ?_, ?_⟩
  · obtain ⟨-, rfl⟩ | ⟨hlt, -⟩ := hg.tiles.next h.len_pos
    · refine tiles_mid.mpr ⟨(hg.tiles.mid_of_eq h.len_pos (len_update h c n)).1, ?_⟩
      simp only [len] at hend
      simp only [Tiles, len, setSize, Function.update_self]
      omega
    · omega
  · have hne : d ≠ c := fun he => hdc (he ▸ rfl)
    exact ⟨hd, had, by simp [hne]⟩
  · rintro _ ⟨⟩
    exact ⟨c, hc, rfl, ha, by simpa using hsize, fun _ _ => rfl⟩

/-- The object moves, or stays where it was. -/
theorem moveTo_served {cs₁ fl₁ : List ℕ} (hg₁ : Good arena h₁ cs₁ fl₁) (hc₁ : c ∈ cs₁)
    (ha₁ : h₁.allocated c) (hle₁ : h.size c ≤ h₁.size c)
    (hkept₁ : ∀ d ∈ cs, d ≠ c → h.allocated d → Kept h h₁ cs₁ d) (hsize : size ≤ align n) :
    ∃ result h', h₁.moveTo arena c n = some (result, h') ∧
      Served arena h h' cs (result.map fun _ => c) result size := by
  rcases heapmemAlloc_cases hg₁ n with ⟨h₂, hcall, hpres⟩ | ⟨c', h₂, hcall, halloc⟩
  · obtain ⟨cs₂, fl₂, hg₂, hkept₂⟩ := hpres
    refine ⟨none, h₂, by simp only [moveTo, hcall,
      map_some], cs₂, fl₂, hg₂, fun d hd _ had => ?_, by simp⟩
    by_cases hdc : d = c
    · obtain ⟨hmem, had', hsz⟩ := hkept₂ c hc₁ ha₁
      exact hdc ▸ ⟨hmem, had', hsz ▸ hle₁⟩
    · exact ((hkept₁ d hd hdc had).trans (hkept₂ d)).stays
  · obtain ⟨⟨cs₂, fl₂, hg₂, hc₂, hkept₂⟩, hfresh, ha₂, hsize₂⟩ := halloc
    obtain ⟨hmemc, hac, -⟩ := hkept₂ c hc₁ ha₁
    have hne : c' ≠ c := fun he => hfresh (he ▸ ⟨hc₁, ha₁⟩)
    obtain ⟨cs₃, fl₃, hg₃, hkept₃⟩ := freeChunk_allocated hg₂ hmemc hac
    refine ⟨_, _, by simp only [moveTo, hcall]; rfl, cs₃, fl₃, hg₃, fun d hd hdc had => ?_, ?_⟩
    · have hdne : d ≠ c := fun he => hdc (he ▸ rfl)
      exact (((hkept₁ d hd hdne had).trans (hkept₂ d)).trans fun hd' => hkept₃ d hd' hdne).stays
    · rintro _ ⟨⟩
      obtain ⟨hmem, had', hsz⟩ := hkept₃ c' hc₂ hne ha₂
      refine ⟨c', hmem, rfl, had', hsz ▸ hsize.trans hsize₂, fun hold hao => ?_⟩
      obtain ⟨hmem₁, ha₁', -⟩ := hkept₁ c' hold hne hao
      exact absurd ⟨hmem₁, ha₁'⟩ hfresh

/-- **`heapmem_realloc`** of an object, when the difference of the sizes has a place in an `int`. -/
theorem heapmemRealloc_served (hg : Good arena h cs fl) (hc : c ∈ cs) (ha : h.allocated c)
    (hfit : size ≠ 0 → FitsInt (align size) (h.size c)) :
    ∃ result h', h.heapmemRealloc arena (some (getPtr c)) size = some (result, h') ∧
      Served arena h h' cs (if result = none ∧ size ≠ 0 then none else some c) result size := by
  by_cases hzero : size = 0
  · refine ⟨none, _, if_pos hzero, ?_⟩
    rw [if_neg fun hn => hn.2 hzero]
    exact heapmemFree_served hg hc ha
  · have hcall : h.heapmemRealloc arena (some (getPtr c)) size = _ := if_neg hzero
    have hgone : ∀ result : Option ℕ,
        (if result = none ∧ size ≠ 0 then none else some c) = result.map fun _ => c :=
          fun result => by
      cases result <;> simp [hzero]
    simp only [getChunk_getPtr, sizeAdj_eq (hfit hzero)] at hcall
    have hself : ∀ d ∈ cs, d ≠ c → h.allocated d → Kept h h cs d := fun d hd _ had => ⟨hd, had, rfl⟩
    have hsize : size ≤ align (align size) := by rw [align_align]; exact le_align size
    simp only [hcall, hgone]
    by_cases hshrink : (align size : ℤ) - h.size c ≤ 0
    · exact ⟨_, _, if_pos hshrink, served_of_split hg hc ha (by omega) hself⟩
    · rw [if_neg hshrink]
      by_cases hlast : h.isLastChunk c
      · have hadj : ((align size : ℤ) - h.size c).toNat = align size - h.size c := by omega
        rw [if_pos hlast, extendSpace, hadj]
        split_ifs with hroom
        · exact moveTo_served hg hc ha le_rfl hself hsize
        · exact ⟨_, _, rfl, grow_good hg hc ha hlast (by omega) (Nat.le_of_not_gt hroom)
            (le_align size)⟩
      · rw [if_neg hlast]
        obtain ⟨h₁, l₁, hcoal, ⟨l₂, fl₁, hg₁, hkept₁⟩, ha₁, hle₁, -⟩ := coalesceChunks_spec hg hc
        have hac : h₁.allocated c := ha₁.trans ha
        rw [hcoal, bind_some]
        split_ifs with hroom
        · exact ⟨_, _, rfl, served_of_split hg₁ (by simp) hac hroom hkept₁⟩
        · exact moveTo_served hg₁ (by simp) hac hle₁ hkept₁ hsize

/-! ### `heapmem_stats` -/

/-- The bytes that the statistics account for. -/
def Stats.total (stats : Stats) : ℕ := stats.allocated + stats.available + stats.overhead

/-- The walk over all chunks keeps the heap in order. -/
theorem statsLoop_spec {fuel a : ℕ} (stats : Stats) (hg : Good arena h (l₁ ++ l₂) fl)
    (htiles : Tiles h.len h.heapUsage a l₂) (hfuel : h.heapUsage - a < fuel) :
    ∃ stats' h', statsLoop fuel h stats a = some (stats', h') ∧ Preserves arena h h' (l₁ ++ l₂) ∧
      h'.heapUsage = h.heapUsage ∧ stats'.total = stats.total + (h.heapUsage - a) := by
  induction fuel generalizing h l₁ l₂ fl a stats with
  | zero => exact absurd hfuel (Nat.not_lt_zero _)
  | succ fuel ih =>
    cases l₂ with
    | nil =>
      have hend : a = h.heapUsage := htiles
      refine ⟨stats, h, ?_, .refl hg, rfl, by omega⟩
      rw [statsLoop, if_neg (by omega)]
    | cons c l₂ =>
      obtain ⟨rfl, hnext⟩ := htiles
      have hlt :
        c < h.heapUsage := Nat.lt_of_lt_of_le (Nat.lt_add_of_pos_right (h.len_pos c)) hnext.le
      have hle := hnext.le
      rw [statsLoop, if_pos hlt]
      cases ha : h.allocated c with
      | true =>
        have hpos := h.len_pos c
        have hg' : Good arena h ((l₁ ++ [c]) ++ l₂) fl := by simpa using hg
        obtain ⟨stats', h', hloop, hpres, husage, htotal⟩ :=
          ih ({ stats with
              allocated := stats.allocated + h.size c
              overhead := stats.overhead + sizeofChunk } : Stats) hg' hnext (by omega)
        refine ⟨stats', h', ?_, by simpa using hpres, husage, ?_⟩
        · simp only [nextChunk_eq]
          exact hloop
        · rw [htotal]
          simp only [Stats.total, len] at hle ⊢
          omega
      | false =>
        obtain ⟨h₁, l₁', hcoal, ⟨l₃, fl₁, hg₁, hkept₁⟩, ha₁, -, husage₁⟩ :=
          coalesceChunks_spec hg (mem_append_right l₁ mem_cons_self)
        obtain ⟨-, hnext₁⟩ := tiles_mid.mp hg₁.tiles
        have hpos := h₁.len_pos c
        have hle₁ := hnext₁.le
        have hg' : Good arena h₁ ((l₁' ++ [c]) ++ l₃) fl₁ := by simpa using hg₁
        obtain ⟨stats', h', hloop, ⟨cs', fl', hgood, hkept⟩, husage, htotal⟩ :=
          ih ({ stats with
              available := stats.available + h₁.size c
              overhead := stats.overhead + sizeofChunk } : Stats) hg' hnext₁ (by omega)
        refine ⟨stats', h', ?_, ⟨cs', fl', hgood, fun d hd had => ?_⟩, husage.trans husage₁, ?_⟩
        · simp only [hcoal, nextChunk_eq]
          exact hloop
        · have hdc : d ≠ c := fun he => by simp [he, ha] at had
          exact (hkept₁ d hd hdc had).trans fun hd' => hkept d (by simpa using hd')
        · rw [htotal]
          simp only [Stats.total, len] at hle₁ ⊢
          omega

/-- **`heapmem_stats`.**  It merges free chunks, and every byte of the arena is counted once. -/
theorem heapmemStats_spec (hg : Good arena h cs fl) :
    ∃ stats h', h.heapmemStats arena = some (stats, h') ∧ Preserves arena h h' cs ∧
      stats.total = arena := by
  have hg' : Good arena h ([] ++ cs) fl := hg
  obtain ⟨stats, h', hloop, hpres, husage, htotal⟩ :=
    statsLoop_spec ⟨0, 0, 0, 0, 0⟩ hg' hg.tiles (Nat.lt_succ_self _)
  have hloop' : statsLoop (h.heapUsage + 1) h ⟨0, 0, 0, 0, 0⟩ 0 = some (stats, h') := hloop
  refine ⟨_, h', by simp only [heapmemStats, hloop']; rfl, hpres, ?_⟩
  have hle := hg.usage_le
  simp only [Stats.total] at htotal ⊢
  omega

end Nespy.Sys.Heap

variable (s : HeapState)

namespace Nespy.Sys

open Nespy.Lib Heap

/-! ### Runs -/

/-- The heap, and the objects that are live: the pointer and the size that was asked for. -/
structure HeapState where
  heap : Heap
  live : List (ℕ × ℕ)

/-- The calls of a program. -/
inductive HeapCall where
  | alloc (size : ℕ)
  | free (ptr : Option ℕ)
  | realloc (ptr : Option ℕ) (size : ℕ)
  | stats

namespace HeapState

/-- The live objects after a call that took back `ptr` and returned `result`. -/
def settle (live : List (ℕ × ℕ)) (ptr result : Option ℕ) (size : ℕ) : List (ℕ × ℕ) :=
  (result.map fun p => (p, size)).toList ++ live.filter fun b => some b.1 ≠ ptr

/-- A call, and the pointer it returns. -/
def step (arena : ℕ) (s : HeapState) : HeapCall → Option (HeapState × Option ℕ)
  | .alloc size =>
    (s.heap.heapmemAlloc arena size).map fun (p, h) => (⟨h, settle s.live none p size⟩, p)
  | .free ptr => some (⟨s.heap.heapmemFree ptr, settle s.live ptr none 0⟩, none)
  | .realloc ptr size =>
    -- a request for more that fails leaves the object to its owner
    (s.heap.heapmemRealloc arena ptr size).map fun (p, h) =>
      (⟨h, settle s.live (if p = none ∧ size ≠ 0 then none else ptr) p size⟩, p)
  | .stats => (s.heap.heapmemStats arena).map fun (_, h) => (⟨h, settle s.live none none 0⟩, none)

/-- The size does not wrap, with a header and the arena. -/
def SizeOk (arena size : ℕ) : Prop := align size + sizeofChunk + arena < 2 ^ 64

/-- A pointer that is taken back is `NULL` or live. -/
def PtrOk (ptr : Option ℕ) : Prop := ∀ p ∈ ptr, p ∈ s.live.map Prod.fst

/-- The calls that the heap is made for. -/
def Allowed (arena : ℕ) (s : HeapState) : HeapCall → Prop
  | .alloc size => SizeOk arena size
  | .free ptr => s.PtrOk ptr
  | .realloc ptr size => s.PtrOk ptr ∧ SizeOk arena size
  | .stats => True

/-- What `heapmem_realloc` needs besides: the new size and the chunk's differ by an `int`. -/
def Fits : HeapCall → Prop
  | .realloc (some ptr) size => size ≠ 0 → FitsInt (align size) (s.heap.size (getChunk ptr))
  | _ => True

instance (arena size : ℕ) : Decidable (SizeOk arena size) := inferInstanceAs (Decidable (_ < _))

instance (s : HeapState) (ptr : Option ℕ) : Decidable (s.PtrOk ptr) :=
  inferInstanceAs (Decidable (∀ p ∈ ptr, p ∈ s.live.map Prod.fst))

instance (arena : ℕ) (s : HeapState) : ∀ call, Decidable (s.Allowed arena call)
  | .alloc size => inferInstanceAs (Decidable (SizeOk arena size))
  | .free ptr => inferInstanceAs (Decidable (s.PtrOk ptr))
  | .realloc ptr size => inferInstanceAs (Decidable (s.PtrOk ptr ∧ SizeOk arena size))
  | .stats => inferInstanceAs (Decidable True)

instance (s : HeapState) : ∀ call, Decidable (s.Fits call)
  | .realloc (some ptr) size =>
    inferInstanceAs (Decidable (size ≠ 0 → FitsInt (align size) (s.heap.size (getChunk ptr))))
  | .realloc none _ | .alloc _ | .free _ | .stats => inferInstanceAs (Decidable True)

/-- The heap before the first call; the headers may hold anything. -/
def Initial : Prop := s.heap.heapUsage = 0 ∧ s.heap.freeList = none ∧ s.live = []

/-- The chunks `cs` tile what is in use, the free list is `fl` and holds the free ones, and the live
objects lie in allocated chunks and apart from each other. -/
structure Consistent (arena : ℕ) (s : HeapState) (cs fl : List ℕ) : Prop where
  tiles : Tiles s.heap.len s.heap.heapUsage 0 cs
  usage_le : s.heap.heapUsage ≤ arena
  free : DLinked s.heap.next s.heap.prev s.heap.freeList fl
  free_nodup : fl.Nodup
  mem_free : ∀ c, c ∈ fl ↔ c ∈ cs ∧ s.heap.allocated c = false
  inside : ∀ b ∈ s.live, ∃ c ∈ cs, b.1 = getPtr c ∧ s.heap.allocated c ∧ b.2 ≤ s.heap.size c
  apart : s.live.Pairwise fun b b' => b.1 ≠ b'.1 ∧ (b.1 + b.2 ≤ b'.1 ∨ b'.1 + b'.2 ≤ b.1)

variable {arena size : ℕ} {s s' : HeapState} {cs fl : List ℕ} {call : HeapCall} {o : Option ℕ}

/-- The invariant of a run. -/
structure Inv (arena : ℕ) (s : HeapState) (cs fl : List ℕ) : Prop where
  good : Good arena s.heap cs fl
  inside : ∀ b ∈ s.live, ∃ c ∈ cs, b.1 = getPtr c ∧ s.heap.allocated c ∧ b.2 ≤ s.heap.size c
  nodup : (s.live.map Prod.fst).Nodup

section

variable (hi : Inv arena s cs fl)

include hi

theorem Inv.consistent : Consistent arena s cs fl := by
  refine ⟨hi.good.tiles, hi.good.usage_le, hi.good.free,
    hi.good.free.linked.nodup, hi.good.mem_free_iff,
    hi.inside, (pairwise_map.mp hi.nodup).imp_of_mem fun {b b'} hb hb' hne => ⟨hne, ?_⟩⟩
  obtain ⟨c, hc, hbc, -, hle⟩ := hi.inside b hb
  obtain ⟨c', hc', hbc', -, hle'⟩ := hi.inside b' hb'
  have hcc : c ≠ c' := fun he => hne (by rw [hbc, hbc', he])
  have hdisj := hi.good.tiles.disjoint hc hc' hcc
  rw [hbc, hbc']
  simp only [getPtr, len] at hdisj ⊢
  omega

/-- A call that is served keeps the invariant. -/
theorem Inv.settle {h' : Heap} {gone result : Option ℕ}
    (hs : Served arena s.heap h' cs gone result size) :
    ∃ cs' fl', Inv arena ⟨h', settle s.live (gone.map getPtr) result size⟩ cs' fl' := by
  obtain ⟨cs', fl', hg, hstay, hnew⟩ := hs
  -- what is left of the old objects lies in other chunks than the one that is gone
  have hold : ∀ b ∈ s.live.filter (fun b => some b.1 ≠ gone.map getPtr), ∃ c ∈ cs, b.1 = getPtr c ∧
      s.heap.allocated c ∧ b.2 ≤ s.heap.size c ∧ some c ≠ gone := fun b hb => by
    obtain ⟨hmem, hne⟩ := mem_filter.mp hb
    obtain ⟨c, hc, hbc, ha, hle⟩ := hi.inside b hmem
    refine ⟨c, hc, hbc, ha, hle, fun he => of_decide_eq_true hne ?_⟩
    rw [← he, hbc, map_some]
  have hnodup : ((s.live.filter fun b => some b.1 ≠ gone.map getPtr).map Prod.fst).Nodup :=
    hi.nodup.sublist (filter_sublist.map _)
  have hkeep : ∀ b ∈ s.live.filter (fun b => some b.1 ≠ gone.map getPtr),
    ∃ c ∈ cs', b.1 = getPtr c ∧
      h'.allocated c ∧ b.2 ≤ h'.size c := fun b hb => by
    obtain ⟨c, hc, hbc, ha, hle, hne⟩ := hold b hb
    obtain ⟨hc', ha', hle'⟩ := hstay c hc hne ha
    exact ⟨c, hc', hbc, ha', hle.trans hle'⟩
  refine ⟨cs', fl', hg, fun b hb => ?_, ?_⟩
  · rcases mem_append.mp hb with hb | hb
    · obtain ⟨p, hp, rfl⟩ := map_eq_some_iff.mp (mem_toList.mp hb)
      obtain ⟨c, hc, hpc, ha, hle, -⟩ := hnew p hp
      exact ⟨c, hc, hpc, ha, hle⟩
    · exact hkeep b hb
  · cases result with
    | none => exact hnodup
    | some p =>
      refine nodup_cons.mpr ⟨fun hmem => ?_, hnodup⟩
      obtain ⟨b, hb, hbp⟩ := mem_map.mp hmem
      obtain ⟨c, -, hpc, -, -, hfresh⟩ := hnew p rfl
      obtain ⟨c', hc', hbc', ha', -, hne⟩ := hold b hb
      have hcc : c' = c := Nat.add_right_cancel (hbc'.symm.trans (hbp.trans hpc))
      exact hne (hcc ▸ hfresh (hcc ▸ hc') (hcc ▸ ha'))

/-- The chunk of a live pointer. -/
theorem Inv.chunk {p : ℕ} (hp : p ∈ s.live.map Prod.fst) :
    ∃ c ∈ cs, p = getPtr c ∧ s.heap.allocated c := by
  obtain ⟨b, hb, rfl⟩ := mem_map.mp hp
  obtain ⟨c, hc, hbc, ha, -⟩ := hi.inside b hb
  exact ⟨c, hc, hbc, ha⟩

/-- **One call** has a result, and keeps the invariant. -/
theorem step_inv (hallowed : s.Allowed arena call) (hfits : s.Fits call) :
    ∃ s' o, step arena s call = some (s', o) ∧ ∃ cs' fl', Inv arena s' cs' fl' := by
  cases call with
  | alloc size =>
    obtain ⟨result, h', hcall, hserved⟩ := heapmemAlloc_served hi.good size
    exact ⟨_, _, by rw [step, hcall]; rfl, hi.settle hserved⟩
  | free ptr =>
    cases ptr with
    | none =>
      have hserved : Served arena s.heap s.heap cs none none 0 := (Preserves.refl hi.good).served
      exact ⟨_, _, rfl, hi.settle hserved⟩
    | some p =>
      obtain ⟨c, hc, rfl, ha⟩ := hi.chunk (hallowed p rfl)
      exact ⟨_, _, rfl, hi.settle (heapmemFree_served hi.good hc ha)⟩
  | realloc ptr size =>
    cases ptr with
    | none =>
      obtain ⟨result, h', hcall, hserved⟩ := heapmemAlloc_served hi.good size
      refine ⟨_, _, by rw [step, heapmemRealloc, hcall]; rfl, ?_⟩
      rw [ite_self]
      exact hi.settle hserved
    | some p =>
      obtain ⟨c, hc, rfl, ha⟩ := hi.chunk (hallowed.1 p rfl)
      obtain ⟨result, h', hcall, hserved⟩ :=
        heapmemRealloc_served hi.good hc ha fun hzero => getChunk_getPtr c ▸ hfits hzero
      refine ⟨_, _, by rw [step, hcall]; rfl, ?_⟩
      have hsettle := hi.settle hserved
      rwa [apply_ite (Option.map getPtr)] at hsettle
  | stats =>
    obtain ⟨stats, h', hcall, hpres, -⟩ := heapmemStats_spec hi.good
    have hserved : Served arena s.heap h' cs none none 0 := hpres.served
    exact ⟨_, _, by rw [step, hcall]; rfl, hi.settle hserved⟩

end

theorem Initial.inv (hinit : s.Initial) : Inv arena s [] [] := by
  obtain ⟨husage, hfree, hlive⟩ := hinit
  refine ⟨⟨husage.symm, husage ▸ Nat.zero_le _, ?_, by simp⟩, by simp [hlive], by simp [hlive]⟩
  rw [hfree]
  exact ⟨rfl, trivial⟩

/-- **The heap stays consistent**, and every call comes to an end, in every run of calls that are
allowed and whose sizes differ from those of their chunks by an `int`. -/
theorem heap_consistent {tr : List (HeapCall × Option ℕ)} (hinit : s.Initial)
    (hrun : Runs (step arena) (fun s call => s.Allowed arena call ∧ s.Fits call) s tr s') :
    (∃ cs fl, Consistent arena s' cs fl) ∧
      ∀ call, s'.Allowed arena call → s'.Fits call → (step arena s' call).isSome := by
  have hinv : ∃ cs fl, Inv arena s' cs fl := by
    refine (hrun.invariant (fun s => ∃ cs fl, Inv arena s cs fl) (fun _ => True) ?_ ⟨_, _,
      hinit.inv⟩).1
    rintro s call s₁ o ⟨cs, fl, hi⟩ hG hstep
    obtain ⟨s₂, o₂, hstep₂, hi₂⟩ := step_inv hi hG.1 hG.2
    obtain ⟨rfl, -⟩ := Prod.mk.inj (some.inj (hstep.symm.trans hstep₂))
    exact ⟨hi₂, trivial⟩
  obtain ⟨cs, fl, hi⟩ := hinv
  refine ⟨⟨cs, fl, hi.consistent⟩, fun call hallowed hfits => ?_⟩
  obtain ⟨s₂, o₂, hstep₂, -⟩ := step_inv hi hallowed hfits
  rw [hstep₂, isSome_some]

/-- The heap before the first call, with headers that are zero. -/
def empty : HeapState := ⟨⟨0, none, fun _ => none, fun _ => none, fun _ => 0, fun _ => false⟩, []⟩

theorem heap_consistent_grown : ∃ tr s',
    Runs (step 200) (fun s call => s.Allowed 200 call ∧ s.Fits call) empty tr s' ∧
      s'.live = [(72, 60)] ∧ ∃ cs fl, Consistent 200 s' cs fl := by
  have hrun : (execute (step 200) (fun s call => s.Allowed 200 call ∧ s.Fits call) empty
      [.alloc 8, .alloc 20, .free (some 32), .realloc (some 72) 60, .stats]).map
        (fun r => r.1.live) =
        some [(72, 60)] := by
    decide +kernel
  obtain ⟨r, hruns, hlive⟩ := exists_run_of_map hrun
  exact ⟨r.2, r.1, hruns, hlive, (heap_consistent ⟨rfl, rfl, rfl⟩ hruns).1⟩

/-- A request for four gigabytes and eight bytes: as an `int` the difference is `0`, and the chunk
of eight bytes is handed out for it. -/
theorem realloc_keeps_old_chunk : ∃ tr s',
    Runs (step 200) (fun s call => s.Allowed 200 call) empty tr s' ∧
      ¬ ∃ cs fl, Consistent 200 s' cs fl := by
  have hrun : (execute (step 200) (fun s call => s.Allowed 200 call) empty
      [.alloc 8, .realloc (some 32) (2 ^ 32 + 8)]).map (fun r => (r.1.live, r.1.heap.size 0)) =
        some ([(32, 2 ^ 32 + 8)], 8) := by
    decide +kernel
  obtain ⟨r, hr, hpair⟩ := exists_run_of_map hrun
  obtain ⟨hlive, hsize⟩ := Prod.mk.inj hpair
  refine ⟨r.2, r.1, hr, fun ⟨cs, fl, hc⟩ => ?_⟩
  obtain ⟨c, -, hptr, -, hle⟩ := hc.inside (32, 2 ^ 32 + 8) (by simp [hlive])
  obtain rfl : c = 0 := by
    simp only [getPtr, sizeofChunk] at hptr
    omega
  omega

end HeapState

end Nespy.Sys
