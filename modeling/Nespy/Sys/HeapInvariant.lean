import Nespy.Lib.Tiles
import Nespy.Sys.Heapmem

/-!
# Sys — the chunks of the heap

The representation invariant of the heap, `Good`: the chunks tile what is in use, and the free list
is a doubly linked list of the chunks that are not allocated.  There is one lemma for each function
of `lib/heapmem.c`, which says that it comes to an end, keeps the invariant, and leaves the chunks
that are allocated where and as they are (`Kept`), but for the one it is called for.
-/

open List Function

namespace Nespy.Sys.Heap

open Nespy.Lib

variable {arena : ℕ} {h h' : Heap} {c d n offset : ℕ} {cs cs' fl l₁ l₂ : List ℕ}

/-- The length of a chunk with its header. -/
def len (h : Heap) (c : ℕ) : ℕ := sizeofChunk + h.size c

theorem len_pos (h : Heap) (c : ℕ) : 0 < h.len c := Nat.add_pos_left (by decide) _

theorem nextChunk_eq (h : Heap) (c : ℕ) : h.nextChunk c = c + h.len c := Nat.add_assoc ..

/-- The chunks are `cs`; the free list is `fl`, and holds the free chunks but for `missing`. -/
structure GoodBut (arena : ℕ) (h : Heap) (cs fl : List ℕ) (missing : Option ℕ) : Prop where
  tiles : Tiles h.len h.heapUsage 0 cs
  usage_le : h.heapUsage ≤ arena
  free : DLinked h.next h.prev h.freeList fl
  mem_free : ∀ c, c ∈ fl ↔ c ∈ cs ∧ h.allocated c = false ∧ some c ≠ missing

/-- The representation invariant. -/
abbrev Good (arena : ℕ) (h : Heap) (cs fl : List ℕ) : Prop := GoodBut arena h cs fl none

/-- The chunk `c` is allocated and has its size. -/
def Kept (h h' : Heap) (cs' : List ℕ) (c : ℕ) : Prop :=
  c ∈ cs' ∧ h'.allocated c ∧ h'.size c = h.size c

theorem Good.mem_free_iff (hg : Good arena h cs fl) (c : ℕ) :
    c ∈ fl ↔ c ∈ cs ∧ h.allocated c = false := by
  simpa using hg.mem_free c

theorem GoodBut.nodup {missing : Option ℕ} (hg : GoodBut arena h cs fl missing) : cs.Nodup :=
  hg.tiles.nodup h.len_pos

/-- The sizes of other chunks than `c` are left alone, so their lengths are. -/
theorem len_update (h : Heap) (c size d : ℕ) (hd : d ≠ c) : (h.setSize c size).len d = h.len d := by
  simp [len, hd]

theorem mem_insert : d ∈ l₁ ++ c :: n :: l₂ ↔ d = n ∨ d ∈ l₁ ++ c :: l₂ := by
  simp only [mem_append, mem_cons]
  tauto

/-! ### `allocate_chunk` -/

/-- `allocate_chunk` takes the chunk off the free list. -/
theorem allocateChunk_eq (hf : DLinked h.next h.prev h.freeList fl) (hc : c ∈ fl) :
    ∃ freeList next prev, h.allocateChunk c = some { h.setAllocated c true with
        freeList := freeList, next := next, prev := prev } ∧
          DLinked next prev freeList (fl.erase c) := by
  by_cases hhead : h.freeList = some c
  · rw [hhead] at hf
    refine ⟨_, _, _, ?_, hf.tail⟩
    -- the `prev` of the first chunk is `NULL`, so the second assignment repeats the first
    have hprev : setPrev h.prev (h.next c) none c = none := by
      cases hn : h.next c with
      | none => exact hf.prev_head
      | some d =>
        by_cases hcd : c = d
        · exact hcd ▸ update_self ..
        · exact (update_of_ne hcd ..).trans hf.prev_head
    simp only [allocateChunk, setAllocated, hhead, if_true, Option.map_some, hprev, setPrev_setPrev]
  · obtain ⟨p, hp, hprev, hlinked⟩ := hf.unlink hc hhead
    refine ⟨_, _, _, ?_, hlinked⟩
    have hnext : update h.next p (h.next c) c = h.next c := by
      by_cases hcp : c = p
      · exact hcp ▸ update_self ..
      · exact update_of_ne hcp ..
    simp only [allocateChunk, setAllocated, hhead, if_false, hprev, Option.map_some, hnext]

theorem allocateChunk_good (hg : Good arena h cs fl) (hc : c ∈ fl) :
    ∃ h', h.allocateChunk c = some h' ∧ Good arena h' cs (fl.erase c) ∧ h'.size = h.size ∧
      h'.allocated = update h.allocated c true ∧ h'.heapUsage = h.heapUsage := by
  obtain ⟨freeList, next, prev, hcall, hfree⟩ := allocateChunk_eq hg.free hc
  refine ⟨_, hcall, ⟨hg.tiles, hg.usage_le, hfree, fun d => ?_⟩, rfl, rfl, rfl⟩
  rw [hg.free.linked.nodup.mem_erase_iff, hg.mem_free_iff]
  by_cases hdc : d = c
  · simp [hdc]
  · simp [hdc]

/-! ### `coalesce_chunks` -/

/-- The chunk `c` takes in the free chunk `n` behind it. -/
theorem absorb_good (hg : Good arena h (l₁ ++ c :: n :: l₂) fl) (hn : h.allocated n = false) :
    ∃ h', (h.setSize c (h.size c + (sizeofChunk + h.size n))).allocateChunk n = some h' ∧
      Good arena h' (l₁ ++ c :: l₂) (fl.erase n) ∧ h'.size = update h.size c (h.size c + h.len n) ∧
      h'.allocated = update h.allocated n true ∧ h'.heapUsage = h.heapUsage := by
  have hmem : n ∈ l₁ ++ c :: n :: l₂ := by simp
  have hnfl : n ∈ fl := (hg.mem_free_iff n).mpr ⟨hmem, hn⟩
  obtain ⟨freeList, next, prev, hcall, hfree⟩ :=
    allocateChunk_eq (h := h.setSize c (h.size c + (sizeofChunk + h.size n))) hg.free hnfl
  refine ⟨_, hcall, ⟨?_, hg.usage_le, hfree, fun d => ?_⟩, rfl, rfl, rfl⟩
  · -- the end of `n` is now that of `c`
    obtain ⟨h₁, rfl, h₂⟩ := hg.tiles.mid_of_eq h.len_pos
      (len_update h c (h.size c + (sizeofChunk + h.size n)))
    have hne : c + h.len c ≠ c := (Nat.lt_add_of_pos_right (h.len_pos c)).ne'
    rw [len_update h c _ _ hne] at h₂
    refine tiles_mid.mpr ⟨h₁, ?_⟩
    have hlen : (h.setSize c (h.size c + (sizeofChunk + h.size (c + h.len c)))).len c =
        h.len c + h.len (c + h.len c) := by
      simp [len, Nat.add_assoc]
    exact (congrArg (c + ·) hlen).trans (Nat.add_assoc ..).symm ▸ h₂
  · have hnot : n ∉ l₁ ++ c :: l₂ := fun hmem' => by
      have hnodup := hg.nodup
      rw [nodup_append, nodup_cons, nodup_cons] at hnodup
      simp only [mem_append, mem_cons] at hmem' hnodup
      grind
    rw [hg.free.linked.nodup.mem_erase_iff, hg.mem_free_iff, mem_insert]
    by_cases hdn : d = n
    · simp [hdn, hnot]
    · simp [hdn]

/-- What `coalesce_chunks` leaves: `c` may have grown, and chunks behind it are gone. -/
structure Coalesced (arena : ℕ) (h h' : Heap) (cs l₁ : List ℕ) (c : ℕ) : Prop where
  good : ∃ l₂ fl, Good arena h' (l₁ ++ c :: l₂) fl ∧
    ∀ d ∈ cs, d ≠ c → h.allocated d → Kept h h' (l₁ ++ c :: l₂) d
  allocated : h'.allocated c = h.allocated c
  size_le : h.size c ≤ h'.size c
  heapUsage : h'.heapUsage = h.heapUsage

theorem Coalesced.refl (hg : Good arena h (l₁ ++ c :: l₂) fl) :
    Coalesced arena h h (l₁ ++ c :: l₂) l₁ c :=
  ⟨⟨l₂, fl, hg, fun _ hd _ ha => ⟨hd, ha, rfl⟩⟩, rfl, Nat.le_refl _, rfl⟩

/-- Merging keeps the heap in order. -/
theorem coalesceLoop_spec {fuel : ℕ} (hg : Good arena h (l₁ ++ c :: l₂) fl)
    (hfuel : l₂.length < fuel) :
    ∃ h', coalesceLoop c fuel h (c + h.len c) = some h' ∧
      Coalesced arena h h' (l₁ ++ c :: l₂) l₁ c := by
  induction l₂ generalizing h fl fuel with
  | nil =>
    obtain _ | fuel := fuel
    · cases hfuel
    refine ⟨h, ?_, .refl hg⟩
    have hend : c + h.len c = h.heapUsage := (tiles_mid.mp hg.tiles).2
    rw [coalesceLoop, if_neg (by simp [hend])]
  | cons n l₂ ih =>
    obtain _ | fuel := fuel
    · cases hfuel
    obtain ⟨-, hn, h₂⟩ := tiles_mid.mp hg.tiles
    have hlt : c + h.len c < h.heapUsage := by
      have hle := h₂.le
      have hpos := h.len_pos (c + h.len c)
      omega
    have hne : n ≠ c := hn ▸ (Nat.lt_add_of_pos_right (h.len_pos c)).ne'
    rw [coalesceLoop, ← hn]
    cases han : h.allocated n with
    | true =>
      refine ⟨h, ?_, .refl hg⟩
      rw [if_neg (by simp)]
    | false =>
      obtain ⟨h₁, hcall, hg₁, hsize, halloc, husage⟩ := absorb_good hg han
      have hcond : (decide (n < h.heapUsage) && !false) = true := by simp [hn, hlt]
      have hnext : h₁.nextChunk n = c + h₁.len c := by
        rw [nextChunk_eq, len, len, hsize, update_of_ne hne, update_self, hn, len, len]
        omega
      obtain ⟨h', hloop, ⟨l₃, fl', hg', hkept⟩, hallocated, hle, husage'⟩ :=
        ih hg₁ (Nat.lt_of_succ_lt_succ hfuel)
      refine ⟨h', ?_, ⟨l₃, fl', hg', fun d hd hdc ha => ?_⟩, ?_, ?_, husage'.trans husage⟩
      · simp only [if_pos hcond, hcall, Option.bind_some, hnext, hloop]
      · have hdn : d ≠ n := fun he => by simp [he, han] at ha
        have hd₁ : d ∈ l₁ ++ c :: l₂ := (mem_insert.mp hd).resolve_left hdn
        have ha₁ : h₁.allocated d := by rw [halloc, update_of_ne hdn]; exact ha
        obtain ⟨hmem, ha', hsz⟩ := hkept d hd₁ hdc ha₁
        exact ⟨hmem, ha', by rw [hsz, hsize, update_of_ne hdc]⟩
      · rw [hallocated, halloc, update_of_ne hne.symm]
      · rw [hsize, update_self] at hle
        exact (Nat.le_add_right ..).trans hle

/-- **`coalesce_chunks`.** -/
theorem coalesceChunks_spec (hg : Good arena h cs fl) (hc : c ∈ cs) :
    ∃ h' l₁, h.coalesceChunks c = some h' ∧ Coalesced arena h h' cs l₁ c := by
  obtain ⟨l₁, l₂, rfl⟩ := append_of_mem hc
  have hlen := hg.tiles.length_le h.len_pos
  rw [length_append, length_cons] at hlen
  have hfuel : l₂.length < h.heapUsage + 1 := by omega
  obtain ⟨h', hloop, hcoal⟩ := coalesceLoop_spec hg hfuel
  exact ⟨h', l₁, by rw [coalesceChunks, nextChunk_eq]; exact hloop, hcoal⟩

/-! ### `defrag_chunks` -/

/-- A step that changes nothing about the allocated chunks. -/
def Preserves (arena : ℕ) (h h' : Heap) (cs : List ℕ) : Prop :=
  ∃ cs' fl', Good arena h' cs' fl' ∧ ∀ d ∈ cs, h.allocated d → Kept h h' cs' d

theorem Preserves.refl (hg : Good arena h cs fl) : Preserves arena h h cs :=
  ⟨cs, fl, hg, fun _ hd ha => ⟨hd, ha, rfl⟩⟩

theorem Kept.trans {h'' : Heap} {cs'' : List ℕ} (hk : Kept h h' cs' d)
    (hk' : d ∈ cs' → h'.allocated d → Kept h' h'' cs'' d) : Kept h h'' cs'' d := by
  obtain ⟨hmem, ha, hsize⟩ := hk
  obtain ⟨hmem', ha', hsize'⟩ := hk' hmem ha
  exact ⟨hmem', ha', hsize'.trans hsize⟩

/-- `coalesce_chunks` for a free chunk. -/
theorem coalesceChunks_free (hg : Good arena h cs fl) (hc : c ∈ fl) :
    ∃ h' cs' fl', h.coalesceChunks c = some h' ∧ Good arena h' cs' fl' ∧ c ∈ fl' ∧
      (∀ d ∈ cs, h.allocated d → Kept h h' cs' d) ∧ h'.heapUsage = h.heapUsage := by
  obtain ⟨hmem, hfree⟩ := (hg.mem_free_iff c).mp hc
  obtain ⟨h', l₁, hcall, ⟨l₂, fl', hg', hkept⟩, halloc, -, husage⟩ := coalesceChunks_spec hg hmem
  refine ⟨h', _, fl', hcall, hg', ?_, fun d hd ha => hkept d hd ?_ ha, husage⟩
  · exact (hg'.mem_free_iff c).mpr ⟨by simp, halloc.trans hfree⟩
  · rintro rfl
    simp [hfree] at ha

/-- Merging at the front of the free list keeps the heap in order. -/
theorem defragLoop_spec {i : ℕ} {p : Option ℕ} (hg : Good arena h cs fl) (hp : ∀ c ∈ p, c ∈ fl) :
    ∃ h', defragLoop i h p = some h' ∧ Preserves arena h h' cs := by
  induction i generalizing h cs fl p with
  | zero => exact ⟨h, by cases p <;> rfl, .refl hg⟩
  | succ i ih =>
    cases p with
    | none => exact ⟨h, rfl, .refl hg⟩
    | some c =>
      obtain ⟨h₁, cs₁, fl₁, hcall, hg₁, hc₁, hkept₁, -⟩ := coalesceChunks_free hg (hp c rfl)
      -- what comes behind `c` now is on the list
      have hnext : ∀ d ∈ h₁.next c, d ∈ fl₁ := fun d hd =>
        hg₁.free.linked.mem_iff.mpr (.inr ⟨c, hc₁, hd⟩)
      obtain ⟨h', hloop, cs', fl', hg', hkept⟩ := ih hg₁ hnext
      refine ⟨h', ?_, cs', fl', hg', fun d hd ha => (hkept₁ d hd ha).trans (hkept d)⟩
      rw [defragLoop, hcall]
      exact hloop

/-- **`defrag_chunks`.** -/
theorem defragChunks_spec (hg : Good arena h cs fl) :
    ∃ h', h.defragChunks = some h' ∧ Preserves arena h h' cs :=
  defragLoop_spec hg fun _ hc => hg.free.linked.mem_iff.mpr (.inl hc)

/-! ### `free_chunk` -/

/-- **`free_chunk`.**  The chunk goes to the wilderness or on the free list. -/
theorem freeChunk_spec (hg : GoodBut arena h cs fl (some c)) (hc : c ∈ cs) :
    ∃ cs' fl', Good arena (h.freeChunk c) cs' fl' ∧ (∀ d ∈ cs, d ≠ c → d ∈ cs') ∧
      (h.freeChunk c).size = h.size ∧ (h.freeChunk c).allocated = update h.allocated c false := by
  obtain ⟨l₁, l₂, rfl⟩ := append_of_mem hc
  have hcfl : c ∉ fl := fun hmem => ((hg.mem_free c).mp hmem).2.2 rfl
  by_cases hlast : (h.setAllocated c false).isLastChunk c
  · have hend : c + h.len c = h.heapUsage := by
      rw [← nextChunk_eq]
      exact of_decide_eq_true hlast
    obtain ⟨-, rfl⟩ | ⟨hlt, -⟩ := hg.tiles.next h.len_pos
    · have hcl : c ∉ l₁ := fun hmem =>
        (nodup_append.mp hg.nodup).2.2 c hmem c mem_cons_self rfl
      have hcall : h.freeChunk c = { h.setAllocated c false with heapUsage := c } := by
        simp only [freeChunk, hlast, if_true]
        simp only [setAllocated, len] at hend ⊢
        congr 1
        omega
      rw [hcall]
      refine ⟨l₁, fl, ⟨(tiles_mid.mp hg.tiles).1, ?_, hg.free, fun d => ?_⟩, ?_, rfl, rfl⟩
      · have hle := hg.usage_le
        exact Nat.le_trans (Nat.le_trans (Nat.le_add_right ..) hend.le) hle
      · rw [hg.mem_free]
        by_cases hdc : d = c
        · simp [hdc, hcl]
        · simp [hdc]
      · intro d hd hdc
        simpa [hdc] using hd
    · omega
  · have hcall : h.freeChunk c = { h.setAllocated c false with
        prev := setPrev (update h.prev c none) h.freeList (some c)
        next := update h.next c h.freeList
        freeList := some c } := by
      simp only [freeChunk, hlast]
      rfl
    rw [hcall]
    refine ⟨_, c :: fl, ⟨hg.tiles, hg.usage_le, hg.free.push hcfl, fun d => ?_⟩,
      fun d hd _ => hd, rfl, rfl⟩
    rw [mem_cons, hg.mem_free]
    by_cases hdc : d = c
    · simp [hdc]
    · simp [hdc]

/-- A chunk that is allocated is freed. -/
theorem freeChunk_allocated (hg : Good arena h cs fl) (hc : c ∈ cs) (ha : h.allocated c) :
    ∃ cs' fl', Good arena (h.freeChunk c) cs' fl' ∧
      ∀ d ∈ cs, d ≠ c → h.allocated d → Kept h (h.freeChunk c) cs' d := by
  have hbut : GoodBut arena h cs fl (some c) := by
    refine ⟨hg.tiles, hg.usage_le, hg.free, fun d => ?_⟩
    rw [hg.mem_free_iff]
    by_cases hdc : d = c
    · simp [hdc, ha]
    · simp [hdc]
  obtain ⟨cs', fl', hg', hmem, hsize, halloc⟩ := freeChunk_spec hbut hc
  refine ⟨cs', fl', hg', fun d hd hdc had => ⟨hmem d hd hdc, ?_, by rw [hsize]⟩⟩
  rw [halloc, update_of_ne hdc]
  exact had

/-! ### `split_chunk` -/

theorem freeChunk_setSize (size : ℕ) (hne : c ≠ n) :
    (h.setSize c size).freeChunk n = (h.freeChunk n).setSize c size := by
  have hsize : update h.size c size n = h.size n := update_of_ne hne.symm ..
  by_cases hlast : n + sizeofChunk + h.size n = h.heapUsage
  · simp [freeChunk, hsize, hlast]
  · simp [freeChunk, hsize, hlast]

/-- The links of a chunk that is not on the free list are of no account. -/
theorem Good.unlinked (hg : Good arena h cs fl) (hc : c ∉ fl) (v w : Option ℕ) :
    Good arena { h with next := update h.next c v, prev := update h.prev c w } cs fl :=
  ⟨hg.tiles, hg.usage_le, ⟨hg.free.linked.update hc, hg.free.back.update hc⟩, hg.mem_free⟩

theorem getPtr_add_ne (c offset : ℕ) : getPtr c + offset ≠ c := by
  have hpos : 0 < sizeofChunk := by decide
  rw [getPtr]
  omega

section

variable (hg : Good arena h (l₁ ++ c :: l₂) fl) (hlt : offset + sizeofChunk < h.size c)

include hg hlt

/-- Inside a chunk no chunk begins. -/
theorem cut_not_mem :
    getPtr c + offset ∉ l₁ ++ c :: l₂ := by
  intro hmem
  have hptr : getPtr c = c + sizeofChunk := rfl
  rcases hg.tiles.disjoint (mem_append_right l₁ mem_cons_self) hmem
    (getPtr_add_ne c offset).symm with hle | hle
  · rw [len] at hle
    omega
  · have hpos := h.len_pos (getPtr c + offset)
    omega

/-- The rest of `c` behind `offset` is cut off, and is not on the free list yet. -/
theorem cut_good :
    GoodBut arena (((h.setSize (getPtr c + offset) (h.size c - sizeofChunk - offset)).setAllocated
      (getPtr c + offset) false).setSize c offset) (l₁ ++ c :: (getPtr c + offset) :: l₂) fl
      (some (getPtr c + offset)) := by
  have hne := getPtr_add_ne c offset
  have hnot := cut_not_mem hg hlt
  obtain ⟨hnodup, hnodup', hdisj⟩ := nodup_append.mp hg.nodup
  obtain ⟨hcl₂, -⟩ := nodup_cons.mp hnodup'
  refine ⟨?_, hg.usage_le, hg.free, fun d => ?_⟩
  · obtain ⟨h₁, h₂⟩ := tiles_mid.mp hg.tiles
    refine tiles_mid.mpr ⟨h₁.of_eq fun d hd => ?_, ?_, ?_⟩
    · have hdc : d ≠ c := hdisj d hd c mem_cons_self
      have hdn : d ≠ getPtr c + offset := fun he => hnot (he ▸ mem_append_left _ hd)
      simp [len, hdc, hdn]
    · simp [len, getPtr, Nat.add_assoc]
    · have hlen :
          c + h.len c = getPtr c + offset + (sizeofChunk + (h.size c - sizeofChunk - offset)) := by
        rw [len, getPtr]
        omega
      have hptr : c + (sizeofChunk + offset) = getPtr c + offset := by rw [getPtr, Nat.add_assoc]
      simp only [len, setSize, setAllocated, update_self, hptr, update_of_ne hne]
      rw [hlen] at h₂
      refine h₂.of_eq fun d hd => ?_
      have hdc : d ≠ c := fun he => hcl₂ (he ▸ hd)
      have hdn : d ≠ getPtr c + offset := fun he =>
        hnot (he ▸ mem_append_right _ (mem_cons_of_mem _ hd))
      simp [len, hdc, hdn]
  · rw [hg.mem_free_iff, mem_insert]
    by_cases hdn : d = getPtr c + offset
    · simp only [hdn, hnot, false_and, ne_eq, not_true_eq_false, and_false]
    · simp [hdn]

end

/-- **`split_chunk`.**  The chunk keeps `offset` bytes, or all it has. -/
theorem splitChunk_spec (hg : Good arena h cs fl) (hc : c ∈ cs) (ha : h.allocated c)
    (hoffset : align offset ≤ h.size c) :
    ∃ cs' fl', Good arena (h.splitChunk c offset) cs' fl' ∧ c ∈ cs' ∧
      (h.splitChunk c offset).allocated c ∧
      align offset ≤ (h.splitChunk c offset).size c ∧
      ∀ d ∈ cs, d ≠ c → h.allocated d → Kept h (h.splitChunk c offset) cs' d := by
  by_cases hlt : align offset + sizeofChunk < h.size c
  · obtain ⟨l₁, l₂, rfl⟩ := append_of_mem hc
    have hcut := cut_good hg hlt
    obtain ⟨cs', fl', hg', hmem, hsize, halloc⟩ := freeChunk_spec hcut (by simp)
    have hne := getPtr_add_ne c (align offset)
    have hsplit : h.splitChunk c offset = _ := if_pos hlt
    rw [← freeChunk_setSize _ hne.symm] at hsplit
    generalize hgdef : (((h.setSize (getPtr c + align offset)
      (h.size c - sizeofChunk - align offset)).setAllocated (getPtr c + align offset) false).setSize
        c
      (align offset)).freeChunk (getPtr c + align offset) = g
    rw [hgdef] at hg' hsize halloc hsplit
    have hkept : ∀ d ∈ l₁ ++ c :: l₂, h.allocated d → d ∈ cs' ∧ g.allocated d := fun d hd had => by
      have hdn : d ≠ getPtr c + align offset := fun he => cut_not_mem hg hlt (he ▸ hd)
      exact ⟨hmem d (mem_insert.mpr (.inr hd)) hdn, by simp [halloc, hdn, had]⟩
    obtain ⟨hcs', hac⟩ := hkept c hc ha
    have hcfl : c ∉ fl' := fun hmem' => by simp [((hg'.mem_free_iff c).mp hmem').2] at hac
    rw [hsplit]
    refine ⟨cs', fl', hg'.unlinked hcfl none none, hcs', hac, ?_, fun d hd hdc had => ?_⟩
    · simp [hsize]
    · have hdn : d ≠ getPtr c + align offset := fun he => cut_not_mem hg hlt (he ▸ hd)
      exact ⟨(hkept d hd had).1, (hkept d hd had).2, by simp [hsize, hdc, hdn]⟩
  · have hcall : h.splitChunk c offset = h := if_neg hlt
    rw [hcall]
    exact ⟨cs, fl, hg, hc, ha, hoffset, fun d hd _ had => ⟨hd, had, rfl⟩⟩

/-! ### `get_free_chunk` -/

/-- The chunk that is found is free and large enough. -/
theorem searchLoop_spec {i size : ℕ} {best p : Option ℕ} (hf : Linked h.next h.freeList fl)
    (hbest : ∀ b ∈ best, b ∈ fl ∧ size ≤ h.size b) (hp : ∀ c ∈ p, c ∈ fl) :
    ∀ b ∈ h.searchLoop size i best p, b ∈ fl ∧ size ≤ h.size b := by
  induction i generalizing best p with
  | zero => cases p <;> exact hbest
  | succ i ih =>
    cases p with
    | none => exact hbest
    | some c =>
      have hc := hp c rfl
      have hnext : ∀ d ∈ h.next c, d ∈ fl := fun d hd => hf.mem_iff.mpr (.inr ⟨c, hc, hd⟩)
      rw [searchLoop]
      split_ifs with hsize
      · have hgood : h.better c best ∈ fl ∧ size ≤ h.size (h.better c best) := by
          cases best with
          | none => exact ⟨hc, hsize⟩
          | some b =>
            rw [better]
            split
            · exact ⟨hc, hsize⟩
            · exact hbest b rfl
        dsimp only
        split
        · exact fun b hb => Option.some.inj hb ▸ hgood
        · exact ih (fun b hb => Option.some.inj hb ▸ hgood) hnext
      · exact ih hbest hnext

/-- A chunk that was not allocated is, with room for `size` bytes; the allocated ones are left
alone. -/
structure Allocates (arena : ℕ) (h h' : Heap) (cs : List ℕ) (c size : ℕ) : Prop where
  good : ∃ cs' fl', Good arena h' cs' fl' ∧ c ∈ cs' ∧ ∀ d ∈ cs, h.allocated d → Kept h h' cs' d
  fresh : ¬(c ∈ cs ∧ h.allocated c)
  allocated : h'.allocated c
  size_le : size ≤ h'.size c

/-- **`get_free_chunk`.** -/
theorem getFreeChunk_spec {size : ℕ} (hg : Good arena h cs fl) (hsize : align size = size) :
    (∃ h', h.getFreeChunk size = some (none, h') ∧ Preserves arena h h' cs) ∨
      ∃ c h', h.getFreeChunk size = some (some c, h') ∧ Allocates arena h h' cs c size := by
  obtain ⟨h₁, hdefrag, cs₁, fl₁, hg₁, hkept₁⟩ := defragChunks_spec hg
  have hsearch : ∀ b ∈ h₁.searchLoop size chunkSearchMax none h₁.freeList, b ∈ fl₁ ∧
      size ≤ h₁.size b :=
    searchLoop_spec hg₁.free.linked (by simp) fun c hc => hg₁.free.linked.mem_iff.mpr (.inl hc)
  rw [getFreeChunk, hdefrag, Option.bind_some]
  cases hbest : h₁.searchLoop size chunkSearchMax none h₁.freeList with
  | none => exact .inl ⟨h₁, rfl, cs₁, fl₁, hg₁, hkept₁⟩
  | some c =>
    obtain ⟨hc, hle⟩ := hsearch c hbest
    obtain ⟨hmem, hfree⟩ := (hg₁.mem_free_iff c).mp hc
    obtain ⟨h₂, hcall, hg₂, hsize₂, halloc₂, -⟩ := allocateChunk_good hg₁ hc
    have hac : h₂.allocated c := by rw [halloc₂, update_self]
    have hle₂ : align size ≤ h₂.size c := by rw [hsize, hsize₂]; exact hle
    obtain ⟨cs', fl', hg', hmem', hac', hsize', hkept'⟩ := splitChunk_spec hg₂ hmem hac hle₂
    rw [hsize] at hsize'
    refine .inr ⟨c, _, by simp only [hcall]; rfl, ⟨cs', fl', hg', hmem',
      fun d hd had => ?_⟩, ?_, hac', hsize'⟩
    · obtain ⟨hd₁, had₁, hsz₁⟩ := hkept₁ d hd had
      have hdc : d ≠ c := fun he => by simp [he, hfree] at had₁
      have had₂ : h₂.allocated d := by rw [halloc₂, update_of_ne hdc]; exact had₁
      obtain ⟨hd', had', hsz'⟩ := hkept' d hd₁ hdc had₂
      exact ⟨hd', had', by rw [hsz', hsize₂, hsz₁]⟩
    · rintro ⟨hcs, hold⟩
      simp [(hkept₁ c hcs hold).2.1] at hfree

end Nespy.Sys.Heap
