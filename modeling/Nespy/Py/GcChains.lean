import Nespy.Py.GcAlloc
import Nespy.Py.GcCollect

/-!
# Py — chains of blocks

What `gc_alloc`, `gc_free` and the loops of `gc_realloc` do to the chains in the table.  An
allocation is a head and its tails up to the next block that is no tail (`IsChain`).  Each loop that
changes entries changes those of one run of blocks to one kind (`Fills`); the flags, the pool and
the other entries stay as they are.
-/

open List

namespace Nespy.Py.Gc

open Nespy.Lib

namespace Layout

variable {L : Layout} {h h' h'' : Heap} {a b c fuel i j k n ptr : ℕ} {v : Kind} {roots : Roots}
  {del : (ℕ → BitVec 8) → ℕ → ℕ → BitVec 8}

/-! ### Chains -/

/-- The chain that begins with `b` has `k` blocks. -/
structure IsChain (L : Layout) (h : Heap) (b k : ℕ) : Prop where
  pos : 0 < k
  le : b + k ≤ L.blocks
  head : L.atbGetKind h b = .head
  tail : ∀ c, b < c → c < b + k → L.atbGetKind h c = .tail
  stop : b + k < L.blocks → L.atbGetKind h (b + k) ≠ .tail

theorem IsChain.inChain_iff (hc : L.IsChain h b k) (hlt : c < L.blocks) :
    L.InChain h b c ↔ b ≤ c ∧ c < b + k := by
  constructor
  · rintro ⟨hle, hin⟩
    refine ⟨hle, ?_⟩
    by_contra hge
    have hpos := hc.pos
    exact hc.stop (by omega) (hin (b + k) (by omega) (by omega))
  · rintro ⟨hle, hlt⟩
    exact ⟨hle, fun x hbx hxc => hc.tail x hbx (by omega)⟩

/-- Every head has a chain. -/
theorem exists_isChain (hb : b < L.blocks) (hhead : L.atbGetKind h b = .head) :
    ∃ k, L.IsChain h b k := by
  -- the longest run of tails behind the head
  have key : ∀ m k, 0 < k → b + k + m = L.blocks →
    (∀ c, b < c → c < b + k → L.atbGetKind h c = .tail) →
      ∃ k, L.IsChain h b k := by
    intro m
    induction m with
    | zero => exact fun k hpos hle htail => ⟨k, hpos, by omega, hhead, htail, fun hlt => by omega⟩
    | succ m ih =>
      intro k hpos hle htail
      by_cases hk : L.atbGetKind h (b + k) = .tail
      · refine ih (k + 1) (Nat.succ_pos k) (by omega) fun c hbc hck => ?_
        rcases Nat.lt_or_ge c (b + k) with hlt | hge
        · exact htail c hbc hlt
        · obtain rfl : c = b + k := by omega
          exact hk
      · exact ⟨k, hpos, by omega, hhead, htail, fun _ => hk⟩
  exact key (L.blocks - (b + 1)) 1 Nat.one_pos (by omega) fun c hbc hck => by omega

theorem IsChain.lt (hc : L.IsChain h b k) : b < L.blocks := by
  have hpos := hc.pos
  have hle := hc.le
  omega

theorem IsChain.kind (hc : L.IsChain h b k) (hbc : b ≤ c) (hck : c < b + k) :
    L.atbGetKind h c = if c = b then .head else .tail := by
  rcases hbc.eq_or_lt with rfl | hlt
  · rw [if_pos rfl, hc.head]
  · rw [if_neg hlt.ne', hc.tail c hlt hck]

theorem IsChain.ne_free (hc : L.IsChain h b k) (hbc : b ≤ c) (hck : c < b + k) :
    L.atbGetKind h c ≠ .free := by
  rw [hc.kind hbc hck]
  split <;> simp

/-- The chains of two heads have no block in common. -/
theorem IsChain.disjoint (hb : L.IsChain h b k) (hc : L.IsChain h c n) (hne : b ≠ c) :
    b + k ≤ c ∨ c + n ≤ b := by
  by_contra hnot
  rcases Nat.lt_or_gt_of_ne hne with hlt | hlt
  · have htail := hb.tail c hlt (by omega)
    rw [hc.head] at htail
    cases htail
  · have htail := hc.tail b hlt (by omega)
    rw [hb.head] at htail
    cases htail

theorem IsChain.unique (hk : L.IsChain h b k) (hn : L.IsChain h b n) : k = n := by
  have hpos := hk.pos
  have hpos' := hn.pos
  have hle := hk.le
  have hle' := hn.le
  rcases Nat.lt_trichotomy k n with hlt | heq | hlt
  · exact absurd (hn.tail (b + k) (by omega) (by omega)) (hk.stop (by omega))
  · exact heq
  · exact absurd (hk.tail (b + n) (by omega) (by omega)) (hn.stop (by omega))

/-- A chain stays where its entries and the one behind it stay. -/
theorem IsChain.congr (hc : L.IsChain h b k)
    (hin : ∀ c, b ≤ c → c < b + k → L.atbGetKind h' c = L.atbGetKind h c)
    (hstop : b + k < L.blocks → L.atbGetKind h' (b + k) = .tail → L.atbGetKind h (b + k) = .tail) :
    L.IsChain h' b k where
  pos := hc.pos
  le := hc.le
  head := (hin b (Nat.le_refl b) (Nat.lt_add_of_pos_right hc.pos)).trans hc.head
  tail c hbc hck := (hin c (Nat.le_of_lt hbc) hck).trans (hc.tail c hbc hck)
  stop hlt htail := hc.stop hlt (hstop hlt htail)

theorem bytesPerBlock_pos (L : Layout) : 0 < L.bytesPerBlock :=
  Nat.mul_pos (by decide) L.bytesPerWord_pos

theorem verifyPtr_ptrFromBlock (hb : b < L.blocks) : L.verifyPtr (L.ptrFromBlock b) := by
  refine decide_eq_true ⟨?_, Nat.le_add_left _ _, ?_⟩
  · exact Nat.mod_eq_zero_of_dvd (Nat.dvd_add (Nat.dvd_mul_left _ _) L.aligned)
  · have hpos := L.bytesPerBlock_pos
    have hlt : b * L.bytesPerBlock < L.blocks * L.bytesPerBlock :=
      Nat.mul_lt_mul_of_pos_right hb hpos
    rw [L.pool_eq, ptrFromBlock, Nat.add_comm]
    exact Nat.add_lt_add_left hlt _

@[simp] theorem blockFromPtr_ptrFromBlock : L.blockFromPtr (L.ptrFromBlock b) = b := by
  have hpos := L.bytesPerBlock_pos
  rw [blockFromPtr, ptrFromBlock, Nat.add_sub_cancel, Nat.mul_div_cancel _ hpos]

theorem ptrFromBlock_injective (heq : L.ptrFromBlock b = L.ptrFromBlock c) : b = c := by
  rw [← blockFromPtr_ptrFromBlock (b := b), heq, blockFromPtr_ptrFromBlock]

/-! ### Runs of entries -/

/-- The `n` entries from `c` on become `v`; the rest of the memory stays as it is. -/
structure Fills (L : Layout) (v : Kind) (c n : ℕ) (h h' : Heap) : Prop where
  kind : ∀ b, L.atbGetKind h' b = if c ≤ b ∧ b < c + n then v else L.atbGetKind h b
  mem : ∀ a, L.OffTable a → h'.mem a = h.mem a
  rest : h' = { h with mem := h'.mem }

theorem Fills.nil (h : Heap) : L.Fills v c 0 h h where
  kind b := (if_neg (by omega)).symm
  mem _ _ := rfl
  rest := rfl

section

variable (hf : L.Fills v c n h h')

include hf

theorem Fills.snoc (hkind : ∀ b, L.atbGetKind h'' b = if b = c + n then v else L.atbGetKind h' b)
    (hmem : ∀ a, L.OffTable a → h''.mem a = h'.mem a) (hrest : h'' = { h' with mem := h''.mem }) :
    L.Fills v c (n + 1) h h'' where
  kind b := by
    rw [hkind, hf.kind]
    by_cases hb : b = c + n
    · rw [if_pos hb, if_pos (by omega)]
    · rw [if_neg hb]
      by_cases hin : c ≤ b ∧ b < c + n
      · rw [if_pos hin, if_pos (by omega)]
      · rw [if_neg hin, if_neg (by omega)]
  mem a ha := (hmem a ha).trans (hf.mem a ha)
  rest := by
    rw [hrest, hf.rest]

theorem Fills.inside (hcb : c ≤ b) (hb : b < c + n) : L.atbGetKind h' b = v := by
  rw [hf.kind, if_pos ⟨hcb, hb⟩]

theorem Fills.outside (hb : b < c ∨ c + n ≤ b) : L.atbGetKind h' b = L.atbGetKind h b := by
  rw [hf.kind, if_neg (by omega)]

theorem Fills.ftb (hb : b < L.blocks) : L.ftbGet h' b = L.ftbGet h b :=
  ftbGet_congr (fun a ha _ => hf.mem a ha) hb

end

theorem Fills.atbAnyToFree (hf : L.Fills .free c n h h') (hlt : c + n < L.blocks) :
    L.Fills .free c (n + 1) h (L.atbAnyToFree h' (c + n)) :=
  hf.snoc (fun _ => atbGetKind_atbAnyToFree) (fun _ ha => atbAnyToFree_mem ha hlt) rfl

theorem Fills.atbFreeToTail (hf : L.Fills .tail c n h h') (hlt : c + n < L.blocks)
    (hfree : L.atbGetKind h (c + n) = .free) :
    L.Fills .tail c (n + 1) h (L.atbFreeToTail h' (c + n)) := by
  have hfree' : L.atbGetKind h' (c + n) = .free := (hf.outside (.inr (Nat.le_refl _))).trans hfree
  exact hf.snoc (fun _ => atbGetKind_atbFreeToTail hfree')
    (fun _ ha => atbFreeToTail_mem ha hlt) rfl

theorem fills_foldl_atbAnyToFree (hle : c + n ≤ L.blocks) :
    L.Fills .free c n h ((range' c n).foldl L.atbAnyToFree h) := by
  induction n with
  | zero => exact .nil h
  | succ n ih =>
    rw [range'_concat, foldl_append, Nat.one_mul]
    exact (ih (by omega)).atbAnyToFree (by omega)

section

variable (hle : c + n ≤ L.blocks) (hfree : ∀ b, c ≤ b → b < c + n → L.atbGetKind h b = .free)

include hle hfree

theorem fills_foldl_atbFreeToTail :
    L.Fills .tail c n h ((range' c n).foldl L.atbFreeToTail h) := by
  induction n with
  | zero => exact .nil h
  | succ n ih =>
    rw [range'_concat, foldl_append, Nat.one_mul]
    exact (ih (by omega) fun b hcb hb => hfree b hcb (by omega)).atbFreeToTail (by omega)
      (hfree (c + n) (by omega) (by omega))

/-- The assertion in the loop holds when the blocks are free. -/
theorem fills_foldlM_growTail :
    ∃ h', (range' c n).foldlM L.growTail h = some h' ∧ L.Fills .tail c n h h' := by
  induction n with
  | zero => exact ⟨h, rfl, .nil h⟩
  | succ n ih =>
    obtain ⟨h', hh', hf⟩ := ih (by omega) fun b hcb hb => hfree b hcb (by omega)
    have hlast : L.atbGetKind h (c + n) = .free := hfree (c + n) (by omega) (by omega)
    have hlast' : L.atbGetKind h' (c + n) = .free := (hf.outside (.inr (Nat.le_refl _))).trans hlast
    refine ⟨L.atbFreeToTail h' (c + n), ?_, hf.atbFreeToTail (by omega) hlast⟩
    rw [range'_concat, foldlM_append, hh', Nat.one_mul]
    change (L.growTail h' (c + n) >>= fun h => some h) = _
    rw [growTail, if_pos hlast']
    rfl

end

/-! ### The pool and the flags -/

/-- What only writes into the pool leaves the entries and the flags. -/
structure SameTables (L : Layout) (h h' : Heap) : Prop where
  kind : ∀ c, c < L.blocks → L.atbGetKind h' c = L.atbGetKind h c
  ftb : ∀ c, c < L.blocks → L.ftbGet h' c = L.ftbGet h c

theorem sameTables_of_mem (hmem : ∀ a, a < L.gcPoolStart → h'.mem a = h.mem a) :
    L.SameTables h h' where
  kind _ hc := atbGetKind_of_offTable
    (fun a ha => hmem a (Nat.lt_of_not_le fun hle => ha (offTable_of_pool hle))) hc
  ftb _ hc := ftbGet_congr (fun a _ ha => hmem a ha) hc

theorem sameTables_clear (ha : L.gcPoolStart ≤ a) : L.SameTables h (h.clear a n) :=
  sameTables_of_mem fun x hx => if_neg (by omega)

theorem sameTables_copy (ha : L.gcPoolStart ≤ a) : L.SameTables h (h.copy a c n) :=
  sameTables_of_mem fun x hx => if_neg (by omega)

theorem SameTables.isChain (hs : L.SameTables h h') (hc : L.IsChain h b k) : L.IsChain h' b k := by
  have hle := hc.le
  exact hc.congr (fun c _ hck => hs.kind c (by omega)) fun hlt htail =>
    (hs.kind (b + k) hlt).symm.trans htail

theorem SameTables.wellFormed (hs : L.SameTables h h') (hwf : L.WellFormed h) :
    L.WellFormed h' where
  unmarked b hb := by
    rw [hs.kind b hb]
    exact hwf.unmarked b hb
  tailed b hb htail := by
    rw [hs.kind b hb] at htail
    rw [hs.kind (b - 1) (by omega)]
    exact hwf.tailed b hb htail

theorem pool_le_ptrFromBlock : L.gcPoolStart ≤ L.ptrFromBlock b := Nat.le_add_left _ _

/-- The bytes from block `b` on are in the blocks from `b` on. -/
theorem inBlock_range (hin : L.InBlock c a) :
    (L.ptrFromBlock b ≤ a ∧ a < L.ptrFromBlock b + n * L.bytesPerBlock) ↔ b ≤ c ∧ c < b + n := by
  obtain ⟨hle, hlt⟩ := hin
  rw [ptrFromBlock] at hle hlt ⊢
  constructor
  · rintro ⟨hba, han⟩
    constructor
    · by_contra hcb
      have hmul : (c + 1) * L.bytesPerBlock ≤ b * L.bytesPerBlock :=
        Nat.mul_le_mul_right _ (by omega)
      rw [Nat.succ_mul] at hmul
      omega
    · by_contra hcb
      have hmul : (b + n) * L.bytesPerBlock ≤ c * L.bytesPerBlock :=
        Nat.mul_le_mul_right _ (by omega)
      rw [Nat.add_mul] at hmul
      omega
  · rintro ⟨hbc, hcn⟩
    have hmul : b * L.bytesPerBlock ≤ c * L.bytesPerBlock := Nat.mul_le_mul_right _ hbc
    have hmul' : (c + 1) * L.bytesPerBlock ≤ (b + n) * L.bytesPerBlock := Nat.mul_le_mul_right _ hcn
    rw [Nat.succ_mul, Nat.add_mul] at hmul'
    omega

/-- Every address of the pool is in a block. -/
theorem exists_inBlock (hle : L.ptrFromBlock b ≤ a)
    (hlt : a < L.ptrFromBlock b + n * L.bytesPerBlock) :
    ∃ c, b ≤ c ∧ c < b + n ∧ L.InBlock c a := by
  have hpos := L.bytesPerBlock_pos
  have hin : L.InBlock ((a - L.gcPoolStart) / L.bytesPerBlock) a := by
    have hge : L.gcPoolStart ≤ a := Nat.le_trans pool_le_ptrFromBlock hle
    have hdiv := Nat.div_add_mod (a - L.gcPoolStart) L.bytesPerBlock
    have hmod := Nat.mod_lt (a - L.gcPoolStart) hpos
    rw [Nat.mul_comm] at hdiv
    refine ⟨?_, ?_⟩ <;> rw [ptrFromBlock] <;> omega
  exact ⟨_, ((inBlock_range hin).mp ⟨hle, hlt⟩).1, ((inBlock_range hin).mp ⟨hle, hlt⟩).2, hin⟩

theorem clear_mem (hin : L.InBlock c a) (hout : ¬(b ≤ c ∧ c < b + n)) :
    (h.clear (L.ptrFromBlock b) (n * L.bytesPerBlock)).mem a = h.mem a :=
  if_neg fun hrange => hout ((inBlock_range hin).mp hrange)

theorem copy_mem {src : ℕ} (hin : L.InBlock c a) (hout : ¬(b ≤ c ∧ c < b + n)) :
    (h.copy (L.ptrFromBlock b) src (n * L.bytesPerBlock)).mem a = h.mem a :=
  if_neg fun hrange => hout ((inBlock_range hin).mp hrange)

theorem ftbSet_mem (hne : ∀ start ∈ L.gcFinaliserTableStart, a ≠ start + b / 8) :
    (L.ftbSet h b).mem a = h.mem a := by
  rw [ftbSet]
  cases hstart : L.gcFinaliserTableStart with
  | none => rfl
  | some start => exact packedOr_of_ne (hne start hstart)

theorem ftbGet_ftbSet_of_ne (hcb : c ≠ b) : L.ftbGet (L.ftbSet h b) c = L.ftbGet h c := by
  rw [ftbGet, ftbGet, ftbSet]
  cases L.gcFinaliserTableStart with
  | none => rfl
  | some start =>
    dsimp only
    rw [packedGet_packedOr (by decide) (by decide), if_neg hcb]

theorem atbGetKind_ftbSet (hc : c < L.blocks) :
    L.atbGetKind (L.ftbSet h b) c = L.atbGetKind h c := by
  refine atbGetKind_of_offTable (fun a ha => ftbSet_mem fun start hstart heq => ha ?_) hc
  rw [heq]
  exact ftb_offTable hstart

theorem ftbSet_pool (ha : L.gcPoolStart ≤ a) (hb : b < L.blocks) : (L.ftbSet h b).mem a = h.mem a :=
  ftbSet_mem fun start hstart heq => by
    have hlt := ftb_lt_pool hstart hb
    omega

theorem ftbSet_rest : L.ftbSet h b = { h with mem := (L.ftbSet h b).mem } := by
  rw [ftbSet]
  cases L.gcFinaliserTableStart with
  | none => rfl
  | some start => rfl

theorem ftbClear_rest : L.ftbClear h b = { h with mem := (L.ftbClear h b).mem } := by
  rw [ftbClear]
  cases L.gcFinaliserTableStart with
  | none => rfl
  | some start => rfl

theorem noteFree_mem : (h.noteFree b).mem = h.mem := by
  rw [Heap.noteFree]
  split
  · rfl
  · rfl

theorem noteFree_gcLockDepth : (h.noteFree b).gcLockDepth = h.gcLockDepth := by
  rw [Heap.noteFree]
  split
  · rfl
  · rfl

theorem sameTables_noteFree : L.SameTables h (h.noteFree b) := sameTables_of_mem fun a _ => by
  rw [noteFree_mem]

/-! ### `gc_free` and `gc_nbytes` -/

/-- The chain of `k` blocks from `b` on is freed, and its flag cleared. -/
structure Freed (L : Layout) (b k : ℕ) (h h' : Heap) : Prop where
  kind : ∀ c, c < L.blocks → L.atbGetKind h' c = if b ≤ c ∧ c < b + k then .free
    else L.atbGetKind h c
  ftb : ∀ c, c < L.blocks → L.ftbGet h' c = (L.ftbGet h c && decide (c ≠ b))
  pool : ∀ a, L.gcPoolStart ≤ a → h'.mem a = h.mem a
  lock : h'.gcLockDepth = h.gcLockDepth

theorem freed_of_fills (hb : b < L.blocks)
    (hf : L.Fills .free b k ((L.ftbClear h b).noteFree b) h') :
    L.Freed b k h h' where
  kind c hc := by
    rw [hf.kind, sameTables_noteFree.kind c hc, atbGetKind_ftbClear hc]
  ftb c hc := by
    rw [hf.ftb hc, sameTables_noteFree.ftb c hc, ftbGet_ftbClear]
  pool a ha := by
    rw [hf.mem a (offTable_of_pool ha), noteFree_mem, ftbClear_pool ha hb]
  lock := by
    rw [hf.rest]
    rw [noteFree_gcLockDepth, ftbClear_rest]

/-- A run of blocks is freed, up to the end of a chain. -/
theorem wellFormed_of_freed (hwf : L.WellFormed h)
    (hkind : ∀ c, c < L.blocks → L.atbGetKind h' c = if b ≤ c ∧ c < b + k then .free
      else L.atbGetKind h c)
    (hstop : b + k < L.blocks → L.atbGetKind h (b + k) ≠ .tail) : L.WellFormed h' where
  unmarked c hlt := by
    rw [hkind c hlt]
    split
    · simp
    · exact hwf.unmarked c hlt
  tailed c hlt htail := by
    rw [hkind c hlt] at htail
    split_ifs at htail with hout
    obtain ⟨hpos, hne⟩ := hwf.tailed c hlt htail
    refine ⟨hpos, ?_⟩
    rw [hkind (c - 1) (by omega)]
    split
    · -- the block behind the run is no tail
      obtain rfl : c = b + k := by omega
      exact absurd htail (hstop hlt)
    · exact hne

/-- The loop of `gc_free` has freed a part of the chain, and stands at the next block of it. -/
def Freeing (L : Layout) (b k : ℕ) (h : Heap) (s : Heap × ℕ × List ℕ) : Prop :=
  ∃ j, j < k ∧ s.2.1 = b + j ∧ L.Fills .free b j h s.1 ∧ ∀ e ∈ s.2.2, e < L.blocks

variable {r : Heap × List ℕ} {s : Heap × ℕ × List ℕ}

/-- What `gc_free` does for a head. -/
theorem gcFree_eq (hlock : h.gcLockDepth = 0) (hb : b < L.blocks)
    (hhead : L.atbGetKind h b = .head) :
    L.gcFree h fuel (L.ptrFromBlock b) =
      loop (fun s => some (L.freeTurn s)) fuel ((L.ftbClear h b).noteFree b, b, []) := by
  rw [gcFree, if_neg (by omega), blockFromPtr_ptrFromBlock,
    if_pos ⟨verifyPtr_ptrFromBlock hb, hhead⟩]

/-- The entries that the loop has looked at stay in its log. -/
theorem freeLoop_log
    (hr : loop (fun s => some (L.freeTurn s)) fuel s = some r) : ∀ e ∈ s.2.2, e ∈ r.2 := by
  induction fuel generalizing s with
  | zero => cases hr
  | succ fuel ih =>
    obtain ⟨h', block, log⟩ := s
    intro e he
    rw [loop, freeTurn] at hr
    split_ifs at hr with htail
    · exact ih hr e (mem_append_left _ he)
    · rw [← Option.some.inj hr]
      exact mem_append_left _ he

section

variable (hc : L.IsChain h b k)

include hc

theorem isChain_cleared : L.IsChain ((L.ftbClear h b).noteFree b) b k := by
  have hkind : ∀ c, c < L.blocks →
      L.atbGetKind ((L.ftbClear h b).noteFree b) c = L.atbGetKind h c := by
    intro c hlt
    rw [sameTables_noteFree.kind c hlt, atbGetKind_ftbClear hlt]
  have hle := hc.le
  exact hc.congr (fun c _ hck => hkind c (by omega)) fun hlt htail => (hkind _ hlt).symm.trans htail

/-- The entry behind the chain is looked at, if the loop comes to its end. -/
theorem freeLoop_mem {log : List ℕ} (hj : j < k) (hf : L.Fills .free b j h h')
    (hr : loop (fun s => some (L.freeTurn s)) fuel (h', b + j, log) = some r) : b + k ∈ r.2 := by
  have hle := hc.le
  induction fuel generalizing j h' log with
  | zero => cases hr
  | succ fuel ih =>
    have hf' := hf.atbAnyToFree (by omega : b + j < L.blocks)
    have hnext : L.atbGetKind (L.atbAnyToFree h' (b + j)) (b + j + 1) =
        L.atbGetKind h (b + j + 1) :=
      hf'.outside (.inr (Nat.le_refl _))
    rw [loop, freeTurn, hnext] at hr
    rcases Nat.lt_or_ge (j + 1) k with hlt | hge
    · rw [hc.tail (b + j + 1) (by omega) (by omega)] at hr
      exact ih hlt hf' hr
    · obtain rfl : k = j + 1 := by omega
      have hmem : b + (j + 1) ∈ log ++ [b + j, b + j + 1] := by simp [Nat.add_assoc]
      split_ifs at hr with htail
      · exact freeLoop_log hr _ hmem
      · rw [← Option.some.inj hr]
        exact hmem

/-- `gc_free` looks at the entry behind the chain. -/
theorem gcFree_reads_next (hlock : h.gcLockDepth = 0)
    (hr : L.gcFree h fuel (L.ptrFromBlock b) = some r) :
    b + k ∈ r.2 := by
  have hpos := hc.pos
  have hle := hc.le
  rw [gcFree_eq hlock (by omega) hc.head] at hr
  exact freeLoop_mem (isChain_cleared hc) hpos (.nil _) hr

/-- `gc_nbytes` counts at least the blocks of the chain. -/
theorem IsChain.le_nBlocks (hn : L.nBlocks h fuel b = some n) : k ≤ n := by
  have key :
    ∀ fuel j, loop (fun n => some (if L.atbGetKind h (b + (n + 1)) = .tail then .inl (n + 1)
      else .inr (n + 1))) fuel j = some n → j < n ∧ k ≤ n := by
    intro fuel
    induction fuel with
    | zero => exact fun j hr => nomatch hr
    | succ fuel ih =>
      intro j hr
      rw [loop] at hr
      split_ifs at hr with htail
      · have hlt := ih (j + 1) hr
        omega
      · rw [← Option.some.inj hr]
        refine ⟨Nat.lt_succ_self j, Nat.le_of_not_lt fun hlt => htail ?_⟩
        exact hc.tail (b + (j + 1)) (by omega) (by omega)
  exact (key fuel 0 hn).2

variable (hlt : b + k < L.blocks)

include hlt

/-- **Turn.**  The loop goes on as long as there is a tail of the chain. -/
theorem Freeing.turn (hs : L.Freeing b k h s) :
    (∃ s', L.freeTurn s = .inl s' ∧ L.Freeing b k h s' ∧ L.blocks - s'.2.1 < L.blocks - s.2.1) ∨
      ∃ r, L.freeTurn s = .inr r ∧ L.Fills .free b k h r.1 ∧ ∀ e ∈ r.2, e < L.blocks := by
  obtain ⟨h', block, log⟩ := s
  obtain ⟨j, hj, rfl, hf, hlog⟩ := hs
  have hf' := hf.atbAnyToFree (by omega : b + j < L.blocks)
  have hnext : L.atbGetKind (L.atbAnyToFree h' (b + j)) (b + j + 1) = L.atbGetKind h (b + j + 1) :=
    hf'.outside (.inr (Nat.le_refl _))
  have hlog' : ∀ e ∈ log ++ [b + j, b + j + 1], e < L.blocks :=
    forall_mem_append.mpr ⟨hlog, by simp; omega⟩
  rcases Nat.lt_or_ge (j + 1) k with hlt' | hge
  · refine .inl ⟨(L.atbAnyToFree h' (b + j), b + j + 1, log ++ [b + j, b + j + 1]), ?_,
      ⟨j + 1, hlt', rfl, hf', hlog'⟩, ?_⟩
    · rw [freeTurn, hnext, hc.tail (b + j + 1) (by omega) (by omega), if_pos rfl]
    · dsimp only
      omega
  · obtain rfl : k = j + 1 := by omega
    refine .inr ⟨(L.atbAnyToFree h' (b + j), log ++ [b + j, b + j + 1]), ?_, hf', hlog'⟩
    have hstop : L.atbGetKind h (b + j + 1) ≠ .tail := hc.stop hlt
    rw [freeTurn, hnext, if_neg hstop]

theorem freeLoop_spec (hfuel : L.blocks < fuel) :
    ∃ r, loop (fun s => some (L.freeTurn s)) fuel (h, b, []) = some r ∧
      L.Fills .free b k h r.1 ∧ ∀ e ∈ r.2, e < L.blocks := by
  refine loop_spec (L.Freeing b k h) (fun s => L.blocks - s.2.1) _ (fun s hs => ?_) ⟨0,
    hc.pos, rfl, .nil h, nofun⟩
    (Nat.lt_of_le_of_lt (Nat.sub_le _ _) hfuel)
  rcases hs.turn hc hlt with ⟨s', hs', hinv⟩ | ⟨r, hr, hpost⟩
  · exact .inl ⟨s', congrArg some hs', hinv⟩
  · exact .inr ⟨r, congrArg some hr, hpost⟩

/-- `gc_free` of a chain that does not end with the last block of the pool. -/
theorem gcFree_spec (hlock : h.gcLockDepth = 0) (hfuel : L.blocks < fuel) :
    ∃ h' log, L.gcFree h fuel (L.ptrFromBlock b) = some (h', log) ∧ L.Freed b k h h' ∧
      ∀ e ∈ log, e < L.blocks := by
  have hb : b < L.blocks := by omega
  obtain ⟨r, hr, hfills, hlog⟩ := freeLoop_spec (isChain_cleared hc) hlt hfuel
  exact ⟨r.1, r.2, (gcFree_eq hlock hb hc.head).trans hr, freed_of_fills hb hfills, hlog⟩

/-- The count of `gc_nbytes` for a chain that does not end with the last block. -/
theorem IsChain.nBlocks (hfuel : L.blocks < fuel) : L.nBlocks h fuel b = some k := by
  obtain ⟨r, hr, rfl⟩ : ∃ r, L.nBlocks h fuel b = some r ∧ r = k := by
    refine loop_spec (fun n => n < k) (fun n => L.blocks - n) _ (fun n hn => ?_) hc.pos
      (Nat.lt_of_le_of_lt (Nat.sub_le _ _) hfuel)
    rcases Nat.lt_or_ge (n + 1) k with hlt' | hge
    · have htail := hc.tail (b + (n + 1)) (by omega) (by omega)
      exact .inl ⟨n + 1, by rw [if_pos htail], hlt', by omega⟩
    · obtain rfl : k = n + 1 := by omega
      exact .inr ⟨n + 1, by rw [if_neg (hc.stop hlt)], rfl⟩
  exact hr

end

end Layout

end Nespy.Py.Gc
