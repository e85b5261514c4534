import Mathlib.Data.Finset.Card
import Mathlib.Tactic.Ring
import Nespy.Py.Gc

/-!
# Py — marking

What `gc_mark_subtree` does to a well-formed heap: heads become marks and nothing else changes
(`Grows`), every block that it marks can be reached from a marked one, and when it ends the children
of every block it has marked are marked too, or the overflow flag is set.  The blocks on the stack
are those whose children are still to be marked, so the invariant of the loop excepts them.
-/

open List

namespace Nespy.Py.Gc

open Nespy.Lib

namespace Layout

variable {L : Layout} {h h' h'' : Heap} {a b c block fuel n ptr : ℕ}

/-! ### The tables -/

theorem div_four_lt (hb : b < L.blocks) : b / 4 < L.gcAllocTableByteLen :=
  Nat.div_lt_of_lt_mul (by rw [Nat.mul_comm]; exact hb)

/-- The address is not in the allocation table. -/
def OffTable (L : Layout) (a : ℕ) : Prop :=
  a < L.gcAllocTableStart ∨ L.gcAllocTableStart + L.gcAllocTableByteLen ≤ a

section

variable (ha : L.OffTable a) (hb : b < L.blocks)

include ha hb

theorem offTable_ne : a ≠ L.gcAllocTableStart + b / (8 / 2) := by
  have hlt := div_four_lt hb
  rcases ha with ha | ha
  · omega
  · omega

theorem atbAnyToFree_mem : (L.atbAnyToFree h b).mem a = h.mem a :=
  packedClear_of_ne (offTable_ne ha hb)

theorem atbFreeToHead_mem : (L.atbFreeToHead h b).mem a = h.mem a :=
  packedOr_of_ne (offTable_ne ha hb)

theorem atbFreeToTail_mem : (L.atbFreeToTail h b).mem a = h.mem a :=
  packedOr_of_ne (offTable_ne ha hb)

theorem atbHeadToMark_mem : (L.atbHeadToMark h b).mem a = h.mem a :=
  packedOr_of_ne (offTable_ne ha hb)

theorem atbMarkToHead_mem : (L.atbMarkToHead h b).mem a = h.mem a :=
  packedClear_of_ne (offTable_ne ha hb)

end

/-- The entries from the first one behind the table on are off the table. -/
theorem atbGetKind_congr (hmem : ∀ a, L.OffTable a → h'.mem a = h.mem a) (hb : L.blocks ≤ b) :
    L.atbGetKind h' b = L.atbGetKind h b := by
  have hle : L.gcAllocTableByteLen ≤ b / 4 := (Nat.le_div_iff_mul_le (by decide)).mpr hb
  exact congrArg Kind.ofCode (packedGet_congr (hmem _ (.inr (Nat.add_le_add_left hle _))))

@[simp] theorem atbGetKind_atbAnyToFree :
    L.atbGetKind (L.atbAnyToFree h b) c = if c = b then .free else L.atbGetKind h c := by
  rw [atbGetKind, atbAnyToFree, packedGet_packedClear (by decide) (by decide)]
  split
  · generalize packedGet 2 h.mem L.gcAllocTableStart b = v
    revert v
    decide
  · rfl

@[simp] theorem atbGetKind_atbHeadToMark :
    L.atbGetKind (L.atbHeadToMark h b) c = if c = b then .mark else L.atbGetKind h c := by
  rw [atbGetKind, atbHeadToMark, packedGet_packedOr (by decide) (by decide)]
  split
  · generalize packedGet 2 h.mem L.gcAllocTableStart b = v
    revert v
    decide
  · rfl

theorem atbGetKind_atbMarkToHead (hb : L.atbGetKind h b = .mark) :
    L.atbGetKind (L.atbMarkToHead h b) c = if c = b then .head else L.atbGetKind h c := by
  rw [atbGetKind] at hb
  rw [atbGetKind, atbMarkToHead, packedGet_packedClear (by decide) (by decide)]
  split
  · revert hb
    generalize packedGet 2 h.mem L.gcAllocTableStart b = v
    revert v
    decide
  · rfl

theorem atbGetKind_atbFreeToHead (hb : L.atbGetKind h b = .free) :
    L.atbGetKind (L.atbFreeToHead h b) c = if c = b then .head else L.atbGetKind h c := by
  rw [atbGetKind] at hb
  rw [atbGetKind, atbFreeToHead, packedGet_packedOr (by decide) (by decide)]
  split
  · revert hb
    generalize packedGet 2 h.mem L.gcAllocTableStart b = v
    revert v
    decide
  · rfl

theorem atbGetKind_atbFreeToTail (hb : L.atbGetKind h b = .free) :
    L.atbGetKind (L.atbFreeToTail h b) c = if c = b then .tail else L.atbGetKind h c := by
  rw [atbGetKind] at hb
  rw [atbGetKind, atbFreeToTail, packedGet_packedOr (by decide) (by decide)]
  split
  · revert hb
    generalize packedGet 2 h.mem L.gcAllocTableStart b = v
    revert v
    decide
  · rfl

/-! ### Pointers and chains -/

theorem blockFromPtr_lt (hptr : L.verifyPtr ptr) : L.blockFromPtr ptr < L.blocks := by
  obtain ⟨-, hle, hlt⟩ := of_decide_eq_true hptr
  refine Nat.div_lt_of_lt_mul ?_
  rw [L.pool_eq] at hlt
  rw [Nat.mul_comm]
  change ptr - L.gcPoolStart < L.gcAllocTableByteLen * 4 * (4 * L.bytesPerWord)
  omega

theorem loadWord_congr {mem mem' : ℕ → BitVec 8} {w : ℕ} (hmem : ∀ i, a ≤ i → mem' i = mem i) :
    loadWord mem' a w = loadWord mem a w := by
  induction w generalizing a with
  | zero => rfl
  | succ w ih =>
    rw [loadWord, loadWord, hmem a (Nat.le_refl a), ih fun i hi => hmem i (Nat.le_of_succ_le hi)]

/-- The pool is off the table. -/
theorem offTable_of_pool (ha : L.gcPoolStart ≤ a) : L.OffTable a :=
  .inr (Nat.le_trans L.table_le ha)

theorem childPtr_congr (hmem : ∀ a, L.OffTable a → h'.mem a = h.mem a) (block i : ℕ) :
    L.childPtr h' block i = L.childPtr h block i := by
  refine loadWord_congr fun a ha => hmem a (offTable_of_pool ?_)
  rw [ptrFromBlock] at ha
  omega

/-- The pointers of a chain are those of its blocks, one block after the other. -/
theorem childPtr_add (block k j : ℕ) :
    L.childPtr h (block + k) j = L.childPtr h block (4 * k + j) := by
  rw [childPtr, childPtr, ptrFromBlock, ptrFromBlock, bytesPerBlock]
  congr 1
  ring

/-- `b` is in the chain that begins with `a`. -/
def InChain (L : Layout) (h : Heap) (a b : ℕ) : Prop :=
  a ≤ b ∧ ∀ c, a < c → c ≤ b → L.atbGetKind h c = .tail

theorem InChain.refl (a : ℕ) : L.InChain h a a :=
  ⟨Nat.le_refl a, fun _ hac hca => absurd hac (Nat.not_lt_of_le hca)⟩

/-- The chain that begins with `a` has a pointer to block `c`. -/
def Points (L : Layout) (h : Heap) (a c : ℕ) : Prop :=
  ∃ b, b < L.blocks ∧ L.InChain h a b ∧ ∃ j, j < 4 ∧ L.verifyPtr (L.childPtr h b j) ∧
    L.blockFromPtr (L.childPtr h b j) = c

/-- The entry behind the table does not read as a tail. -/
def EndsAt (L : Layout) (h : Heap) : Prop := L.atbGetKind h L.blocks ≠ .tail

/-- No chain goes on behind the table. -/
def Bounded (L : Layout) (h : Heap) : Prop := L.EndsAt h ∨ L.atbGetKind h (L.blocks - 1) = .free

section

variable (hend : L.Bounded h) (hfuel : L.blocks < fuel) (ha : a < L.blocks)
  (hused : L.atbGetKind h a ≠ .free)

include hend hfuel ha hused

/-- The scan over a chain stops behind the last block of the chain. -/
theorem nBlocks_stops :
    ∃ n, L.nBlocks h fuel a = some n ∧ 0 < n ∧ a + n ≤ L.blocks ∧
      (∀ k, 0 < k → k < n → L.atbGetKind h (a + k) = .tail) ∧ L.atbGetKind h (a + n) ≠ .tail := by
  refine loop_spec (fun n => a + n < L.blocks ∧ ∀ k, 0 < k → k ≤ n → L.atbGetKind h (a + k) = .tail)
    (fun n => L.blocks - n) _ (fun n hn => ?_)
    ⟨ha, fun k hk0 hk => absurd hk0 (Nat.not_lt_of_le hk)⟩
    (Nat.lt_of_le_of_lt (Nat.sub_le _ _) hfuel)
  obtain ⟨hlt, htail⟩ := hn
  by_cases hk : L.atbGetKind h (a + (n + 1)) = .tail
  · refine .inl ⟨n + 1, by rw [if_pos hk], ⟨?_, fun k hk0 hkn => ?_⟩, by omega⟩
    · have hne : a + (n + 1) ≠ L.blocks := by
        intro heq
        rcases hend with hend | hfree
        · exact hend (heq ▸ hk)
        · rw [← heq, ← Nat.add_assoc, Nat.add_sub_cancel] at hfree
          cases n with
          | zero => exact hused hfree
          | succ n =>
            rw [htail (n + 1) (Nat.succ_pos n) (Nat.le_refl _)] at hfree
            cases hfree
      omega
    · rcases Nat.lt_or_ge k (n + 1) with hlt | hge
      · exact htail k hk0 (Nat.le_of_lt_succ hlt)
      · rw [Nat.le_antisymm hkn hge]
        exact hk
  · refine .inr ⟨n + 1, by rw [if_neg hk], Nat.succ_pos n, hlt, fun k hk0 hkn => ?_, hk⟩
    exact htail k hk0 (Nat.le_of_lt_succ hkn)

/-- The blocks that are counted are those of the chain. -/
theorem nBlocks_eq :
    ∃ n, L.nBlocks h fuel a = some n ∧ 0 < n ∧ a + n ≤ L.blocks ∧
      ∀ b, L.InChain h a b ∧ b < L.blocks ↔ a ≤ b ∧ b < a + n := by
  obtain ⟨n, hn, hpos, hle, htail, hlast⟩ := nBlocks_stops hend hfuel ha hused
  refine ⟨n, hn, hpos, hle, fun b =>
    ⟨fun ⟨⟨hab, hin⟩, _⟩ => ⟨hab, ?_⟩, fun ⟨hab, hlt⟩ => ⟨⟨hab, ?_⟩, ?_⟩⟩⟩
  · by_contra hge
    exact hlast (hin (a + n) (by omega) (by omega))
  · intro c hac hcb
    have hc := htail (c - a) (by omega) (by omega)
    rwa [Nat.add_sub_of_le (Nat.le_of_lt hac)] at hc
  · omega

end

/-! ### Heads that become marks -/

/-- Heads become marks; the other entries and the memory off the table are the same. -/
structure Grows (L : Layout) (h h' : Heap) : Prop where
  mem : ∀ a, L.OffTable a → h'.mem a = h.mem a
  kind : ∀ b, b < L.blocks → L.atbGetKind h' b = L.atbGetKind h b ∨
    (L.atbGetKind h b = .head ∧ L.atbGetKind h' b = .mark)
  rest : h' = { h with mem := h'.mem, gcStackOverflow := h'.gcStackOverflow }

theorem Grows.refl (h : Heap) : L.Grows h h := ⟨fun _ _ => rfl, fun _ _ => .inl rfl, rfl⟩

section

variable (hg : L.Grows h h')

include hg

theorem Grows.trans (hg' : L.Grows h' h'') : L.Grows h h'' where
  mem a ha := (hg'.mem a ha).trans (hg.mem a ha)
  kind b hb := by
    rcases hg'.kind b hb with heq' | ⟨hhead, hmark⟩
    · rw [heq']
      exact hg.kind b hb
    · rcases hg.kind b hb with heq | ⟨-, hmark'⟩
      · exact .inr ⟨heq ▸ hhead, hmark⟩
      · rw [hmark'] at hhead
        cases hhead
  rest := by
    rw [hg'.rest, hg.rest]

theorem Grows.mark (hb : b < L.blocks) (hmark : L.atbGetKind h b = .mark) :
    L.atbGetKind h' b = .mark := by
  rcases hg.kind b hb with heq | ⟨hhead, -⟩
  · exact heq.trans hmark
  · rw [hmark] at hhead
    cases hhead

theorem Grows.head (hb : b < L.blocks) (hhead : L.atbGetKind h' b = .head) :
    L.atbGetKind h b = .head := by
  rcases hg.kind b hb with heq | ⟨-, hmark⟩
  · exact heq.symm.trans hhead
  · rw [hmark] at hhead
    cases hhead

theorem Grows.tail_iff : L.atbGetKind h' b = .tail ↔ L.atbGetKind h b = .tail := by
  rcases Nat.lt_or_ge b L.blocks with hb | hb
  · rcases hg.kind b hb with heq | ⟨hhead, hmark⟩
    · rw [heq]
    · rw [hhead, hmark]
      simp
  · rw [atbGetKind_congr hg.mem hb]

theorem Grows.inChain_iff : L.InChain h' a b ↔ L.InChain h a b := by
  simp only [InChain, hg.tail_iff]

theorem Grows.points_iff : L.Points h' a c ↔ L.Points h a c := by
  simp only [Points, hg.inChain_iff, childPtr_congr hg.mem]

theorem Grows.free (hfree : L.atbGetKind h b = .free) : L.atbGetKind h' b = .free := by
  rcases Nat.lt_or_ge b L.blocks with hb | hb
  · rcases hg.kind b hb with heq | ⟨hhead, -⟩
    · exact heq.trans hfree
    · rw [hfree] at hhead
      cases hhead
  · exact (atbGetKind_congr hg.mem hb).trans hfree

theorem Grows.bounded (hend : L.Bounded h) : L.Bounded h' :=
  hend.imp (fun hend htail => hend (hg.tail_iff.mp htail)) hg.free

end

/-- The number of heads that are not marked. -/
def unmarked (L : Layout) (h : Heap) : ℕ :=
  ((Finset.range L.blocks).filter (L.atbGetKind h · = .head)).card

theorem unmarked_le_blocks : L.unmarked h ≤ L.blocks := by
  calc L.unmarked h ≤ (Finset.range L.blocks).card := Finset.card_filter_le _ _
    _ = L.blocks := Finset.card_range _

theorem Grows.unmarked_le (hg : L.Grows h h') : L.unmarked h' ≤ L.unmarked h := by
  refine Finset.card_le_card fun b hb => ?_
  obtain ⟨hlt, hhead⟩ := Finset.mem_filter.mp hb
  exact Finset.mem_filter.mpr ⟨hlt, hg.head (Finset.mem_range.mp hlt) hhead⟩

theorem grows_atbHeadToMark (hb : b < L.blocks) (hhead : L.atbGetKind h b = .head) :
    L.Grows h (L.atbHeadToMark h b) where
  mem a ha := atbHeadToMark_mem ha hb
  kind c _ := by
    rw [atbGetKind_atbHeadToMark]
    split_ifs with hcb
    · exact .inr ⟨hcb ▸ hhead, rfl⟩
    · exact .inl rfl
  rest := rfl

theorem unmarked_atbHeadToMark (hb : b < L.blocks) (hhead : L.atbGetKind h b = .head) :
    L.unmarked (L.atbHeadToMark h b) + 1 = L.unmarked h := by
  have hmem : b ∈ (Finset.range L.blocks).filter (L.atbGetKind h · = .head) :=
    Finset.mem_filter.mpr ⟨Finset.mem_range.mpr hb, hhead⟩
  rw [unmarked, unmarked, ← Finset.card_erase_add_one hmem]
  congr 2
  ext c
  rw [Finset.mem_filter, atbGetKind_atbHeadToMark]
  split_ifs with hcb
  · simp [hcb]
  · simp [hcb]

/-- As `Grows`; and the overflow flag stays set, and is only set by marking a block. -/
structure Marks (L : Layout) (h h' : Heap) : Prop extends L.Grows h h' where
  overflow : h.gcStackOverflow → h'.gcStackOverflow
  progress : h'.gcStackOverflow → h.gcStackOverflow ∨ L.unmarked h' < L.unmarked h

theorem Marks.refl (h : Heap) : L.Marks h h := ⟨.refl h, id, .inl⟩

theorem Marks.trans (hm : L.Marks h h') (hm' : L.Marks h' h'') : L.Marks h h'' where
  toGrows := hm.toGrows.trans hm'.toGrows
  overflow := hm'.overflow ∘ hm.overflow
  progress hov := by
    have hle := hm.unmarked_le
    have hle' := hm'.unmarked_le
    rcases hm'.progress hov with hov' | hlt
    · rcases hm.progress hov' with hov | hlt
      · exact .inl hov
      · exact .inr (by omega)
    · exact .inr (by omega)

variable {flag : Bool} {stack stack' : List ℕ} {R U : ℕ → Prop}

/-- A head is marked, and the overflow flag set or not. -/
theorem marks_atbHeadToMark (hb : b < L.blocks) (hhead : L.atbGetKind h b = .head)
    (hflag : h.gcStackOverflow → flag) :
    L.Marks h { L.atbHeadToMark h b with gcStackOverflow := flag } where
  toGrows := by
    have hg := grows_atbHeadToMark hb hhead
    exact ⟨hg.mem, hg.kind, rfl⟩
  overflow := hflag
  progress _ := .inr (by rw [← unmarked_atbHeadToMark hb hhead]; exact Nat.lt_succ_self _)

/-! ### The children of a chain -/

/-- The first `n` pointers of the chain have been visited: the blocks they point to are marked,
those that are new among them are on the stack or have caused an overflow. -/
structure Scanned (L : Layout) (block n : ℕ) (h : Heap) (stack : List ℕ) (h' : Heap)
    (stack' : List ℕ) : Prop where
  marks : L.Marks h h'
  done : ∀ i, i < n → L.verifyPtr (L.childPtr h block i) →
    L.atbGetKind h' (L.blockFromPtr (L.childPtr h block i)) ≠ .head
  kept : ∀ c ∈ stack, c ∈ stack'
  pushed : ∀ c ∈ stack', c ∈ stack ∨ (c < L.blocks ∧ L.atbGetKind h' c = .mark)
  fresh : ∀ c, c < L.blocks → L.atbGetKind h c = .head → L.atbGetKind h' c = .mark →
    (c ∈ stack' ∨ h'.gcStackOverflow) ∧
      ∃ i, i < n ∧ L.verifyPtr (L.childPtr h block i) ∧ L.blockFromPtr (L.childPtr h block i) = c
  potential : 2 * L.unmarked h' + stack'.length ≤ 2 * L.unmarked h + stack.length

theorem Scanned.nil (block : ℕ) (h : Heap) (stack : List ℕ) :
    L.Scanned block 0 h stack h stack where
  marks := .refl h
  done i hi := absurd hi (Nat.not_lt_zero i)
  kept _ hc := hc
  pushed _ hc := .inl hc
  fresh c _ hhead hmark := by
    rw [hhead] at hmark
    cases hmark
  potential := Nat.le_refl _

/-- A pointer that leads to no unmarked head. -/
theorem Scanned.skip (hs : L.Scanned block n h stack h' stack')
    (hskip : L.verifyPtr (L.childPtr h block n) →
      L.atbGetKind h' (L.blockFromPtr (L.childPtr h block n)) ≠ .head) :
    L.Scanned block (n + 1) h stack h' stack' where
  marks := hs.marks
  done i hi hptr := by
    rcases Nat.lt_succ_iff_lt_or_eq.mp hi with hi | rfl
    · exact hs.done i hi hptr
    · exact hskip hptr
  kept := hs.kept
  pushed := hs.pushed
  fresh c hc hhead hmark := by
    obtain ⟨hstack, i, hi, hptr⟩ := hs.fresh c hc hhead hmark
    exact ⟨hstack, i, Nat.lt_succ_of_lt hi, hptr⟩
  potential := hs.potential

/-- A pointer that leads to an unmarked head, which is put on the stack or not. -/
theorem Scanned.mark {stack'' : List ℕ} (hs : L.Scanned block n h stack h' stack')
    (hptr : L.verifyPtr (L.childPtr h block n))
    (hhead : L.atbGetKind h' (L.blockFromPtr (L.childPtr h block n)) = .head)
    (hpush : (flag = h'.gcStackOverflow ∧
      stack'' = L.blockFromPtr (L.childPtr h block n) :: stack') ∨
      (flag = true ∧ stack'' = stack')) :
    L.Scanned block (n + 1) h stack
      { L.atbHeadToMark h' (L.blockFromPtr (L.childPtr h block n)) with
        gcStackOverflow := flag } stack'' := by
  generalize hc : L.blockFromPtr (L.childPtr h block n) = c at *
  have hlt : c < L.blocks := hc ▸ blockFromPtr_lt hptr
  have hmarks : L.Marks h' { L.atbHeadToMark h' c with gcStackOverflow := flag } := by
    refine marks_atbHeadToMark hlt hhead fun hov => ?_
    rcases hpush with ⟨rfl, -⟩ | ⟨rfl, -⟩
    · exact hov
    · rfl
  have hmarked : L.atbGetKind { L.atbHeadToMark h' c with gcStackOverflow := flag } c = .mark := by
    change L.atbGetKind (L.atbHeadToMark h' c) c = .mark
    rw [atbGetKind_atbHeadToMark, if_pos rfl]
  have hsub : ∀ x ∈ stack', x ∈ stack'' := by
    rcases hpush with ⟨-, rfl⟩ | ⟨-, rfl⟩
    · exact fun x hx => mem_cons_of_mem _ hx
    · exact fun x hx => hx
  refine ⟨hs.marks.trans hmarks, fun i hi hptr hhead' => ?_,
    fun x hx => hsub x (hs.kept x hx), fun x hx => ?_, fun x hx hhead' hmark' => ?_, ?_⟩
  · rcases Nat.lt_succ_iff_lt_or_eq.mp hi with hi | rfl
    · exact hs.done i hi hptr (hmarks.head (blockFromPtr_lt hptr) hhead')
    · rw [hc, hmarked] at hhead'
      cases hhead'
  · have hx' : x = c ∨ x ∈ stack' := by
      rcases hpush with ⟨-, rfl⟩ | ⟨-, rfl⟩
      · exact mem_cons.mp hx
      · exact .inr hx
    rcases hx' with rfl | hx'
    · exact .inr ⟨hlt, hmarked⟩
    · rcases hs.pushed x hx' with hx | ⟨hx, hmark⟩
      · exact .inl hx
      · exact .inr ⟨hx, hmarks.mark hx hmark⟩
  · by_cases hxc : x = c
    · subst hxc
      refine ⟨?_, n, Nat.lt_succ_self n, hptr, hc⟩
      rcases hpush with ⟨-, rfl⟩ | ⟨rfl, -⟩
      · exact .inl mem_cons_self
      · exact .inr rfl
    · have hmark : L.atbGetKind h' x = .mark := by
        change L.atbGetKind (L.atbHeadToMark h' c) x = .mark at hmark'
        rwa [atbGetKind_atbHeadToMark, if_neg hxc] at hmark'
      obtain ⟨hstack, i, hi, hptr⟩ := hs.fresh x hx hhead' hmark
      exact ⟨hstack.imp (hsub x) hmarks.overflow, i, Nat.lt_succ_of_lt hi, hptr⟩
  · have hone := unmarked_atbHeadToMark hlt hhead
    have hpot := hs.potential
    have hlen : stack''.length ≤ stack'.length + 1 := by
      rcases hpush with ⟨-, rfl⟩ | ⟨-, rfl⟩
      · exact Nat.le_refl _
      · exact Nat.le_succ _
    change 2 * L.unmarked (L.atbHeadToMark h' c) + stack''.length ≤ _
    omega

/-- **Children.**  The loop over the pointers of a chain. -/
theorem scanned_foldl (block n : ℕ) (h : Heap) (stack : List ℕ) :
    ∃ h' stack', (List.range n).foldl (L.visitChild block) (h, stack) = (h', stack') ∧
      L.Scanned block n h stack h' stack' := by
  induction n with
  | zero => exact ⟨h, stack, rfl, .nil block h stack⟩
  | succ n ih =>
    obtain ⟨h', stack', heq, hs⟩ := ih
    rw [range_succ, foldl_append, heq, foldl_cons, visitChild]
    have hptr := childPtr_congr hs.marks.mem block n
    rw [hptr]
    split
    · rename_i hhead
      split
      · exact ⟨_, _, rfl, hs.mark hhead.1 hhead.2 (.inl ⟨rfl, rfl⟩)⟩
      · exact ⟨_, _, rfl, hs.mark hhead.1 hhead.2 (.inr ⟨rfl, rfl⟩)⟩
    · rename_i hskip
      exact ⟨h', stack', rfl, hs.skip fun hptr hhead => hskip ⟨hptr, hhead⟩⟩

/-! ### Subtrees -/

/-- No unmarked head is a child of the chain. -/
def Done (L : Layout) (h : Heap) (a : ℕ) : Prop :=
  ∀ c, c < L.blocks → L.Points h a c → L.atbGetKind h c ≠ .head

theorem Done.grows (hd : L.Done h a) (hg : L.Grows h h') : L.Done h' a := fun c hc hpoints hhead =>
  hd c hc (hg.points_iff.mp hpoints) (hg.head hc hhead)

/-- The children of every marked block are marked, except for blocks in `U` and when the stack was
full. -/
def Traced (L : Layout) (U : ℕ → Prop) (h : Heap) : Prop :=
  h.gcStackOverflow ∨ ∀ b, b < L.blocks → L.atbGetKind h b = .mark → U b ∨ L.Done h b

theorem Traced.mono {V : ℕ → Prop} (ht : L.Traced U h)
    (hUV : ∀ b, L.atbGetKind h b = .mark → U b → V b) : L.Traced V h :=
  ht.imp id fun hall b hb hmark => (hall b hb hmark).imp (hUV b hmark) id

/-- Every marked block is in `R`. -/
def MarkedIn (L : Layout) (R : ℕ → Prop) (h : Heap) : Prop :=
  ∀ b, b < L.blocks → L.atbGetKind h b = .mark → R b

/-- `R` holds of the heads that its chains point to. -/
def ClosedIn (L : Layout) (h : Heap) (R : ℕ → Prop) : Prop :=
  ∀ a c, c < L.blocks → R a → L.Points h a c → L.atbGetKind h c = .head → R c

theorem ClosedIn.grows (hR : L.ClosedIn h R) (hg : L.Grows h h') : L.ClosedIn h' R :=
  fun a c hc ha hpoints hhead => hR a c hc ha (hg.points_iff.mp hpoints) (hg.head hc hhead)

/-- The pointers of a chain of `n` blocks are its first `4 * n` words. -/
theorem points_iff_childPtr (hn : ∀ b, L.InChain h a b ∧ b < L.blocks ↔ a ≤ b ∧ b < a + n) :
    L.Points h a c ↔
      ∃ i, i < 4 * n ∧ L.verifyPtr (L.childPtr h a i) ∧ L.blockFromPtr (L.childPtr h a i) = c := by
  constructor
  · rintro ⟨b, hb, hin, j, hj, hptr⟩
    obtain ⟨hab, hlt⟩ := (hn b).mp ⟨hin, hb⟩
    refine ⟨4 * (b - a) + j, by omega, ?_⟩
    rw [← childPtr_add, Nat.add_sub_of_le hab]
    exact hptr
  · rintro ⟨i, hi, hptr⟩
    obtain ⟨hin, hb⟩ := (hn (a + i / 4)).mpr ⟨by omega, by omega⟩
    refine ⟨a + i / 4, hb, hin, i % 4, Nat.mod_lt i (by decide), ?_⟩
    rw [childPtr_add, Nat.div_add_mod]
    exact hptr

theorem words_of_blocks (L : Layout) (n : ℕ) : n * L.bytesPerBlock / L.bytesPerWord = 4 * n := by
  rw [bytesPerBlock, ← Nat.mul_assoc, Nat.mul_div_cancel _ L.bytesPerWord_pos, Nat.mul_comm]

theorem Scanned.traced (hs : L.Scanned block n h stack h' stack')
    (hdone : L.Done h' block) (ht : L.Traced (fun b => U b ∨ b = block ∨ b ∈ stack) h) :
    L.Traced (fun b => U b ∨ b ∈ stack') h' := by
  rcases ht with hov | hall
  · exact .inl (hs.marks.overflow hov)
  by_cases hov' : h'.gcStackOverflow
  · exact .inl hov'
  refine .inr fun b hb hmark => ?_
  rcases hs.marks.kind b hb with heq | ⟨hhead, -⟩
  · rcases hall b hb (heq.symm.trans hmark) with (hU | rfl | hstack) | hd
    · exact .inl (.inl hU)
    · exact .inr hdone
    · exact .inl (.inr (hs.kept b hstack))
    · exact .inr (hd.grows hs.marks.toGrows)
  · -- a block that is newly marked is on the stack
    rcases (hs.fresh b hb hhead hmark).1 with hstack | hov
    · exact .inl (.inr hstack)
    · exact absurd hov hov'

/-- What holds between two turns of `gc_mark_subtree`. -/
structure Marking (L : Layout) (h : Heap) (U R : ℕ → Prop) (s : Heap × ℕ × List ℕ) : Prop where
  marks : L.Marks h s.1
  block : s.2.1 < L.blocks ∧ L.atbGetKind s.1 s.2.1 = .mark
  stack : ∀ c ∈ s.2.2, c < L.blocks ∧ L.atbGetKind s.1 c = .mark
  traced : L.Traced (fun b => U b ∨ b = s.2.1 ∨ b ∈ s.2.2) s.1
  markedIn : L.MarkedIn R s.1

/-- **Turn.**  A turn marks the children of its block, and goes on with the top of the stack. -/
theorem Marking.turn (hend : L.Bounded h) (hfuel : L.blocks < fuel) (hR : L.ClosedIn h R)
    {s : Heap × ℕ × List ℕ} (hs : L.Marking h U R s) :
    (∃ s', L.markTurn fuel s = some (.inl s') ∧ L.Marking h U R s' ∧
        2 * L.unmarked s'.1 + s'.2.2.length < 2 * L.unmarked s.1 + s.2.2.length) ∨
      ∃ h', L.markTurn fuel s = some (.inr h') ∧ L.Marks h h' ∧
        L.Traced U h' ∧ L.MarkedIn R h' := by
  obtain ⟨h₁, a, stack⟩ := s
  obtain ⟨hmarks, ⟨ha, hmark⟩, hstack, htraced, hin⟩ := hs
  obtain ⟨n, hn, -, -, hchain⟩ := nBlocks_eq (hmarks.bounded hend) hfuel ha (by rw [hmark]; simp)
  obtain ⟨h₂, stack', hscan, hs⟩ := scanned_foldl a (4 * n) h₁ stack
  have hdone : L.Done h₂ a := by
    intro c hc hpoints
    obtain ⟨i, hi, hptr, rfl⟩ := (points_iff_childPtr hchain).mp (hs.marks.points_iff.mp hpoints)
    exact hs.done i hi hptr
  have htraced' := hs.traced hdone htraced
  have hin' : L.MarkedIn R h₂ := by
    intro b hb hmark'
    rcases hs.marks.kind b hb with heq | ⟨hhead, -⟩
    · exact hin b hb (heq.symm.trans hmark')
    · have hpoints := (points_iff_childPtr hchain).mpr (hs.fresh b hb hhead hmark').2
      exact hR.grows hmarks.toGrows a b hb (hin a ha hmark) hpoints hhead
  have hstack' : ∀ c ∈ stack', c < L.blocks ∧ L.atbGetKind h₂ c = .mark := by
    intro c hc
    rcases hs.pushed c hc with hc | hc
    · exact ⟨(hstack c hc).1, hs.marks.mark (hstack c hc).1 (hstack c hc).2⟩
    · exact hc
  have hpot := hs.potential
  cases stack' with
  | nil =>
    refine .inr ⟨h₂, ?_, hmarks.trans hs.marks, htraced'.mono fun b _ hb => ?_, hin'⟩
    · rw [markTurn, hn, Option.bind_eq_bind, Option.bind_some, words_of_blocks, hscan]
    · rcases hb with hU | hb
      · exact hU
      · cases hb
  | cons b stack' =>
    refine .inl ⟨(h₂, b, stack'), ?_,
      ⟨hmarks.trans hs.marks, hstack' b mem_cons_self, ?_, ?_, hin'⟩, ?_⟩
    · rw [markTurn, hn, Option.bind_eq_bind, Option.bind_some, words_of_blocks, hscan]
    · exact fun c hc => hstack' c (mem_cons_of_mem _ hc)
    · exact htraced'.mono fun c _ hc => hc.imp id mem_cons.mp
    · rw [length_cons] at hpot
      dsimp only
      omega

/-- **Subtree.**  `gc_mark_subtree` ends; it marks only blocks of `R`, and unless the stack was full
the children of all blocks are marked that were not left out before. -/
theorem gcMarkSubtree_spec (hend : L.Bounded h) (hfuel : 2 * L.blocks < fuel)
    (hR : L.ClosedIn h R) (hb : block < L.blocks) (hmark : L.atbGetKind h block = .mark)
    (htraced : L.Traced (fun b => U b ∨ b = block) h) (hin : L.MarkedIn R h) :
    ∃ h', L.gcMarkSubtree h fuel block = some h' ∧ L.Marks h h' ∧
      L.Traced U h' ∧ L.MarkedIn R h' := by
  refine loop_spec (L.Marking h U R) (fun s => 2 * L.unmarked s.1 + s.2.2.length) _
    (fun s hs => hs.turn hend (by omega) hR) ⟨.refl h, ⟨hb, hmark⟩, nofun, ?_, hin⟩ ?_
  · exact htraced.mono fun b _ hb => hb.imp id .inl
  · have hle : L.unmarked h ≤ L.blocks := unmarked_le_blocks
    change 2 * L.unmarked h + 0 < fuel
    omega

end Layout

end Nespy.Py.Gc
