import Nespy.Py.GcMark

/-!
# Py — sweeping

`gc_sweep` goes over the table once.  A tail is freed or kept as the last head before it was: the
flag `free_tail` says at every tail whether its chain has a marked head.  Finalisers are methods of
the objects that are freed; they are taken to write only into the pool, where the objects are.
-/

namespace Nespy.Py.Gc

open Nespy.Lib

namespace Layout

variable {L : Layout} {h h' : Heap} {a b c k : ℕ} {del : (ℕ → BitVec 8) → ℕ → ℕ → BitVec 8}
  {freeTail : Bool}

/-! ### The finaliser table -/

theorem ftb_offTable {start : ℕ} (hstart : start ∈ L.gcFinaliserTableStart) :
    L.OffTable (start + c) := by
  right
  have hle := (L.finaliser_le start hstart).1
  omega

theorem ftb_lt_pool {start : ℕ} (hstart : start ∈ L.gcFinaliserTableStart) (hb : b < L.blocks) :
    start + b / 8 < L.gcPoolStart := by
  have hle := (L.finaliser_le start hstart).2
  have hb' : b < L.gcAllocTableByteLen * 4 := hb
  omega

theorem ftbGet_congr (hmem : ∀ a, L.OffTable a → a < L.gcPoolStart → h'.mem a = h.mem a)
    (hb : b < L.blocks) :
    L.ftbGet h' b = L.ftbGet h b := by
  rw [ftbGet, ftbGet]
  cases hstart : L.gcFinaliserTableStart with
  | none => rfl
  | some start =>
    dsimp only
    rw [packedGet_congr (hmem _ (ftb_offTable hstart) (ftb_lt_pool hstart hb))]

/-- Entries of the table are at other addresses than flags and pool. -/
theorem atbGetKind_of_offTable (hmem : ∀ a, ¬L.OffTable a → h'.mem a = h.mem a)
    (hb : b < L.blocks) :
    L.atbGetKind h' b = L.atbGetKind h b := by
  refine congrArg Kind.ofCode (packedGet_congr (hmem _ ?_))
  have hlt := div_four_lt hb
  rintro (hoff | hoff)
  · exact Nat.not_lt_of_le (Nat.le_add_right _ _) hoff
  · omega

theorem ftbClear_mem (hne : ∀ start ∈ L.gcFinaliserTableStart, a ≠ start + b / 8) :
    (L.ftbClear h b).mem a = h.mem a := by
  rw [ftbClear]
  cases hstart : L.gcFinaliserTableStart with
  | none => rfl
  | some start => exact packedClear_of_ne (hne start hstart)

@[simp] theorem ftbGet_ftbClear :
    L.ftbGet (L.ftbClear h b) c = (L.ftbGet h c && decide (c ≠ b)) := by
  rw [ftbGet, ftbGet, ftbClear]
  cases L.gcFinaliserTableStart with
  | none => rfl
  | some start =>
    dsimp only
    rw [packedGet_packedClear (by decide) (by decide)]
    by_cases hcb : c = b
    · have hzero : packedGet 1 h.mem start b &&& ~~~1#1 ≠ 1 := by
        generalize packedGet 1 h.mem start b = v
        revert v
        decide
      rw [if_pos hcb, decide_eq_false hzero, decide_eq_false (not_not.mpr hcb), Bool.and_false]
    · rw [if_neg hcb, decide_eq_true hcb, Bool.and_true]

theorem atbGetKind_ftbClear (hc : c < L.blocks) :
    L.atbGetKind (L.ftbClear h b) c = L.atbGetKind h c := by
  refine atbGetKind_of_offTable (fun a ha => ftbClear_mem fun start hstart heq => ha ?_) hc
  rw [heq]
  exact ftb_offTable hstart

theorem ftbClear_pool (ha : L.gcPoolStart ≤ a) (hb : b < L.blocks) :
    (L.ftbClear h b).mem a = h.mem a :=
  ftbClear_mem fun start hstart heq => by
    have hlt := ftb_lt_pool hstart hb
    omega

/-! ### Finalisers -/

/-- The address is in the block. -/
def InBlock (L : Layout) (b a : ℕ) : Prop :=
  L.ptrFromBlock b ≤ a ∧ a < L.ptrFromBlock b + L.bytesPerBlock

theorem InBlock.pool (ha : L.InBlock b a) : L.gcPoolStart ≤ a := by
  obtain ⟨hle, -⟩ := ha
  rw [ptrFromBlock] at hle
  omega

theorem InBlock.unique (hb : L.InBlock b a) (hc : L.InBlock c a) : b = c := by
  have key : ∀ {x}, L.InBlock x a → (a - L.gcPoolStart) / L.bytesPerBlock = x := by
    intro x ⟨hle, hlt⟩
    rw [ptrFromBlock] at hle hlt
    refine Nat.div_eq_of_lt_le (by omega) ?_
    rw [Nat.succ_mul]
    omega
  exact (key hb).symm.trans (key hc)

section

variable (L del)

/-- A finaliser writes only into the chain of its object. -/
def DelOwn : Prop :=
  ∀ h : Heap, ∀ block a, (∀ b, b < L.blocks → L.InChain h block b → ¬L.InBlock b a) →
    del h.mem block a = h.mem a

/-- A finaliser writes only into the pool. -/
def DelPool : Prop :=
  ∀ mem block a, (∀ b, b < L.blocks → ¬L.InBlock b a) → del mem block a = mem a

/-- There are no finalisers, or they write only into the pool. -/
def DelSafe (h : Heap) : Prop :=
  (∀ b, b < L.blocks → L.ftbGet h b = false) ∨ L.DelPool del

end

/-- What finalising an object changes: its flag, and what its finaliser writes. -/
theorem finalise_mem (hdel : L.ftbGet h k → del h.mem k a = h.mem a)
    (hne : ∀ start ∈ L.gcFinaliserTableStart, a ≠ start + k / 8) :
    (L.finalise h del k).mem a = h.mem a := by
  rw [finalise]
  split
  · rename_i hflag
    rw [ftbClear_mem hne]
    split
    · exact hdel hflag
    · rfl
  · rfl

theorem not_inBlock_of_lt (ha : a < L.gcPoolStart) : ¬L.InBlock b a := fun hin =>
  Nat.not_lt_of_le hin.pool ha

section

variable (hdel : L.DelSafe del h) (hk : k < L.blocks)

include hdel hk

theorem DelSafe.of_lt (ha : a < L.gcPoolStart)
    (hflag : L.ftbGet h k) : del h.mem k a = h.mem a := by
  rcases hdel with hno | hdel
  · rw [hno k hk] at hflag
    cases hflag
  · exact hdel h.mem k a fun b _ => not_inBlock_of_lt ha

theorem atbGetKind_finalise (hc : c < L.blocks) :
    L.atbGetKind (L.finalise h del k) c = L.atbGetKind h c := by
  refine atbGetKind_of_offTable (fun a ha => ?_) hc
  refine finalise_mem (hdel.of_lt hk ?_) fun start hstart heq => ha ?_
  · by_contra hge
    exact ha (offTable_of_pool (Nat.le_of_not_lt hge))
  · rw [heq]
    exact ftb_offTable hstart

theorem ftbGet_finalise (hc : c < L.blocks) :
    L.ftbGet (L.finalise h del k) c = (L.ftbGet h c && decide (c ≠ k)) := by
  rw [finalise]
  split
  · rename_i hflag
    rw [ftbGet_ftbClear]
    congr 1
    refine ftbGet_congr (fun a _ ha => ?_) hc
    split
    · exact hdel.of_lt hk ha hflag
    · rfl
  · rename_i hflag
    by_cases hck : c = k
    · rw [hck, Bool.eq_false_of_not_eq_true hflag, Bool.false_and]
    · rw [decide_eq_true hck, Bool.and_true]

end

/-! ### The sweep -/

/-- The head of the chain of `b` is marked. -/
def Kept (L : Layout) (h : Heap) (b : ℕ) : Prop := ∃ a, L.InChain h a b ∧ L.atbGetKind h a = .mark

/-- Every tail follows a block that is not free. -/
def Tailed (L : Layout) (h : Heap) : Prop :=
  ∀ b, b < L.blocks → L.atbGetKind h b = .tail → 0 < b ∧ L.atbGetKind h (b - 1) ≠ .free

theorem kept_succ (htail : L.atbGetKind h (b + 1) = .tail) : L.Kept h (b + 1) ↔ L.Kept h b := by
  constructor
  · rintro ⟨a, ⟨hle, hin⟩, hmark⟩
    have hne : a ≠ b + 1 := by
      rintro rfl
      rw [htail] at hmark
      cases hmark
    exact ⟨a, ⟨by omega, fun c hac hcb => hin c hac (by omega)⟩, hmark⟩
  · rintro ⟨a, ⟨hle, hin⟩, hmark⟩
    refine ⟨a, ⟨by omega, fun c hac hcb => ?_⟩, hmark⟩
    rcases Nat.lt_or_ge c (b + 1) with hlt | hge
    · exact hin c hac (Nat.le_of_lt_succ hlt)
    · rw [Nat.le_antisymm hcb hge]
      exact htail

/-- Only the mark itself is kept among blocks that are not tails. -/
theorem kept_iff_of_ne_tail (htail : L.atbGetKind h b ≠ .tail) :
    L.Kept h b ↔ L.atbGetKind h b = .mark := by
  constructor
  · rintro ⟨a, ⟨hle, hin⟩, hmark⟩
    rcases Nat.lt_or_ge a b with hlt | hge
    · exact absurd (hin b hlt (Nat.le_refl b)) htail
    · rwa [Nat.le_antisymm hge hle]
  · intro hmark
    exact ⟨b, .refl b, hmark⟩

variable (L del) in
/-- The state of the sweep at block `k`. -/
structure Sweeping (h : Heap) (k : ℕ) (h' : Heap) (freeTail : Bool) : Prop where
  kept : ∀ b, b < k → L.Kept h b → L.atbGetKind h' b = if L.atbGetKind h b = .mark then .head
    else .tail
  freed : ∀ b, b < k → ¬L.Kept h b → L.atbGetKind h' b = .free
  ahead : ∀ b, k ≤ b → b < L.blocks → L.atbGetKind h' b = L.atbGetKind h b
  freeTail : k < L.blocks → L.atbGetKind h k = .tail → (freeTail ↔ ¬L.Kept h k)
  ftb : ∀ b, b < L.blocks → L.ftbGet h' b =
    (L.ftbGet h b && decide (k ≤ b ∨ L.atbGetKind h b ≠ .head))
  pool : L.DelOwn del → ∀ b, b < L.blocks → L.Kept h b → ∀ a, L.InBlock b a → h'.mem a = h.mem a
  plain : (∀ b, b < L.blocks → L.ftbGet h b = false) → ∀ a, L.OffTable a → h'.mem a = h.mem a
  rest : h' = { h with mem := h'.mem }

theorem Sweeping.start (h : Heap) (htailed : L.Tailed h) : L.Sweeping del h 0 h false where
  kept b hb := absurd hb (Nat.not_lt_zero b)
  freed b hb := absurd hb (Nat.not_lt_zero b)
  ahead _ _ _ := rfl
  freeTail hk htail := absurd (htailed 0 hk htail).1 (Nat.lt_irrefl 0)
  ftb b _ := by
    rw [decide_eq_true (.inl (Nat.zero_le b)), Bool.and_true]
  pool _ _ _ _ _ _ := rfl
  plain _ _ _ := rfl
  rest := rfl

/-- A turn that changes the entry of its block, and the flag and the bytes of an object that is
freed. -/
theorem Sweeping.next {h'' : Heap} {freeTail freeTail' : Bool} (hs : L.Sweeping del h k h' freeTail)
    (hother : ∀ c, c < L.blocks → c ≠ k → L.atbGetKind h'' c = L.atbGetKind h' c)
    (hkept : L.Kept h k → L.atbGetKind h'' k = if L.atbGetKind h k = .mark then .head else .tail)
    (hfreed : ¬L.Kept h k → L.atbGetKind h'' k = .free) (hk : k < L.blocks)
    (hfreeTail : k + 1 < L.blocks → L.atbGetKind h (k + 1) = .tail → (freeTail' ↔ ¬L.Kept h k))
    (hftb : ∀ b, b < L.blocks →
      L.ftbGet h'' b = (L.ftbGet h' b && decide (b ≠ k ∨ L.atbGetKind h k ≠ .head)))
    (hpool : L.DelOwn del → ∀ b, b < L.blocks → L.Kept h b →
      ∀ a, L.InBlock b a → h''.mem a = h'.mem a)
    (hplain : (∀ b, b < L.blocks → L.ftbGet h' b = false) →
      ∀ a, L.OffTable a → h''.mem a = h'.mem a)
    (hrest : h'' = { h' with mem := h''.mem }) : L.Sweeping del h (k + 1) h'' freeTail' where
  kept b hb hkb := by
    rcases Nat.lt_succ_iff_lt_or_eq.mp hb with hlt | rfl
    · rw [hother b (by omega) (by omega)]
      exact hs.kept b hlt hkb
    · exact hkept hkb
  freed b hb hkb := by
    rcases Nat.lt_succ_iff_lt_or_eq.mp hb with hlt | rfl
    · rw [hother b (by omega) (by omega)]
      exact hs.freed b hlt hkb
    · exact hfreed hkb
  ahead b hle hlt := by
    rw [hother b hlt (by omega)]
    exact hs.ahead b (by omega) hlt
  freeTail hlt htail := by
    rw [kept_succ htail]
    exact hfreeTail hlt htail
  ftb b hb := by
    rw [hftb b hb, hs.ftb b hb, Bool.and_assoc, ← Bool.decide_and]
    congr 2
    by_cases hbk : b = k
    · subst hbk
      simp
    · simp only [hbk, ne_eq, not_false_eq_true, true_or, and_true]
      have hiff : k ≤ b ↔ k + 1 ≤ b := by omega
      rw [hiff]
  pool hown b hb hkb a ha := (hpool hown b hb hkb a ha).trans (hs.pool hown b hb hkb a ha)
  plain hno a ha := by
    refine (hplain (fun b hb => ?_) a ha).trans (hs.plain hno a ha)
    rw [hs.ftb b hb, hno b hb, Bool.false_and]
  rest := by
    rw [hrest, hs.rest]

theorem Sweeping.delSafe (hs : L.Sweeping del h k h' freeTail) (hdel : L.DelSafe del h) :
    L.DelSafe del h' := by
  refine hdel.imp (fun hno b hb => ?_) id
  rw [hs.ftb b hb, hno b hb, Bool.false_and]

/-- A chain that is freed has no block in common with one that is kept. -/
theorem not_inChain_of_kept (hhead : L.atbGetKind h k = .head) (hkept : L.Kept h b) :
    ¬L.InChain h k b := by
  rintro ⟨hkb, hin⟩
  obtain ⟨a, ⟨hab, hin'⟩, hmark⟩ := hkept
  rcases Nat.lt_trichotomy a k with hlt | rfl | hlt
  · have htail := hin' k hlt hkb
    rw [hhead] at htail
    cases htail
  · rw [hhead] at hmark
    cases hmark
  · have htail := hin a hlt hab
    rw [hmark] at htail
    cases htail

/-- Setting an entry of the table leaves the flags and the pool. -/
theorem ftbGet_atbAnyToFree (hk : k < L.blocks) (hb : b < L.blocks) :
    L.ftbGet (L.atbAnyToFree h k) b = L.ftbGet h b :=
  ftbGet_congr (fun _ ha _ => atbAnyToFree_mem ha hk) hb

theorem ftbGet_atbMarkToHead (hk : k < L.blocks) (hb : b < L.blocks) :
    L.ftbGet (L.atbMarkToHead h k) b = L.ftbGet h b :=
  ftbGet_congr (fun _ ha _ => atbMarkToHead_mem ha hk) hb

section

variable (hs : L.Sweeping del h k h' freeTail) (hdel : L.DelSafe del h) (hk : k < L.blocks)

include hs hdel hk

/-- A head that is not marked is freed. -/
theorem Sweeping.head
    (hhead : L.atbGetKind h k = .head) :
    L.Sweeping del h (k + 1) (L.atbAnyToFree (L.finalise h' del k) k) true := by
  have hdel' := hs.delSafe hdel
  have hnot : ¬L.Kept h k := by
    rw [kept_iff_of_ne_tail (by rw [hhead]; simp), hhead]
    simp
  refine hs.next (fun c hc hck => ?_) (fun hkept => absurd hkept hnot) (fun _ => ?_) hk
    (fun _ _ => ?_) (fun b hb => ?_)
    (fun hown b hb hkept a ha => ?_) (fun hno a ha => ?_) ?_
  · rw [atbGetKind_atbAnyToFree, if_neg hck, atbGetKind_finalise hdel' hk hc]
  · rw [atbGetKind_atbAnyToFree, if_pos rfl]
  · exact ⟨fun _ => hnot, fun _ => rfl⟩
  · rw [ftbGet_atbAnyToFree hk hb, ftbGet_finalise hdel' hk hb, hhead]
    simp
  · rw [atbAnyToFree_mem (offTable_of_pool ha.pool) hk]
    refine finalise_mem (fun _ => hown h' k a fun c hc hin hca => ?_) fun start hstart heq => ?_
    · -- the chain that is finalised is not that of a block that is kept
      obtain rfl := hca.unique ha
      refine not_inChain_of_kept hhead hkept ⟨hin.1, fun x hkx hxc => ?_⟩
      rw [← hs.ahead x (Nat.le_of_lt hkx) (by omega)]
      exact hin.2 x hkx hxc
    · have hlt := ftb_lt_pool hstart hk
      have hge := ha.pool
      omega
  · rw [atbAnyToFree_mem ha hk, finalise, hno k hk]
    rfl
  · rw [finalise]
    split
    · rw [ftbClear]
      cases L.gcFinaliserTableStart with
      | none | some =>
        dsimp only
        split <;> rfl
    · rfl

/-- **Turn.**  A turn of the sweep. -/
theorem Sweeping.turn (htailed : L.Tailed h) :
    L.Sweeping del h (k + 1) (L.sweepBlock del (h', freeTail) k).1
      (L.sweepBlock del (h', freeTail) k).2 := by
  have hkind := hs.ahead k (Nat.le_refl k) hk
  have hflags : L.atbGetKind h k ≠ .head → ∀ b, L.ftbGet h' b =
      (L.ftbGet h' b && decide (b ≠ k ∨ L.atbGetKind h k ≠ .head)) := fun hne b => by
    rw [decide_eq_true (.inr hne), Bool.and_true]
  rw [sweepBlock]
  rw [hkind]
  cases hcase : L.atbGetKind h k with
  | head => exact hs.head hdel hk hcase
  | free =>
    have hnot : ¬L.Kept h k := by
      rw [kept_iff_of_ne_tail (by rw [hcase]; simp), hcase]
      simp
    refine hs.next (fun _ _ _ => rfl) (fun hkept => absurd hkept hnot)
      (fun _ => hkind.trans hcase) hk
      (fun hlt htail => ?_) (fun b _ => hflags (by rw [hcase]; simp) b) (fun _ _ _ _ _ _ => rfl)
        (fun _ _ _ => rfl)
      rfl
    -- a tail does not follow a free block
    exact absurd hcase (htailed (k + 1) hlt htail).2
  | tail =>
    have hfree := hs.freeTail hk hcase
    have hflags := hflags (by rw [hcase]; simp)
    dsimp only
    split_ifs with hft
    · have hnot : ¬L.Kept h k := hfree.mp hft
      refine hs.next (fun c _ hck => ?_) (fun hkept => absurd hkept hnot) (fun _ => ?_) hk
        (fun _ _ => ⟨fun _ => hnot, fun _ => rfl⟩) (fun b hb => ?_) (fun _ b hb _ a ha => ?_)
          (fun _ a ha => ?_) rfl
      · rw [atbGetKind_atbAnyToFree, if_neg hck]
      · rw [atbGetKind_atbAnyToFree, if_pos rfl]
      · rw [ftbGet_atbAnyToFree hk hb]
        exact hflags b
      · exact atbAnyToFree_mem (offTable_of_pool ha.pool) hk
      · exact atbAnyToFree_mem ha hk
    · have hkept : L.Kept h k := by
        by_contra hnot
        exact hft (hfree.mpr hnot)
      refine hs.next (fun _ _ _ => rfl) (fun _ => ?_)
        (fun hnot => absurd hkept hnot) hk (fun _ _ => hfree)
        (fun b _ => hflags b) (fun _ _ _ _ _ _ => rfl) (fun _ _ _ => rfl) rfl
      rw [hkind, hcase]
      rfl
  | mark =>
    have hkept : L.Kept h k := (kept_iff_of_ne_tail (by rw [hcase]; simp)).mpr hcase
    refine hs.next (fun c _ hck => ?_) (fun _ => ?_) (fun hnot => absurd hkept hnot) hk
      (fun _ _ => ⟨nofun, fun hnot => absurd hkept hnot⟩) (fun b hb => ?_) (fun _ b hb _ a ha => ?_)
        (fun _ a ha => ?_)
      rfl
    · rw [atbGetKind_atbMarkToHead (hkind.trans hcase), if_neg hck]
    · rw [atbGetKind_atbMarkToHead (hkind.trans hcase), if_pos rfl, if_pos hcase]
    · rw [ftbGet_atbMarkToHead hk hb]
      exact hflags (by rw [hcase]; simp) b
    · exact atbMarkToHead_mem (offTable_of_pool ha.pool) hk
    · exact atbMarkToHead_mem ha hk

end

/-- **Sweep.**  The chains with a marked head are kept, all others freed. -/
theorem sweeping_gcSweep (htailed : L.Tailed h) (hdel : L.DelSafe del h) :
    ∃ freeTail, L.Sweeping del h L.blocks (L.gcSweep h del) freeTail := by
  have key : ∀ k, k ≤ L.blocks →
      L.Sweeping del h k ((List.range k).foldl (L.sweepBlock del) (h, false)).1
        ((List.range k).foldl (L.sweepBlock del) (h, false)).2 := by
    intro k
    induction k with
    | zero => exact fun _ => .start h htailed
    | succ k ih =>
      intro hk
      rw [List.range_succ, List.foldl_append]
      exact (ih (Nat.le_of_succ_le hk)).turn hdel hk htailed
  exact ⟨_, key L.blocks (Nat.le_refl _)⟩

end Layout

end Nespy.Py.Gc
