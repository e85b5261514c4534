import Nespy.Py.GcChains

/-!
# Py — what `gc_alloc` and `gc_realloc` do

`gc_alloc` may collect first, which frees whole chains and keeps those that are reachable (`Thins`),
and then takes a run of free blocks (`Allocated`).  `gc_realloc` keeps its chain, shortens it, makes
it longer in place, or copies it to a new chain and frees the old one.
-/

open List Option

namespace Nespy.Py.Gc

namespace Layout

variable {L : Layout} {h h' h'' : Heap} {a b c fuel i k n nFree ptr : ℕ} {roots : Roots}
  {del : (ℕ → BitVec 8) → ℕ → ℕ → BitVec 8}

/-! ### Collecting first -/

variable (L del) in
/-- Some chains are freed as a whole, but no reachable one; those that stay keep their flags and
bytes. -/
structure Thins (h : Heap) (roots : Roots) (h' : Heap) : Prop where
  whole : ∀ a b, b < L.blocks → L.InChain h a b → L.atbGetKind h a = .head →
    (L.atbGetKind h' a = .head ∧ L.atbGetKind h' b = L.atbGetKind h b) ∨
      (L.atbGetKind h' a = .free ∧ L.atbGetKind h' b = .free)
  kind : ∀ b, b < L.blocks → L.atbGetKind h' b = L.atbGetKind h b ∨ L.atbGetKind h' b = .free
  live : ∀ b, b < L.blocks → L.Live h roots b → L.atbGetKind h' b = L.atbGetKind h b
  ftb : ∀ b, b < L.blocks → L.atbGetKind h' b = .head → L.ftbGet h' b = L.ftbGet h b
  pool : L.DelOwn del → ∀ b, b < L.blocks → L.atbGetKind h' b ≠ .free →
    ∀ a, L.InBlock b a → h'.mem a = h.mem a
  wf : L.WellFormed h'
  lock : h'.gcLockDepth = h.gcLockDepth

theorem Thins.refl (hwf : L.WellFormed h) : L.Thins del h roots h where
  whole _ _ _ _ hhead := .inl ⟨hhead, rfl⟩
  kind _ _ := .inl rfl
  live _ _ _ := rfl
  ftb _ _ _ := rfl
  pool _ _ _ _ _ _ := rfl
  wf := hwf
  lock := rfl

section

variable (hc : L.Collected del h roots h')

include hc

theorem Collected.live_of_ne_free (hb : b < L.blocks) (hne : L.atbGetKind h' b ≠ .free) :
    L.Live h roots b := by
  by_contra hlive
  exact hne (hc.freed b hb hlive)

/-- A collection leaves the table in order. -/
theorem Collected.wellFormed (hwf : L.WellFormed h) : L.WellFormed h' where
  unmarked b hb hmark := by
    have hlive := hc.live_of_ne_free hb (by rw [hmark]; simp)
    rw [hc.kept b hb hlive] at hmark
    exact hwf.unmarked b hb hmark
  tailed b hb htail := by
    have hlive := hc.live_of_ne_free hb (by rw [htail]; simp)
    rw [hc.kept b hb hlive] at htail
    obtain ⟨hpos, hne⟩ := hwf.tailed b hb htail
    obtain ⟨a, hin, hhead, hr⟩ := hlive
    have hab : a ≠ b := by
      rintro rfl
      rw [hhead] at htail
      cases htail
    have hle := hin.1
    -- the block before the tail is in the same chain
    have hlive' : L.Live h roots (b - 1) :=
      ⟨a, ⟨by omega, fun c hac hcb => hin.2 c hac (by omega)⟩, hhead, hr⟩
    rw [hc.kept (b - 1) (by omega) hlive']
    exact ⟨hpos, hne⟩

/-- A collection only takes chains away. -/
theorem Collected.thins (hwf : L.WellFormed h) : L.Thins del h roots h' where
  whole a b hb hin hhead := by
    have ha : a < L.blocks := Nat.lt_of_le_of_lt hin.1 hb
    by_cases hr : L.Reachable h roots a
    · refine .inl ⟨?_, hc.kept b hb ((live_iff_reachable hin hhead).mpr hr)⟩
      rw [hc.kept a ha ((live_iff_reachable (.refl a) hhead).mpr hr), hhead]
    · refine .inr ⟨hc.freed a ha fun hlive => hr ?_, hc.freed b hb fun hlive => hr ?_⟩
      · exact (live_iff_reachable (.refl a) hhead).mp hlive
      · exact (live_iff_reachable hin hhead).mp hlive
  kind b hb := by
    by_cases hlive : L.Live h roots b
    · exact .inl (hc.kept b hb hlive)
    · exact .inr (hc.freed b hb hlive)
  live := hc.kept
  ftb b hb hhead := by
    have hlive := hc.live_of_ne_free hb (by rw [hhead]; simp)
    have hiff := hc.ftb b hb
    rw [Bool.eq_iff_iff, hiff]
    exact ⟨And.left, fun hflag => ⟨hflag, fun _ => hlive⟩⟩
  pool hown b hb hne := hc.pool hown b hb (hc.live_of_ne_free hb hne)
  wf := hc.wellFormed hwf
  lock := hc.gcLockDepth

end

theorem Thins.of_ne_free (ht : L.Thins del h roots h') (hb : b < L.blocks)
    (hne : L.atbGetKind h' b ≠ .free) :
    L.atbGetKind h' b = L.atbGetKind h b :=
  (ht.kind b hb).resolve_right hne

theorem Thins.isChain (ht : L.Thins del h roots h') (hc : L.IsChain h b k) :
    L.IsChain h' b k ∨ ∀ c, b ≤ c → c < b + k → L.atbGetKind h' c = .free := by
  have hpos := hc.pos
  have hle := hc.le
  have hwhole : ∀ c, b ≤ c → c < b + k →
    (L.atbGetKind h' b = .head ∧ L.atbGetKind h' c = L.atbGetKind h c) ∨
      (L.atbGetKind h' b = .free ∧ L.atbGetKind h' c = .free) := fun c hbc hck =>
    ht.whole b c (by omega) ((hc.inChain_iff (by omega)).mpr ⟨hbc, hck⟩) hc.head
  rcases hwhole b (Nat.le_refl b) (by omega) with ⟨hhead, -⟩ | ⟨hfree, -⟩
  · refine .inl (hc.congr (fun c hbc hck => ?_) fun hlt htail =>
      (ht.of_ne_free hlt (by rw [htail]; simp)).symm.trans htail)
    rcases hwhole c hbc hck with ⟨-, heq⟩ | ⟨hfree, -⟩
    · exact heq
    · rw [hhead] at hfree
      cases hfree
  · refine .inr fun c hbc hck => ?_
    rcases hwhole c hbc hck with ⟨hhead, -⟩ | ⟨-, hfree'⟩
    · rw [hfree] at hhead
      cases hhead
    · exact hfree'

/-! ### Taking free blocks -/

variable {m nBlocks : ℕ} {M M' X X' : ℕ → Prop}

/-- The scan finds free blocks in a row, as many as are needed. -/
theorem findRun_spec (hle : nFree ≤ c)
    (hfree : ∀ x, c ≤ x + nFree → x < c → L.atbGetKind h x = .free)
    (hrun : L.findRun h n (range' c m) nFree = some (i, k)) :
    n ≤ k ∧ 0 < k ∧ k ≤ i + 1 ∧ i < c + m ∧ ∀ x, i + 1 ≤ x + k → x ≤ i →
      L.atbGetKind h x = .free := by
  induction m generalizing c nFree with
  | zero => cases hrun
  | succ m ih =>
    rw [range'_succ, findRun] at hrun
    by_cases hc : L.atbGetKind h c = .free
    · have hfree' : ∀ x, c + 1 ≤ x + (nFree + 1) → x < c + 1 → L.atbGetKind h x = .free := by
        intro x hx hlt
        rcases Nat.lt_or_ge x c with hlt' | hge
        · exact hfree x (by omega) hlt'
        · obtain rfl : x = c := by omega
          exact hc
      rw [if_pos hc] at hrun
      split_ifs at hrun with hn
      · cases hrun
        exact ⟨hn, Nat.succ_pos _, by omega, by omega, fun x hx hxc => hfree' x hx (by omega)⟩
      · obtain ⟨hk, hpos, hki, hi, hall⟩ := ih (by omega) hfree' hrun
        exact ⟨hk, hpos, hki, by omega, hall⟩
    · rw [if_neg hc] at hrun
      obtain ⟨hk, hpos, hki, hi, hall⟩ := ih (Nat.zero_le _) (fun x hx hlt => by omega) hrun
      exact ⟨hk, hpos, hki, by omega, hall⟩

/-- The `k` free blocks from `b` on become a chain. -/
structure Allocated (L : Layout) (b k : ℕ) (h h' : Heap) : Prop where
  free : ∀ c, b ≤ c → c < b + k → L.atbGetKind h c = .free
  chain : L.IsChain h' b k
  kind : ∀ c, c < L.blocks → ¬(b ≤ c ∧ c < b + k) → L.atbGetKind h' c = L.atbGetKind h c
  ftb : ∀ c, c < L.blocks → c ≠ b → L.ftbGet h' c = L.ftbGet h c
  pool : ∀ c, ¬(b ≤ c ∧ c < b + k) → ∀ a, L.InBlock c a → h'.mem a = h.mem a
  wf : L.WellFormed h'
  lock : h'.gcLockDepth = h.gcLockDepth

section

variable (hwf : L.WellFormed h) (hpos : 0 < k)
  (hfree : ∀ c, b ≤ c → c < b + k → L.atbGetKind h c = .free)

include hwf hpos hfree

/-- A tail does not follow a free block. -/
theorem not_tail_of_free (hlt : b + k < L.blocks) : L.atbGetKind h (b + k) ≠ .tail := by
  intro hnext
  exact (hwf.tailed (b + k) hlt hnext).2 (hfree (b + k - 1) (by omega) (by omega))

variable (hkind : ∀ c, c < L.blocks → ¬(b ≤ c ∧ c < b + k) → L.atbGetKind h' c = L.atbGetKind h c)

include hkind

/-- A run of free blocks is used. -/
theorem wellFormed_of_used
    (hused : ∀ c, b ≤ c → c < b + k → L.atbGetKind h' c ≠ .mark ∧ L.atbGetKind h' c ≠ .free)
    (hfirst : L.atbGetKind h' b = .tail → 0 < b ∧ L.atbGetKind h' (b - 1) ≠ .free) :
    L.WellFormed h' where
  unmarked c hc hmark := by
    by_cases hin : b ≤ c ∧ c < b + k
    · exact (hused c hin.1 hin.2).1 hmark
    · exact hwf.unmarked c hc ((hkind c hc hin).symm.trans hmark)
  tailed c hc htail := by
    by_cases hin : b ≤ c ∧ c < b + k
    · rcases hin.1.eq_or_lt with rfl | hlt
      · exact hfirst htail
      · exact ⟨by omega, (hused (c - 1) (by omega) (by omega)).2⟩
    · rw [hkind c hc hin] at htail
      obtain ⟨hpos', hne⟩ := hwf.tailed c hc htail
      refine ⟨hpos', ?_⟩
      by_cases hin' : b ≤ c - 1 ∧ c - 1 < b + k
      · obtain rfl : c = b + k := by omega
        exact absurd htail (not_tail_of_free hwf hpos hfree hc)
      · rwa [hkind (c - 1) (by omega) hin']

/-- The entries of a new chain. -/
theorem isChain_of_kinds (hle : b + k ≤ L.blocks) (hhead : L.atbGetKind h' b = .head)
    (htail : ∀ c, b < c → c < b + k → L.atbGetKind h' c = .tail) :
    L.IsChain h' b k ∧ L.WellFormed h' := by
  refine ⟨⟨hpos, hle, hhead, htail, fun hlt hnext => ?_⟩, ?_⟩
  · rw [hkind (b + k) hlt (by omega)] at hnext
    exact not_tail_of_free hwf hpos hfree hlt hnext
  · refine wellFormed_of_used hwf hpos hfree hkind (fun c hbc hck => ?_) fun hb => by
      simp [hhead] at hb
    rcases hbc.eq_or_lt with rfl | hlt
    · simp [hhead]
    · simp [htail c hlt hck]

end

/-- Making a chain of free blocks. -/
theorem makeChain_spec (hbi : b ≤ i) (hi : i < L.blocks)
    (hfree : ∀ c, b ≤ c → c ≤ i → L.atbGetKind h c = .free) :
    (∀ c, L.atbGetKind (L.makeChain h b i) c =
        if c = b then .head else if b < c ∧ c ≤ i then .tail else L.atbGetKind h c) ∧
      (∀ a, L.OffTable a → (L.makeChain h b i).mem a = h.mem a) ∧
      L.makeChain h b i = { h with mem := (L.makeChain h b i).mem } := by
  have hb : L.atbGetKind h b = .free := hfree b (Nat.le_refl b) hbi
  have hhead : ∀ c, L.atbGetKind (L.atbFreeToHead h b) c = if c = b then .head
      else L.atbGetKind h c :=
    fun c => atbGetKind_atbFreeToHead hb
  have hle : b + 1 + (i - b) ≤ L.blocks := by omega
  have hfills : L.Fills .tail (b + 1) (i - b) (L.atbFreeToHead h b) (L.makeChain h b i) := by
    refine fills_foldl_atbFreeToTail hle fun c hbc hci => ?_
    rw [hhead, if_neg (by omega)]
    exact hfree c (by omega) (by omega)
  refine ⟨fun c => ?_, fun a ha => ?_, hfills.rest⟩
  · rw [hfills.kind, hhead]
    by_cases hcb : c = b
    · rw [if_neg (by omega), if_pos hcb, if_pos hcb]
    · rw [if_neg hcb, if_neg hcb]
      by_cases hin : b < c ∧ c ≤ i
      · rw [if_pos (by omega), if_pos hin]
      · rw [if_neg (by omega), if_neg hin]
  · exact (hfills.mem a ha).trans (atbFreeToHead_mem ha (by omega))

variable (hasFinaliser : Bool)

/-- Clearing new blocks leaves the table and the other blocks as they are. -/
theorem clearBlocks_spec (hb : b < L.blocks) (hn : 0 < n) :
    (∀ c, c < L.blocks → L.atbGetKind (L.clearBlocks h b n hasFinaliser) c = L.atbGetKind h c) ∧
      (∀ c, c < L.blocks → c ≠ b → L.ftbGet (L.clearBlocks h b n hasFinaliser) c = L.ftbGet h c) ∧
      (∀ c, ¬(b ≤ c ∧ c < b + n) → ∀ a, L.InBlock c a →
        (L.clearBlocks h b n hasFinaliser).mem a = h.mem a) ∧
      (L.clearBlocks h b n hasFinaliser).gcLockDepth = h.gcLockDepth := by
  generalize hh₁ : h.clear (L.ptrFromBlock b) (n * L.bytesPerBlock) = h₁
  have htables₁ : L.SameTables h h₁ := hh₁ ▸ sameTables_clear pool_le_ptrFromBlock
  have hpool₁ : ∀ c, ¬(b ≤ c ∧ c < b + n) → ∀ a, L.InBlock c a → h₁.mem a = h.mem a :=
    fun c hout a hin =>
    hh₁ ▸ clear_mem hin hout
  have hlock₁ : h₁.gcLockDepth = h.gcLockDepth := hh₁ ▸ rfl
  rw [clearBlocks, hh₁]
  cases hasFinaliser with
  | false => exact ⟨htables₁.kind, fun c hc _ => htables₁.ftb c hc, hpool₁, hlock₁⟩
  | true =>
    have htables₂ : L.SameTables h₁ (h₁.clear (L.ptrFromBlock b) L.bytesPerWord) :=
      sameTables_clear pool_le_ptrFromBlock
    refine ⟨fun c hc => ?_, fun c hc hcb => ?_, fun c hout a hin => ?_, ?_⟩
    · rw [if_pos rfl, atbGetKind_ftbSet hc, htables₂.kind c hc, htables₁.kind c hc]
    · rw [if_pos rfl, ftbGet_ftbSet_of_ne hcb, htables₂.ftb c hc, htables₁.ftb c hc]
    · rw [if_pos rfl, ftbSet_pool hin.pool hb, ← hpool₁ c hout a hin]
      -- the type pointer is in the first of the new blocks
      refine if_neg fun hrange => hout ((inBlock_range hin).mp ⟨hrange.1, ?_⟩)
      have hword : L.bytesPerWord ≤ n * L.bytesPerBlock := by
        calc L.bytesPerWord ≤ L.bytesPerBlock := Nat.le_mul_of_pos_left _ (by decide)
          _ ≤ n * L.bytesPerBlock := Nat.le_mul_of_pos_left _ hn
      omega
    · rw [ftbSet_rest]
      exact hlock₁

/-- `gc_alloc` from `found` on. -/
theorem found_spec {hasFinaliser : Bool} (hwf : L.WellFormed h) (hpos : 0 < k) (hki : k ≤ i + 1)
    (hi : i < L.blocks) (hfree : ∀ x, i + 1 ≤ x + k → x ≤ i → L.atbGetKind h x = .free) :
    ∃ h', L.found h nBlocks i k hasFinaliser = (h', some (L.ptrFromBlock (i + 1 - k))) ∧
      L.Allocated (i + 1 - k) k h h' := by
  generalize hb : i + 1 - k = b
  have hk : i - b + 1 = k := by omega
  have hblt : b < L.blocks := by omega
  obtain ⟨h₀, hh₀⟩ : ∃ h₀, h₀ = if k = 1 then { h with gcLastFreeAtbIndex := (i + 1) / 4 } else h :=
    ⟨_, rfl⟩
  obtain ⟨hmem₀, hlock₀⟩ : h₀.mem = h.mem ∧ h₀.gcLockDepth = h.gcLockDepth := by
    rw [hh₀]
    split
    · exact ⟨rfl, rfl⟩
    · exact ⟨rfl, rfl⟩
  have hkind₀ : ∀ c, L.atbGetKind h₀ c = L.atbGetKind h c := fun c => by
    rw [atbGetKind, hmem₀, atbGetKind]
  have hfree' : ∀ c, b ≤ c → c ≤ i → L.atbGetKind h₀ c = .free := fun c hbc hci =>
    (hkind₀ c).trans (hfree c (by omega) hci)
  obtain ⟨hkind₁, hmem₁, hrest₁⟩ := makeChain_spec (by omega) hi hfree'
  generalize hh₂ : ({ L.makeChain h₀ b i with
      gcAllocAmount := ((L.makeChain h₀ b i).gcAllocAmount + nBlocks) % 2 ^ (8 * L.bytesPerWord) } :
        Heap) = h₂
  have hmem₂ : h₂.mem = (L.makeChain h₀ b i).mem := hh₂ ▸ rfl
  have hkind₂ : ∀ c, L.atbGetKind h₂ c = L.atbGetKind (L.makeChain h₀ b i) c := fun c => by
    rw [atbGetKind, hmem₂, atbGetKind]
  obtain ⟨hkind, hftb, hpool, hlock⟩ := clearBlocks_spec hasFinaliser hblt hpos
  refine ⟨L.clearBlocks h₂ b k hasFinaliser, ?_, ?_⟩
  · rw [found, ← hh₀, hb, hh₂, hk]
  have hout : ∀ c, c < L.blocks → ¬(b ≤ c ∧ c < b + k) →
      L.atbGetKind (L.clearBlocks h₂ b k hasFinaliser) c = L.atbGetKind h c := fun c hc hout => by
    rw [hkind c hc, hkind₂, hkind₁, if_neg (by omega), if_neg (by omega), hkind₀]
  have hfree'' : ∀ c, b ≤ c → c < b + k → L.atbGetKind h c = .free := fun c hbc hck =>
    hfree c (by omega) (by omega)
  obtain ⟨hchain, hwf'⟩ := isChain_of_kinds hwf hpos hfree'' hout (by omega)
    (by rw [hkind b hblt, hkind₂, hkind₁, if_pos rfl])
    fun c hbc hck =>
      by rw [hkind c (by omega), hkind₂, hkind₁, if_neg (by omega), if_pos (by omega)]
  refine ⟨hfree'', hchain, hout, fun c hc hcb => ?_, fun c hc a hin => ?_, hwf', ?_⟩
  · rw [hftb c hc hcb]
    exact ftbGet_congr (fun a ha _ => by rw [hmem₂, hmem₁ a ha, hmem₀]) hc
  · rw [hpool c hc a hin, hmem₂, hmem₁ a (offTable_of_pool hin.pool), hmem₀]
  · rw [hlock, ← hh₂]
    rw [hrest₁]
    exact hlock₀

/-! ### `gc_alloc` -/

/-- The blocks are enough for the bytes when the sum is a `size_t`. -/
theorem le_blocksFor (hn : n + (L.bytesPerBlock - 1) < 2 ^ (8 * L.bytesPerWord)) :
    n ≤ L.blocksFor n * L.bytesPerBlock := by
  have hpos := L.bytesPerBlock_pos
  rw [blocksFor, Nat.mod_eq_of_lt hn]
  have hdiv := Nat.div_add_mod (n + (L.bytesPerBlock - 1)) L.bytesPerBlock
  have hmod := Nat.mod_lt (n + (L.bytesPerBlock - 1)) hpos
  rw [Nat.mul_comm] at hdiv
  omega

/-- They are none when it is not. -/
theorem blocksFor_of_overflow (hn : n < 2 ^ (8 * L.bytesPerWord))
    (hover : 2 ^ (8 * L.bytesPerWord) ≤ n + (L.bytesPerBlock - 1)) : L.blocksFor n = 0 := by
  have hlt : (n + (L.bytesPerBlock - 1)) % 2 ^ (8 * L.bytesPerWord) < L.bytesPerBlock := by
    rw [Nat.mod_eq_sub_mod hover]
    exact Nat.lt_of_le_of_lt (Nat.mod_le _ _) (by omega)
  rw [blocksFor, Nat.div_eq_of_lt hlt]

variable (L del) in
/-- What `gc_alloc` does: it may collect, and then there is no room or a run of free blocks is
taken. -/
def AllocResult (roots : Roots) (n : ℕ) (h h' : Heap) (r : Option ℕ) : Prop :=
  (r = none ∧ L.Thins del h roots h') ∨
    ∃ h₁ b k, r = some (L.ptrFromBlock b) ∧ L.Thins del h roots h₁ ∧ L.Allocated b k h₁ h' ∧
      n ≤ k * L.bytesPerBlock

/-- The scan and what follows it. -/
theorem findRun_found (ht : L.Thins del h roots h') (hn : n ≤ nBlocks * L.bytesPerBlock)
    (hrun : L.findRun h' nBlocks (L.scanned h') 0 = some (i, k)) :
    ∃ h'' r, some (L.found h' nBlocks i k hasFinaliser) = some (h'', r) ∧
      L.AllocResult del roots n h h'' r := by
  obtain ⟨hk, hpos, hki, hi, hfree⟩ := findRun_spec (Nat.zero_le _) (fun x hx hlt => by omega) hrun
  -- the scan begins inside the table, or sees nothing
  have hi' : i < L.blocks := by
    by_contra hge
    have hzero : L.blocks - h'.gcLastFreeAtbIndex * 4 = 0 := by omega
    rw [scanned, hzero] at hrun
    cases hrun
  obtain ⟨h'', hfound, halloc⟩ := found_spec ht.wf hpos hki hi' hfree
  refine ⟨h'', _, congrArg some hfound, .inr ⟨h', _, k, rfl, ht, halloc, ?_⟩⟩
  exact Nat.le_trans hn (Nat.mul_le_mul_right _ hk)

/-- **Allocation.**  `gc_alloc` in a well-formed heap. -/
theorem gcAlloc_spec (hwf : L.WellFormed h) (hend : L.Bounded h) (hdel : L.DelPool del)
    (hfuel : 2 * L.blocks + 1 < fuel) (hn : n < 2 ^ (8 * L.bytesPerWord)) (roots : Roots) :
    ∃ h' r, L.gcAlloc h fuel del roots n hasFinaliser = some (h', r) ∧
      L.AllocResult del roots n h h' r := by
  obtain ⟨hc, hcollect, hcollected⟩ := gcCollect_spec hwf hend (.inr hdel) hfuel roots
  have hthins := hcollected.thins hwf
  rw [gcAlloc]
  split
  · exact ⟨h, none, rfl, .inl ⟨rfl, .refl hwf⟩⟩
  rename_i hsome
  have hbytes : n ≤ L.blocksFor n * L.bytesPerBlock := by
    refine le_blocksFor (Nat.lt_of_not_le fun hover => hsome (.inl ?_))
    exact blocksFor_of_overflow hn hover
  rw [collectEarly]
  split
  · rw [hcollect, map_some, bind_eq_bind, bind_some]
    dsimp only
    cases hrun : L.findRun hc (L.blocksFor n) (L.scanned hc) 0 with
    | none => exact ⟨hc, none, rfl, .inl ⟨rfl, hthins⟩⟩
    | some found => exact findRun_found hasFinaliser hthins hbytes hrun
  · rw [bind_eq_bind, bind_some]
    dsimp only
    cases hrun : L.findRun h (L.blocksFor n) (L.scanned h) 0 with
    | some found => exact findRun_found hasFinaliser (.refl hwf) hbytes hrun
    | none =>
      dsimp only
      split
      · exact ⟨h, none, rfl, .inl ⟨rfl, .refl hwf⟩⟩
      · rw [hcollect, bind_eq_bind, bind_some]
        cases hrun' : L.findRun hc (L.blocksFor n) (L.scanned hc) 0 with
        | none => exact ⟨hc, none, rfl, .inl ⟨rfl, hthins⟩⟩
        | some found => exact findRun_found hasFinaliser hthins hbytes hrun'

/-! ### `gc_realloc` -/

/-- The scan counts the blocks of the chain and free blocks behind it, and reads entries of the
table only. -/
theorem reallocScan_spec (newBlocks : ℕ) (log : List ℕ) (hwf : L.WellFormed h)
    (hc : L.IsChain h b k)
    (hpos : 0 < nBlocks) (hle : nBlocks ≤ k) (hphase : nFree = 0 ∨ nBlocks = k)
    (hm : b + nBlocks + nFree + m = L.blocks)
    (hfree : ∀ x, b + k ≤ x → x < b + k + nFree → L.atbGetKind h x = .free)
    (hlog : ∀ e ∈ log, e < L.blocks) :
    ∃ f log', L.reallocScan h newBlocks (range' (b + nBlocks + nFree) m) nBlocks nFree log =
      (k, f, log') ∧
      b + k + f ≤ L.blocks ∧ (∀ x, b + k ≤ x → x < b + k + f → L.atbGetKind h x = .free) ∧
      ∀ e ∈ log', e < L.blocks := by
  have hkle := hc.le
  induction m generalizing nBlocks nFree log with
  | zero =>
    obtain rfl : nBlocks = k := by omega
    exact ⟨nFree, log, rfl, by omega, hfree, hlog⟩
  | succ m ih =>
    generalize hx : b + nBlocks + nFree = x
    have hlog' : ∀ e ∈ log ++ [x], e < L.blocks :=
      forall_mem_append.mpr ⟨hlog, forall_mem_singleton.mpr (by omega)⟩
    -- the chain ends where there is no tail
    have hends : L.atbGetKind h x ≠ .tail → nBlocks = k := by
      intro hne
      rcases hphase with rfl | heq
      · by_contra hlt
        exact hne (hc.tail x (by omega) (by omega))
      · exact heq
    rw [range'_succ, reallocScan]
    cases hkind : L.atbGetKind h x with
    | tail =>
      -- a tail is one of the chain
      have hlt : nBlocks < k := by
        by_contra hge
        obtain rfl : nBlocks = k := by omega
        rcases Nat.eq_zero_or_pos nFree with hzero | hpos'
        · refine hc.stop (by omega) ?_
          rw [← hkind, ← hx, hzero, Nat.add_zero]
        · refine (hwf.tailed x (by omega) hkind).2 (hfree (x - 1) (by omega) (by omega))
      obtain rfl : nFree = 0 := by omega
      have hnext : x + 1 = b + (nBlocks + 1) + 0 := by omega
      rw [hnext]
      exact ih _ (by omega) (by omega) (.inl rfl) (by omega) hfree hlog'
    | free =>
      obtain rfl := hends (by rw [hkind]; simp)
      have hfree' : ∀ y, b + nBlocks ≤ y → y < b + nBlocks + (nFree + 1) →
          L.atbGetKind h y = .free := by
        intro y hy hlt
        rcases Nat.lt_or_ge y x with hyx | hge
        · exact hfree y hy (by omega)
        · obtain rfl : y = x := by omega
          exact hkind
      dsimp only
      split
      · exact ⟨nFree + 1, _, rfl, by omega, hfree', hlog'⟩
      · have hnext : x + 1 = b + nBlocks + (nFree + 1) := by omega
        rw [hnext]
        exact ih _ hpos (Nat.le_refl _) (.inr rfl) (by omega) hfree' hlog'
    | head =>
      obtain rfl := hends (by rw [hkind]; simp)
      exact ⟨nFree, _, rfl, by omega, hfree, hlog'⟩
    | mark => exact absurd hkind (hwf.unmarked x (by omega))

/-! ### What becomes of the other chains -/

variable (L del) in
/-- The chain is as before, with its flag and, unless a finaliser writes there, its bytes. -/
structure Survives (h h' : Heap) (c k : ℕ) : Prop where
  chain : L.IsChain h' c k
  ftb : L.ftbGet h' c = L.ftbGet h c
  bytes : L.DelOwn del → ∀ x, c ≤ x → x < c + k → ∀ a, L.InBlock x a → h'.mem a = h.mem a

theorem Survives.trans (hs : L.Survives del h h' c k) (hs' : L.Survives del h' h'' c k) :
    L.Survives del h h'' c k where
  chain := hs'.chain
  ftb := hs'.ftb.trans hs.ftb
  bytes hown x hcx hxk a ha := (hs'.bytes hown x hcx hxk a ha).trans (hs.bytes hown x hcx hxk a ha)

variable (L del) in
/-- Every chain survives or is gone, and every new head is in `X`; the chains in `M` survive. -/
structure Touches (X M : ℕ → Prop) (h h' : Heap) : Prop where
  wf : L.WellFormed h'
  lock : h'.gcLockDepth = h.gcLockDepth
  others : ∀ c k, L.IsChain h c k → X c ∨ L.Survives del h h' c k ∨ L.atbGetKind h' c ≠ .head
  heads : ∀ c, c < L.blocks → L.atbGetKind h' c = .head → L.atbGetKind h c = .head ∨ X c
  keeps : ∀ c k, L.IsChain h c k → M c → L.Survives del h h' c k

theorem Touches.trans (ht : L.Touches del X M h h') (ht' : L.Touches del X' M' h' h'') :
    L.Touches del (fun c => X c ∨ X' c) (fun c => M c ∧ M' c) h h'' where
  wf := ht'.wf
  lock := ht'.lock.trans ht.lock
  others c k hc := by
    rcases ht.others c k hc with hX | hs | hne
    · exact .inl (.inl hX)
    · rcases ht'.others c k hs.chain with hX | hs' | hne
      · exact .inl (.inr hX)
      · exact .inr (.inl (hs.trans hs'))
      · exact .inr (.inr hne)
    · by_cases hhead : L.atbGetKind h'' c = .head
      · rcases ht'.heads c hc.lt hhead with hhead' | hX
        · exact absurd hhead' hne
        · exact .inl (.inr hX)
      · exact .inr (.inr hhead)
  heads c hlt hhead := by
    rcases ht'.heads c hlt hhead with hhead' | hX
    · exact (ht.heads c hlt hhead').imp id .inl
    · exact .inr (.inr hX)
  keeps c k hc hM := (ht.keeps c k hc hM.1).trans (ht'.keeps c k (ht.keeps c k hc hM.1).chain hM.2)

theorem Touches.mono (ht : L.Touches del X M h h') (hX : ∀ c, X c → X' c)
    (hM : ∀ c, L.atbGetKind h c = .head → M' c → M c) : L.Touches del X' M' h h' where
  wf := ht.wf
  lock := ht.lock
  others c k hc := (ht.others c k hc).imp (hX c) id
  heads c hlt hhead := (ht.heads c hlt hhead).imp id (hX c)
  keeps c k hc hM' := ht.keeps c k hc (hM c hc.head hM')

/-- The chains that are in `P` survive, the others are in `X` or gone. -/
theorem touches_of_survives (P : ℕ → Prop) (hwf : L.WellFormed h')
    (hlock : h'.gcLockDepth = h.gcLockDepth)
    (hsurv : ∀ c k, L.IsChain h c k → P c → L.Survives del h h' c k)
    (hgone : ∀ c, L.atbGetKind h c = .head → ¬P c → X c ∨ L.atbGetKind h' c ≠ .head)
    (hheads : ∀ c, c < L.blocks → L.atbGetKind h' c = .head → L.atbGetKind h c = .head ∨ X c)
    (hM : ∀ c, L.atbGetKind h c = .head → M c → P c) : L.Touches del X M h h' where
  wf := hwf
  lock := hlock
  others c k hc := by
    by_cases hP : P c
    · exact .inr (.inl (hsurv c k hc hP))
    · exact (hgone c hc.head hP).imp_right .inr
  heads := hheads
  keeps c k hc hMc := hsurv c k hc (hM c hc.head hMc)

/-- Chains that do not meet the blocks that change survive. -/
theorem survives_of_outside (hc : L.IsChain h c k)
    (hkind : ∀ x, x < L.blocks → ¬(b ≤ x ∧ x < b + m) → L.atbGetKind h' x = L.atbGetKind h x)
    (htail : ∀ x, x < L.blocks → b ≤ x → x < b + m → L.atbGetKind h' x = .tail → c + k ≠ x)
    (hftb : L.ftbGet h' c = L.ftbGet h c)
    (hpool : ∀ x, ¬(b ≤ x ∧ x < b + m) → ∀ a, L.InBlock x a → h'.mem a = h.mem a)
    (hdisj : c + k ≤ b ∨ b + m ≤ c) : L.Survives del h h' c k where
  chain := by
    have hle := hc.le
    refine hc.congr (fun x hcx hxk => hkind x (by omega) (by omega)) fun hlt ht => ?_
    by_cases hin : b ≤ c + k ∧ c + k < b + m
    · exact absurd rfl (htail (c + k) hlt hin.1 hin.2 ht)
    · exact (hkind (c + k) hlt hin).symm.trans ht
  ftb := hftb
  bytes _ x hcx hxk a ha := hpool x (by omega) a ha

theorem Thins.touches (ht : L.Thins del h roots h') :
    L.Touches del (fun _ => False) (L.Reachable h roots) h h' := by
  refine touches_of_survives (fun c => L.atbGetKind h' c = .head) ht.wf ht.lock
    (fun c k hc hhead => ?_)
    (fun c _ hne => .inr hne) (fun c hlt hhead => ?_) fun c hhead hr => ?_
  · rcases ht.isChain hc with hchain | hfree
    · have hle := hchain.le
      exact ⟨hchain, ht.ftb c hc.lt hhead, fun hown x hcx hxk a ha =>
        ht.pool hown x (by omega) (hchain.ne_free hcx hxk) a ha⟩
    · have hpos := hc.pos
      rw [hfree c (Nat.le_refl c) (by omega)] at hhead
      cases hhead
  · exact .inl ((ht.of_ne_free hlt (by simp [hhead])).symm.trans hhead)
  · exact (ht.live c hr.head.1 ((live_iff_reachable (.refl c) hhead).mpr hr)).trans hhead

theorem Allocated.touches (ha : L.Allocated b k h h') :
    L.Touches del (fun c => c = b) (fun _ => True) h h' := by
  refine touches_of_survives (fun _ => True) ha.wf ha.lock (fun c n hc _ => ?_)
    (fun c _ hne => absurd trivial hne)
    (fun c hlt hhead => ?_) fun _ _ _ => trivial
  · have hpos := hc.pos
    have hposb := ha.chain.pos
    -- the blocks of a chain are not free
    have hdisj : c + n ≤ b ∨ b + k ≤ c := by
      by_contra hnot
      rcases Nat.lt_or_ge c b with hlt | hge
      · exact hc.ne_free (by omega) (by omega) (ha.free b (Nat.le_refl b) (by omega))
      · exact hc.ne_free (Nat.le_refl c) (by omega) (ha.free c hge (by omega))
    refine survives_of_outside hc ha.kind (fun x hx hbx hxk htail => ?_)
      (ha.ftb c hc.lt (by omega)) ha.pool hdisj
    rintro rfl
    obtain rfl : b = c + n := by omega
    simp [ha.chain.head] at htail
  · by_cases hin : b ≤ c ∧ c < b + k
    · rw [ha.chain.kind hin.1 hin.2] at hhead
      exact .inr (by simpa using hhead)
    · exact .inl ((ha.kind c hlt hin).symm.trans hhead)

theorem Freed.touches (hf : L.Freed b k h h') (hwf : L.WellFormed h) (hc : L.IsChain h b k) :
    L.Touches del (fun _ => False) (fun c => c ≠ b) h h' := by
  have hpos := hc.pos
  refine touches_of_survives (fun c => c ≠ b) (wellFormed_of_freed hwf hf.kind hc.stop) hf.lock
    (fun c n hc' hne => ?_) (fun c _ hcb => ?_) (fun c hlt hhead => ?_) fun _ _ hne => hne
  · refine survives_of_outside hc' (fun x hx hout => ?_)
      (fun x hx hbx hxk htail => ?_) ?_ (fun x _ a ha => ?_)
      (hc'.disjoint hc hne)
    · rw [hf.kind x hx, if_neg hout]
    · simp [hf.kind x hx, hbx, hxk] at htail
    · rw [hf.ftb c hc'.lt, decide_eq_true hne, Bool.and_true]
    · exact hf.pool a ha.pool
  · rw [not_not.mp hcb, hf.kind b hc.lt, if_pos (by omega)]
    simp
  · rw [hf.kind c hlt] at hhead
    split_ifs at hhead
    exact .inl hhead

theorem Touches.refl (hwf : L.WellFormed h) : L.Touches del X M h h :=
  touches_of_survives (fun _ => True) hwf rfl (fun _ _ hc _ => ⟨hc, rfl, fun _ _ _ _ _ _ => rfl⟩)
    (fun _ _ hne => absurd trivial hne) (fun _ _ hhead => .inl hhead) fun _ _ _ => trivial

/-- The bytes of a chain are written. -/
theorem touches_copy {src : ℕ} (hwf : L.WellFormed h) (hc : L.IsChain h b k) (hm : m ≤ k) :
    L.Touches del (fun c => c = b) (fun c => c ≠ b) h
      (h.copy (L.ptrFromBlock b) src (m * L.bytesPerBlock)) := by
  have htables : L.SameTables h (h.copy (L.ptrFromBlock b) src (m * L.bytesPerBlock)) :=
    sameTables_copy pool_le_ptrFromBlock
  refine touches_of_survives (fun c => c ≠ b) (htables.wellFormed hwf) rfl (fun c n hc' hne => ?_)
    (fun c _ hcb => .inl (not_not.mp hcb)) (fun c hlt hhead => .inl ?_) fun _ _ hne => hne
  · refine ⟨htables.isChain hc', htables.ftb c hc'.lt,
      fun _ x hcx hxn a ha => copy_mem ha fun hin => ?_⟩
    have hdisj := hc'.disjoint hc hne
    omega
  · rwa [htables.kind c hlt] at hhead

/-- Reachable blocks are not among those that `gc_alloc` has taken. -/
theorem AllocResult.touches {r : Option ℕ} (hr : L.AllocResult del roots n h h' r) :
    L.Touches del (fun c => r = some (L.ptrFromBlock c)) (L.Reachable h roots) h h' ∧
      (∀ p, r = some p → ∃ b k, p = L.ptrFromBlock b ∧ L.IsChain h' b k ∧ n ≤ k * L.bytesPerBlock) ∧
      ∀ c, L.Reachable h roots c → r ≠ some (L.ptrFromBlock c) := by
  rcases hr with ⟨rfl, hthins⟩ | ⟨h₁, b, k, rfl, hthins, ha, hn⟩
  · exact ⟨hthins.touches.mono (fun _ hX => hX.elim) fun _ _ hM => hM, (fun p hp => by cases hp),
      fun _ _ hp => by cases hp⟩
  · refine ⟨(hthins.touches.trans ha.touches).mono (fun c hX => ?_) fun c _ hM => ⟨hM, trivial⟩,
      fun p hp => ?_, fun c hreach heq => ?_⟩
    · rcases hX with hX | rfl
      · exact hX.elim
      · rfl
    · exact ⟨b, k, (some.inj hp).symm, ha.chain, hn⟩
    · -- a reachable head is still a head when the free blocks are taken
      obtain rfl := ptrFromBlock_injective (some.inj heq)
      have hpos := ha.chain.pos
      have hlive := (live_iff_reachable (.refl b) hreach.head.2).mpr hreach
      have hhead := (hthins.live b hreach.head.1 hlive).trans hreach.head.2
      rw [ha.free b (Nat.le_refl b) (by omega)] at hhead
      cases hhead

variable (L del) in
/-- What `gc_realloc` does to the chain of `k` blocks from `b` on. -/
structure ReallocResult (roots : Roots) (b k n : ℕ) (h h' : Heap) (r : Option ℕ) : Prop where
  touches :
    L.Touches del (fun c => r = some (L.ptrFromBlock c))
      (fun c => L.Reachable h roots c ∧ c ≠ b) h h'
  result : ∀ p, r = some p → ∃ b' k', p = L.ptrFromBlock b' ∧ L.IsChain h' b' k' ∧
    n ≤ k' * L.bytesPerBlock ∧
    (L.DelOwn del → ∀ i, i < k * L.bytesPerBlock → i < n →
      h'.mem (p + i) = h.mem (L.ptrFromBlock b + i))
  fresh : ∀ c, L.Reachable h roots c → c ≠ b → r ≠ some (L.ptrFromBlock c)
  failed : r = none → L.Survives del h h' b k
  moved : ∀ p, r = some p → p ≠ L.ptrFromBlock b → ∀ c, b ≤ c → c < b + k →
    L.atbGetKind h' c = .free

/-- The chain stays where it is, and has `m` blocks now. -/
theorem reallocResult_inPlace (hwf : L.WellFormed h') (hlock : h'.gcLockDepth = h.gcLockDepth)
    (hsurv : ∀ c j, L.IsChain h c j → c ≠ b → L.Survives del h h' c j)
    (hheads : ∀ c, c < L.blocks → L.atbGetKind h' c = .head → L.atbGetKind h c = .head)
    (hchain : L.IsChain h' b m) (hn : n ≤ m * L.bytesPerBlock)
    (hbytes : ∀ i, i < k * L.bytesPerBlock → i < n →
      h'.mem (L.ptrFromBlock b + i) = h.mem (L.ptrFromBlock b + i)) :
    L.ReallocResult del roots b k n h h' (some (L.ptrFromBlock b)) where
  touches := touches_of_survives (fun c => c ≠ b) hwf hlock hsurv
    (fun c _ hcb => .inl (by rw [not_not.mp hcb]))
      (fun c hlt hhead => .inl (hheads c hlt hhead)) fun _ _ hM => hM.2
  result p hp := by
    cases hp
    exact ⟨b, m, rfl, hchain, hn, fun _ => hbytes⟩
  fresh c _ hcb hr := hcb (ptrFromBlock_injective (some.inj hr)).symm
  failed hp := absurd hp (some_ne_none _)
  moved p hp hne := absurd (some.inj hp).symm hne

section

variable (hwf : L.WellFormed h) (hc : L.IsChain h b k)

include hwf hc

/-- The chain has the right size already. -/
theorem reallocResult_same (hn : n ≤ k * L.bytesPerBlock) :
    L.ReallocResult del roots b k n h h (some (L.ptrFromBlock b)) :=
  reallocResult_inPlace hwf rfl (fun _ _ hc' _ => ⟨hc', rfl, fun _ _ _ _ _ _ => rfl⟩)
    (fun _ _ hhead => hhead) hc hn
    fun _ _ _ => rfl

/-- The chain is shortened to `m` blocks. -/
theorem reallocResult_shrink (hm : 0 < m) (hmk : m < k)
    (hn : n ≤ m * L.bytesPerBlock) :
    L.ReallocResult del roots b k n h
      (((range' (b + m) (k - m)).foldl L.atbAnyToFree h).noteFree (b + m))
        (some (L.ptrFromBlock b)) := by
  have hle := hc.le
  have hend : b + m + (k - m) = b + k := by omega
  have hf : L.Fills .free (b + m) (k - m) h _ := fills_foldl_atbAnyToFree (by omega)
  generalize (range' (b + m) (k - m)).foldl L.atbAnyToFree h = h₁ at hf ⊢
  have hkind : ∀ x, x < L.blocks → L.atbGetKind (h₁.noteFree (b + m)) x =
      if b + m ≤ x ∧ x < b + m + (k - m) then .free else L.atbGetKind h x := fun x hx =>
    (sameTables_noteFree.kind x hx).trans (hf.kind x)
  have hpool : ∀ a, L.gcPoolStart ≤ a → (h₁.noteFree (b + m)).mem a = h.mem a := fun a ha => by
    rw [noteFree_mem, hf.mem a (offTable_of_pool ha)]
  refine reallocResult_inPlace (wellFormed_of_freed hwf hkind (hend ▸ hc.stop)) ?_
    (fun c j hc' hne => ?_)
    (fun c hlt hhead => ?_) ⟨hm, by omega, ?_, fun x hbx hxm => ?_, fun hlt => ?_⟩ hn
    fun i _ _ => hpool _ (Nat.le_trans pool_le_ptrFromBlock (Nat.le_add_right _ _))
  · rw [noteFree_gcLockDepth, hf.rest]
  · have hdisj := hc'.disjoint hc hne
    refine survives_of_outside (b := b + m) (m := k - m) hc' (fun x hx hout => ?_)
      (fun x hx hbx hxk htail => ?_)
      ((sameTables_noteFree.ftb c hc'.lt).trans (hf.ftb hc'.lt)) (fun x _ a ha => hpool a ha.pool)
        (by omega)
    · rw [hkind x hx, if_neg hout]
    · simp [hkind x hx, hbx, hxk] at htail
  · rw [hkind c hlt] at hhead
    split_ifs at hhead
    exact hhead
  · rw [hkind b (by omega), if_neg (by omega), hc.head]
  · rw [hkind x (by omega), if_neg (by omega), hc.tail x hbx (by omega)]
  · rw [hkind (b + m) hlt, if_pos (by omega)]
    simp

/-- The chain is made longer in place, to `m` blocks. -/
theorem reallocResult_grow (hkm : k < m)
    (hle : b + m ≤ L.blocks) (hfree : ∀ x, b + k ≤ x → x < b + m → L.atbGetKind h x = .free)
    (hf : L.Fills .tail (b + k) (m - k) h h') (hn : n ≤ m * L.bytesPerBlock) :
    L.ReallocResult del roots b k n h
      (h'.clear (L.ptrFromBlock b + k * L.bytesPerBlock) ((m - k) * L.bytesPerBlock))
        (some (L.ptrFromBlock b)) := by
  have hpos := hc.pos
  have hptr : L.ptrFromBlock b + k * L.bytesPerBlock = L.ptrFromBlock (b + k) := by
    rw [ptrFromBlock, ptrFromBlock, Nat.add_mul]
    omega
  have hend : b + k + (m - k) = b + m := by omega
  rw [hptr]
  have htables : L.SameTables h' (h'.clear (L.ptrFromBlock (b + k)) ((m - k) * L.bytesPerBlock)) :=
    sameTables_clear pool_le_ptrFromBlock
  have hpool : ∀ x, ¬(b + k ≤ x ∧ x < b + k + (m - k)) → ∀ a, L.InBlock x a →
      (h'.clear (L.ptrFromBlock (b + k)) ((m - k) * L.bytesPerBlock)).mem a = h.mem a :=
        fun x hout a ha => by
    rw [clear_mem ha hout, hf.mem a (offTable_of_pool ha.pool)]
  have hlock : (h'.clear (L.ptrFromBlock (b + k)) ((m - k) * L.bytesPerBlock)).gcLockDepth =
      h.gcLockDepth := by
    change h'.gcLockDepth = _
    rw [hf.rest]
  generalize h'.clear (L.ptrFromBlock (b + k)) ((m - k) * L.bytesPerBlock) =
    h₂ at htables hpool hlock ⊢
  have hin : ∀ x, b + k ≤ x → x < b + k + (m - k) → L.atbGetKind h₂ x = .tail := fun x hbx hxm =>
    (htables.kind x (by omega)).trans (hf.inside hbx hxm)
  have hout : ∀ x, x < L.blocks → ¬(b + k ≤ x ∧ x < b + k + (m - k)) →
      L.atbGetKind h₂ x = L.atbGetKind h x :=
    fun x hx hout => by rw [htables.kind x hx, hf.kind, if_neg hout]
  have hfree' : ∀ x, b + k ≤ x → x < b + k + (m - k) → L.atbGetKind h x = .free := fun x hbx hxm =>
    hfree x hbx (by omega)
  have hchain : L.IsChain h₂ b m := by
    refine ⟨by omega, hle, ?_, fun x hbx hxm => ?_, fun hlt => ?_⟩
    · rw [hout b (by omega) (by omega), hc.head]
    · rcases Nat.lt_or_ge x (b + k) with hlt | hge
      · rw [hout x (by omega) (by omega), hc.tail x hbx hlt]
      · exact hin x hge (by omega)
    · rw [hout (b + m) hlt (by omega), ← hend]
      exact not_tail_of_free hwf (by omega) hfree' (by omega)
  have hwf' : L.WellFormed h₂ :=
    wellFormed_of_used hwf (by omega) hfree' hout (fun x hbx hxm => by simp [hin x hbx hxm])
      fun _ => ⟨by omega, hchain.ne_free (by omega) (by omega)⟩
  refine reallocResult_inPlace hwf' hlock (fun c j hc' hne => ?_) (fun c hlt hhead => ?_)
    hchain hn fun i hi _ => ?_
  · have hposc := hc'.pos
    have hor := hc'.disjoint hc hne
    have hdisj : c + j ≤ b + k ∨ b + k + (m - k) ≤ c := by
      by_contra hnot
      exact hc'.ne_free (Nat.le_refl c) (by omega) (hfree c (by omega) (by omega))
    exact survives_of_outside hc' hout (fun x _ _ _ _ => by omega)
      ((htables.ftb c hc'.lt).trans (hf.ftb hc'.lt)) hpool hdisj
  · by_cases hcin : b + k ≤ c ∧ c < b + k + (m - k)
    · simp [hin c hcin.1 hcin.2] at hhead
    · rwa [hout c hlt hcin] at hhead
  · obtain ⟨x, hbx, hxk, hx⟩ := exists_inBlock (Nat.le_add_right _ i) (Nat.add_lt_add_left hi _)
    exact hpool x (by omega) _ hx

end

theorem mul_lt_of_lt_blocksFor (hn : n + (L.bytesPerBlock - 1) < 2 ^ (8 * L.bytesPerWord))
    (hk : k < L.blocksFor n) : k * L.bytesPerBlock < n := by
  have hpos := L.bytesPerBlock_pos
  rw [blocksFor, Nat.mod_eq_of_lt hn] at hk
  have hmul : (k + 1) * L.bytesPerBlock ≤ n + (L.bytesPerBlock - 1) :=
    (Nat.le_div_iff_mul_le hpos).mp hk
  rw [Nat.succ_mul] at hmul
  omega

section

variable (hwf : L.WellFormed h) (hlock : h.gcLockDepth = 0) (hdel : L.DelPool del)
  (hfuel : 2 * L.blocks + 1 < fuel)
  (hc : L.IsChain h b k) (hn : n + (L.bytesPerBlock - 1) < 2 ^ (8 * L.bytesPerWord))

include hwf hlock hdel hfuel hc hn

/-- The chain is copied to a new one, and freed. -/
theorem reallocMove_spec {log : List ℕ} (hend : L.Bounded h) (hlt : b + k < L.blocks)
    (hk : k < L.blocksFor n) (hlog : ∀ e ∈ log, e < L.blocks) :
    ∃ h' r log', L.reallocMove h fuel del roots (L.ptrFromBlock b) n k log = some (h', r, log') ∧
      L.ReallocResult del roots b k n h h' r ∧ ∀ e ∈ log', e < L.blocks := by
  obtain ⟨roots', hroots'⟩ : ∃ roots' : Roots, roots' =
    { roots with more := [L.ptrFromBlock b] :: roots.more } := ⟨_, rfl⟩
  have hb : b < L.blocks := hc.lt
  have hpos := hc.pos
  have hreach : L.Reachable h roots' b := by
    refine ⟨L.ptrFromBlock b, ?_, verifyPtr_ptrFromBlock hb, ?_, ?_⟩
    · rw [hroots', Roots.all]
      simp
    · rw [blockFromPtr_ptrFromBlock]
      exact hc.head
    · rw [blockFromPtr_ptrFromBlock]
  have hmono : ∀ c, L.Reachable h roots c → L.Reachable h roots' c := by
    rintro c ⟨p, hp, hrest⟩
    refine ⟨p, ?_, hrest⟩
    rw [Roots.all] at hp
    rw [hroots', Roots.all]
    rw [mem_append] at hp ⊢
    exact hp.imp id fun hp => mem_append_right _ hp
  obtain ⟨h₂, r, halloc, hresult⟩ := gcAlloc_spec (L.ftbGet h b) hwf hend hdel hfuel
    (by omega : n < 2 ^ (8 * L.bytesPerWord)) roots'
  rw [reallocMove, ← hroots', blockFromPtr_ptrFromBlock, halloc, bind_eq_bind, bind_some]
  obtain ⟨ht₂, hnew, hfresh⟩ := hresult.touches
  have hs₂ : L.Survives del h h₂ b k := ht₂.keeps b k hc hreach
  cases r with
  | none =>
    exact ⟨h₂, none, log, rfl, ⟨ht₂.mono (fun _ hX => hX) fun c _ hM => hmono c hM.1,
      (fun p hp => by cases hp),
      (fun _ _ _ hr => by cases hr), fun _ => hs₂, (fun p hp => by cases hp)⟩, hlog⟩
  | some p =>
    obtain ⟨b', k', rfl, hc', hbytes⟩ := hnew p rfl
    have hkk : k ≤ k' := by
      have hlt' := mul_lt_of_lt_blocksFor hn hk
      exact Nat.le_of_lt (Nat.lt_of_mul_lt_mul_right (Nat.lt_of_lt_of_le hlt' hbytes))
    have hne : ∀ c, L.Reachable h roots' c → c ≠ b' := by
      rintro c hr rfl
      exact hfresh c hr rfl
    have hbb' : b ≠ b' := hne b hreach
    generalize hh₃ : h₂.copy (L.ptrFromBlock b') (L.ptrFromBlock b) (k * L.bytesPerBlock) = h₃
    have ht₃ : L.Touches del (fun c => c = b') (fun c => c ≠ b') h₂ h₃ :=
      hh₃ ▸ touches_copy ht₂.wf hc' hkk
    have htables₃ : L.SameTables h₂ h₃ := hh₃ ▸ sameTables_copy pool_le_ptrFromBlock
    have hc₃ : L.IsChain h₃ b k := htables₃.isChain hs₂.chain
    have hc₃' : L.IsChain h₃ b' k' := htables₃.isChain hc'
    have hlock₃ : h₃.gcLockDepth = 0 := by
      rw [ht₃.lock, ht₂.lock, hlock]
    obtain ⟨h₄, log', hfree, hfreed, hlog'⟩ :=
      gcFree_spec hc₃ hlt hlock₃ (by omega : L.blocks < fuel)
    have ht₄ : L.Touches del (fun _ => False) (fun c => c ≠ b) h₃ h₄ := hfreed.touches ht₃.wf hc₃
    have ht := (ht₂.trans ht₃).trans ht₄
    refine ⟨h₄, some (L.ptrFromBlock b'), log ++ log', ?_,
      ⟨ht.mono (fun c hX => ?_) fun c _ hM => ?_, fun p hp => ?_,
      fun c hreach _ hr => ?_, (fun hp => by cases hp), fun p hp _ c hbc hck => ?_⟩,
        forall_mem_append.mpr ⟨hlog, hlog'⟩⟩
    · dsimp only
      rw [hh₃, hfree]
      rfl
    · rcases hX with (hX | rfl) | hX
      · exact hX
      · rfl
      · exact hX.elim
    · exact ⟨⟨hmono c hM.1, hne c (hmono c hM.1)⟩, hM.2⟩
    · cases hp
      refine ⟨b', k', rfl, (ht₄.keeps b' k' hc₃' hbb'.symm).chain, hbytes, fun hown i hi _ => ?_⟩
      -- the byte is copied from the old chain, which has been left alone so far
      obtain ⟨x, hbx, hxk, hx⟩ := exists_inBlock (Nat.le_add_right _ i)
        (Nat.add_lt_add_left hi (L.ptrFromBlock b))
      obtain ⟨y, hby, hyk, hy⟩ := exists_inBlock (Nat.le_add_right _ i)
        (Nat.add_lt_add_left hi (L.ptrFromBlock b'))
      rw [hfreed.pool _ hy.pool, ← hh₃]
      refine (if_pos (by omega)).trans ?_
      rw [Nat.add_sub_cancel_left]
      exact hs₂.bytes hown x hbx hxk _ hx
    · exact hfresh c (hmono c hreach) hr
    · rw [hfreed.kind c (by omega), if_pos ⟨hbc, hck⟩]

/-- **Reallocation.**  `gc_realloc` of a chain, for a size that is not 0. -/
theorem reallocChain_spec (roots : Roots) (allowMove : Bool) (hn0 : n ≠ 0)
    (hmove : allowMove → k < L.blocksFor n → L.Bounded h ∧ b + k < L.blocks) :
    ∃ h' r log, L.reallocChain h fuel del roots (L.ptrFromBlock b) n allowMove = some (h', r, log) ∧
      L.ReallocResult del roots b k n h h' r ∧ ∀ e ∈ log, e < L.blocks := by
  have hbytes := le_blocksFor hn
  have hpos := hc.pos
  have hm : 0 < L.blocksFor n := by
    rcases Nat.eq_zero_or_pos (L.blocksFor n) with hzero | hpos
    · rw [hzero] at hbytes
      omega
    · exact hpos
  obtain ⟨f, log, hscan, hlef, hfree, hlog⟩ := reallocScan_spec (L.blocksFor n) [b]
    (m := L.blocks - (b + 1)) hwf hc Nat.one_pos hpos (.inl rfl) (by have := hc.lt; omega)
    (fun x hx hlt => by omega) (fun e he => by rw [mem_singleton.mp he]; exact hc.lt)
  have hwritten {i m : ℕ} (him : i + m ≤ L.blocks) : ∀ e ∈ log ++ range' i m, e < L.blocks :=
    forall_mem_append.mpr ⟨hlog, fun e he => (mem_range'_1.mp he).2.trans_le him⟩
  rw [reallocChain, blockFromPtr_ptrFromBlock]
  rw [hscan]
  dsimp only
  split_ifs with heq hlt hgrow hallow
  · exact ⟨h, _, log, rfl, reallocResult_same hwf hc (heq ▸ hbytes), hlog⟩
  · exact ⟨_, _, _, rfl, reallocResult_shrink hwf hc hm hlt hbytes, hwritten (by omega)⟩
  · obtain ⟨h', hfold, hfills⟩ := fills_foldlM_growTail (n := L.blocksFor n - k) (by omega)
      fun x hbx hxm => hfree x hbx (by omega)
    rw [hfold]
    exact ⟨_, _, _, rfl, reallocResult_grow hwf hc (by omega) (by omega)
      (fun x hbx hxm => hfree x hbx (by omega)) hfills
      hbytes, hwritten (by omega)⟩
  · obtain ⟨hend, hlt⟩ := hmove hallow (by omega)
    exact reallocMove_spec hwf hlock hdel hfuel hc hn hend hlt (by omega) hlog
  · exact ⟨h, none, log, rfl, ⟨.refl hwf, (fun p hp => nomatch hp), (fun _ _ _ hr => nomatch hr),
      fun _ => ⟨hc, rfl, fun _ _ _ _ _ _ => rfl⟩, (fun p hp => nomatch hp)⟩, hlog⟩

end

end Layout

end Nespy.Py.Gc
