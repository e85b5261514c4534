import Nespy.Py.GcSweep

/-!
# Py — collections

A collection keeps the chains that are reachable from its root pointers, and frees all others.  The
roots and the scans after an overflow mark the reachable heads: when there has been no overflow, the
children of every marked block are marked, and each further scan marks at least one block, so the
scans end.  The sweep then frees the heads that are not marked, and their tails.
-/

open List

namespace Nespy.Py.Gc

open Nespy.Lib

namespace Layout

variable {L : Layout} {h h' h'' : Heap} {a b c block fuel k n ptr : ℕ} {R : ℕ → Prop}
  {roots : Roots} {del : (ℕ → BitVec 8) → ℕ → ℕ → BitVec 8}

/-! ### Marking from the roots -/

/-- What holds between the steps of marking: `R` are the blocks that may be marked. -/
structure Collecting (L : Layout) (h : Heap) (R : ℕ → Prop) (h' : Heap) : Prop where
  grows : L.Grows h h'
  traced : L.Traced (fun _ => False) h'
  markedIn : L.MarkedIn R h'

/-- The head that a pointer leads to, if it does, is in `R`. -/
def RootIn (L : Layout) (h : Heap) (R : ℕ → Prop) (ptr : ℕ) : Prop :=
  L.verifyPtr ptr → L.atbGetKind h (L.blockFromPtr ptr) = .head → R (L.blockFromPtr ptr)

/-- The pointer leads to no unmarked head. -/
def RootDone (L : Layout) (h : Heap) (ptr : ℕ) : Prop :=
  L.verifyPtr ptr → L.atbGetKind h (L.blockFromPtr ptr) ≠ .head

theorem RootDone.grows (hd : L.RootDone h ptr) (hg : L.Grows h h') : L.RootDone h' ptr :=
  fun hptr hhead => hd hptr (hg.head (blockFromPtr_lt hptr) hhead)

section Roots

variable (hend : L.Bounded h) (hR : L.ClosedIn h R) (hfuel : 2 * L.blocks < fuel)

include hend hR hfuel

/-- A pointer to an unmarked head. -/
theorem Collecting.mark
    (hc : L.Collecting h R h') (hb : b < L.blocks) (hhead : L.atbGetKind h' b = .head) (hRb : R b) :
    ∃ h'', L.gcMarkSubtree (L.atbHeadToMark h' b) fuel b = some h'' ∧
      L.Grows h' h'' ∧ L.Collecting h R h'' ∧
      L.atbGetKind h'' b = .mark := by
  have hg := grows_atbHeadToMark hb hhead
  have hgrows := hc.grows.trans hg
  have hmark : L.atbGetKind (L.atbHeadToMark h' b) b = .mark := by
    rw [atbGetKind_atbHeadToMark, if_pos rfl]
  have hkind : ∀ {c}, c < L.blocks → L.atbGetKind (L.atbHeadToMark h' b) c = .mark →
      c = b ∨ L.atbGetKind h' c = .mark := by
    intro c hc hmark
    by_cases hcb : c = b
    · exact .inl hcb
    · rw [atbGetKind_atbHeadToMark, if_neg hcb] at hmark
      exact .inr hmark
  have htraced : L.Traced (fun c => False ∨ c = b) (L.atbHeadToMark h' b) := by
    refine hc.traced.imp id fun hall c hc hmark => ?_
    rcases hkind hc hmark with rfl | hmark
    · exact .inl (.inr rfl)
    · rcases hall c hc hmark with hfalse | hd
      · exact hfalse.elim
      · exact .inr (hd.grows hg)
  have hin : L.MarkedIn R (L.atbHeadToMark h' b) := by
    intro c hlt hmark
    rcases hkind hlt hmark with rfl | hmark
    · exact hRb
    · exact hc.markedIn c hlt hmark
  obtain ⟨h'', hsub, hmarks, htraced', hin'⟩ :=
    gcMarkSubtree_spec (hgrows.bounded hend) hfuel (hR.grows hgrows)
    hb hmark htraced hin
  exact ⟨h'', hsub, hg.trans hmarks.toGrows, ⟨hgrows.trans hmarks.toGrows, htraced', hin'⟩,
    hmarks.mark hb hmark⟩

theorem Collecting.collectPtr (hc : L.Collecting h R h') (hroot : L.RootIn h R ptr) :
    ∃ h'', L.collectPtr fuel h' ptr = some h'' ∧ L.Grows h' h'' ∧ L.Collecting h R h'' ∧
      L.RootDone h'' ptr := by
  rw [Layout.collectPtr]
  split_ifs with hcond
  · obtain ⟨hptr, hhead⟩ := hcond
    have hlt := blockFromPtr_lt hptr
    obtain ⟨h'', hsub, hg, hc', hmark⟩ :=
      hc.mark hend hR hfuel hlt hhead (hroot hptr (hc.grows.head hlt hhead))
    refine ⟨h'', hsub, hg, hc', fun _ hhead' => ?_⟩
    rw [hmark] at hhead'
    cases hhead'
  · exact ⟨h', rfl, .refl h', hc, fun hptr hhead => hcond ⟨hptr, hhead⟩⟩

theorem Collecting.gcCollectRoot
    (ptrs : List ℕ) (hroots : ∀ ptr ∈ ptrs, L.RootIn h R ptr) (hc : L.Collecting h R h') :
    ∃ h'', L.gcCollectRoot fuel h' ptrs = some h'' ∧ L.Grows h' h'' ∧ L.Collecting h R h'' ∧
      ∀ ptr ∈ ptrs, L.RootDone h'' ptr := by
  induction ptrs generalizing h' with
  | nil => exact ⟨h', rfl, .refl h', hc, nofun⟩
  | cons ptr ptrs ih =>
    rw [forall_mem_cons] at hroots
    obtain ⟨h₁, h₁eq, hg₁, hc₁, hd₁⟩ := hc.collectPtr hend hR hfuel hroots.1
    obtain ⟨h₂, h₂eq, hg₂, hc₂, hd₂⟩ := ih hroots.2 hc₁
    refine ⟨h₂, ?_, hg₁.trans hg₂, hc₂, forall_mem_cons.mpr ⟨hd₁.grows hg₂, hd₂⟩⟩
    rw [Layout.gcCollectRoot, foldlM_cons, h₁eq]
    exact h₂eq

end Roots

/-! ### Scans after an overflow -/

/-- The blocks before `k` have been scanned again. -/
theorem traceAgain_range (hend : L.Bounded h) (hR : L.ClosedIn h R) (hfuel : 2 * L.blocks < fuel)
    (hin : L.MarkedIn R h) (hk : k ≤ L.blocks) :
    ∃ h', (List.range k).foldlM (L.traceAgain fuel) h = some h' ∧
      L.Marks h h' ∧ L.Traced (k ≤ ·) h' ∧
      L.MarkedIn R h' := by
  induction k with
  | zero => exact ⟨h, rfl, .refl h, .inr fun b _ _ => .inl (Nat.zero_le b), hin⟩
  | succ k ih =>
    obtain ⟨h₁, h₁eq, hm₁, ht₁, hin₁⟩ := ih (Nat.le_of_succ_le hk)
    rw [range_succ, foldlM_append, h₁eq]
    change ∃ h', (L.traceAgain fuel h₁ k >>= fun h => some h) = some h' ∧ _
    rw [Option.bind_eq_bind, Option.bind_fun_some, traceAgain]
    split_ifs with hmark
    · have ht : L.Traced (fun b => k + 1 ≤ b ∨ b = k) h₁ := ht₁.mono fun b _ hb => by omega
      obtain ⟨h₂, h₂eq, hm₂, ht₂, hin₂⟩ :=
        gcMarkSubtree_spec (hm₁.bounded hend) hfuel (hR.grows hm₁.toGrows) hk
        hmark ht hin₁
      exact ⟨h₂, h₂eq, hm₁.trans hm₂, ht₂, hin₂⟩
    · refine ⟨h₁, rfl, hm₁, ht₁.mono fun b hb hle => Nat.lt_of_le_of_ne hle ?_, hin₁⟩
      rintro rfl
      exact hmark hb

/-- **Scans.**  The scans end, and then the children of every marked block are marked. -/
theorem Collecting.gcDealWithStackOverflow (hend : L.Bounded h) (hR : L.ClosedIn h R)
    (hfuel : 2 * L.blocks + 1 < fuel) (hc : L.Collecting h R h') :
    ∃ h'', L.gcDealWithStackOverflow h' fuel = some h'' ∧ L.Grows h' h'' ∧ L.Collecting h R h'' ∧
      h''.gcStackOverflow = false := by
  refine loop_spec (fun h₁ => L.Grows h' h₁ ∧ L.Collecting h R h₁)
    (fun h₁ => 2 * L.unmarked h₁ + h₁.gcStackOverflow.toNat) _ (fun h₁ hinv => ?_) ⟨.refl h', hc⟩ ?_
  · obtain ⟨hg, hc₁⟩ := hinv
    cases hov : h₁.gcStackOverflow with
    | false => exact .inr ⟨h₁, by rw [if_neg (by decide)], hg, hc₁, hov⟩
    | true =>
      generalize hh₀ : ({ h₁ with gcStackOverflow := false } : Heap) = h₀
      have hg₀ : L.Grows h₁ h₀ := hh₀ ▸ ⟨fun _ _ => rfl, fun _ _ => .inl rfl, rfl⟩
      have hin₀ : L.MarkedIn R h₀ := hh₀ ▸ hc₁.markedIn
      have hgrows := hc₁.grows.trans hg₀
      obtain ⟨h₂, h₂eq, hm₂, ht₂, hin₂⟩ := traceAgain_range (hgrows.bounded hend) (hR.grows hgrows)
        (Nat.lt_of_succ_lt hfuel) hin₀ (Nat.le_refl L.blocks)
      have ht₂' : L.Traced (fun _ => False) h₂ := by
        refine ht₂.imp id fun hall b hb hmark => ?_
        rcases hall b hb hmark with hle | hd
        · exact absurd hb (Nat.not_lt_of_le hle)
        · exact .inr hd
      refine .inl ⟨h₂, ?_, ⟨hg.trans (hg₀.trans hm₂.toGrows), hgrows.trans hm₂.toGrows, ht₂', hin₂⟩,
        ?_⟩
      · rw [h₂eq]
        rfl
      · -- a scan that ends with an overflow has marked a block
        have hle := hm₂.unmarked_le
        have heq : L.unmarked h₀ = L.unmarked h₁ := hh₀ ▸ rfl
        rw [Bool.toNat_true]
        cases hov₂ : h₂.gcStackOverflow with
        | false =>
          rw [Bool.toNat_false]
          omega
        | true =>
          rcases hm₂.progress hov₂ with hov₀ | hlt
          · rw [← hh₀] at hov₀
            cases hov₀
          · rw [Bool.toNat_true]
            omega
  · have hone := Bool.toNat_le h'.gcStackOverflow
    have hle : L.unmarked h' ≤ L.blocks := unmarked_le_blocks
    omega

/-! ### What is reachable -/

/-- All root pointers. -/
def Roots.all (roots : Roots) : List ℕ := roots.ctx ++ roots.pystack ++ roots.more.flatten

/-- The chain that begins with `a` has a pointer to the head `c`. -/
def Edge (L : Layout) (h : Heap) (a c : ℕ) : Prop := L.Points h a c ∧ L.atbGetKind h c = .head

/-- The head is reachable from the roots. -/
def Reachable (L : Layout) (h : Heap) (roots : Roots) (b : ℕ) : Prop :=
  ∃ ptr ∈ roots.all, L.verifyPtr ptr ∧ L.atbGetKind h (L.blockFromPtr ptr) = .head ∧
    Relation.ReflTransGen (L.Edge h) (L.blockFromPtr ptr) b

/-- The block is in a chain that is reachable. -/
def Live (L : Layout) (h : Heap) (roots : Roots) (b : ℕ) : Prop :=
  ∃ a, L.InChain h a b ∧ L.atbGetKind h a = .head ∧ L.Reachable h roots a

theorem Points.lt (hp : L.Points h a c) : c < L.blocks := by
  obtain ⟨b, -, -, j, -, hptr, rfl⟩ := hp
  exact blockFromPtr_lt hptr

theorem Reachable.head (hr : L.Reachable h roots b) : b < L.blocks ∧ L.atbGetKind h b = .head := by
  obtain ⟨ptr, -, hptr, hhead, hpath⟩ := hr
  cases hpath with
  | refl => exact ⟨blockFromPtr_lt hptr, hhead⟩
  | tail _ hedge => exact ⟨hedge.1.lt, hedge.2⟩

theorem closedIn_reachable (L : Layout) (h : Heap) (roots : Roots) :
    L.ClosedIn h (L.Reachable h roots) := by
  rintro a c - ⟨ptr, hmem, hptr, hhead, hpath⟩ hpoints hc
  exact ⟨ptr, hmem, hptr, hhead, hpath.tail ⟨hpoints, hc⟩⟩

theorem rootIn_reachable (hmem : ptr ∈ roots.all) : L.RootIn h (L.Reachable h roots) ptr :=
  fun hptr hhead => ⟨ptr, hmem, hptr, hhead, .refl⟩

/-- When marking is done, the marked blocks are the reachable heads. -/
theorem Collecting.mark_iff (hc : L.Collecting h (L.Reachable h roots) h')
    (hov : h'.gcStackOverflow = false)
    (hroots : ∀ ptr ∈ roots.all, L.RootDone h' ptr) (hb : b < L.blocks) :
    L.atbGetKind h' b = .mark ↔ L.Reachable h roots b := by
  have hmarked : ∀ {c}, c < L.blocks → L.atbGetKind h c = .head → L.atbGetKind h' c ≠ .head →
      L.atbGetKind h' c = .mark := by
    intro c hlt hhead hne
    rcases hc.grows.kind c hlt with heq | ⟨-, hmark⟩
    · exact absurd (heq.trans hhead) hne
    · exact hmark
  have hdone : ∀ {c}, c < L.blocks → L.atbGetKind h' c = .mark → L.Done h' c := by
    intro c hlt hmark
    rcases hc.traced with hov' | hall
    · rw [hov] at hov'
      cases hov'
    · exact (hall c hlt hmark).resolve_left id
  refine ⟨hc.markedIn b hb, ?_⟩
  rintro ⟨ptr, hmem, hptr, hhead, hpath⟩
  induction hpath with
  | refl => exact hmarked hb hhead (hroots ptr hmem hptr)
  | @tail a c hpath hedge ih =>
    have ha : a < L.blocks := (Reachable.head ⟨ptr, hmem, hptr, hhead, hpath⟩).1
    exact hmarked hb hedge.2 (hdone ha (ih ha) c hb (hc.grows.points_iff.mpr hedge.1))

/-! ### Collections -/

/-- No head is marked, and every tail follows a block that is not free. -/
structure WellFormed (L : Layout) (h : Heap) : Prop where
  unmarked : ∀ b, b < L.blocks → L.atbGetKind h b ≠ .mark
  tailed : L.Tailed h

variable (L del) in
/-- What a collection leaves. -/
structure Collected (h : Heap) (roots : Roots) (h' : Heap) : Prop where
  kept : ∀ b, b < L.blocks → L.Live h roots b → L.atbGetKind h' b = L.atbGetKind h b
  freed : ∀ b, b < L.blocks → ¬L.Live h roots b → L.atbGetKind h' b = .free
  ftb :
    ∀ b, b < L.blocks → (L.ftbGet h' b ↔
      L.ftbGet h b ∧ (L.atbGetKind h b = .head → L.Live h roots b))
  pool : L.DelOwn del → ∀ b, b < L.blocks → L.Live h roots b →
    ∀ a, L.InBlock b a → h'.mem a = h.mem a
  plain : (∀ b, b < L.blocks → L.ftbGet h b = false) → ∀ a, L.OffTable a → h'.mem a = h.mem a
  gcLockDepth : h'.gcLockDepth = h.gcLockDepth
  gcAutoCollectEnabled : h'.gcAutoCollectEnabled = h.gcAutoCollectEnabled
  gcLastFreeAtbIndex : h'.gcLastFreeAtbIndex = 0

theorem gcCollectRoot_flatten (more : List (List ℕ)) :
    L.gcCollectRoot fuel h more.flatten = more.foldlM (L.gcCollectRoot fuel) h := by
  induction more generalizing h with
  | nil => rfl
  | cons ptrs more ih =>
    rw [flatten_cons, gcCollectRoot, foldlM_append, foldlM_cons]
    exact bind_congr fun _ => ih

/-- A collection marks from all roots in turn. -/
theorem gcCollect_eq : L.gcCollect h fuel del roots = L.gcCollectRoot fuel
    { h with gcLockDepth := h.gcLockDepth + 1, gcAllocAmount := 0, gcStackOverflow := false }
    roots.all >>= fun h => L.gcCollectEnd h fuel del := by
  simp only [gcCollect, gcCollectStart, ← gcCollectRoot_flatten, Roots.all, gcCollectRoot,
    foldlM_append, bind_assoc]

/-- All roots are marked, and the overflow dealt with. -/
theorem exists_marked (hno : ∀ b, b < L.blocks → L.atbGetKind h b ≠ .mark) (hend : L.Bounded h)
    (hfuel : 2 * L.blocks + 1 < fuel) (roots : Roots) :
    ∃ h₁ h₂, L.gcCollectRoot fuel h roots.all = some h₁ ∧
      L.gcDealWithStackOverflow h₁ fuel = some h₂ ∧
      L.Grows h h₂ ∧ ∀ b, b < L.blocks → (L.atbGetKind h₂ b = .mark ↔ L.Reachable h roots b) := by
  have hR := closedIn_reachable L h roots
  have hc : L.Collecting h (L.Reachable h roots) h :=
    ⟨.refl h, .inr fun b hb hmark => absurd hmark (hno b hb),
      fun b hb hmark => absurd hmark (hno b hb)⟩
  obtain ⟨s₁, h₁, -, hc₁, hd₁⟩ := hc.gcCollectRoot hend hR (Nat.lt_of_succ_lt hfuel) roots.all
    fun p hp => rootIn_reachable hp
  obtain ⟨s₂, h₂, hg₂, hc₂, hov⟩ := hc₁.gcDealWithStackOverflow hend hR hfuel
  refine ⟨s₁, s₂, h₁, h₂, hc₂.grows, fun b hb => ?_⟩
  exact hc₂.mark_iff hov (fun p hp => (hd₁ p hp).grows hg₂) hb

/-- **Collection.**  A collection of a well-formed heap ends, and keeps the chains that are
reachable. -/
theorem gcCollect_spec (hwf : L.WellFormed h) (hend : L.Bounded h) (hdel : L.DelSafe del h)
    (hfuel : 2 * L.blocks + 1 < fuel) (roots : Roots) :
    ∃ h', L.gcCollect h fuel del roots = some h' ∧ L.Collected del h roots h' := by
  obtain ⟨h₂, h₃, h₂eq, h₃eq, hg, hmark⟩ := exists_marked
    (h := { h with gcLockDepth := h.gcLockDepth + 1, gcAllocAmount := 0, gcStackOverflow := false })
    hwf.unmarked hend hfuel roots
  have htail : ∀ {b}, L.atbGetKind h₃ b = .tail ↔ L.atbGetKind h b = .tail := hg.tail_iff
  have hftb : ∀ b, b < L.blocks → L.ftbGet h₃ b = L.ftbGet h b := fun b hb =>
    ftbGet_congr (fun a ha _ => hg.mem a ha) hb
  have htailed : L.Tailed h₃ := by
    intro b hb hb'
    obtain ⟨hpos, hne⟩ := hwf.tailed b hb (htail.mp hb')
    refine ⟨hpos, fun hfree => hne ?_⟩
    rcases hg.kind (b - 1) (by omega) with heq | ⟨-, hmark⟩
    · exact heq.symm.trans hfree
    · rw [hmark] at hfree
      cases hfree
  have hdel₃ : L.DelSafe del h₃ := hdel.imp (fun hno b hb => (hftb b hb).trans (hno b hb)) id
  have hkept : ∀ {b}, b < L.blocks → (L.Kept h₃ b ↔ L.Live h roots b) := by
    intro b hb
    refine exists_congr fun a => ?_
    have hin : L.InChain h₃ a b ↔ L.InChain h a b := hg.inChain_iff
    rw [hin]
    refine and_congr_right fun hin => ?_
    rw [hmark a (Nat.lt_of_le_of_lt hin.1 hb)]
    exact ⟨fun hr => ⟨hr.head.2, hr⟩, And.right⟩
  obtain ⟨freeTail, hs⟩ := sweeping_gcSweep htailed hdel₃
  have hrest := hs.rest
  have hrest₃ := hg.rest
  refine ⟨{ L.gcSweep h₃ del with
    gcLastFreeAtbIndex := 0, gcLockDepth := (L.gcSweep h₃ del).gcLockDepth - 1 }, ?_, ?_⟩
  · rw [gcCollect_eq, h₂eq, Option.bind_eq_bind, Option.bind_some, gcCollectEnd, h₃eq]
    rfl
  refine ⟨fun b hb hlive => ?_, fun b hb hlive => ?_, fun b hb => ?_,
    fun hown b hb hlive a ha => ?_, fun hno a ha => ?_, ?_, ?_, rfl⟩
  · refine (hs.kept b hb ((hkept hb).mpr hlive)).trans ?_
    obtain ⟨a, hin, hhead, hr⟩ := hlive
    rcases Nat.lt_or_ge a b with hlt | hge
    · have hb' := hin.2 b hlt (Nat.le_refl b)
      rw [htail.mpr hb', hb']
      rfl
    · obtain rfl := Nat.le_antisymm hin.1 hge
      rw [(hmark a hb).mpr hr, hhead]
      rfl
  · exact hs.freed b hb fun hk => hlive ((hkept hb).mp hk)
  · have hflag := hs.ftb b hb
    change L.ftbGet (L.gcSweep h₃ del) b ↔ _
    rw [hflag, hftb b hb, Bool.and_eq_true, decide_eq_true_eq]
    refine and_congr_right fun _ => ⟨fun hne hhead => ?_, fun himp => .inr fun hhead => ?_⟩
    · -- a head of which the flag is left is marked
      rcases hg.kind b hb with heq | ⟨-, hmark'⟩
      · exact absurd (heq.trans hhead) (hne.resolve_left (Nat.not_le_of_lt hb))
      · exact ⟨b, .refl b, hhead, (hmark b hb).mp hmark'⟩
    · have hmark' := (kept_iff_of_ne_tail (by rw [hhead]; simp)).mp
        ((hkept hb).mpr (himp (hg.head hb hhead)))
      rw [hhead] at hmark'
      cases hmark'
  · exact (hs.pool hown b hb ((hkept hb).mpr hlive) a ha).trans
      (hg.mem a (offTable_of_pool ha.pool))
  · exact (hs.plain (fun b hb => (hftb b hb).trans (hno b hb)) a ha).trans (hg.mem a ha)
  · rw [hrest, hrest₃]
    rfl
  · rw [hrest, hrest₃]

/-- A block is in the chain of one head only. -/
theorem InChain.head_unique (hab : L.InChain h a b) (hcb : L.InChain h c b)
    (ha : L.atbGetKind h a = .head) (hc : L.atbGetKind h c = .head) : a = c := by
  rcases Nat.lt_trichotomy a c with hlt | heq | hlt
  · have htail := hab.2 c hlt hcb.1
    rw [hc] at htail
    cases htail
  · exact heq
  · have htail := hcb.2 a hlt hab.1
    rw [ha] at htail
    cases htail

theorem live_iff_reachable (hin : L.InChain h a b) (ha : L.atbGetKind h a = .head) :
    L.Live h roots b ↔ L.Reachable h roots a := by
  constructor
  · rintro ⟨c, hcb, hc, hr⟩
    rw [hin.head_unique hcb ha hc]
    exact hr
  · exact fun hr => ⟨a, hin, ha, hr⟩

theorem not_live_of_free (hb : L.atbGetKind h b = .free) : ¬L.Live h roots b := by
  rintro ⟨a, ⟨hle, hin⟩, ha, -⟩
  rcases Nat.lt_or_ge a b with hlt | hge
  · have htail := hin b hlt (Nat.le_refl b)
    rw [hb] at htail
    cases htail
  · rw [Nat.le_antisymm hle hge, hb] at ha
    cases ha

/-- **What is reachable is kept.**  Without finalisers, a collection of a well-formed heap ends.
Every chain that is reachable from the roots has its head and its whole tail, and is not marked;
every block of every other chain is free, as the free blocks are, and the memory outside the table
is as before.  The size of the mark stack does not matter. -/
theorem gc_collect_keeps_reachable (L : Layout) (h : Heap) (hwf : L.WellFormed h)
    (hend : L.EndsAt h)
    (hno : ∀ b, b < L.blocks → L.ftbGet h b = false) (del : (ℕ → BitVec 8) → ℕ → ℕ → BitVec 8)
    (roots : Roots) (fuel : ℕ) (hfuel : 2 * L.blocks + 1 < fuel) :
    ∃ h', L.gcCollect h fuel del roots = some h' ∧
      (∀ a, a < L.blocks → L.atbGetKind h a = .head → L.Reachable h roots a →
        L.atbGetKind h' a = .head ∧ ∀ b, a < b → b < L.blocks → L.InChain h a b →
          L.atbGetKind h' b = .tail) ∧
      (∀ a, a < L.blocks → L.atbGetKind h a = .head → ¬L.Reachable h roots a →
        ∀ b, b < L.blocks → L.InChain h a b → L.atbGetKind h' b = .free) ∧
      (∀ b, b < L.blocks → L.atbGetKind h b = .free → L.atbGetKind h' b = .free) ∧
      ∀ a, L.OffTable a → h'.mem a = h.mem a := by
  obtain ⟨h', hcollect, hc⟩ := gcCollect_spec hwf (.inl hend) (.inl hno) hfuel roots
  refine ⟨h', hcollect, fun a ha hhead hr => ⟨?_, fun b hlt hb hin => ?_⟩,
    fun a _ hhead hr b hb hin => ?_, fun b hb hfree => ?_, hc.plain hno⟩
  · rw [hc.kept a ha ((live_iff_reachable (.refl a) hhead).mpr hr), hhead]
  · rw [hc.kept b hb ((live_iff_reachable hin hhead).mpr hr), hin.2 b hlt (Nat.le_refl b)]
  · exact hc.freed b hb fun hlive => hr ((live_iff_reachable hin hhead).mp hlive)
  · exact hc.freed b hb (not_live_of_free hfree)

/-- Four blocks of four bytes behind a table of one byte, and a stack for one block. -/
def smallLayout : Layout where
  bytesPerWord := 1
  allocGcStackSize := 1
  gcAllocTableStart := 0
  gcAllocTableByteLen := 1
  gcFinaliserTableStart := none
  gcPoolStart := 4
  gcPoolEnd := 20
  bytesPerWord_pos := by decide
  table_le := by decide
  finaliser_le := nofun
  pool_eq := by decide
  aligned := by decide

/-- A chain of two blocks with a pointer to a third, and a fourth that nothing points to. -/
def smallHeap : Heap where
  mem a := if a = 0 then 89 else if a = 9 then 12 else 0
  gcStackOverflow := false
  gcLockDepth := 0
  gcAutoCollectEnabled := true
  gcAllocAmount := 0
  gcAllocThreshold := 1000
  gcLastFreeAtbIndex := 0

theorem smallHeap_reachable : smallLayout.Reachable smallHeap ⟨[4], [], []⟩ 2 := by
  refine ⟨4, by decide, by decide, by
    decide, .tail .refl ⟨⟨1, by decide, ⟨by decide, ?_⟩, 1, by decide, ?_⟩, ?_⟩⟩
  · intro c hlt hle
    obtain rfl : c = 1 := by omega
    decide
  · decide
  · decide

theorem gc_collect_keeps_reachable_small : ∃ h',
    smallLayout.gcCollect smallHeap 20 (fun mem _ => mem) ⟨[4], [], []⟩ = some h' ∧
      smallLayout.atbGetKind h' 2 = .head := by
  have hwf : smallLayout.WellFormed smallHeap := ⟨by decide, by unfold Tailed; decide⟩
  obtain ⟨h', hcollect, hkept, -⟩ :=
    gc_collect_keeps_reachable smallLayout smallHeap hwf (by unfold EndsAt; decide)
    (by decide) (fun mem _ => mem) ⟨[4], [], []⟩ 20 (by decide)
  exact ⟨h', hcollect, (hkept 2 (by decide) (by decide) smallHeap_reachable).1⟩

end Layout

end Nespy.Py.Gc
