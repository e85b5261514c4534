import Nespy.Lib.Runs
import Nespy.Py.GcAllocSpec

/-!
# Py — heap operations touch only their own allocation

A session is a heap with the allocations that are live: the pointers that have been returned and
neither freed nor collected since, with the sizes that were requested.  The operations keep the
allocations apart, and leave all but their own as they are.

`gc_free` and `gc_nbytes` find the end of a chain by the first entry that is no tail.  For an
allocation that ends with the last block of the pool this is the entry behind the table, which lies
in the finaliser flags; and a collection that marks such an allocation goes on behind the pool when
these flags read as a tail.  `gc_realloc` takes the sum of a size and the size of a block, which can
exceed a `size_t`.  In all other cases the operations are right.
-/

open Option Function

namespace Nespy.Py.Gc

open Nespy.Lib

namespace Layout

variable {L : Layout} {h h' : Heap} {a b c k n ptr : ℕ} {roots : Roots}
  {del : (ℕ → BitVec 8) → ℕ → ℕ → BitVec 8}

/-! ### Sessions -/

/-- The heap and the live allocations, each with the size that was requested. -/
structure Session where
  heap : Heap
  live : ℕ → Option ℕ

/-- What a program does with the heap; it writes into its allocations. -/
inductive Call where
  | gcAlloc (nBytes : ℕ) (hasFinaliser : Bool) (roots : Roots)
  | gcFree (ptr : ℕ)
  | gcNbytes (ptr : ℕ)
  | gcRealloc (ptrIn : Option ℕ) (nBytes : ℕ) (allowMove : Bool) (roots : Roots)
  | gcCollect (roots : Roots)
  | write (ptr i : ℕ) (v : BitVec 8)

/-- The pointer or the number that is returned, and the entries of the table that are read or
changed. -/
structure Reply where
  ptr : Option ℕ
  nBytes : ℕ
  entries : List ℕ

/-- The session with the heap `h`, when `r` is returned for a request of `n` bytes. -/
def Session.next (s : Session) (L : Layout) (h : Heap) (r : Option ℕ) (n : ℕ) : Session where
  heap := h
  live p := if r = some p then some n
    else if L.atbGetKind h (L.blockFromPtr p) = .head then s.live p else none

variable (L)

/-- Enough turns for every loop. -/
def fuel : ℕ := 2 * L.blocks + 2

/-- One call. -/
def step (del : (ℕ → BitVec 8) → ℕ → ℕ → BitVec 8) (s : Session) : Call → Option (Session × Reply)
  | .gcAlloc n hasFinaliser roots =>
    (L.gcAlloc s.heap L.fuel del roots n hasFinaliser).map fun r =>
      (s.next L r.1 r.2 n, ⟨r.2, 0, []⟩)
  | .gcFree ptr => (L.gcFree s.heap L.fuel ptr).map fun r => (s.next L r.1 none 0, ⟨none, 0, r.2⟩)
  | .gcNbytes ptr => (L.gcNbytes s.heap L.fuel ptr).map fun r => (s, ⟨none, r.1, r.2⟩)
  | .gcRealloc ptrIn n allowMove roots =>
    (L.gcRealloc s.heap L.fuel del roots ptrIn n allowMove).map fun r =>
      (s.next L r.1 r.2.1 n, ⟨r.2.1, 0, r.2.2⟩)
  | .gcCollect roots =>
    (L.gcCollect s.heap L.fuel del roots).map fun h => (s.next L h none 0, ⟨none, 0, []⟩)
  | .write ptr i v =>
    some ({ s with heap := { s.heap with mem := update s.heap.mem (ptr + i) v } }, ⟨none, 0, []⟩)

/-- The session after `gc_init`, in a memory with the bytes `mem`. -/
def boot (mem : ℕ → BitVec 8) : Session := ⟨L.gcInit mem, fun _ => none⟩

/-! ### The conditions -/

/-- The calls that are allowed: sizes up to `SIZE_MAX - 15`, pointers that are live, writes into an
allocation. -/
def Valid (s : Session) : Call → Prop
  | .gcAlloc n _ _ => n + 16 ≤ 2 ^ (8 * L.bytesPerWord)
  | .gcFree ptr => (s.live ptr).isSome
  | .gcNbytes _ => True
  | .gcRealloc none n _ _ => n + 16 ≤ 2 ^ (8 * L.bytesPerWord)
  | .gcRealloc (some ptr) n _ _ => (s.live ptr).isSome ∧ n + 16 ≤ 2 ^ (8 * L.bytesPerWord)
  | .gcCollect _ => True
  | .write ptr i _ => (s.live ptr).any (i < ·)

/-- The block is one of the allocation. -/
def InAlloc (h : Heap) (ptr b : ℕ) : Prop := b < L.blocks ∧ L.InChain h (L.blockFromPtr ptr) b

/-- The allocation ends with the last block of the pool. -/
def AtEnd (h : Heap) (ptr : ℕ) : Prop := L.InAlloc h ptr (L.blocks - 1)

/-- The cases in which the calls are right. -/
def Safe (s : Session) : Call → Prop
  | .gcAlloc _ _ _ => L.Bounded s.heap
  | .gcFree ptr => ¬L.AtEnd s.heap ptr
  | .gcNbytes ptr =>
    L.verifyPtr ptr → L.atbGetKind s.heap (L.blockFromPtr ptr) = .head → ¬L.AtEnd s.heap ptr
  | .gcRealloc none _ _ _ => L.Bounded s.heap
  | .gcRealloc (some ptr) n allowMove _ =>
    (n = 0 → ¬L.AtEnd s.heap ptr) ∧ n + (L.bytesPerBlock - 1) < 2 ^ (8 * L.bytesPerWord) ∧
      (n ≠ 0 → allowMove → ¬L.InAlloc s.heap ptr (L.blockFromPtr ptr + L.blocksFor n - 1) →
        L.Bounded s.heap ∧ ¬L.AtEnd s.heap ptr)
  | .gcCollect _ => L.Bounded s.heap
  | .write _ _ _ => True

/-! ### The invariant -/

/-- Every live allocation is a chain that is large enough, and every chain is a live allocation. -/
structure Owned (s : Session) : Prop where
  wf : L.WellFormed s.heap
  unlocked : s.heap.gcLockDepth = 0
  live : ∀ p n, s.live p = some n → ∃ b k, p = L.ptrFromBlock b ∧
    L.IsChain s.heap b k ∧ n ≤ k * L.bytesPerBlock
  heads : ∀ b, b < L.blocks → L.atbGetKind s.heap b = .head → (s.live (L.ptrFromBlock b)).isSome

variable {L}

theorem inAlloc_iff (hc : L.IsChain h b k) :
    L.InAlloc h (L.ptrFromBlock b) c ↔ b ≤ c ∧ c < b + k := by
  have hle := hc.le
  rw [InAlloc, blockFromPtr_ptrFromBlock]
  constructor
  · exact fun hin => (hc.inChain_iff hin.1).mp hin.2
  · exact fun hin => ⟨by omega, (hc.inChain_iff (by omega)).mpr hin⟩

theorem atEnd_iff (hc : L.IsChain h b k) : L.AtEnd h (L.ptrFromBlock b) ↔ b + k = L.blocks := by
  have hpos := hc.pos
  have hle := hc.le
  rw [AtEnd, inAlloc_iff hc]
  omega

variable {r : Option ℕ} {s : Session} {p : ℕ}

/-- The live allocations after a call that touches only its own. -/
theorem Owned.next {M : ℕ → Prop} (ho : L.Owned s)
    (ht : L.Touches del (fun c => r = some (L.ptrFromBlock c)) M s.heap h')
    (hr : ∀ p, r = some p → ∃ b k, p = L.ptrFromBlock b ∧ L.IsChain h' b k ∧
      n ≤ k * L.bytesPerBlock) :
    L.Owned (s.next L h' r n) where
  wf := ht.wf
  unlocked := ht.lock.trans ho.unlocked
  live p m hp := by
    rw [Session.next] at hp
    dsimp only at hp
    split at hp
    · rename_i hrp
      cases hp
      exact hr p hrp
    · rename_i hrp
      split_ifs at hp with hhead
      obtain ⟨b, k, rfl, hc, hm⟩ := ho.live p m hp
      rw [blockFromPtr_ptrFromBlock] at hhead
      rcases ht.others b k hc with hX | hs | hne
      · exact absurd hX hrp
      · exact ⟨b, k, rfl, hs.chain, hm⟩
      · exact absurd hhead hne
  heads b hb hhead := by
    rw [Session.next] at hhead ⊢
    dsimp only at hhead ⊢
    split
    · rfl
    · rename_i hrp
      rw [blockFromPtr_ptrFromBlock, if_pos hhead]
      rcases ht.heads b hb hhead with hhead' | hX
      · exact ho.heads b hb hhead'
      · exact absurd hX hrp

theorem Owned.exists_chain (ho : L.Owned s) (hp : (s.live p).isSome) :
    ∃ b k, p = L.ptrFromBlock b ∧ L.IsChain s.heap b k := by
  obtain ⟨n, hn⟩ := isSome_iff_exists.mp hp
  obtain ⟨b, k, hb, hc, -⟩ := ho.live p n hn
  exact ⟨b, k, hb, hc⟩

/-- Two live allocations have no block in common. -/
theorem Owned.disjoint (ho : L.Owned s) {q : ℕ} (hp : (s.live p).isSome) (hq : (s.live q).isSome)
    (hpq : p ≠ q) : ¬(L.InAlloc s.heap p b ∧ L.InAlloc s.heap q b) := by
  obtain ⟨c, k, rfl, hc⟩ := ho.exists_chain hp
  obtain ⟨d, j, rfl, hd⟩ := ho.exists_chain hq
  rintro ⟨hin, hin'⟩
  have hin := (inAlloc_iff hc).mp hin
  have hin' := (inAlloc_iff hd).mp hin'
  rcases hc.disjoint hd fun heq => hpq (heq ▸ rfl) with hle | hle
  · omega
  · omega

/-! ### What a call does -/

/-- The argument of a call. -/
def Call.arg : Call → Option ℕ
  | .gcFree ptr | .write ptr _ _ => some ptr
  | .gcRealloc ptrIn _ _ _ => ptrIn
  | _ => none

variable (L)

/-- A call may collect the allocation, which is not reachable. -/
def Collects (s : Session) (p : ℕ) : Call → Prop
  | .gcAlloc _ _ roots | .gcRealloc _ _ _ roots | .gcCollect roots =>
    ¬L.Reachable s.heap roots (L.blockFromPtr p)
  | _ => False

variable (del) in
/-- The allocation has the same blocks, flag and bytes; a finaliser that writes into other objects
may change the bytes. -/
structure Unaffected (s s' : Session) (p : ℕ) : Prop where
  live : s'.live p = s.live p
  blocks : ∀ b, L.InAlloc s'.heap p b ↔ L.InAlloc s.heap p b
  ftb : L.ftbGet s'.heap (L.blockFromPtr p) = L.ftbGet s.heap (L.blockFromPtr p)
  bytes : L.DelOwn del → ∀ b, L.InAlloc s.heap p b → ∀ a, L.InBlock b a →
    s'.heap.mem a = s.heap.mem a

variable (del) in
/-- What a call does to its own allocation. -/
def Own (s s' : Session) (r : Reply) : Call → Prop
  | .gcFree ptr =>
    s'.live ptr = none ∧ (∀ b, L.InAlloc s.heap ptr b → L.atbGetKind s'.heap b = .free) ∧
      (∀ b, b < L.blocks → ¬L.InAlloc s.heap ptr b →
        L.atbGetKind s'.heap b = L.atbGetKind s.heap b) ∧
      ∀ b, b < L.blocks → b ≠ L.blockFromPtr ptr → L.ftbGet s'.heap b = L.ftbGet s.heap b
  | .gcNbytes ptr => s' = s ∧ ∀ n, s.live ptr = some n → n ≤ r.nBytes
  | .gcAlloc n _ _ => ∀ p, r.ptr = some p → s'.live p = some n
  | .gcRealloc ptrIn n _ _ =>
    (∀ p, r.ptr = some p → s'.live p = some n) ∧
      ∀ ptr, ptrIn = some ptr →
        (L.DelOwn del → ∀ p old, r.ptr = some p → s.live ptr = some old → ∀ i, i < min old n →
          s'.heap.mem (p + i) = s.heap.mem (ptr + i)) ∧
        (∀ p, r.ptr = some p → p ≠ ptr → s'.live ptr = none) ∧
        (r.ptr = none → n ≠ 0 → L.Unaffected del s s' ptr)
  | .gcCollect _ | .write _ _ _ => True

variable (del) in
/-- A call is right: it reads and changes only entries of the table, leaves all other allocations as
they are unless it collects them, and does what it should to its own. -/
structure Right (s : Session) (c : Call) (s' : Session) (r : Reply) : Prop where
  owned : L.Owned s'
  entries : ∀ e ∈ r.entries, e < L.blocks
  others : ∀ p, (s.live p).isSome → c.arg ≠ some p → L.Unaffected del s s' p ∨ L.Collects s p c
  own : L.Own del s s' r c

variable {L}

theorem Survives.unaffected (hs : L.Survives del s.heap h' b k)
    (hc : L.IsChain s.heap b k) (hr : r ≠ some (L.ptrFromBlock b)) :
    L.Unaffected del s (s.next L h' r n) (L.ptrFromBlock b) where
  live := by
    rw [Session.next]
    dsimp only
    rw [if_neg hr, blockFromPtr_ptrFromBlock, if_pos hs.chain.head]
  blocks b := by
    rw [inAlloc_iff hc]
    exact inAlloc_iff hs.chain
  ftb := by
    rw [blockFromPtr_ptrFromBlock]
    exact hs.ftb
  bytes hown b hin a ha := by
    obtain ⟨hle, hlt⟩ := (inAlloc_iff hc).mp hin
    exact hs.bytes hown b hle hlt a ha

/-- The other allocations, after a call that keeps those in `M`. -/
theorem Owned.others {X M : ℕ → Prop} (ho : L.Owned s) (ht : L.Touches del X M s.heap h')
    (hX : ∀ c, L.atbGetKind s.heap c = .head → M c → r ≠ some (L.ptrFromBlock c))
    (hp : (s.live p).isSome)
    (hM : M (L.blockFromPtr p)) : L.Unaffected del s (s.next L h' r n) p := by
  obtain ⟨b, k, rfl, hc⟩ := ho.exists_chain hp
  rw [blockFromPtr_ptrFromBlock] at hM
  exact (ht.keeps b k hc hM).unaffected hc (hX b hc.head hM)

/-! ### The calls -/

theorem lt_fuel (L : Layout) : 2 * L.blocks + 1 < L.fuel := Nat.lt_succ_self _

theorem blocks_lt_fuel (L : Layout) : L.blocks < L.fuel := by
  rw [Layout.fuel]
  omega

/-- The session after `gc_alloc` or a collection. -/
theorem Owned.after (ho : L.Owned s) (hresult : L.AllocResult del roots n s.heap h' r) :
    L.Owned (s.next L h' r n) ∧
      ∀ p, (s.live p).isSome → L.Unaffected del s (s.next L h' r n) p ∨
        ¬L.Reachable s.heap roots (L.blockFromPtr p) := by
  obtain ⟨ht, hr, hne⟩ := hresult.touches
  refine ⟨ho.next ht hr, fun p hp => ?_⟩
  by_cases hreach : L.Reachable s.heap roots (L.blockFromPtr p)
  · exact .inl (ho.others ht (fun c _ hM => hne c hM) hp hreach)
  · exact .inr hreach

theorem Owned.gcAlloc (ho : L.Owned s) (hdel : L.DelPool del) (hasFinaliser : Bool) (roots : Roots)
    (hn : n + 16 ≤ 2 ^ (8 * L.bytesPerWord)) (hend : L.Bounded s.heap) :
    ∃ h' r, L.gcAlloc s.heap L.fuel del roots n hasFinaliser = some (h', r) ∧
      L.Owned (s.next L h' r n) ∧
      ∀ p, (s.live p).isSome → L.Unaffected del s (s.next L h' r n) p ∨
        ¬L.Reachable s.heap roots (L.blockFromPtr p) := by
  obtain ⟨h', r, halloc, hresult⟩ := gcAlloc_spec hasFinaliser ho.wf hend hdel L.lt_fuel
    (by omega : n < 2 ^ (8 * L.bytesPerWord)) roots
  exact ⟨h', r, halloc, ho.after hresult⟩

/-- The pointer that a call returns is live. -/
theorem next_live (hp : r = some p) : (s.next L h' r n).live p = some n := by
  exact if_pos hp

theorem next_live_of_not_head (hr : r ≠ some p)
    (hhead : L.atbGetKind h' (L.blockFromPtr p) ≠ .head) : (s.next L h' r n).live p = none := by
  rw [Session.next]
  dsimp only
  rw [if_neg hr, if_neg hhead]

section

variable (ho : L.Owned s)

include ho

/-- `gc_free` of a live allocation. -/
theorem Owned.gcFree (hp : (s.live ptr).isSome) (hend : ¬L.AtEnd s.heap ptr) :
    ∃ h' log, L.gcFree s.heap L.fuel ptr = some (h', log) ∧ L.Owned (s.next L h' none n) ∧
      (∀ e ∈ log, e < L.blocks) ∧
      (∀ p, (s.live p).isSome → ptr ≠ p → L.Unaffected del s (s.next L h' none n) p) ∧
      (s.next L h' none n).live ptr = none ∧
        (∀ b, L.InAlloc s.heap ptr b → L.atbGetKind h' b = .free) ∧
      (∀ b, b < L.blocks → ¬L.InAlloc s.heap ptr b → L.atbGetKind h' b = L.atbGetKind s.heap b) ∧
      ∀ b, b < L.blocks → b ≠ L.blockFromPtr ptr → L.ftbGet h' b = L.ftbGet s.heap b := by
  obtain ⟨b, k, rfl, hc⟩ := ho.exists_chain hp
  rw [atEnd_iff hc] at hend
  have hpos := hc.pos
  have hle := hc.le
  obtain ⟨h', log, hfree, hfreed, hlog⟩ := gcFree_spec hc (by omega) ho.unlocked L.blocks_lt_fuel
  have ht : L.Touches del (fun c => none = some (L.ptrFromBlock c)) (fun c => c ≠ b) s.heap h' :=
    (hfreed.touches ho.wf hc).mono (fun _ hX => hX.elim) fun _ _ hM => hM
  refine ⟨h', log, hfree, ho.next ht (fun p hp => nomatch hp), hlog,
    fun p hp hne => ?_, ?_, fun c hin => ?_, fun c hlt hout => ?_, fun c hlt hne => ?_⟩
  · refine ho.others ht (fun _ _ _ => by simp) hp fun heq => hne ?_
    obtain ⟨c, j, rfl, -⟩ := ho.exists_chain hp
    rw [blockFromPtr_ptrFromBlock] at heq
    rw [heq]
  · refine next_live_of_not_head (fun heq => nomatch heq) ?_
    rw [blockFromPtr_ptrFromBlock, hfreed.kind b hc.lt, if_pos ⟨Nat.le_refl b, by omega⟩]
    simp
  · have hin := (inAlloc_iff hc).mp hin
    rw [hfreed.kind c (by omega), if_pos hin]
  · rw [inAlloc_iff hc] at hout
    rw [hfreed.kind c hlt, if_neg hout]
  · rw [blockFromPtr_ptrFromBlock] at hne
    rw [hfreed.ftb c hlt, decide_eq_true hne, Bool.and_true]

/-- `gc_nbytes` of any pointer. -/
theorem Owned.gcNbytes
    (hend : L.verifyPtr ptr → L.atbGetKind s.heap (L.blockFromPtr ptr) = .head →
      ¬L.AtEnd s.heap ptr) :
    ∃ m log, L.gcNbytes s.heap L.fuel ptr = some (m, log) ∧ (∀ e ∈ log, e < L.blocks) ∧
      ∀ n, s.live ptr = some n → n ≤ m := by
  rw [Layout.gcNbytes]
  split_ifs with hptr
  · have hlt := blockFromPtr_lt hptr
    dsimp only
    split_ifs with hhead
    · obtain ⟨k, hc⟩ := exists_isChain hlt hhead
      have hle := hc.le
      have hend : L.blockFromPtr ptr + k ≠ L.blocks := by
        have hend := hend hptr hhead
        intro heq
        exact hend ⟨by omega, (hc.inChain_iff (by omega)).mpr ⟨by omega, by omega⟩⟩
      rw [hc.nBlocks (by omega) L.blocks_lt_fuel]
      refine ⟨_, _, rfl, fun e he => ?_, fun n hn => ?_⟩
      · obtain ⟨-, hlt⟩ := List.mem_range'_1.mp he
        omega
      · obtain ⟨b, j, rfl, hcb, hnj⟩ := ho.live ptr n hn
        rw [blockFromPtr_ptrFromBlock] at hc
        rw [hc.unique hcb]
        exact hnj
    · refine ⟨0, [L.blockFromPtr ptr], rfl, fun e he => ?_, fun n hn => ?_⟩
      · rw [List.mem_singleton.mp he]
        exact hlt
      · obtain ⟨b, j, rfl, hcb, -⟩ := ho.live ptr n hn
        rw [blockFromPtr_ptrFromBlock] at hhead
        exact absurd hcb.head hhead
  · refine ⟨0, [], rfl, nofun, fun n hn => ?_⟩
    obtain ⟨b, j, rfl, hcb, -⟩ := ho.live ptr n hn
    exact absurd (verifyPtr_ptrFromBlock hcb.lt) hptr

/-- `gc_realloc` of a live allocation. -/
theorem Owned.reallocChain {allowMove : Bool} (hdel : L.DelPool del) (roots : Roots)
    (hp : (s.live ptr).isSome) (hn0 : n ≠ 0)
    (hsafe : L.Safe s (.gcRealloc (some ptr) n allowMove roots)) :
    ∃ h' r log, L.gcRealloc s.heap L.fuel del roots (some ptr) n allowMove = some (h', r, log) ∧
      L.Right del s (.gcRealloc (some ptr) n allowMove roots) (s.next L h' r n) ⟨r, 0, log⟩ := by
  obtain ⟨old, hold⟩ := isSome_iff_exists.mp hp
  obtain ⟨b, k, rfl, hc, hbytes⟩ := ho.live ptr old hold
  obtain ⟨-, hn, hmove⟩ := hsafe
  have hpos := hc.pos
  have hle := hc.le
  rw [atEnd_iff hc, inAlloc_iff hc, blockFromPtr_ptrFromBlock] at hmove
  obtain ⟨h', r, log, hrealloc, hresult, hlog⟩ :=
    reallocChain_spec ho.wf ho.unlocked hdel L.lt_fuel hc hn
    roots allowMove hn0 fun hallow hk => by
      obtain ⟨hend, hne⟩ := hmove hn0 hallow (by omega)
      exact ⟨hend, by omega⟩
  refine ⟨h', r, log, ?_, ?_⟩
  · rw [gcRealloc, if_neg hn0, if_neg (by rw [ho.unlocked]; simp), blockFromPtr_ptrFromBlock,
      if_pos ⟨verifyPtr_ptrFromBlock hc.lt, hc.head⟩]
    exact hrealloc
  have hnew : ∀ p, r = some p → ∃ b k, p = L.ptrFromBlock b ∧ L.IsChain h' b k ∧
      n ≤ k * L.bytesPerBlock := by
    intro p hp
    obtain ⟨b', k', hp, hc', hn', -⟩ := hresult.result p hp
    exact ⟨b', k', hp, hc', hn'⟩
  refine ⟨ho.next hresult.touches hnew, hlog, fun p hp hne => ?_,
    fun p hp => next_live hp, fun p hp => ?_⟩
  · by_cases hreach : L.Reachable s.heap roots (L.blockFromPtr p)
    · obtain ⟨c, j, rfl, hcc⟩ := ho.exists_chain hp
      rw [blockFromPtr_ptrFromBlock] at hreach
      have hcb : c ≠ b := fun heq => hne (heq ▸ rfl)
      have hs := hresult.touches.keeps c j hcc ⟨hreach, hcb⟩
      exact .inl (hs.unaffected hcc (hresult.fresh c hreach hcb))
    · exact .inr hreach
  · cases hp
    refine ⟨fun hown p old' hp hold' i hi => ?_, fun p hp hne => ?_, fun hp _ => ?_⟩
    · obtain rfl := some.inj (hold.symm.trans hold')
      obtain ⟨b', k', -, -, -, hcopy⟩ := hresult.result p hp
      exact hcopy hown i (by omega) (by omega)
    · refine next_live_of_not_head (fun heq => hne (some.inj (hp.symm.trans heq))) ?_
      rw [blockFromPtr_ptrFromBlock, hresult.moved p hp hne b (Nat.le_refl b) (by omega)]
      simp
    · obtain rfl : r = none := hp
      exact (hresult.failed rfl).unaffected hc (by simp)

/-- A write into an allocation. -/
theorem Owned.write {i : ℕ} (hi : (s.live ptr).any (i < ·)) (v : BitVec 8) :
    L.Right del s (.write ptr i v)
      { s with heap := { s.heap with mem := update s.heap.mem (ptr + i) v } } ⟨none, 0, []⟩ := by
  obtain ⟨n, hn, hin⟩ : ∃ n, s.live ptr = some n ∧ i < n := by
    cases hn : s.live ptr with
    | none =>
      rw [hn] at hi
      cases hi
    | some n =>
      rw [hn] at hi
      exact ⟨n, rfl, of_decide_eq_true hi⟩
  obtain ⟨b, k, rfl, hc, hbytes⟩ := ho.live ptr n hn
  obtain ⟨x, hbx, hxk, hx⟩ := exists_inBlock (Nat.le_add_right (L.ptrFromBlock b) i)
    (Nat.add_lt_add_left (Nat.lt_of_lt_of_le hin hbytes) _)
  have htables : L.SameTables s.heap
      { s.heap with mem := update s.heap.mem (L.ptrFromBlock b + i) v } :=
    sameTables_of_mem fun a ha => update_of_ne (by have := hx.pool; omega) ..
  refine ⟨⟨htables.wellFormed ho.wf, ho.unlocked, fun p m hm => ?_, fun c hc hhead => ?_⟩, nofun,
    fun p hp hne => ?_, trivial⟩
  · obtain ⟨c, j, rfl, hcc, hm⟩ := ho.live p m hm
    exact ⟨c, j, rfl, htables.isChain hcc, hm⟩
  · exact ho.heads c hc ((htables.kind c hc).symm.trans hhead)
  · obtain ⟨c, j, rfl, hcc⟩ := ho.exists_chain hp
    have hcb : c ≠ b := fun heq => hne (heq ▸ rfl)
    refine .inl ⟨rfl, fun y => ?_, ?_, fun _ y hy a ha => ?_⟩
    · rw [inAlloc_iff hcc]
      exact inAlloc_iff (htables.isChain hcc)
    · rw [blockFromPtr_ptrFromBlock]
      exact htables.ftb c hcc.lt
    · -- the byte that is written is in another chain
      have hy := (inAlloc_iff hcc).mp hy
      refine update_of_ne (fun heq => ?_) ..
      rw [heq] at ha
      obtain rfl := hx.unique ha
      rcases hcc.disjoint hc hcb with hle | hle
      · omega
      · omega

/-! ### Steps and runs -/

/-- **Step.**  In a session where every allocation has its chain, a call that is valid and safe is
right. -/
theorem Owned.step (hdel : L.DelPool del) {c : Call} (hvalid : L.Valid s c)
    (hsafe : L.Safe s c) : ∃ s' r, L.step del s c = some (s', r) ∧ L.Right del s c s' r := by
  cases c with
  | gcAlloc n hasFinaliser roots =>
    obtain ⟨h', r, halloc, howned, hothers⟩ := ho.gcAlloc hdel hasFinaliser roots hvalid hsafe
    refine ⟨s.next L h' r n, ⟨r, 0, []⟩, ?_, howned, nofun, fun p hp _ => hothers p hp,
      fun p hp => next_live hp⟩
    rw [Layout.step, halloc]
    rfl
  | gcFree ptr =>
    obtain ⟨h', log, hfree, howned, hlog, hothers, hown⟩ := ho.gcFree hvalid hsafe
    refine ⟨_, _, by rw [Layout.step, hfree]; rfl, howned, hlog, fun p hp hne => ?_, hown⟩
    exact .inl (hothers p hp fun heq => hne (congrArg some heq))
  | gcNbytes ptr =>
    obtain ⟨m, log, hnbytes, hlog, hm⟩ := ho.gcNbytes hsafe
    refine ⟨_, _, by rw [Layout.step, hnbytes]; rfl, ho, hlog, fun p hp _ => .inl ?_, rfl, hm⟩
    exact ⟨rfl, fun _ => .rfl, rfl, fun _ _ _ _ _ => rfl⟩
  | gcRealloc ptrIn n allowMove roots =>
    cases ptrIn with
    | none =>
      obtain ⟨h', r, halloc, howned, hothers⟩ := ho.gcAlloc hdel false roots hvalid hsafe
      refine ⟨s.next L h' r n, ⟨r, 0, []⟩, ?_, howned, nofun, fun p hp _ => hothers p hp,
        fun p hp => next_live hp, fun p hp => nomatch hp⟩
      rw [Layout.step, gcRealloc, halloc]
      rfl
    | some ptr =>
      by_cases hn0 : n = 0
      · subst hn0
        obtain ⟨h', log, hfree, howned, hlog, hothers, -⟩ := ho.gcFree hvalid.1 (hsafe.1 rfl)
        refine ⟨s.next L h' none 0, ⟨none, 0, log⟩, ?_, howned, hlog, fun p hp hne => ?_,
          (fun p hp => nomatch hp),
          fun p hp =>
            ⟨(fun _ _ _ hp => nomatch hp), (fun _ hp => nomatch hp), fun _ hne => absurd rfl hne⟩⟩
        · rw [Layout.step, gcRealloc, hfree]
          rfl
        · exact .inl (hothers p hp fun heq => hne (congrArg some heq))
      · obtain ⟨h', r, log, hrealloc, hright⟩ := ho.reallocChain hdel roots hvalid.1 hn0 hsafe
        exact ⟨_, _, by rw [Layout.step, hrealloc]; rfl, hright⟩
  | gcCollect roots =>
    obtain ⟨h', hcollect, hcollected⟩ := gcCollect_spec ho.wf hsafe (.inr hdel) L.lt_fuel roots
    obtain ⟨howned, hothers⟩ := ho.after (n := 0) (.inl ⟨rfl, hcollected.thins ho.wf⟩)
    refine ⟨s.next L h' none 0, ⟨none, 0, []⟩, ?_, howned, nofun,
      fun p hp _ => hothers p hp, trivial⟩
    rw [Layout.step, hcollect]
    rfl
  | write ptr i v => exact ⟨_, _, rfl, ho.write hvalid v⟩

end

/-- After `gc_init` all blocks are free. -/
theorem atbGetKind_gcInit (mem : ℕ → BitVec 8) (hb : b < L.blocks) :
    L.atbGetKind (L.gcInit mem) b = .free := by
  have hlt := div_four_lt hb
  have hzero : (L.gcInit mem).mem (L.gcAllocTableStart + b / (8 / 2)) = 0#8 := by
    exact if_pos (by omega)
  rw [atbGetKind, packedGet, hzero, field, BitVec.zero_ushiftRight]
  rfl

theorem owned_boot (L : Layout) (mem : ℕ → BitVec 8) : L.Owned (L.boot mem) where
  wf := by
    refine ⟨fun b hb => ?_, fun b hb htail => ?_⟩
    · rw [boot, atbGetKind_gcInit mem hb]
      simp
    · rw [boot, atbGetKind_gcInit mem hb] at htail
      cases htail
  unlocked := rfl
  live _ _ hp := nomatch hp
  heads b hb hhead := by
    rw [boot, atbGetKind_gcInit mem hb] at hhead
    cases hhead

/-- **Run.**  Valid and safe calls keep the allocations apart. -/
theorem owned_of_runs {mem : ℕ → BitVec 8} {tr : List (Call × Reply)} (hdel : L.DelPool del)
    (hrun : Runs (L.step del) (fun s c => L.Valid s c ∧ L.Safe s c) (L.boot mem) tr s) :
    L.Owned s := by
  refine (hrun.invariant L.Owned (fun _ => True) (fun {s c s' r} ho hc hstep => ?_)
    (owned_boot L mem)).1
  obtain ⟨s₁, r₁, hstep₁, hright⟩ := ho.step hdel hc.1 hc.2
  obtain ⟨rfl, -⟩ := Prod.mk.inj (some.inj (hstep.symm.trans hstep₁))
  exact ⟨hright.owned, trivial⟩

/-- `gc_free` is right for the allocations that do not end with the last block, and for no
others. -/
theorem Owned.gcFree_right_iff (ho : L.Owned s) (hdel : L.DelPool del) (hp : (s.live ptr).isSome) :
    (∃ s' r, L.step del s (.gcFree ptr) = some (s', r) ∧ L.Right del s (.gcFree ptr) s' r) ↔
      ¬L.AtEnd s.heap ptr := by
  refine ⟨?_, fun hend => ho.step hdel hp hend⟩
  rintro ⟨s', r, hstep, hright⟩ hend
  obtain ⟨b, k, rfl, hc⟩ := ho.exists_chain hp
  obtain ⟨r₁, hr₁, heq⟩ := map_eq_some_iff.mp hstep
  obtain ⟨-, rfl⟩ := Prod.mk.inj heq
  have hlt := hright.entries _ (gcFree_reads_next hc ho.unlocked hr₁)
  rw [(atEnd_iff hc).mp hend] at hlt
  exact Nat.lt_irrefl _ hlt

/-- And so is `gc_nbytes`. -/
theorem Owned.gcNbytes_right_iff (ho : L.Owned s) (hdel : L.DelPool del)
    (hp : (s.live ptr).isSome) :
    (∃ s' r, L.step del s (.gcNbytes ptr) = some (s', r) ∧ L.Right del s (.gcNbytes ptr) s' r) ↔
      ¬L.AtEnd s.heap ptr := by
  refine ⟨?_, fun hend => ho.step hdel trivial fun _ _ => hend⟩
  rintro ⟨s', r, hstep, hright⟩ hend
  obtain ⟨b, k, rfl, hc⟩ := ho.exists_chain hp
  obtain ⟨r₁, hr₁, heq⟩ := map_eq_some_iff.mp hstep
  obtain ⟨-, rfl⟩ := Prod.mk.inj heq
  rw [Layout.gcNbytes, if_pos (verifyPtr_ptrFromBlock hc.lt)] at hr₁
  rw [blockFromPtr_ptrFromBlock, if_pos hc.head] at hr₁
  obtain ⟨m, hm, rfl⟩ := map_eq_some_iff.mp hr₁
  have hle := hc.le_nBlocks hm
  have hlast := (atEnd_iff hc).mp hend
  have hlt := hright.entries L.blocks (List.mem_range'_1.mpr ⟨by omega, by omega⟩)
  exact Nat.lt_irrefl _ hlt

/-- **Heap operations touch only their own allocation.**  After any valid and safe calls, from the
heap that `gc_init` sets up with a finaliser table, the live allocations are chains inside the pool
that are large enough and have no block in common, and every further such call is right.  `gc_free`
and `gc_nbytes` of a live pointer are right just when its allocation does not end with the last
block of the pool. -/
theorem heap_ops_touch_own (w stackSize start stop : ℕ) (hw : 0 < w)
    (hstop : start ≤ stop - stop % (4 * w))
    (mem : ℕ → BitVec 8) (del : (ℕ → BitVec 8) → ℕ → ℕ → BitVec 8)
    (hdel : (init w stackSize start stop hw hstop).DelPool del) (tr : List (Call × Reply))
    (s : Session) (hrun : Runs ((init w stackSize start stop hw hstop).step del)
      (fun s c => (init w stackSize start stop hw hstop).Valid s c ∧
        (init w stackSize start stop hw hstop).Safe s c)
      ((init w stackSize start stop hw hstop).boot mem) tr s) :
    let L := init w stackSize start stop hw hstop
    (∀ p n, s.live p = some n → ∃ b k, p = L.ptrFromBlock b ∧ L.IsChain s.heap b k ∧
      n ≤ k * L.bytesPerBlock) ∧
      (∀ p q b, (s.live p).isSome → (s.live q).isSome → p ≠ q →
        ¬(L.InAlloc s.heap p b ∧ L.InAlloc s.heap q b)) ∧
      (∀ c, L.Valid s c → L.Safe s c →
        ∃ s' r, L.step del s c = some (s', r) ∧ L.Right del s c s' r) ∧
      (∀ ptr, (s.live ptr).isSome →
        ((∃ s' r, L.step del s (.gcFree ptr) = some (s', r) ∧ L.Right del s (.gcFree ptr) s' r) ↔
          ¬L.AtEnd s.heap ptr) ∧
        ((∃ s' r, L.step del s (.gcNbytes ptr) = some (s', r) ∧
          L.Right del s (.gcNbytes ptr) s' r) ↔
          ¬L.AtEnd s.heap ptr)) := by
  intro L
  have ho : L.Owned s := owned_of_runs hdel hrun
  refine ⟨ho.live, fun p q b hp hq hpq => ho.disjoint hp hq hpq,
    fun c hvalid hsafe => ho.step hdel hvalid hsafe, fun ptr hp => ?_⟩
  exact ⟨ho.gcFree_right_iff hdel hp, ho.gcNbytes_right_iff hdel hp⟩

/-! ### Small heaps -/

instance : Decidable (L.InChain h a b) :=
  decidable_of_iff (a ≤ b ∧ ∀ c, c < b + 1 → a < c → L.atbGetKind h c = .tail)
    (and_congr_right fun _ => ⟨fun hall c hac hcb => hall c (Nat.lt_succ_of_le hcb) hac,
      fun hin c hcb hac => hin c hac (Nat.le_of_lt_succ hcb)⟩)

instance {b : ℕ} : Decidable (L.InAlloc h ptr b) := inferInstanceAs (Decidable (_ ∧ _))

instance : Decidable (L.AtEnd h ptr) := inferInstanceAs (Decidable (L.InAlloc h ptr _))

instance : Decidable (L.Bounded h) := inferInstanceAs (Decidable (¬_ ∨ _))

instance {s : Session} {c : Call} : Decidable (L.Valid s c) :=
  match c with
  | .gcAlloc _ _ _ => inferInstanceAs (Decidable (_ ≤ _))
  | .gcFree _ => inferInstanceAs (Decidable (_ = true))
  | .gcNbytes _ => inferInstanceAs (Decidable True)
  | .gcRealloc none _ _ _ => inferInstanceAs (Decidable (_ ≤ _))
  | .gcRealloc (some _) _ _ _ => inferInstanceAs (Decidable (_ ∧ _))
  | .gcCollect _ => inferInstanceAs (Decidable True)
  | .write _ _ _ => inferInstanceAs (Decidable (_ = true))

instance {s : Session} {c : Call} : Decidable (L.Safe s c) :=
  match c with
  | .gcAlloc _ _ _ | .gcCollect _ | .gcRealloc none _ _ _ =>
    inferInstanceAs (Decidable (L.Bounded _))
  | .gcFree _ => inferInstanceAs (Decidable (¬_))
  | .gcNbytes _ => inferInstanceAs (Decidable (_ → _ → ¬_))
  | .gcRealloc (some _) _ _ _ => inferInstanceAs (Decidable ((_ → ¬_) ∧ _ ∧ (_ → _ → ¬_ → _ ∧ ¬_)))
  | .write _ _ _ => inferInstanceAs (Decidable True)

/-- A heap of four blocks on a machine with words of four bytes. -/
def heap32 : Layout := init 4 64 0 80 (by decide) (by decide)

/-- A heap of four blocks on a machine with words of eight bytes. -/
def heap64 : Layout := init 8 64 0 160 (by decide) (by decide)

theorem delPool_id (L : Layout) : L.DelPool fun mem _ => mem := fun _ _ _ _ => rfl

/-- Two allocations, one of them grown. -/
theorem heap_ops_touch_own_grown : ∃ tr s,
    Runs (heap32.step fun mem _ => mem) (fun s c => heap32.Valid s c ∧ heap32.Safe s c)
      (heap32.boot fun _ => 0) tr s ∧
      s.live 16 = some 20 ∧ ∃ b k, 16 = heap32.ptrFromBlock b ∧ heap32.IsChain s.heap b k ∧
        20 ≤ k * heap32.bytesPerBlock := by
  have hexec :
    (execute (heap32.step fun mem _ => mem) (fun s c => heap32.Valid s c ∧ heap32.Safe s c)
      (heap32.boot fun _ => 0)
      [.gcAlloc 10 false ⟨[], [], []⟩, .write 16 9 7, .gcRealloc (some 16) 20 true ⟨[], [], []⟩,
        .gcAlloc 16 true ⟨[16], [], []⟩, .gcCollect ⟨[16], [], []⟩]).map (fun r => r.1.live 16) =
          some (some 20) := by
    decide +kernel
  obtain ⟨r, hrun, hlive⟩ := exists_run_of_map hexec
  exact ⟨r.2, r.1, hrun, hlive, (heap_ops_touch_own 4 64 0 80 (by decide) (by decide) (fun _ => 0)
    (fun mem _ => mem)
    (delPool_id _) r.2 r.1 hrun).1 16 20 hlive⟩

/-- The last allocation ends with the last block, and the flags of the first two blocks read as a
tail: `gc_free` reads and changes the entry behind the table, and with it the flag of the second
allocation.  With words of eight bytes, `gc_realloc` to `SIZE_MAX - 15` bytes returns the pointer
with no block left. -/
theorem heap_ops_touch_others :
    (∃ tr s s' r, Runs (heap32.step fun mem _ => mem) heap32.Valid (heap32.boot fun _ => 0) tr s ∧
      (s.live 48).isSome ∧ heap32.step (fun mem _ => mem) s (.gcFree 48) = some (s', r) ∧
        heap32.blocks ∈ r.entries ∧
      heap32.ftbGet s.heap 1 = true ∧ heap32.ftbGet s'.heap 1 = false ∧ s'.live 32 = s.live 32) ∧
    ∃ tr s, Runs (heap64.step fun mem _ => mem) heap64.Valid (heap64.boot fun _ => 0) tr s ∧
      s.live 32 = some (2 ^ 64 - 16) ∧
        heap64.atbGetKind s.heap (heap64.blockFromPtr 32) = .free := by
  have hfree : ((execute (heap32.step fun mem _ => mem) heap32.Valid (heap32.boot fun _ => 0)
      [.gcAlloc 16 false ⟨[], [], []⟩, .gcAlloc 16 true ⟨[], [], []⟩,
        .gcAlloc 32 false ⟨[], [], []⟩]).bind fun r =>
        (heap32.step (fun mem _ => mem) r.1 (.gcFree 48)).map fun r' =>
          decide ((r.1.live 48).isSome ∧
          heap32.blocks ∈ r'.2.entries ∧ heap32.ftbGet r.1.heap 1 = true ∧
            heap32.ftbGet r'.1.heap 1 = false ∧
          r'.1.live 32 = r.1.live 32)) = some true := by
    decide +kernel
  have hrealloc : (execute (heap64.step fun mem _ => mem) heap64.Valid (heap64.boot fun _ => 0)
      [.gcAlloc 16 false ⟨[], [], []⟩, .gcRealloc (some 32) (2 ^ 64 - 16) true ⟨[], [], []⟩]).map
        (fun r =>
        decide (r.1.live 32 = some (2 ^ 64 - 16) ∧
          heap64.atbGetKind r.1.heap (heap64.blockFromPtr 32) = .free)) =
      some true := by
    decide +kernel
  obtain ⟨r, hr, hmap⟩ := bind_eq_some_iff.mp hfree
  obtain ⟨r', hr', hdec⟩ := map_eq_some_iff.mp hmap
  obtain ⟨hlive, hrest⟩ := of_decide_eq_true hdec
  obtain ⟨q, hq, hlost⟩ := exists_run_of_decide hrealloc
  exact ⟨⟨r.2, r.1, r'.1, r'.2, runs_of_execute hr, hlive, hr', hrest⟩, q.2, q.1, hq, hlost⟩

end Layout

end Nespy.Py.Gc
