import Nespy.Lib.Runs
import Nespy.Net.SourceRoute

/-!
# Net — what the source-routing graph keeps

The list of nodes, its memory block and `num_nodes` agree after any calls (`Pool`).  Two calls may
break the graph itself.  `uip_sr_update_node` makes nodes for the child and for its parent when it
finds none by their addresses; it does not compare them with each other, nor link identifiers under
another prefix, so two nodes may come to have the same graph and link identifier (`newKeys`).  And
`uip_sr_periodic` frees an expired node to which a child still points (`Expires`).

`Good` says when neither happens, and the graph is consistent after a call exactly then.
-/

open List Option

namespace Nespy.Net.SrNodes

open Nespy.Lib Nespy.Sys
open Nespy.Sicslowpan (Ipaddr)

variable {G : Type} {s s' : SrNodes G} {n : SrIndex}

/-! ### What a node stands for -/

variable (s)

/-- The graph and the link identifier of a node. -/
@[simp] def key (n : SrIndex) : G × LinkIdentifier := ((s.node n).graph, (s.node n).linkIdentifier)

/-- Those of the listed nodes. -/
def keys : List (G × LinkIdentifier) := s.nodelist.map s.key

/-- The graph does not dangle: the property to be kept. -/
structure Consistent : Prop where
  parents : ∀ l ∈ s.nodelist, ∀ p ∈ (s.node l).parent, p ∈ s.nodelist
  distinct : s.keys.Nodup
  num : s.numNodes = s.nodelist.length

/-- The list, its memory block and the count. -/
structure Pool : Prop where
  holds : Holds s.count s.nodelist
  num : s.numNodes = s.nodelist.length

variable {s}

theorem Pool.initial (graph : G) : Pool (initial graph) := ⟨.nil, rfl⟩

theorem Consistent.initial (graph : G) : Consistent (initial graph) := ⟨nofun, nodup_nil, rfl⟩

theorem Pool.freeNode (h : Pool s) (hn : n ∈ s.nodelist) : Pool (s.freeNode n) := by
  have hperm : s.nodelist.Perm (n :: listRemove s.nodelist n) := perm_cons_erase hn
  refine ⟨(h.holds.perm hperm).free, ?_⟩
  have hlen := hperm.length_eq
  have hnum := h.num
  simp only [SrNodes.freeNode, length_cons] at hlen ⊢
  omega

theorem Pool.setNode (h : Pool s) (node : SrIndex → SrNode G) : Pool { s with node } :=
  ⟨h.holds, h.num⟩

/-! ### Expiry -/

/-- The nodes keep their keys and their parents. -/
structure SameLinks (s s' : SrNodes G) : Prop where
  key : ∀ j, s'.key j = s.key j
  parent : ∀ j, (s'.node j).parent = (s.node j).parent

theorem SameLinks.refl (s : SrNodes G) : SameLinks s s := ⟨fun _ => rfl, fun _ => rfl⟩

theorem SameLinks.trans {s'' : SrNodes G} (h : SameLinks s s') (h' : SameLinks s' s'') :
    SameLinks s s'' :=
  ⟨fun j => (h'.key j).trans (h.key j), fun j => (h'.parent j).trans (h.parent j)⟩

/-- A node gets another lifetime. -/
theorem sameLinks_lifetime (s : SrNodes G) (n : SrIndex) (lifetime : UInt32) :
    SameLinks s { s with node := Function.update s.node n { s.node n with lifetime } } := by
  constructor <;> intro j <;> by_cases hj : j = n
  · subst hj
    simp
  · simp [hj]
  · subst hj
    simp
  · simp [hj]

theorem Consistent.sameLinks (h : Consistent s) (hsame : SameLinks s s')
    (hlist : s'.nodelist = s.nodelist) (hnum : s'.numNodes = s.numNodes) : Consistent s' where
  parents l hl p hp := hlist ▸ h.parents l (hlist ▸ hl) p (hsame.parent l ▸ hp)
  distinct := by
    rw [keys, hlist, map_congr_left fun j _ => hsame.key j]
    exact h.distinct
  num := by rw [hnum, hlist, h.num]

/-- The loop of `uip_sr_periodic` removes the expired nodes that it meets. -/
theorem Pool.periodicFrom {seconds : UInt32} {rest : List SrIndex} (hrest : rest.Nodup) (h : Pool s)
    (hsub : ∀ l ∈ rest, l ∈ s.nodelist) (hs' : s' = SrNodes.periodicFrom seconds rest s) :
    Pool s' ∧ SameLinks s s' ∧ s'.nodelist.Sublist s.nodelist ∧
      ∀ j, j ∈ s'.nodelist ↔ j ∈ s.nodelist ∧ (j ∈ rest → (s.node j).lifetime ≠ 0) := by
  induction rest generalizing s with
  | nil =>
    subst hs'
    exact ⟨h, .refl _, .refl _, fun j => (and_iff_left nofun).symm⟩
  | cons l rest ih =>
    obtain ⟨hl, hrest⟩ := nodup_cons.mp hrest
    have hmem : l ∈ s.nodelist := hsub l mem_cons_self
    have hsub' : ∀ j ∈ rest, j ∈ s.nodelist := fun j hj => hsub j (mem_cons_of_mem _ hj)
    rw [SrNodes.periodicFrom] at hs'
    by_cases hzero : (s.node l).lifetime = 0
    · -- the node is expired
      rw [if_pos hzero] at hs'
      have hne : ∀ j ∈ rest, j ≠ l := fun j hj hjl => hl (hjl ▸ hj)
      obtain ⟨hpool, hsame, hlist, hiff⟩ := ih hrest (h.freeNode hmem)
        (fun j hj => (mem_listRemove h.holds.nodup).mpr ⟨hne j hj, hsub' j hj⟩) hs'
      refine ⟨hpool, ⟨hsame.key, hsame.parent⟩, hlist.trans erase_sublist, fun j => ?_⟩
      rw [hiff]
      change j ∈ listRemove s.nodelist l ∧ (j ∈ rest → (s.node j).lifetime ≠ 0) ↔ _
      rw [mem_listRemove h.holds.nodup]
      by_cases hjl : j = l
      · simp [hjl, hzero]
      · simp [hjl]
    · rw [if_neg hzero] at hs'
      split at hs'
      · obtain ⟨hpool, hsame, hlist, hiff⟩ := ih hrest (by exact h.setNode _) (by exact hsub') hs'
        refine ⟨hpool, (sameLinks_lifetime s l _).trans hsame, hlist, fun j => ?_⟩
        rw [hiff]
        by_cases hjl : j = l
        · simp [hjl, hl, hzero]
        · simp [hjl]
      · obtain ⟨hpool, hsame, hlist, hiff⟩ := ih hrest h hsub' hs'
        refine ⟨hpool, hsame, hlist, fun j => ?_⟩
        rw [hiff]
        by_cases hjl : j = l
        · simp [hjl, hzero]
        · simp [hjl]

/-- A child points to an expired node and is not expired itself. -/
def Expires (s : SrNodes G) : Prop :=
  ∃ l ∈ s.nodelist, (s.node l).lifetime ≠ 0 ∧ ∃ p ∈ (s.node l).parent, (s.node p).lifetime = 0

instance (s : SrNodes G) : Decidable s.Expires :=
  inferInstanceAs (Decidable (∃ l ∈ s.nodelist, _ ∧ ∃ p ∈ _, _))

/-- `uip_sr_periodic` leaves a dangling parent exactly when a child points to an expired node. -/
theorem Consistent.periodic (hp : Pool s) (h : Consistent s) (seconds : UInt32) :
    Pool (s.uipSrPeriodic seconds) ∧ (Consistent (s.uipSrPeriodic seconds) ↔ ¬s.Expires) := by
  obtain ⟨s', hs'⟩ : ∃ s', s' = s.uipSrPeriodic seconds := ⟨_, rfl⟩
  rw [← hs']
  obtain ⟨hpool, hsame, hlist, hiff⟩ := hp.periodicFrom hp.holds.nodup (fun _ hl => hl) hs'
  refine ⟨hpool, fun hc => ?_, fun hne => ⟨fun l hl p hlp => ?_, ?_, hpool.num⟩⟩
  · rintro ⟨l, hl, hlife, p, hlp, hzero⟩
    have hp' := hc.parents l ((hiff l).mpr ⟨hl, fun _ => hlife⟩) p (hsame.parent l ▸ hlp)
    exact ((hiff p).mp hp').2 (h.parents l hl p hlp) hzero
  · obtain ⟨hl, hlife⟩ := (hiff l).mp hl
    rw [hsame.parent l] at hlp
    exact (hiff p).mpr ⟨h.parents l hl p hlp, fun _ hzero => hne ⟨l, hl, hlife hl, p, hlp, hzero⟩⟩
  · rw [keys, map_congr_left fun j _ => hsame.key j]
    exact (hlist.map s.key).nodup h.distinct

theorem Pool.freeAll (h : Pool s) : Pool s.uipSrFreeAll ∧ s.uipSrFreeAll.nodelist = [] := by
  suffices hall : ∀ l (s : SrNodes G), Pool s → s.nodelist = l →
      Pool (l.foldl SrNodes.freeNode s) ∧ (l.foldl SrNodes.freeNode s).nodelist = [] from
    hall s.nodelist s h rfl
  intro l
  induction l with
  | nil => exact fun s h hl => ⟨h, hl⟩
  | cons n l ih =>
    intro s h hl
    refine ih (s.freeNode n) (h.freeNode (hl ▸ mem_cons_self)) ?_
    change listRemove s.nodelist n = l
    rw [hl, listRemove, erase_cons_head]

/-! ### Updates -/

/-- What an update of the child's node leaves: its key may be new. -/
structure Updated (s s' : SrNodes G) (parentNode : Option SrIndex)
    (new : List (G × LinkIdentifier)) : Prop where
  pool : Pool s'
  keys : s'.keys = s.keys ++ new
  sub : ∀ l ∈ s.nodelist, l ∈ s'.nodelist ∧ s'.key l = s.key l
  parents : ∀ l ∈ s'.nodelist, (s'.node l).parent = none ∨ (s'.node l).parent = parentNode ∨
    l ∈ s.nodelist ∧ (s'.node l).parent = (s.node l).parent

variable {parentNode : Option SrIndex}

theorem Updated.nil (h : Pool s) : Updated s s parentNode [] :=
  ⟨h, (append_nil _).symm, fun _ hl => ⟨hl, rfl⟩, fun _ hl => .inr (.inr ⟨hl, rfl⟩)⟩

/-- All parents are listed when the new one is. -/
theorem Updated.closed {new : List (G × LinkIdentifier)}
    (h : Updated s s' parentNode new) (hparent : ∀ p ∈ parentNode, p ∈ s.nodelist)
    (hold : ∀ l ∈ s.nodelist, ∀ p ∈ (s.node l).parent, p ∈ s.nodelist) :
    ∀ l ∈ s'.nodelist, ∀ p ∈ (s'.node l).parent, p ∈ s'.nodelist := by
  intro l hl p hp
  rcases h.parents l hl with hnone | hnew | ⟨hl', hsame⟩
  · rw [hnone] at hp
    cases hp
  · exact (h.sub p (hparent p (hnew ▸ hp))).1
  · exact (h.sub p (hold l hl' p (hsame ▸ hp))).1

section Update

variable [DecidableEq G] {env : Protocol G} {graph : G} {child : Ipaddr}
  {parentNode : Option SrIndex} {lifetime : UInt32}

/-- The key of an address. -/
@[simp] def keyOf (graph : G) (addr : Ipaddr) : G × LinkIdentifier := (graph, linkIdentifierOf addr)

theorem key_of_uipSrGetNode {addr : Ipaddr} (h : s.uipSrGetNode env graph (some addr) = some n) :
    n ∈ s.nodelist ∧ s.key n = keyOf graph addr := by
  have hmatch := find?_some h
  simp only [nodeMatchesAddress, decide_eq_true_eq] at hmatch
  obtain ⟨rfl, rfl⟩ := hmatch
  refine ⟨mem_of_find?_eq_some h, Prod.ext rfl (Subtype.ext ?_)⟩
  simp [linkIdentifierOf, getSrNodeIpaddr]

/-- The node of the child after an update: the other nodes are as they were. -/
theorem updated_node {s₁ : SrNodes G}
    (hs' : s' = (s₁.initNode n graph child lifetime).changeParent env n graph child parentNode) :
    (s'.nodelist = s₁.nodelist ∧ s'.count = s₁.count ∧ s'.numNodes = s₁.numNodes) ∧
      (∀ j, j ≠ n → s'.node j = s₁.node j) ∧ s'.key n = keyOf graph child ∧
      ((s'.node n).parent = (s₁.node n).parent ∨ (s'.node n).parent = parentNode ∧
        ((s₁.initNode n graph child lifetime).uipSrIsAddrReachable env graph child →
          s'.uipSrIsAddrReachable env graph child)) := by
  rw [changeParent] at hs'
  split_ifs at hs' with hreach
  · subst hs'
    exact ⟨⟨rfl, rfl, rfl⟩, fun j hj => by simp [hj], by simp [key],
      .inl (by simp)⟩
  · subst hs'
    exact ⟨⟨rfl, rfl, rfl⟩, fun j hj => by simp [hj],
      by simp [key],
      .inr ⟨by simp, fun h => not_not.mp fun hnot => hreach ⟨h, hnot⟩⟩⟩

theorem Pool.updateChild_some (h : Pool s) (hkey : s.key n = keyOf graph child)
    (hs' : s.updateChild env graph child (some n) parentNode lifetime = (s', some n)) :
    Updated s s' parentNode [] := by
  obtain ⟨⟨hlist, hcount, hnum⟩, hnode, hkey', hparent⟩ := updated_node (Prod.mk.inj hs').1.symm
  have hkeys : ∀ j, s'.key j = s.key j := by
    intro j
    by_cases hj : j = n
    · rw [hj, hkey', hkey]
    · rw [key, hnode j hj, key]
  refine ⟨⟨by rw [hcount, hlist]; exact h.holds, by rw [hnum, hlist]; exact h.num⟩, ?_,
    fun l hl => ⟨hlist ▸ hl, hkeys l⟩, fun l hl => ?_⟩
  · rw [append_nil, SrNodes.keys, SrNodes.keys, hlist, map_congr_left fun j _ => hkeys j]
  · rw [hlist] at hl
    by_cases hln : l = n
    · subst hln
      exact hparent.elim (fun hp => .inr (.inr ⟨hl, hp⟩)) fun hp => .inr (.inl hp.1)
    · exact .inr (.inr ⟨hl, by rw [hnode l hln]⟩)

variable {o : Option SrIndex}

section

variable (h : Pool s) (hs' : s.updateChild env graph child none parentNode lifetime = (s', o))

include h hs'

/-- A new node is listed behind the others, which are as they were. -/
theorem Pool.updateChild_new {k : SrIndex} {count : Memb uipSrLinkNum}
    (ha : membAlloc s.count = some (k, count)) :
    o = some k ∧ (s'.nodelist = s.nodelist ++ [k] ∧ s'.count = count ∧
      s'.numNodes = s.numNodes + 1) ∧
      (∀ j ∈ s.nodelist, s'.node j = s.node j) ∧ s'.key k = keyOf graph child ∧
      ((s'.node k).parent = none ∨ (s'.node k).parent = parentNode) := by
  obtain ⟨hk, -⟩ := h.holds.alloc ha
  have hadd : listAdd s.nodelist k = s.nodelist ++ [k] := by
    rw [listAdd, listRemove, erase_of_not_mem hk]
  rw [updateChild, makeChild, ha] at hs'
  simp only [map_some, hadd] at hs'
  obtain ⟨hnew, rfl⟩ := Prod.mk.inj hs'
  obtain ⟨hlist, hnode, hkey, hparent⟩ := updated_node hnew.symm
  refine ⟨rfl, hlist, fun j hj => ?_, hkey, hparent.imp (fun hp => ?_) And.left⟩
  · have hjk : j ≠ k := fun hjk => hk (hjk ▸ hj)
    rw [hnode j hjk]
    simp [hjk]
  · rw [hp]
    simp

/-- A new node for the child. -/
theorem Pool.updateChild_none :
    if s.nodelist.length < uipSrLinkNum then
      (∃ n, o = some n ∧ n ∈ s'.nodelist) ∧ Updated s s' parentNode [keyOf graph child]
    else s' = s ∧ o = none := by
  cases ha : membAlloc s.count with
  | none =>
    rw [if_neg (h.holds.length_of_membAlloc_none ha).not_lt]
    rw [updateChild, makeChild, ha] at hs'
    obtain ⟨rfl, rfl⟩ := Prod.mk.inj hs'
    exact ⟨rfl, rfl⟩
  | some kc =>
    obtain ⟨k, count⟩ := kc
    obtain ⟨-, hholds⟩ := h.holds.alloc ha
    rw [if_pos (show s.nodelist.length < uipSrLinkNum from hholds.length_le)]
    obtain ⟨ho, ⟨hlist, hcount, hnum⟩, hold, hkey, hparent⟩ := h.updateChild_new hs' ha
    have hkeys : ∀ j ∈ s.nodelist, s'.key j = s.key j := by
      intro j hj
      rw [key, hold j hj, key]
    refine ⟨⟨k, ho, by simp [hlist]⟩,
      ⟨⟨?_, ?_⟩, ?_, fun l hl => ⟨by simp [hlist, hl], hkeys l hl⟩, ?_⟩⟩
    · rw [hcount, hlist]
      exact hholds.perm (perm_append_singleton k s.nodelist).symm
    · have := h.num
      rw [hnum, hlist, length_append]
      simp only [length_singleton]
      omega
    · rw [SrNodes.keys, hlist, map_append, map_singleton, hkey]
      exact congrArg (· ++ _) (map_congr_left hkeys)
    · rw [hlist]
      refine forall_mem_append.mpr ⟨fun l hl => .inr (.inr ⟨hl, by rw [hold l hl]⟩), ?_⟩
      exact forall_mem_singleton.mpr (hparent.imp_right .inl)

end

/-- The child's part of an update. -/
theorem Pool.updateChild (h : Pool s) {childNode : Option SrIndex}
    (hchild : ∀ n ∈ childNode, n ∈ s.nodelist ∧ s.key n = keyOf graph child)
    (hs' : s.updateChild env graph child childNode parentNode lifetime = (s', o)) :
    Updated s s' parentNode
      (if childNode = none ∧ s.nodelist.length < uipSrLinkNum then [keyOf graph child]
        else []) := by
  cases childNode with
  | some n =>
    obtain ⟨hn, hkey⟩ := hchild n rfl
    obtain rfl : o = some n := (Prod.mk.inj hs').2.symm
    exact h.updateChild_some hkey hs'
  | none =>
    have hnone := h.updateChild_none hs'
    split_ifs at hnone with hroom
    · rw [if_pos ⟨rfl, hroom⟩]
      exact hnone.2
    · rw [if_neg fun hc => hroom hc.2, hnone.1]
      exact .nil h

/-- The keys for which `uip_sr_update_node` makes nodes. -/
def newKeys (s : SrNodes G) (env : Protocol G) (graph : G) (child : Ipaddr)
    (parent : Option Ipaddr) :
    List (G × LinkIdentifier) :=
  let newChild := s.uipSrGetNode env graph (some child) = none
  match parent with
  | none => if newChild ∧ s.nodelist.length < uipSrLinkNum then [keyOf graph child] else []
  | some p =>
    if s.uipSrGetNode env graph (some p) = none then
      if s.nodelist.length < uipSrLinkNum then
        keyOf graph p ::
          if newChild ∧ s.nodelist.length + 1 < uipSrLinkNum then [keyOf graph child] else []
      else []
    else if newChild ∧ s.nodelist.length < uipSrLinkNum then [keyOf graph child] else []

/-- `uip_sr_update_node`: a parent is the old one, none, or a listed node. -/
theorem Pool.updateNode (h : Pool s) {parent : Option Ipaddr}
    (hs' : s' = (s.uipSrUpdateNode env graph child parent lifetime).1) :
    Pool s' ∧ s'.keys = s.keys ++ s.newKeys env graph child parent ∧
      ((∀ l ∈ s.nodelist, ∀ p ∈ (s.node l).parent, p ∈ s.nodelist) →
        ∀ l ∈ s'.nodelist, ∀ p ∈ (s'.node l).parent, p ∈ s'.nodelist) := by
  have hchild : ∀ n ∈ s.uipSrGetNode env graph (some child), n ∈ s.nodelist ∧
      s.key n = keyOf graph child :=
    fun n hn => key_of_uipSrGetNode hn
  cases parent with
  | none =>
    have hu := h.updateChild hchild
      (show s.updateChild env graph child _ none lifetime = (s', _) by rw [hs']; rfl)
    exact ⟨hu.pool, hu.keys, hu.closed nofun⟩
  | some p =>
    rw [uipSrUpdateNode] at hs'
    simp only [newKeys]
    cases hp : s.uipSrGetNode env graph (some p) with
    | some n =>
      rw [hp] at hs'
      have hu := h.updateChild hchild
        (show s.updateChild env graph child _ (some n) lifetime = (s', _) by rw [hs'])
      exact ⟨hu.pool, hu.keys, hu.closed fun q hq => some.inj hq ▸ (key_of_uipSrGetNode hp).1⟩
    | none =>
      rcases hq : s.updateChild env graph p none none uipSrInfiniteLifetime with ⟨s₁, o⟩
      rw [hp, hq] at hs'
      have hnone := h.updateChild_none hq
      rw [if_pos rfl]
      split_ifs at hnone with hroom
      · obtain ⟨⟨n, rfl, hn⟩, hu⟩ := hnone
        have hchild₁ : ∀ m ∈ s.uipSrGetNode env graph (some child),
            m ∈ s₁.nodelist ∧ s₁.key m = keyOf graph child := by
          intro m hm
          obtain ⟨hm₁, hkey⟩ := hu.sub m (hchild m hm).1
          exact ⟨hm₁, hkey.trans (hchild m hm).2⟩
        have hlen : s₁.nodelist.length = s.nodelist.length + 1 := by
          simpa [SrNodes.keys] using congrArg length hu.keys
        have hu' := hu.pool.updateChild hchild₁
          (show s₁.updateChild env graph child _ (some n) lifetime = (s', _) by rw [hs'])
        rw [if_pos hroom]
        refine ⟨hu'.pool, ?_, fun hold => hu'.closed (fun q hq => some.inj hq ▸ hn)
          (hu.closed nofun hold)⟩
        rw [hu'.keys, hu.keys, hlen, append_assoc, singleton_append]
      · obtain ⟨rfl, rfl⟩ := hnone
        rw [if_neg hroom, append_nil]
        obtain rfl : s' = s₁ := hs'
        exact ⟨h, rfl, fun hold => hold⟩

/-! ### Runs -/

/-- When a call keeps the graph consistent: an update makes no two nodes with the same graph and
link identifier, and no child points to a node that has expired when the periodic call is made. -/
def Good (s : SrNodes G) : Call G → Prop
  | .updateNode env graph child parent _ => (s.keys ++ s.newKeys env graph child parent).Nodup
  | .periodic _ => ¬s.Expires
  | .expireParent .. | .freeAll => True

instance (s : SrNodes G) (c : Call G) : Decidable (s.Good c) :=
  match c with
  | .updateNode .. => inferInstanceAs (Decidable (List.Nodup _))
  | .periodic _ => inferInstanceAs (Decidable (¬s.Expires))
  | .expireParent .. | .freeAll => inferInstanceAs (Decidable True)

/-- **Step lemma.**  The graph is consistent after a call exactly when the call is good. -/
theorem Consistent.step (hp : Pool s) (h : Consistent s) {c : Call G} {o : Unit}
    (hc : s.step c = some (s', o)) :
    Pool s' ∧ (Consistent s' ↔ s.Good c) := by
  cases c with
  | updateNode env graph child parent lifetime =>
    cases hc
    obtain ⟨s₁, hs₁⟩ : ∃ s₁, s₁ = (s.uipSrUpdateNode env graph child parent lifetime).1 := ⟨_, rfl⟩
    obtain ⟨hpool, hkeys, hparents⟩ := hp.updateNode hs₁
    rw [← hs₁, Good, ← hkeys]
    exact ⟨hpool, fun hs' => hs'.distinct, fun hgood => ⟨hparents h.parents, hgood, hpool.num⟩⟩
  | expireParent env graph child parent =>
    cases hc
    rw [uipSrExpireParent]
    split
    · exact ⟨hp, iff_of_true h trivial⟩
    · split
      · exact ⟨hp.setNode _, iff_of_true (h.sameLinks (sameLinks_lifetime ..) rfl rfl) trivial⟩
      · exact ⟨hp, iff_of_true h trivial⟩
  | periodic seconds =>
    cases hc
    exact h.periodic hp seconds
  | freeAll =>
    cases hc
    obtain ⟨hpool, hnil⟩ := hp.freeAll
    refine ⟨hpool, fun _ => trivial, fun _ => ⟨?_, ?_, hpool.num⟩⟩
    · rw [hnil]
      exact nofun
    · rw [keys, hnil]
      exact nodup_nil

/-- **The source-routing graph is consistent after good calls, and only after them.**  In every run
of good calls the parents are listed, no two nodes have the same graph and link identifier, and
`num_nodes` counts the list; a further call keeps this exactly when it is good. -/
theorem source_graph_consistent_iff {graph : G} {tr : List (Call G × Unit)} {s : SrNodes G}
    (hrun : Runs step Good (initial graph) tr s) :
    Consistent s ∧ ∀ c s' o, s.step c = some (s', o) → (Consistent s' ↔ s.Good c) := by
  obtain ⟨⟨hpool, hs⟩, -⟩ := hrun.invariant (fun s => Pool s ∧ Consistent s) (fun _ => True)
    (fun h hG hc => ⟨⟨(h.2.step h.1 hc).1, (h.2.step h.1 hc).2.mpr hG⟩, trivial⟩)
    ⟨.initial graph, .initial graph⟩
  exact ⟨hs, fun c s' o hc => (hs.step hpool hc).2⟩

end Update

/-! ### Calls that are not good -/

section Examples

/-- One graph, the prefix of which is zero, with the root `::1`. -/
def oneDag : Protocol Unit := ⟨fun _ => List.Vector.replicate 16 0, ⟨replicate 15 0 ++ [1], rfl⟩⟩

/-- An address under the prefix of the graph. -/
def nodeAddr (n : UInt8) : Ipaddr := ⟨replicate 15 0 ++ [n], rfl⟩

/-- A node and its child, whose links live on. -/
theorem source_graph_consistent_iff_child :
    ∃ tr s, Runs step Good (initial ()) tr s ∧ s.nodelist = [0, 1, 2] ∧ Consistent s := by
  have hrun : (execute step Good (initial ())
      [.updateNode oneDag () (nodeAddr 2) (some (nodeAddr 1)) 100,
        .updateNode oneDag () (nodeAddr 3) (some (nodeAddr 2)) 100, .periodic 60]).map
      (fun q => decide (q.1.nodelist = [0, 1, 2])) = some true := by
    decide +kernel
  obtain ⟨q, hq, hlist⟩ := exists_run_of_decide hrun
  exact ⟨q.2, q.1, hq, hlist, (source_graph_consistent_iff hq).1⟩

/-- **The graph dangles.**  A node expires before its child, and the child keeps it as its parent; a
child that announces itself as its parent gets two nodes; and so does one whose address has another
prefix, when it is announced twice. -/
theorem source_graph_dangles :
    (∃ tr s, Runs step (fun _ _ => True) (initial ()) tr s ∧ s.nodelist = [0, 2] ∧
      (s.node 2).parent = some 1 ∧
      ¬Consistent s) ∧
    (∃ tr s, Runs step (fun _ _ => True) (initial ()) tr s ∧
      s.nodelist = [0, 1] ∧ s.key 0 = s.key 1 ∧
      ¬Consistent s) ∧
    ∃ tr s, Runs step (fun _ _ => True) (initial ()) tr s ∧
      s.nodelist = [0, 1, 2] ∧ s.key 1 = s.key 2 ∧
      ¬Consistent s := by
  refine ⟨?_, ?_, ?_⟩
  · have hrun : (execute step (fun _ _ => True) (initial ())
        [.updateNode oneDag () (nodeAddr 2) (some (nodeAddr 1)) 60,
          .updateNode oneDag () (nodeAddr 3) (some (nodeAddr 2)) 300,
            .periodic 60, .periodic 60]).map
        (fun q => decide (q.1.nodelist = [0, 2] ∧ (q.1.node 2).parent = some 1)) = some true := by
      decide +kernel
    obtain ⟨q, hq, hlist, hparent⟩ := exists_run_of_decide hrun
    refine ⟨q.2, q.1, hq, hlist, hparent, fun hs => ?_⟩
    have hmem := hs.parents 2 (by simp [hlist]) 1 hparent
    rw [hlist] at hmem
    exact absurd hmem (by decide)
  · have hrun : (execute step (fun _ _ => True) (initial ())
        [.updateNode oneDag () (nodeAddr 2) (some (nodeAddr 2)) 60]).map
        (fun q => decide (q.1.nodelist = [0, 1] ∧ q.1.key 0 = q.1.key 1)) = some true := by
      decide +kernel
    obtain ⟨q, hq, hlist, hkey⟩ := exists_run_of_decide hrun
    refine ⟨q.2, q.1, hq, hlist, hkey, fun hs => ?_⟩
    exact absurd (inj_on_of_nodup_map hs.distinct (by simp [hlist]) (by simp [hlist]) hkey)
      (by decide)
  · have hrun : (execute step (fun _ _ => True) (initial ())
        [.updateNode oneDag () ⟨replicate 16 7, rfl⟩ (some (nodeAddr 1)) 60,
          .updateNode oneDag () ⟨replicate 16 7, rfl⟩ (some (nodeAddr 1)) 60]).map
        (fun q => decide (q.1.nodelist = [0, 1, 2] ∧ q.1.key 1 = q.1.key 2)) = some true := by
      decide +kernel
    obtain ⟨q, hq, hlist, hkey⟩ := exists_run_of_decide hrun
    refine ⟨q.2, q.1, hq, hlist, hkey, fun hs => ?_⟩
    exact absurd (inj_on_of_nodup_map hs.distinct (by simp [hlist]) (by simp [hlist]) hkey)
      (by decide)

end Examples

end Nespy.Net.SrNodes
