import Mathlib.Data.List.Find
import Nespy.Net.SourceGraph
import Nespy.Net.SrhPath

/-!
# Net — updates keep nodes reachable

A node is reachable when the way up along the parents ends at the root (`Climbs`).  Ways have less
than `UIP_SR_LINK_NUM` links, so `max_depth` cuts none.  `uip_sr_update_node` changes the parent of
one node, and it takes the new parent back if the node has become unreachable by it.  So on each way
either no parent changes, or the root is still reached from the node whose parent does, hence from
all nodes below.
-/

open List Option

namespace Nespy.Net.SrNodes

open Nespy.Sys
open Nespy.Sicslowpan (Ipaddr)

variable {G : Type} {s s' : SrNodes G} {root n : SrIndex} {l : List SrIndex}

/-! ### Ways up -/

/-- A node whose parents are listed is below listed nodes. -/
theorem Climbs.listed (h : Climbs s root n l) (hn : n ∈ s.nodelist)
    (hparents : ∀ l ∈ s.nodelist, ∀ p ∈ (s.node l).parent, p ∈ s.nodelist) :
    ∀ j ∈ l, j ∈ s.nodelist := by
  induction h with
  | root => exact nofun
  | up _ hp _ ih => exact forall_mem_cons.mpr ⟨hn, ih (hparents _ hn _ hp)⟩

/-- The root is still reached when it is from the nodes with another parent. -/
theorem Climbs.change (h : Climbs s root n l)
    (hkept : ∀ j ∈ l, (s'.node j).parent = (s.node j).parent ∨ ∃ l', Climbs s' root j l') :
    ∃ l', Climbs s' root n l' := by
  induction h with
  | root => exact ⟨[], .root⟩
  | up hne hp _ ih =>
    obtain ⟨hn, hkept⟩ := forall_mem_cons.mp hkept
    rcases hn with hsame | hclimbs
    · obtain ⟨l', hl'⟩ := ih hkept
      exact ⟨_, .up hne (hsame.trans hp) hl'⟩
    · exact hclimbs

section Update

variable [DecidableEq G] {env : Protocol G} {graph : G} {addr child : Ipaddr}

/-- New nodes are listed behind the others, and the listed ones keep their keys. -/
structure Extends (s s' : SrNodes G) : Prop where
  nodelist : s.nodelist <+: s'.nodelist
  key : ∀ j ∈ s.nodelist, s'.key j = s.key j

theorem Extends.uipSrGetNode (h : Extends s s')
    (hn : s.uipSrGetNode env graph (some addr) = some n) :
    s'.uipSrGetNode env graph (some addr) = some n := by
  obtain ⟨new, hnew⟩ := h.nodelist
  have hmatch : ∀ j ∈ s.nodelist, s'.nodeMatchesAddress env graph (some j) (some addr) =
      s.nodeMatchesAddress env graph (some j) (some addr) := by
    intro j hj
    obtain ⟨hgraph, hlink⟩ := Prod.mk.inj (h.key j hj)
    have haddr : s'.getSrNodeIpaddr env j = s.getSrNodeIpaddr env j := by
      rw [getSrNodeIpaddr]
      simp only [hgraph, hlink]
      rfl
    rw [nodeMatchesAddress, nodeMatchesAddress, haddr, hgraph]
  rw [SrNodes.uipSrGetNode, ← hnew, find?_append, find?_congr hmatch]
  exact congrArg (Option.or · _) hn

section Child

variable (hparents : ∀ l ∈ s.nodelist, ∀ p ∈ (s.node l).parent, p ∈ s.nodelist)

include hparents

/-- An address stays reachable if each node keeps its parent or stays reachable itself. -/
theorem Extends.reachable (h : Extends s s')
    (hkept : ∀ j ∈ s.nodelist, (s'.node j).parent = (s.node j).parent ∨
      ∃ a, s.uipSrGetNode env graph (some a) = some j ∧
        (s.uipSrIsAddrReachable env graph a → s'.uipSrIsAddrReachable env graph a))
    (haddr : s.uipSrIsAddrReachable env graph addr) : s'.uipSrIsAddrReachable env graph addr := by
  obtain ⟨root, n, l, hroot, hn, hl⟩ := uipSrIsAddrReachable_iff.mp haddr
  have hlisted := hl.listed (key_of_uipSrGetNode hn).1 hparents
  obtain ⟨l', hl'⟩ : ∃ l', Climbs s' root n l' := by
    refine hl.change fun j hj => (hkept j (hlisted j hj)).imp_right ?_
    rintro ⟨a, ha, hreach⟩
    obtain ⟨l', hl', -⟩ := hl.of_mem j hj
    obtain ⟨root', j', l'', hroot', hj', hl''⟩ :=
      uipSrIsAddrReachable_iff.mp (hreach
        (uipSrIsAddrReachable_iff.mpr ⟨root, j, l', hroot, ha, hl'⟩))
    cases (h.uipSrGetNode hroot).symm.trans hroot'
    cases (h.uipSrGetNode ha).symm.trans hj'
    exact ⟨l'', hl''⟩
  exact uipSrIsAddrReachable_iff.mpr ⟨root, n, l', h.uipSrGetNode hroot, h.uipSrGetNode hn, hl'⟩

/-- An update of a node, which may be new. -/
theorem Pool.reachable_updateChild (h : Pool s) {childNode parentNode o : Option SrIndex}
    {lifetime : UInt32}
    (hs' : s.updateChild env graph child childNode parentNode lifetime = (s', o))
    (hchild : ∀ n ∈ childNode, s.uipSrGetNode env graph (some child) = some n) :
    Extends s s' ∧ (s.uipSrIsAddrReachable env graph addr →
      s'.uipSrIsAddrReachable env graph addr) := by
  cases childNode with
  | some k =>
    have hfound := hchild k rfl
    obtain ⟨-, hkey⟩ := key_of_uipSrGetNode hfound
    obtain rfl : o = some k := (Prod.mk.inj hs').2.symm
    obtain ⟨⟨hlist, -⟩, hnode, -, hparent⟩ := updated_node (Prod.mk.inj hs').1.symm
    have hext :
      Extends s s' := ⟨hlist ▸ prefix_rfl, fun j hj => ((h.updateChild_some hkey hs').sub j hj).2⟩
    refine ⟨hext, hext.reachable hparents fun j hj => ?_⟩
    by_cases hjk : j = k
    · -- the links are the same until the parent is set
      have hinit : SameLinks s (s.initNode k graph child lifetime) := by
        obtain ⟨hgraph, hlink⟩ := Prod.mk.inj hkey
        rw [initNode, ← hgraph, ← hlink]
        exact sameLinks_lifetime ..
      subst hjk
      refine hparent.imp_right fun hp => ⟨child, hfound, fun hbefore => hp.2 ?_⟩
      exact Extends.reachable hparents ⟨prefix_rfl,
        fun i _ => hinit.key i⟩ (fun i _ => .inl (hinit.parent i)) hbefore
    · exact .inl (by rw [hnode j hjk])
  | none =>
    cases ha : membAlloc s.count with
    | none =>
      rw [SrNodes.updateChild, makeChild, ha] at hs'
      cases hs'
      exact ⟨⟨prefix_rfl, fun _ _ => rfl⟩, id⟩
    | some kc =>
      obtain ⟨-, ⟨hlist, -⟩, hold, -⟩ := h.updateChild_new hs' ha
      have hext : Extends s s' := ⟨⟨_, hlist.symm⟩, fun j hj => by rw [key, hold j hj, key]⟩
      exact ⟨hext, hext.reachable hparents fun j hj => .inl (by rw [hold j hj])⟩

/-- **Updates keep nodes reachable.**  In a graph without dangling parents, an address that is
reachable before `uip_sr_update_node` is reachable after it, whatever the child, the parent and the
lifetime. -/
theorem update_keeps_reachable (hpool : Pool s) (parent : Option Ipaddr) (lifetime : UInt32)
    (haddr : s.uipSrIsAddrReachable env graph addr) :
    (s.uipSrUpdateNode env graph child parent lifetime).1.uipSrIsAddrReachable env graph addr := by
  cases parent with
  | none => exact (hpool.reachable_updateChild hparents rfl fun _ hn => hn).2 haddr
  | some p =>
    rw [uipSrUpdateNode]
    cases hp : s.uipSrGetNode env graph (some p) with
    | some n => exact (hpool.reachable_updateChild hparents rfl fun _ hn => hn).2 haddr
    | none =>
      rcases hq : s.updateChild env graph p none none uipSrInfiniteLifetime with ⟨s₁, o⟩
      obtain ⟨hext, hreach⟩ := hpool.reachable_updateChild hparents hq fun _ h =>
        absurd h (not_mem_none _)
      have hnone := hpool.updateChild_none hq
      cases o with
      | none => exact hreach haddr
      | some n =>
        split at hnone
        · exact (hnone.2.pool.reachable_updateChild
            (hnone.2.closed (fun _ h => absurd h (not_mem_none _)) hparents) rfl
            fun m hm => hext.uipSrGetNode hm).2 (hreach haddr)
        · cases hnone.2

end Child

/-- A child of the root stays reachable when it is announced below a node that is not. -/
theorem update_keeps_reachable_loop :
    ∃ s : SrNodes Unit, s.uipSrIsAddrReachable oneDag () (nodeAddr 2) ∧
      (s.uipSrUpdateNode oneDag () (nodeAddr 2) (some (nodeAddr 3)) 100).1.uipSrIsAddrReachable
        oneDag ()
        (nodeAddr 2) := by
  obtain ⟨hpool, -, hparents⟩ := (Pool.initial ()).updateNode
    (show _ = ((initial ()).uipSrUpdateNode oneDag () (nodeAddr 2) (some (nodeAddr 1)) 100).1
      from rfl)
  refine ⟨_, ?_, update_keeps_reachable (hparents nofun) hpool _ _ ?_⟩ <;> decide +kernel

end Update

end Nespy.Net.SrNodes
