import Nespy.Sicslowpan.Address
import Nespy.Sys.Containers

/-!
# Net — the source-routing graph

`net/ipv6/uip-sr.c`.  The root of a network keeps a node for each child-parent link that it hears
of, and finds the path to a destination from the parents.  Nodes are blocks of `nodememb` on
`nodelist`.  A node keeps the last eight bytes of its address; the routing protocol knows the first
eight of each graph (`dag_id`) and the address of the root, and may change them between two calls
(`Protocol`).
-/

open Function

namespace Nespy.Net

open Nespy.Sys
open Nespy.Sicslowpan (Ipaddr)

/-- `UIP_SR_LINK_NUM`: the blocks for nodes. -/
def uipSrLinkNum : ℕ := 16

instance : NeZero uipSrLinkNum := ⟨by decide⟩

/-- A block. -/
abbrev SrIndex := Fin uipSrLinkNum

/-- The lifetime of a link whose parent has expired, in seconds. -/
def uipSrRemovalDelay : UInt32 := 60

/-- A lifetime that does not count down. -/
def uipSrInfiniteLifetime : UInt32 := 0xFFFFFFFF

/-- The part of an address behind the prefix. -/
abbrev LinkIdentifier := List.Vector UInt8 8

/-- The last eight bytes of an address. -/
def linkIdentifierOf (addr : Ipaddr) : LinkIdentifier := ⟨addr.toList.drop 8, by simp⟩

/-- `uip_sr_node_t`, in graphs `G`. -/
structure SrNode (G : Type) where
  lifetime : UInt32
  graph : G
  linkIdentifier : LinkIdentifier
  parent : Option SrIndex
  deriving DecidableEq

/-- What the routing protocol answers: the `dag_id` of a graph, and the address of the root. -/
structure Protocol (G : Type) where
  dagId : G → Ipaddr
  rootIpaddr : Ipaddr

/-- The nodes and the list of them. -/
structure SrNodes (G : Type) where
  count : Memb uipSrLinkNum
  node : SrIndex → SrNode G
  nodelist : List SrIndex
  numNodes : ℤ

namespace SrNodes

variable {G : Type} [DecidableEq G] (s : SrNodes G) (env : Protocol G)

/-! ### Lookup -/

/-- The address of a node has the prefix of its DAG. -/
def getSrNodeIpaddr (n : SrIndex) : Ipaddr :=
  ⟨(env.dagId (s.node n).graph).toList.take 8 ++ (s.node n).linkIdentifier.toList, by simp⟩

variable (graph : G)

/-- The node is in the graph and has the address. -/
def nodeMatchesAddress (node : Option SrIndex) (addr : Option Ipaddr) : Bool :=
  match node, addr with
  | some n, some a => graph = (s.node n).graph ∧ s.getSrNodeIpaddr env n = a
  | _, _ => false

/-- The node with the address. -/
def uipSrGetNode (addr : Option Ipaddr) : Option SrIndex :=
  s.nodelist.find? fun l => s.nodeMatchesAddress env graph (some l) addr

/-- The loop of `uip_sr_is_addr_reachable`, with `max_depth`. -/
def climb (rootNode : Option SrIndex) : ℕ → Option SrIndex → Option SrIndex
  | 0, node => node
  | depth + 1, node =>
    match node with
    | none => none
    | some n => if some n = rootNode then some n else climb rootNode depth (s.node n).parent

/-- Climbing from the node comes to the root. -/
def uipSrIsAddrReachable (addr : Ipaddr) : Bool :=
  let rootNode := s.uipSrGetNode env graph (some env.rootIpaddr)
  let node := s.climb rootNode uipSrLinkNum (s.uipSrGetNode env graph (some addr))
  node.isSome && node == rootNode

/-! ### Updates -/

/-- A No-Path DAO: the link to this parent is to go soon. -/
def uipSrExpireParent (child parent : Ipaddr) : SrNodes G :=
  match s.uipSrGetNode env graph (some child) with
  | none => s
  | some l =>
    if s.nodeMatchesAddress env graph (s.node l).parent (some parent) then
      { s with node := update s.node l { s.node l with lifetime := uipSrRemovalDelay } }
    else s

/-- `child_node->parent = parent`. -/
@[simp] def setParent (n : SrIndex) (parent : Option SrIndex) : SrNodes G :=
  { s with node := update s.node n { s.node n with parent } }

/-- The child node, which is allocated if there is none. -/
def makeChild (childNode : Option SrIndex) : Option (SrIndex × SrNodes G) :=
  match childNode with
  | some n => some (n, s)
  | none =>
    (membAlloc s.count).map fun kc =>
      (kc.1, { s.setParent kc.1 none with
        count := kc.2, nodelist := listAdd s.nodelist kc.1, numNodes := s.numNodes + 1 })

/-- The fields of the child node but its parent. -/
@[simp] def initNode (n : SrIndex) (graph : G) (child : Ipaddr) (lifetime : UInt32) : SrNodes G :=
  { s with
      node := update s.node n
        { s.node n with graph, lifetime, linkIdentifier := linkIdentifierOf child } }

/-- The new parent, unless it makes a node unreachable that was not. -/
def changeParent (n : SrIndex) (graph : G) (child : Ipaddr) (parentNode : Option SrIndex) :
    SrNodes G :=
  if s.uipSrIsAddrReachable env graph child ∧
      ¬(s.setParent n parentNode).uipSrIsAddrReachable env graph child then s
  else s.setParent n parentNode

/-- `uip_sr_update_node` from where the parent's node is known. -/
def updateChild (child : Ipaddr) (childNode parentNode : Option SrIndex) (lifetime : UInt32) :
    SrNodes G × Option SrIndex :=
  match s.makeChild childNode with
  | none => (s, none)
  | some (n, s) =>
    ((s.initNode n graph child lifetime).changeParent env n graph child parentNode, some n)

/-- `uip_sr_update_node`.  The child is looked up before a node is made for its parent, which has no
parent itself. -/
def uipSrUpdateNode (child : Ipaddr) (parent : Option Ipaddr) (lifetime : UInt32) :
    SrNodes G × Option SrIndex :=
  let childNode := s.uipSrGetNode env graph (some child)
  match parent with
  | none => s.updateChild env graph child childNode none lifetime
  | some p =>
    match s.uipSrGetNode env graph (some p) with
    | some n => s.updateChild env graph child childNode (some n) lifetime
    | none =>
      match s.updateChild env graph p none none uipSrInfiniteLifetime with
      | (s, none) => (s, none)
      | (s, some n) => s.updateChild env graph child childNode (some n) lifetime

/-! ### Expiry -/

/-- `list_remove`, `memb_free` and the count. -/
def freeNode (l : SrIndex) : SrNodes G :=
  { s with
      count := membFree s.count l, nodelist := listRemove s.nodelist l, numNodes := s.numNodes - 1 }

/-- The loop of `uip_sr_periodic` over the rest of the list; that a child points to the node is
found out and not used. -/
def periodicFrom (seconds : UInt32) : List SrIndex → SrNodes G → SrNodes G
  | [], s => s
  | l :: rest, s =>
    let lifetime := (s.node l).lifetime
    if lifetime = 0 then periodicFrom seconds rest (s.freeNode l)
    else if lifetime ≠ uipSrInfiniteLifetime then
      periodicFrom seconds rest
        { s with
            node := update s.node l
              { s.node l with lifetime := if seconds < lifetime then lifetime - seconds else 0 } }
    else periodicFrom seconds rest s

/-- The lifetimes count down. -/
def uipSrPeriodic (seconds : UInt32) : SrNodes G := periodicFrom seconds s.nodelist s

/-- All nodes are freed. -/
def uipSrFreeAll : SrNodes G := s.nodelist.foldl freeNode s

/-- After `uip_sr_init`. -/
def initial : SrNodes G where
  count _ := 0
  node _ := ⟨0, graph, List.Vector.replicate 8 0, none⟩
  nodelist := []
  numNodes := 0

/-! ### The machine -/

/-- The calls, each with what the routing protocol answers at the time. -/
inductive Call (G : Type) where
  | updateNode (env : Protocol G) (graph : G) (child : Ipaddr) (parent : Option Ipaddr)
      (lifetime : UInt32)
  | expireParent (env : Protocol G) (graph : G) (child parent : Ipaddr)
  | periodic (seconds : UInt32)
  | freeAll

/-- One call. -/
def step (s : SrNodes G) : Call G → Option (SrNodes G × Unit)
  | .updateNode env graph child parent lifetime =>
    some ((s.uipSrUpdateNode env graph child parent lifetime).1, ())
  | .expireParent env graph child parent => some (s.uipSrExpireParent env graph child parent, ())
  | .periodic seconds => some (s.uipSrPeriodic seconds, ())
  | .freeAll => some (s.uipSrFreeAll, ())

end SrNodes

end Nespy.Net
