import Nespy.Net.NbrTable

/-!
# Net — the routing table

`net/ipv6/uip-ds6-route.c`, with the part of `net/ipv6/uip-ds6-nbr.c` that it reads.  A route is a
block of `routememb` on `routelist`.  The item of a neighbour in `nbr_routes` holds the list of the
records, blocks of `neighborroutememb`, that say which routes go through the neighbour.

Other modules have neighbour tables too, and a new neighbour in one of them may evict one that
routes go through.  The callback of `nbr_routes` then removes these routes; the callback of another
table makes some calls of its own (`Calm`) and removes its item.
-/

open Function

namespace Nespy.Net

open Nespy.Sys
open Nespy.Sicslowpan (Ipaddr Linkaddr)

/-- `UIP_DS6_ROUTE_NB`. -/
def uipDs6RouteNb : ℕ := 16

instance : NeZero uipDs6RouteNb := ⟨by decide⟩

/-- A block for a route. -/
abbrev RouteIndex := Fin uipDs6RouteNb

/-- A block for a record of a neighbour's routes. -/
abbrev RecordIndex := Fin uipDs6RouteNb

/-- The neighbour tables of the program. -/
inductive Tab where
  | nbrRoutes
  | ds6Neighbors
  | other (n : ℕ)
  deriving DecidableEq, Repr

/-- `uip_ds6_route_t`; `neighborRoutes` is the item of its next hop. -/
structure Route where
  ipaddr : Ipaddr
  length : UInt8
  neighborRoutes : Option NbrIndex

/-- The routes, the neighbours they go by, and the tables of both. -/
structure Routes where
  tables : NbrTables Tab
  /-- `ipaddr` of the items of `ds6_neighbors` -/
  nbrIpaddr : NbrIndex → Ipaddr
  /-- `route_list` of the items of `nbr_routes` -/
  routeList : NbrIndex → List RecordIndex
  routeMemb : Memb uipDs6RouteNb
  route : RouteIndex → Route
  routelist : List RouteIndex
  neighborRouteMemb : Memb uipDs6RouteNb
  /-- `route` of a record -/
  recordRoute : RecordIndex → RouteIndex
  numRoutes : ℤ

namespace Routes

variable (s : Routes)

/-! ### Neighbours -/

/-- The loop of `uip_ds6_nbr_lookup`, from an item on. -/
def nbrLookupFrom (ipaddr : Ipaddr) : ℕ → Option NbrIndex → Option NbrIndex
  | 0, _ => none
  | _ + 1, none => none
  | fuel + 1, some k =>
    if s.nbrIpaddr k = ipaddr then some k
    else nbrLookupFrom ipaddr fuel (s.tables.nbrTableNext .ds6Neighbors (some k))

/-- `uip_ds6_nbr_lookup`; there are at most `nbrTableMaxNeighbors` items. -/
def uipDs6NbrLookup (ipaddr : Option Ipaddr) : Option NbrIndex :=
  ipaddr.bind fun a =>
    s.nbrLookupFrom a (nbrTableMaxNeighbors + 1) (s.tables.nbrTableHead .ds6Neighbors)

/-- The link address of a neighbour. -/
def uipDs6NbrLladdrFromIpaddr (ipaddr : Option Ipaddr) : Option Linkaddr :=
  (s.uipDs6NbrLookup ipaddr).map s.tables.lladdr

/-- The IP address of a neighbour. -/
def uipDs6NbrIpaddrFromLladdr (lladdr : Option Linkaddr) : Option Ipaddr :=
  (s.tables.nbrTableGetFromLladdr .ds6Neighbors lladdr).map s.nbrIpaddr

/-- The next hop of a route. -/
def uipDs6RouteNexthop (r : RouteIndex) : Option Ipaddr :=
  s.uipDs6NbrIpaddrFromLladdr ((s.route r).neighborRoutes.map s.tables.lladdr)

/-! ### Lookup -/

/-- `uip_ipaddr_prefixcmp`.  A prefix of more than 128 bits is compared beyond the addresses, where
`behind` says what is found. -/
def uipIpaddrPrefixcmp (behind : Bool) (addr ipaddr : Ipaddr) (length : UInt8) : Bool :=
  addr.toList.take (length.toNat / 8) == ipaddr.toList.take (length.toNat / 8) &&
    (length.toNat / 8 ≤ 16 || behind)

/-- The loop of `uip_ds6_route_lookup`. -/
def lookupFrom (behind : RouteIndex → Bool) (addr : Ipaddr) :
    Option RouteIndex → UInt8 → List RouteIndex → Option RouteIndex
  | foundRoute, _, [] => foundRoute
  | foundRoute, longestmatch, r :: l =>
    let route := s.route r
    if longestmatch ≤ route.length ∧ uipIpaddrPrefixcmp (behind r) addr route.ipaddr route.length
      then
      if route.length = 128 then some r else lookupFrom behind addr (some r) route.length l
    else lookupFrom behind addr foundRoute longestmatch l

/-- `uip_ds6_route_lookup`: the route that is found moves to the head of the list. -/
def uipDs6RouteLookup (behind : RouteIndex → Bool) (addr : Option Ipaddr) :
    Routes × Option RouteIndex :=
  match addr with
  | none => (s, none)
  | some addr =>
    match s.lookupFrom behind addr none 0 s.routelist with
    | none => (s, none)
    | some r =>
      if s.routelist.head? = some r then (s, some r)
      else ({ s with routelist := listPush (listRemove s.routelist r) r }, some r)

/-! ### Removal -/

/-- The record of the route on the list of its next hop. -/
def findRecord (k : NbrIndex) (r : RouteIndex) : Option RecordIndex :=
  (s.routeList k).find? fun record => s.recordRoute record = r

/-- A route is removed, and with its last route the neighbour. -/
def uipDs6RouteRm (route : Option RouteIndex) : Routes :=
  match route with
  | none => s
  | some r =>
    match (s.route r).neighborRoutes with
    | none => s
    | some k =>
      let record := s.findRecord k r
      let routeList := record.elim (s.routeList k) (listRemove (s.routeList k))
      { s with
          routelist := listRemove s.routelist r
          routeList := update s.routeList k routeList
          tables := if routeList = [] then s.tables.nbrTableRemove .nbrRoutes k else s.tables
          routeMemb := membFree s.routeMemb r
          neighborRouteMemb := record.elim s.neighborRouteMemb (membFree s.neighborRouteMemb)
          numRoutes := s.numRoutes - 1 }

/-- The loop of `rm_routelist`. -/
def rmRoutes (k : NbrIndex) : ℕ → Routes → Routes
  | 0, s => s
  | fuel + 1, s =>
    match (s.routeList k).head? with
    | none => s
    | some record => rmRoutes k fuel (s.uipDs6RouteRm (some (s.recordRoute record)))

/-- `rm_routelist`; the list has at most `uipDs6RouteNb` records. -/
def rmRoutelist (routes : Option NbrIndex) : Routes :=
  match routes with
  | none => s
  | some k =>
    let s := rmRoutes k uipDs6RouteNb s
    { s with tables := s.tables.nbrTableRemove .nbrRoutes k }

/-- All routes by a next hop are removed. -/
def uipDs6RouteRmByNexthop (nexthop : Option Ipaddr) : Routes :=
  s.rmRoutelist (s.tables.nbrTableGetFromLladdr .nbrRoutes (s.uipDs6NbrLladdrFromIpaddr nexthop))

/-! ### Calls that make no neighbour -/

/-- The calls that a callback of another table may make. -/
inductive Calm where
  | lookup (behind : RouteIndex → Bool) (addr : Option Ipaddr)
  | rm (route : Option RouteIndex)
  | rmByNexthop (nexthop : Option Ipaddr)
  | remove (t : Tab) (item : NbrIndex)
  | lock (t : Tab) (item : NbrIndex)
  | unlock (t : Tab) (item : NbrIndex)

/-- A table of another module, which has registered it. -/
def Foreign (t : Tab) : Prop := t ≠ .nbrRoutes ∧ s.tables.nbrTableIsRegistered t

instance (t : Tab) : Decidable (s.Foreign t) := inferInstanceAs (Decidable (_ ∧ _))

/-- Only a listed route is removed, and a module works on its own tables. -/
def calm : Calm → Option Routes
  | .lookup behind addr => some (s.uipDs6RouteLookup behind addr).1
  | .rm route => if ∀ r ∈ route, r ∈ s.routelist then some (s.uipDs6RouteRm route) else none
  | .rmByNexthop nexthop => some (s.uipDs6RouteRmByNexthop nexthop)
  | .remove t item =>
    if s.Foreign t then some { s with tables := s.tables.nbrTableRemove t item } else none
  | .lock t item =>
    if s.Foreign t then some { s with tables := s.tables.nbrTableLock t item } else none
  | .unlock t item =>
    if s.Foreign t then some { s with tables := s.tables.nbrTableUnlock t item } else none

/-! ### Evictions -/

/-- The callbacks: `rm_routelist_callback`, and those of other modules, which make the calls of
their script and then remove the item. -/
def host (script : Tab → List Calm) : Host Tab Routes where
  get := tables
  set s tables := { s with tables }
  callback s t k :=
    if t = .nbrRoutes then s.rmRoutelist (some k)
    else
      let s := (script t).foldl (fun s c => (s.calm c).getD s) s
      { s with tables := s.tables.nbrTableRemove t k }
  evicted s _ := s

/-! ### Adding -/

/-- How `uip_ds6_route_add` ends; the last three are those that should not happen. -/
inductive Added where
  | refused
  | route (r : RouteIndex)
  | noNeighborEntry
  | noRoute
  | noRecord
  deriving DecidableEq, Repr

/-- The end of `uip_ds6_route_add`, with the neighbour's list at hand. -/
def link (ipaddr : Ipaddr) (length : UInt8) (k : NbrIndex) : Routes × Added :=
  match membAlloc s.routeMemb with
  | none => (s, .noRoute)
  | some (r, routeMemb) =>
    let s := { s with routeMemb, routelist := listPush s.routelist r }
    match membAlloc s.neighborRouteMemb with
    | none => ({ s with routeMemb := membFree s.routeMemb r }, .noRecord)
    | some (record, neighborRouteMemb) =>
      ({ s with
          neighborRouteMemb
          recordRoute := update s.recordRoute record r
          routeList := update s.routeList k (listAdd (s.routeList k) record)
          numRoutes := s.numRoutes + 1
          tables := s.tables.nbrTableLock .nbrRoutes k
          route := update s.route r ⟨ipaddr, length, some k⟩ }, .route r)

variable (policy : Option (Option Linkaddr))

/-- The item of the next hop in `nbr_routes`, which is made if there is none. -/
def nexthopRoutes (script : Tab → List Calm) (lladdr : Linkaddr) : Routes × Option NbrIndex :=
  match s.tables.nbrTableGetFromLladdr .nbrRoutes (some lladdr) with
  | some k => (s, some k)
  | none =>
    match (host script).nbrTableAddLladdr policy .nbrRoutes (some lladdr) s with
    | (s, none) => (s, none)
    | (s, some k) => ({ s with routeList := update s.routeList k [] }, some k)

/-- A new route, when there is room for it. -/
def addVia (script : Tab → List Calm) (ipaddr : Ipaddr) (length : UInt8) (lladdr : Linkaddr) :
    Routes × Added :=
  match s.nexthopRoutes policy script lladdr with
  | (s, none) => (s, .noNeighborEntry)
  | (s, some k) => s.link ipaddr length k

/-- The part that makes a new route; the table may be full. -/
def addNew (removeOldest : Bool) (policy : Option (Option Linkaddr)) (script : Tab → List Calm)
    (ipaddr : Ipaddr) (length : UInt8) (lladdr : Linkaddr) : Routes × Added :=
  let oldest := if removeOldest then s.routelist.getLast? else none
  if s.numRoutes = uipDs6RouteNb ∧ oldest = none then (s, .refused)
  else
    let s := if s.numRoutes = uipDs6RouteNb then s.uipDs6RouteRm oldest else s
    s.addVia policy script ipaddr length lladdr

/-- `uip_ds6_route_add`.  `removeOldest` is `UIP_DS6_ROUTE_REMOVE_LEAST_RECENTLY_USED`. -/
def uipDs6RouteAdd (removeOldest : Bool) (behind : RouteIndex → Bool)
    (policy : Option (Option Linkaddr))
    (script : Tab → List Calm) (ipaddr : Option Ipaddr) (length : UInt8) (nexthop : Option Ipaddr) :
    Routes × Added :=
  match ipaddr with
  | none => (s, .refused)
  | some ipaddr =>
    if nexthop = none then (s, .refused)
    else
      match s.uipDs6NbrLladdrFromIpaddr nexthop with
      | none => (s, .refused)
      | some lladdr =>
        match s.uipDs6RouteLookup behind (some ipaddr) with
        | (s, none) => s.addNew removeOldest policy script ipaddr length lladdr
        | (s, some r) =>
          if s.uipDs6RouteNexthop r = nexthop then (s, .route r)
          else (s.uipDs6RouteRm (some r)).addNew removeOldest policy script ipaddr length lladdr

/-! ### The machine -/

/-- What happens to the routing table and to the neighbour tables.  The addition of a neighbour may
evict another one, as `policy` says if there is one. -/
inductive Call where
  | calm (c : Calm)
  | routeAdd (behind : RouteIndex → Bool) (policy : Option (Option Linkaddr))
      (script : Tab → List Calm)
      (ipaddr : Option Ipaddr) (length : UInt8) (nexthop : Option Ipaddr)
  | nbrAdd (policy : Option (Option Linkaddr)) (script : Tab → List Calm) (ipaddr : Ipaddr)
      (lladdr : Option Linkaddr)
  | tableAdd (policy : Option (Option Linkaddr)) (script : Tab → List Calm) (n : ℕ)
      (lladdr : Option Linkaddr)
  | register (n : ℕ) (callback : Bool)

/-- A neighbour, for which another may have to go. -/
def uipDs6NbrAdd (script : Tab → List Calm) (ipaddr : Ipaddr) (lladdr : Option Linkaddr) : Routes :=
  match (host script).nbrTableAddLladdr policy .ds6Neighbors lladdr s with
  | (s, none) => s
  | (s, some k) => { s with nbrIpaddr := update s.nbrIpaddr k ipaddr }

/-- One call, with the outcome if a route was added. -/
def step (removeOldest : Bool) (s : Routes) : Call → Option (Routes × Option Added)
  | .calm c => (s.calm c).map fun s => (s, none)
  | .routeAdd behind policy script ipaddr length nexthop =>
    some ((s.uipDs6RouteAdd removeOldest behind policy script ipaddr length nexthop).map id some)
  | .nbrAdd policy script ipaddr lladdr => some (s.uipDs6NbrAdd policy script ipaddr lladdr, none)
  | .tableAdd policy script n lladdr =>
    if s.Foreign (.other n) then
      some (((host script).nbrTableAddLladdr policy (.other n) lladdr s).1, none)
    else none
  | .register n callback =>
    some ({ s with tables := (s.tables.nbrTableRegister (.other n) callback).1 }, none)

/-- After `uip_ds6_init`. -/
def initial : Routes where
  tables :=
    (((NbrTables.initial Tab).nbrTableRegister .ds6Neighbors true).1.nbrTableRegister
      .nbrRoutes true).1
  nbrIpaddr _ := List.Vector.replicate 16 0
  routeList _ := []
  routeMemb _ := 0
  route _ := ⟨List.Vector.replicate 16 0, 0, none⟩
  routelist := []
  neighborRouteMemb _ := 0
  recordRoute _ := 0
  numRoutes := 0

end Routes

end Nespy.Net
