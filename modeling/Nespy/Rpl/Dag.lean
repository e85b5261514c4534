import Nespy.Rpl.Dio

/-!
# Rpl — instances, DAGs and parents

What a received DIO does to the routing state: `net/routing/rpl-classic/rpl-dag.c` with the
objective function of `rpl-mrhof.c` and the DIO timer of `rpl-timers.c`.  A step is `none` when it
divides by zero, shifts by the width of the number or more, or follows a null pointer.

The neighbour table, the neighbour cache and the link statistics are outside of this model.  What
they answer while a message is processed is an `Env`.  The parents are items of the neighbour table;
what is in an item stays there after the item is removed.  Routes, addresses, DAOs and probing are
left out: they are done beside what is modelled and do not come back to it.
-/

open Function

namespace Nespy.Rpl

open Nespy.Sicslowpan (Ipaddr)

/-- `RPL_INFINITE_RANK`: not reachable. -/
def rplInfiniteRank : UInt16 := 0xffff

/-- The root has all the routes. -/
def rplMopNonStoring : UInt8 := 1

/-- The nodes have routes, but none for multicast. -/
def rplMopStoringNoMulticast : UInt8 := 2

/-- The nodes have routes, also for multicast. -/
def rplMopStoringMulticast : UInt8 := 3

/-- `RPL_DAG_LIFETIME`, in numbers of the longest interval. -/
def rplDagLifetime : ℕ := 3

/-- The objective functions in `RPL_SUPPORTED_OFS`. -/
inductive Of
  | mrhof
  deriving DecidableEq

/-- Only MRHOF is compiled in. -/
def rplFindOf (ocp : UInt16) : Option Of := if ocp = rplOcpMrhof then some .mrhof else none

/-- `rpl_dag_t`. -/
structure Dag (N : Type) where
  used : Bool
  joined : Bool
  dagId : Ipaddr
  version : UInt8
  grounded : UInt8
  preference : UInt8
  rank : UInt16
  minRank : UInt16
  lifetime : UInt32
  preferredParent : Option N

/-- `rpl_instance_t`, with `m` DAGs. -/
structure Instance (m : ℕ) (N : Type) where
  used : Bool
  instanceId : UInt8
  mop : UInt8
  of : Option Of
  currentDag : Option (Fin m)
  dagTable : Fin m → Dag N
  maxRankinc : UInt16
  minHoprankinc : UInt16
  dioIntdoubl : UInt8
  dioIntmin : UInt8
  dioIntcurrent : UInt8
  dioRedundancy : UInt8
  defaultLifetime : UInt8
  lifetimeUnit : UInt16
  dioSend : Bool

/-- A DAG in the table of an instance. -/
abbrev DagRef (n m : ℕ) := Fin n × Fin m

/-- `rpl_parent_t`; `updated` is `RPL_PARENT_FLAG_UPDATED`. -/
structure Parent (n m : ℕ) where
  dag : Option (DagRef n m)
  rank : UInt16
  updated : Bool

/-- `n` instances, and for the neighbours `N` the items of `rpl_parents`. -/
structure RplState (n m : ℕ) (N : Type) where
  inst : Fin n → Instance m N
  parent : N → Parent n m
  isParent : N → Bool

/-- What is outside while a message is processed. -/
structure Env (N : Type) where
  /-- The neighbours in the order of the neighbour table. -/
  keys : List N
  /-- `parent_link_metric`. -/
  linkMetric : N → UInt16
  /-- `rpl_parent_is_fresh`. -/
  fresh : N → Bool
  /-- Whether the neighbour is reachable for neighbour discovery, or this is not used. -/
  reachable : N → Bool
  /-- Whether `rpl_icmp6_update_nbr_table` succeeds, and the neighbours it evicts. -/
  nbrAdded : Bool
  nbrEvicted : List N
  /-- The sender, if it is a neighbour. -/
  sender : Option N
  /-- The item that `nbr_table_add_lladdr` finds for the sender, and the neighbours it evicts. -/
  added : Option N
  addEvicted : List N

/-- `DAG_RANK`; none is a division by zero. -/
def dagRank (fixptRank : ℕ) (minHoprankinc : UInt16) : Option ℕ :=
  if minHoprankinc = 0 then none else some (fixptRank / minHoprankinc.toNat)

/-- `lollipop_greater_than`: the first counter is newer. -/
def lollipopGreaterThan (a b : ℕ) : Bool :=
  if 127 < a ∧ b ≤ 127 then 16 < 255 + 1 + b - a
  else (b < a ∧ a - b < 16) ∨ (a < b ∧ 127 + 1 - 16 < b - a)

/-- `RPL_LOLLIPOP_INCREMENT`. -/
def lollipopIncrement (c : UInt8) : UInt8 := if 127 < c then c + 1 else (c + 1) &&& 127

namespace Instance

variable {m : ℕ} {N : Type} (i : Instance m N)

/-- `ROOT_RANK`. -/
def rootRank : UInt16 := i.minHoprankinc

/-- `new_dio_interval`; the ticks until the timer fires are left out. -/
def newDioInterval : Option (Instance m N) :=
  if i.dioIntcurrent < 32 then some { i with dioSend := true } else none

/-- The timer begins with the shortest interval, unless it has it. -/
def rplResetDioTimer : Option (Instance m N) :=
  if i.dioIntmin < i.dioIntcurrent then newDioInterval { i with dioIntcurrent := i.dioIntmin }
    else some i

/-- The end of an interval, or of the first half of one: `handle_dio_timer`. -/
def handleDioTimer : Option (Instance m N) :=
  if i.dioSend then some { i with dioSend := false }
  else
    newDioInterval { i with
      dioIntcurrent :=
        if i.dioIntcurrent.toNat < i.dioIntmin.toNat + i.dioIntdoubl.toNat then i.dioIntcurrent + 1
        else i.dioIntcurrent }

end Instance

namespace RplState

variable {n m : ℕ} {N : Type} [DecidableEq N] (env : Env N) (s : RplState n m N) (d : DagRef n m)

/-- The DAG that a reference is to. -/
def dag : Dag N := (s.inst d.1).dagTable d.2

variable (i : Fin n)

/-- Writing to an instance. -/
def setInst (x : Instance m N) : RplState n m N := { s with inst := update s.inst i x }

/-- Writing to a DAG. -/
def setDag (f : Dag N → Dag N) : RplState n m N :=
  s.setInst d.1
    { s.inst d.1 with dagTable := update (s.inst d.1).dagTable d.2 (f (s.dag d)) }

/-- Writing to a parent. -/
def setParent (p : N) (x : Parent n m) : RplState n m N := { s with parent := update s.parent p x }

/-- The DAG's preferred parent is another. -/
def rplSetPreferredParent (p : Option N) : RplState n m N :=
  s.setDag d fun x => { x with preferredParent := p }

/-- The reset of an instance's timer. -/
def rplResetDioTimer (i : Fin n) : Option (RplState n m N) :=
  (s.inst i).rplResetDioTimer.map (s.setInst i)

/-! ### Ranks -/

/-- `acceptable_rank`: the rank is within `max_rankinc` of the lowest so far. -/
def acceptableRank (rank : UInt16) : Option Bool :=
  let i := s.inst d.1
  if rank = rplInfiniteRank then some false
  else if i.maxRankinc = 0 then some true
  else do
    let own ← dagRank rank.toNat i.minHoprankinc
    let limit ← dagRank ((s.dag d).minRank.toNat + i.maxRankinc.toNat) i.minHoprankinc
    some (own ≤ limit)

/-- `parent_path_cost` of the objective function. -/
def parentPathCost (p : N) : ℕ := min ((s.parent p).rank.toNat + (env.linkMetric p).toNat) 0xffff

/-- The rank that a node has with this parent. -/
def rplRankViaParent (p : Option N) : UInt16 :=
  match p with
  | none => rplInfiniteRank
  | some p =>
    match (s.parent p).dag with
    | none => rplInfiniteRank
    | some d =>
      match (s.inst d.1).of with
      | none => rplInfiniteRank
      | some .mrhof =>
        (max (min ((s.parent p).rank.toNat + (s.inst d.1).minHoprankinc.toNat) 0xffff)
          (s.parentPathCost env p)).toUInt16

/-- `parent_is_acceptable` of the objective function. -/
def parentIsAcceptable (p : N) : Bool := env.linkMetric p ≤ 1024 ∧ s.parentPathCost env p ≤ 32768

/-- `best_parent` of the objective function, for parents in `d`. -/
def mrhofBestParent (p₁ : Option N) (p₂ : N) : Option N :=
  match p₁.filter (s.parentIsAcceptable env) with
  | none => if s.parentIsAcceptable env p₂ then some p₂ else none
  | some p₁ =>
    if s.parentIsAcceptable env p₂ then
      let c₁ := s.parentPathCost env p₁
      let c₂ := s.parentPathCost env p₂
      let preferred := (s.dag d).preferredParent
      -- the preferred parent stays when the costs are about the same
      if (some p₁ = preferred ∨ some p₂ = preferred) ∧ c₁ < c₂ + 96 ∧ c₂ < c₁ + 96 then preferred
      else if c₁ < c₂ then some p₁
      else some p₂
    else some p₁

/-- `best_parent`: the comparison folded over the parents of the DAG that can be reached. -/
def bestParent (freshOnly : Bool) : Option N :=
  if (s.inst d.1).of.isNone then none
  else
    (env.keys.filter s.isParent).foldl (fun best p =>
      let x := s.parent p
      if x.dag ≠ some d ∨ x.rank = rplInfiniteRank ∨ x.rank < (s.inst d.1).rootRank then best
      else if freshOnly ∧ ¬env.fresh p then best
      else if ¬env.reachable p then best
      else s.mrhofBestParent env d best p) none

/-- The parent that `rpl_select_parent` chooses. -/
def chosenParent : Option N :=
  match s.bestParent env d false with
  | none => none
  | some best => if env.fresh best then some best else (s.bestParent env d true).or (some best)

/-- The best parent becomes the preferred one, and the rank is that by way of it. -/
def rplSelectParent : RplState n m N :=
  let s := s.rplSetPreferredParent d (s.chosenParent env d)
  s.setDag d fun x => { x with rank := s.rplRankViaParent env x.preferredParent }

/-! ### Removing parents -/

/-- A parent that is not to be used: the DAG loses its rank with the preferred one. -/
def rplNullifyParent (p : N) : Option (RplState n m N) := do
  let d ← (s.parent p).dag
  let preferred := (s.dag d).preferredParent
  if preferred = some p ∨ preferred = none then
    some (s.setDag d fun x =>
      { x with
          rank := rplInfiniteRank
          preferredParent := if x.joined then none else x.preferredParent })
  else some s

/-- A parent is nullified and leaves the table. -/
def rplRemoveParent (p : N) : Option (RplState n m N) := do
  let s ← s.rplNullifyParent p
  some { s with isParent := update s.isParent p false }

/-- `nbr_callback` for a neighbour that is removed from the neighbour table. -/
def nbrCallback (p : N) : Option (RplState n m N) :=
  if s.isParent p then s.rplRemoveParent p else some s

/-- Whether `p` is a parent in `d`; both callers give 0 as the minimum rank. -/
def inDag (p : N) : Bool := s.isParent p ∧ (s.parent p).dag = some d

/-- All parents in the DAG are removed. -/
def removeParents : Option (RplState n m N) :=
  env.keys.foldlM (fun s p => if s.inDag d p then s.rplRemoveParent p else some s) s

/-- All parents in the DAG are nullified. -/
def nullifyParents : Option (RplState n m N) :=
  env.keys.foldlM (fun s p => if s.inDag d p then s.rplNullifyParent p else some s) s

/-- A parent comes to another DAG. -/
def rplMoveParent (src dst : DagRef n m) (p : N) : RplState n m N :=
  let s := if (s.dag src).preferredParent = some p then
      s.setDag src fun x => { x with preferredParent := none, rank := rplInfiniteRank }
    else s
  s.setParent p { s.parent p with dag := some dst }

/-- All DAGs of the instance lose their parents, and the timer is reset. -/
def rplLocalRepair : Option (RplState n m N) := do
  let s ← (List.finRange m).foldlM (fun (s : RplState n m N) j =>
    if (s.dag (i, j)).used then
      (s.setDag (i, j) fun x => { x with rank := rplInfiniteRank }).nullifyParents env (i, j)
    else some s) s
  s.rplResetDioTimer i

/-! ### Selecting a DAG -/

/-- `best_dag` of the objective function. -/
def mrhofBestDag (j₁ j₂ : Fin m) : Fin m :=
  let d₁ := s.dag (i, j₁)
  let d₂ := s.dag (i, j₂)
  if d₁.grounded ≠ d₂.grounded then if d₁.grounded ≠ 0 then j₁ else j₂
  else if d₁.preference ≠ d₂.preference then if d₂.preference < d₁.preference then j₁ else j₂
  else if d₁.rank < d₂.rank then j₁ else j₂

/-- The loop of `rpl_select_dag` over the DAGs. -/
def bestDag : Option (Fin m) :=
  (List.finRange m).foldl (fun best j =>
    let d := s.dag (i, j)
    match d.preferredParent with
    | none => best
    | some p =>
      if d.used ∧ (s.parent p).rank ≠ rplInfiniteRank then
        match best with
        | none => some j
        | some b => some (s.mrhofBestDag i b j)
      else best) none

/-- `instance->current_dag = best_dag`. -/
def switchDag (cur best : Fin m) : RplState n m N :=
  if cur = best then s
  else
    let s := s.setDag (i, best) fun x => { x with joined := true }
    let s := s.setDag (i, cur) fun x => { x with joined := false }
    s.setInst i { s.inst i with currentDag := some best }

/-- The rank of the DAG that was selected, and its minimum. -/
def updateRank (lastParent : Option N) : RplState n m N :=
  let s := s.setDag d fun x => { x with rank := s.rplRankViaParent env x.preferredParent }
  s.setDag d fun x =>
    { x with minRank := if lastParent = none ∨ x.rank < x.minRank then x.rank else x.minRank }

/-- A node that is not the root chooses a parent in the DAG of `p`. -/
def selectOwn (cur : Fin m) (p : N) : Option (RplState n m N) :=
  if (s.dag (i, cur)).rank ≠ (s.inst i).rootRank then do
    let d ← (s.parent p).dag
    some (s.rplSelectParent env d)
  else some s

/-- `rpl_select_dag` once a DAG is selected. -/
def useDag (best : Fin m) (lastParent : Option N) : Option (RplState n m N × Bool) := do
  if ← s.acceptableRank (i, best) (s.dag (i, best)).rank then
    if (s.dag (i, best)).preferredParent ≠ lastParent then (s.rplResetDioTimer i).map fun s =>
      (s, true)
    else some (s, true)
  else some (s.rplSetPreferredParent (i, best) none, false)

/-- `rpl_select_dag`, and whether a DAG is returned. -/
def rplSelectDag (p : N) : Option (RplState n m N × Bool) := do
  let cur ← (s.inst i).currentDag
  let lastParent := (s.dag (i, cur)).preferredParent
  let s ← s.selectOwn env i cur p
  match s.bestDag i with
  | none => some (s, false)
  | some best =>
    ((s.switchDag i cur best).updateRank env (i, best) lastParent).useDag i best lastParent

/-- `rpl_process_parent_event` from the selection of a DAG on. -/
def selectOrRepair (p : N) (lastParent : Option N) (value : Bool) :
    Option (RplState n m N × Bool) := do
  let (s, selected) ← s.rplSelectDag env i p
  if selected = false ∧ lastParent ≠ none then (s.rplLocalRepair env i).map fun s => (s, false)
  else some (s, value)

/-- `rpl_process_parent_event`, and its return value. -/
def rplProcessParentEvent (p : N) : Option (RplState n m N × Bool) := do
  let cur ← (s.inst i).currentDag
  let lastParent := (s.dag (i, cur)).preferredParent
  let d ← (s.parent p).dag
  if ← s.acceptableRank d (s.parent p).rank then s.selectOrRepair env i p lastParent true
  else do
    let s ← s.rplNullifyParent p
    if (s.dag (i, cur)).preferredParent ≠ some p then some (s, false)
    else s.selectOrRepair env i p lastParent false

/-- The parents whose rank was updated are processed. -/
def rplRecalculateRanks : Option (RplState n m N) :=
  env.keys.foldlM (fun s p =>
    match (s.parent p).dag with
    | some d =>
      if s.isParent p ∧ (s.parent p).updated then
        ((s.setParent p { s.parent p with updated := false }).rplProcessParentEvent env d.1 p).map
          Prod.fst
      else some s
    | none => some s) s

/-! ### Joining -/

/-- The instance with this number. -/
def rplGetInstance (instanceId : UInt8) : Option (Fin n) :=
  (List.finRange n).find? fun i => (s.inst i).used ∧ (s.inst i).instanceId = instanceId

/-- The DAG of an instance with this DODAG identifier. -/
def getDag (instanceId : UInt8) (dagId : Ipaddr) : Option (DagRef n m) := do
  let i ← s.rplGetInstance instanceId
  let j ← (List.finRange m).find? fun j => (s.dag (i, j)).used ∧ (s.dag (i, j)).dagId = dagId
  some (i, j)

/-- A DAG with all bytes zero. -/
def zeroDag : Dag N where
  used := false
  joined := false
  dagId := List.Vector.replicate 16 0
  version := 0
  grounded := 0
  preference := 0
  rank := 0
  minRank := 0
  lifetime := 0
  preferredParent := none

/-- An instance with all bytes zero. -/
def zeroInstance : Instance m N where
  used := false
  instanceId := 0
  mop := 0
  of := none
  currentDag := none
  dagTable := fun _ => zeroDag
  maxRankinc := 0
  minHoprankinc := 0
  dioIntdoubl := 0
  dioIntmin := 0
  dioIntcurrent := 0
  dioRedundancy := 0
  defaultLifetime := 0
  lifetimeUnit := 0
  dioSend := false

/-- The first instance that is not in use. -/
def rplAllocInstance (instanceId : UInt8) : Option (RplState n m N × Fin n) := do
  let i ← (List.finRange n).find? fun i => (s.inst i).used = false
  some (s.setInst i { zeroInstance with used := true, instanceId }, i)

/-- The instance of `rpl_alloc_dag`. -/
def instanceFor (instanceId : UInt8) : Option (RplState n m N × Fin n) :=
  match s.rplGetInstance instanceId with
  | some i => some (s, i)
  | none => s.rplAllocInstance instanceId

/-- `rpl_alloc_dag`; `none` is a null pointer, which leaves a new instance allocated. -/
def rplAllocDag (instanceId : UInt8) : RplState n m N × Option (DagRef n m) :=
  match s.instanceFor instanceId with
  | none => (s, none)
  | some (s, i) =>
    match (List.finRange m).find? fun j => (s.dag (i, j)).used = false with
    | none => (s, none)
    | some j =>
      (s.setDag (i, j) fun _ =>
        { zeroDag with used := true, rank := rplInfiniteRank, minRank := rplInfiniteRank },
          some (i, j))

/-- A neighbour becomes a parent, for which another may have to go. -/
def rplAddParent (dio : Dio) : Option (RplState n m N × Option N) := do
  let s ← env.addEvicted.foldlM (fun s p => s.nbrCallback p) s
  match env.added with
  | none => some (s, none)
  | some p =>
    let s := s.setParent p { dag := some d, rank := dio.rank, updated := false }
    some ({ s with isParent := update s.isParent p true }, some p)

/-- The sender becomes a neighbour, for which others may have to go. -/
def addNbrFromDio : Option (RplState n m N × Bool) := do
  let s ← env.nbrEvicted.foldlM (fun s p => s.nbrCallback p) s
  some (s, env.nbrAdded)

/-- The fields of the instance and the DAG that `rpl_join_instance` takes from the message. -/
def takeDio (of : Of) (d : DagRef n m) (dio : Dio) : RplState n m N :=
  let s := s.setDag d fun x =>
    { x with
        joined := true, preference := dio.preference,
          grounded := dio.grounded, version := dio.version
        dagId := dio.dagId }
  s.setInst d.1
    { s.inst d.1 with
        of := some of
        mop := dio.mop
        currentDag := some d.2
        maxRankinc := dio.dagMaxRankinc
        minHoprankinc := dio.dagMinHoprankinc
        dioIntdoubl := dio.dagIntdoubl
        dioIntmin := dio.dagIntmin
        dioIntcurrent := dio.dagIntmin + dio.dagIntdoubl
        dioRedundancy := dio.dagRedund
        defaultLifetime := dio.defaultLifetime
        lifetimeUnit := dio.lifetimeUnit }

/-- `rpl_join_instance` with the parent that was added. -/
def joinVia (of : Of) (d : DagRef n m) (p : N) (dio : Dio) : Option (RplState n m N) :=
  let s := (s.takeDio of d dio).rplSetPreferredParent d (some p)
  let s := s.setDag d fun x => { x with rank := s.rplRankViaParent env (some p) }
  let s := s.setDag d fun x => { x with minRank := x.rank }
  s.rplResetDioTimer d.1

/-- `rpl_join_instance`, under the mode of operation `RPL_MOP_DEFAULT`. -/
def rplJoinInstance (mopDefault : UInt8) (dio : Dio) : Option (RplState n m N) :=
  if (mopDefault ≠ rplMopNonStoring ∧ dio.mop = rplMopNonStoring) ∨
      (mopDefault = rplMopNonStoring ∧
        (dio.mop = rplMopStoringNoMulticast ∨ dio.mop = rplMopStoringMulticast)) then
    some s
  else
    match rplFindOf dio.ocp with
    | none => some s
    | some of =>
      match s.rplAllocDag dio.instanceId with
      | (s, none) => some s
      | (s, some d) => do
          match ← s.rplAddParent env d dio with
          | (s, none) => some (s.setInst d.1 { s.inst d.1 with used := false })
          | (s, some p) => s.joinVia env of d p dio

/-- `find_parent_any_dag_any_instance` for the sender. -/
def findParentAny : Option N := env.sender.filter s.isParent

/-- The parent that `rpl_add_dag` and `rpl_process_dio` find or make for the sender in `d`. -/
def parentFor (dio : Dio) : Option (RplState n m N × Option N) :=
  match (s.findParentAny env).bind fun p => (s.parent p).dag.map (p, ·) with
  | none => s.rplAddParent env d dio
  | some (p, previous) => some (if previous = d then s else s.rplMoveParent previous d p, some p)

/-- Whether the message has the parameters of the instance. -/
def compatible (i : Instance m N) (dio : Dio) : Bool :=
  rplFindOf dio.ocp = i.of ∧ i.mop = dio.mop ∧ i.maxRankinc = dio.dagMaxRankinc ∧
    i.minHoprankinc = dio.dagMinHoprankinc ∧ i.dioIntdoubl = dio.dagIntdoubl ∧
      i.dioIntmin = dio.dagIntmin ∧
    i.dioRedundancy = dio.dagRedund ∧ i.defaultLifetime = dio.defaultLifetime ∧
      i.lifetimeUnit = dio.lifetimeUnit

/-- `rpl_add_dag` with the parent that was found or made. -/
def addDagVia (p : N) (dio : Dio) : Option (RplState n m N × Option (DagRef n m)) :=
  let s := s.setParent p { s.parent p with rank := dio.rank }
  if compatible (s.inst d.1) dio then do
    let s := s.setDag d fun x =>
      { x with
          used := true, grounded := dio.grounded,
            preference := dio.preference, version := dio.version
          dagId := dio.dagId, preferredParent := some p }
    let s := s.setDag d fun x => { x with rank := s.rplRankViaParent env (some p) }
    let s := s.setDag d fun x => { x with minRank := x.rank }
    let (s, _) ← s.rplProcessParentEvent env d.1 p
    some (s, some d)
  else do
    let s ← s.rplRemoveParent p
    some (s.setDag d fun x => { x with used := false }, none)

/-- A further DAG of an instance that is there. -/
def rplAddDag (dio : Dio) : Option (RplState n m N × Option (DagRef n m)) :=
  match s.rplAllocDag dio.instanceId with
  | (s, none) => some (s, none)
  | (s, some d) => do
      match ← s.parentFor env d dio with
      | (s, none) => some (s.setDag d fun x => { x with used := false }, none)
      | (s, some p) => s.addDagVia env d p dio

/-- The part of the configuration that `global_repair` copies. -/
def copyConf (dio : Dio) : RplState n m N :=
  s.setInst i
    { s.inst i with
        dioIntdoubl := dio.dagIntdoubl
        dioIntmin := dio.dagIntmin
        dioRedundancy := dio.dagRedund
        defaultLifetime := dio.defaultLifetime
        lifetimeUnit := dio.lifetimeUnit }

/-- The root has given the DAG a new version: it begins again with the sender as parent. -/
def globalRepair (dio : Dio) : Option (RplState n m N) := do
  let s ← s.removeParents env d
  let s := (s.setDag d fun x => { x with version := dio.version }).copyConf d.1 dio
  let s := s.setDag d fun x => { x with minRank := rplInfiniteRank }
  match ← s.rplAddParent env d dio with
  | (s, none) => some (s.setDag d fun x => { x with rank := rplInfiniteRank })
  | (s, some p) =>
    let s := s.setDag d fun x => { x with rank := s.rplRankViaParent env (some p) }
    let s := s.setDag d fun x => { x with minRank := x.rank }
    (s.rplProcessParentEvent env d.1 p).map Prod.fst

/-! ### Processing a message -/

/-- `dag->lifetime`. -/
def dagLifetimeOf (i : Instance m N) : Option UInt32 :=
  let shift := i.dioIntmin.toNat + i.dioIntdoubl.toNat
  if shift < 32 then some ((UInt32.ofNat (2 ^ shift)) * UInt32.ofNat rplDagLifetime / 1000)
    else none

/-- The preferred parent has lost its way to the root. -/
def resetIfLost (p : N) (dio : Dio) : Option (RplState n m N) :=
  if dio.rank = rplInfiniteRank ∧ (s.dag d).preferredParent = some p then s.rplResetDioTimer d.1
    else some s

/-- The end of `rpl_process_dio`, for a DAG that this node is in. -/
def processCandidate (dio : Dio) : Option (RplState n m N) := do
  let lifetime ← dagLifetimeOf (s.inst d.1)
  let s := s.setDag d fun x => { x with lifetime }
  match ← s.parentFor env d dio with
  | (s, none) => some s
  | (s, some p) => do
      let s := s.setParent p { s.parent p with rank := dio.rank }
      let s ← s.resetIfLost d p dio
      let s := s.setParent p { s.parent p with updated := true }
      (s.rplProcessParentEvent env d.1 p).map Prod.fst

/-- `rpl_process_dio` for a DAG of the instance. -/
def processDag (dio : Dio) : Option (RplState n m N) :=
  if dio.rank < (s.inst d.1).rootRank then some s
  else do
    match ← s.addNbrFromDio env with
    | (s, false) => some s
    | (s, true) =>
      if (s.dag d).rank = (s.inst d.1).rootRank then some s else s.processCandidate env d dio

/-- `rpl_process_dio` for an instance that is known, when the versions do not matter. -/
def processInstance (d : Option (DagRef n m)) (dio : Dio) : Option (RplState n m N) := do
  let cur ← (s.inst i).currentDag
  if (s.dag (i, cur)).rank = (s.inst i).rootRank ∧ d ≠ some (i, cur) then some s
  else
    match d with
    | some d => s.processDag env d dio
    | none => do
        match ← s.addNbrFromDio env with
        | (s, false) => some s
        | (s, true) => do
            match ← s.rplAddDag env dio with
            | (s, none) => some s
            | (s, some d) => s.processDag env d dio

/-- `rpl_process_dio` for an instance that is not known. -/
def processNew (mopDefault : UInt8) (dio : Dio) : Option (RplState n m N) := do
  match ← s.addNbrFromDio env with
  | (s, false) => some s
  | (s, true) => s.rplJoinInstance env mopDefault dio

/-- A message with a newer version of the DAG. -/
def processNewer (dio : Dio) : Option (RplState n m N) :=
  if (s.dag d).rank = (s.inst d.1).rootRank then
    (s.setDag d fun x => { x with version := lollipopIncrement dio.version }).rplResetDioTimer d.1
  else s.globalRepair env d dio

/-- `rpl_process_dio`. -/
def rplProcessDio (mopDefault : UInt8) (dio : Dio) : Option (RplState n m N) :=
  if dio.mop ≠ mopDefault then some s
  else
    match s.getDag dio.instanceId dio.dagId, s.rplGetInstance dio.instanceId with
    | some d, some i =>
      if lollipopGreaterThan dio.version.toNat (s.dag d).version.toNat then s.processNewer env d dio
      else if lollipopGreaterThan (s.dag d).version.toNat dio.version.toNat ∧ (s.dag d).joined then
        s.rplResetDioTimer i
      else s.processInstance env i (some d) dio
    | d, some i => s.processInstance env i d dio
    | _, none => s.processNew env mopDefault dio

/-! ### Runs -/

variable (n m N) in
/-- What happens to a node: it gets a message, the timer of an instance fires, a neighbour is
dropped, or the ranks are calculated again. -/
inductive Call where
  | dioInput (env : Env N) (buffer : ℕ → UInt8) (bufferLength : UInt8)
  | handleDioTimer (i : Fin n)
  | nbrCallback (p : N)
  | rplRecalculateRanks (env : Env N)

/-- The effect of a call under `RPL_MOP_DEFAULT`. -/
def call (mopDefault : UInt8) : Call n N → Option (RplState n m N)
  | .dioInput env buffer bufferLength =>
    match Rpl.dioInput buffer bufferLength with
    | none => some s
    | some dio => s.rplProcessDio env mopDefault dio
  | .handleDioTimer i =>
    if (s.inst i).used then (s.inst i).handleDioTimer.map (s.setInst i) else some s
  | .nbrCallback p => s.nbrCallback p
  | .rplRecalculateRanks env => s.rplRecalculateRanks env

/-- A call as a step without an output. -/
def step (mopDefault : UInt8) (c : Call n N) : Option (RplState n m N × Unit) :=
  (s.call mopDefault c).map (·, ())

/-- The state at the start: no instance, no parent. -/
def initial : RplState n m N where
  inst := fun _ => zeroInstance
  parent := fun _ => ⟨none, 0, false⟩
  isParent := fun _ => false

end RplState

end Nespy.Rpl
