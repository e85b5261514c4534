import Nespy.Lib.Runs
import Nespy.Net.NbrSound
import Nespy.Net.RouteLookup

/-!
# Net — the routing table is consistent

Four structures say which routes there are: `routelist` with its memory block, the records on the
lists of the neighbours with theirs, the bits of `nbr_routes` in the neighbour tables, and
`num_routes`. `Inv` ties them together: the records are a permutation of the listed routes, and a
neighbour is used and locked when its list is not empty.

While a neighbour is evicted its lock is already gone (`hole`), and what the callbacks do only makes
the lists of the neighbours shorter (`Shrinks`).  The callback of `nbr_routes` empties the list of
the neighbour, so that no route is left when its key goes.
-/

open List Option Function

namespace Nespy.Net.Routes

open Nespy.Lib Nespy.Sys
open Nespy.Sicslowpan (Ipaddr Linkaddr linkaddrNull)
open NbrTables

variable {s s' : Routes} {extra : List NbrIndex} {hole : Option NbrIndex} {k : NbrIndex}
  {r : RouteIndex}

/-! ### The invariant -/

/-- The records on the lists of all neighbours. -/
def records (s : Routes) : List RecordIndex := (finRange nbrTableMaxNeighbors).flatMap s.routeList

variable {o : Added} {removeOldest value : Bool} {ipaddr : Ipaddr} {lladdr : Linkaddr}
  {l : List RecordIndex} {tables : NbrTables Tab} {policy : Option (Option Linkaddr)}
    {record : RecordIndex}
  {behind : RouteIndex → Bool} {t : Tab} {length : UInt8} {fuel : ℕ}

theorem mem_records : record ∈ s.records ↔ ∃ k, record ∈ s.routeList k := by
  simp [records]

/-- Routes, records and memory blocks. -/
structure Core (extra : List NbrIndex) (s : Routes) : Prop where
  sound : s.tables.Sound extra
  registered : s.tables.nbrTableIsRegistered .nbrRoutes
  neighbors : s.tables.nbrTableIsRegistered .ds6Neighbors
  callback : (s.tables.table .nbrRoutes).callback = true
  routes : Holds s.routeMemb s.routelist
  records : Holds s.neighborRouteMemb s.records
  refer : (s.records.map s.recordRoute).Perm s.routelist
  own : ∀ k, ∀ record ∈ s.routeList k, (s.route (s.recordRoute record)).neighborRoutes = some k
  num : s.numRoutes = s.routelist.length

/-- With the bits of `nbr_routes`; the neighbour in the hole is being evicted and not locked. -/
structure Inv (extra : List NbrIndex) (hole : Option NbrIndex) (s : Routes) :
    Prop extends Core extra s where
  used : ∀ k, s.tables.used .nbrRoutes k = true ↔ s.routeList k ≠ []
  locked : ∀ k, s.tables.locked .nbrRoutes k = true ↔ s.routeList k ≠ [] ∧ hole ≠ some k

section

variable (h : Core extra s)

include h

theorem Core.length_records : s.records.length = s.routelist.length := by
  rw [← h.refer.length_eq, length_map]

theorem Core.length_le : s.routelist.length ≤ uipDs6RouteNb := h.routes.length_le

/-- A listed route has a record on the list of its next hop. -/
theorem Core.exists_record (hr : r ∈ s.routelist) :
    ∃ k record, (s.route r).neighborRoutes = some k ∧ s.findRecord k r = some record ∧
      record ∈ s.routeList k ∧ s.recordRoute record = r := by
  obtain ⟨record, hrecord, rfl⟩ := mem_map.mp (h.refer.mem_iff.mpr hr)
  obtain ⟨k, hk⟩ := mem_records.mp hrecord
  obtain ⟨record', hfind⟩ : ∃ record', s.findRecord k (s.recordRoute record) = some record' :=
    isSome_iff_exists.mp (find?_isSome.mpr ⟨record, hk, by simp⟩)
  exact ⟨k, record', h.own k record hk, hfind, mem_of_find?_eq_some hfind,
    by simpa using find?_some hfind⟩

/-- A record refers to a listed route. -/
theorem Core.mem_routelist (hk : record ∈ s.routeList k) : s.recordRoute record ∈ s.routelist :=
  h.refer.mem_iff.mp (mem_map_of_mem (mem_records.mpr ⟨k, hk⟩))

end

/-! ### The neighbour tables -/

/-- Tables that differ in nothing that the routing table knows of. -/
theorem Inv.setTables (h : Inv extra hole s) {extra' : List NbrIndex} (hsound : tables.Sound extra')
    (hreg : ∀ t, s.tables.nbrTableIsRegistered t → tables.nbrTableIsRegistered t)
    (hcallback : (tables.table .nbrRoutes).callback = (s.tables.table .nbrRoutes).callback)
    (hused : ∀ k, tables.used .nbrRoutes k = s.tables.used .nbrRoutes k)
    (hlocked : ∀ k, tables.locked .nbrRoutes k = s.tables.locked .nbrRoutes k) :
    Inv extra' hole { s with tables } :=
  { h with
    sound := hsound
    registered := hreg _ h.registered
    neighbors := hreg _ h.neighbors
    callback := hcallback.trans h.callback
    used := fun k => (Bool.coe_iff_coe.mpr (hused k)).trans (h.used k)
    locked := fun k => (Bool.coe_iff_coe.mpr (hlocked k)).trans (h.locked k) }

section

variable (h : Inv extra hole s) (ht : s.Foreign t)

include h ht

/-- The bits of another table are not those of `nbr_routes`. -/
theorem Inv.index_ne : (s.tables.table .nbrRoutes).index ≠ (s.tables.table t).index :=
  fun heq =>
  ht.1 (registered_index_inj ht.2 h.registered heq).symm

theorem Inv.setUsed_foreign
    (hk : value → k ∈ s.tables.keys) :
    Inv extra hole { s with tables := s.tables.setUsed t k value } :=
  h.setTables (h.sound.setUsed ht.2 hk) (fun _ h => h) rfl
    (fun j => by rw [used_setUsed, if_neg fun hj => h.index_ne ht hj.2]) fun _ => rfl

theorem Inv.setLocked_foreign :
    Inv extra hole { s with tables := s.tables.setLocked t k value } :=
  h.setTables (h.sound.setLocked ht.2) (fun _ h => h) rfl (fun _ => rfl)
    fun j => by rw [locked_setLocked, if_neg fun hj => h.index_ne ht hj.2]

theorem Inv.remove_foreign :
    Inv extra hole { s with tables := s.tables.nbrTableRemove t k } :=
  (h.setUsed_foreign (k := k) ht
    (show false = true → k ∈ s.tables.keys from nofun)).setLocked_foreign ht

end

/-! ### What removals do -/

/-- The tables keep their keys, and no list of a neighbour gets longer. -/
structure Shrinks (s s' : Routes) : Prop where
  same : SameKeys s.tables s'.tables
  empty : ∀ k, s.routeList k = [] → s'.routeList k = []

theorem Shrinks.refl (s : Routes) : Shrinks s s := ⟨⟨rfl, rfl, rfl, rfl⟩, fun _ h => h⟩

theorem Shrinks.trans {s'' : Routes} (h : Shrinks s s') (h' : Shrinks s' s'') : Shrinks s s'' :=
  ⟨⟨h'.same.keys.trans h.same.keys, h'.same.lladdr.trans h.same.lladdr,
    h'.same.allTables.trans h.same.allTables, h'.same.table.trans h.same.table⟩,
    fun k hk => h'.empty k (h.empty k hk)⟩

/-- The bits of a neighbour without routes. -/
def unmark (s : Routes) (k : NbrIndex) (l : List RecordIndex) : NbrTables Tab :=
  if l = [] then s.tables.nbrTableRemove .nbrRoutes k else s.tables

theorem Core.unmark (h : Core extra s) (k : NbrIndex) (l : List RecordIndex) :
    Core extra { s with tables := s.unmark k l } := by
  rw [Routes.unmark]
  split
  · exact { h with sound := h.sound.nbrTableRemove h.registered }
  · exact h

theorem unmark_same (s : Routes) (k : NbrIndex) (l : List RecordIndex) :
    SameKeys s.tables (s.unmark k l) := by
  rw [unmark]
  split <;> exact ⟨rfl, rfl, rfl, rfl⟩

theorem Inv.unmark_bits (h : Inv extra hole s) (hl : l ≠ [] → s.routeList k ≠ []) (j : NbrIndex) :
    ((s.unmark k l).used .nbrRoutes j = true ↔ update s.routeList k l j ≠ []) ∧
      ((s.unmark k l).locked .nbrRoutes j = true ↔
        update s.routeList k l j ≠ [] ∧ hole ≠ some j) := by
  rw [unmark]
  by_cases hj : j = k
  · subst hj
    rw [update_self]
    split_ifs with hnil
    · simp [hnil]
    · have hiff : s.routeList j ≠ [] ↔ l ≠ [] := ⟨fun _ => hnil, fun _ => hl hnil⟩
      rw [h.used, h.locked, hiff]
      exact ⟨.rfl, .rfl⟩
  · rw [update_of_ne hj, ← h.locked, ← h.used]
    split
    · simp [hj]
    · exact ⟨.rfl, .rfl⟩

/-- The records without one of them. -/
theorem records_erase (hrecord : record ∈ s.routeList k) {f : NbrIndex → List RecordIndex}
    (hf : f = update s.routeList k (listRemove (s.routeList k) record)) :
    s.records.Perm (record :: (finRange nbrTableMaxNeighbors).flatMap f) := by
  have hperm : (s.routeList k).Perm (record :: f k) := by
    rw [hf, update_self]
    exact perm_cons_erase hrecord
  have hback : update f k (s.routeList k) = s.routeList := by
    rw [hf, update_idem, update_eq_self]
  have h := flatMap_update_perm (nodup_finRange _) (mem_finRange k) hperm
  rwa [hback] at h

/-- `uip_ds6_route_rm` of a listed route. -/
theorem uipDs6RouteRm_eq (hk : (s.route r).neighborRoutes = some k)
    (hrecord : s.findRecord k r = some record) :
    s.uipDs6RouteRm (some r) =
      { s with
          routelist := listRemove s.routelist r
          routeList := update s.routeList k (listRemove (s.routeList k) record)
          tables := s.unmark k (listRemove (s.routeList k) record)
          routeMemb := membFree s.routeMemb r
          neighborRouteMemb := membFree s.neighborRouteMemb record
          numRoutes := s.numRoutes - 1 } := by
  simp only [uipDs6RouteRm, hk, hrecord, elim_some, unmark]

/-- Removing a route. -/
theorem Inv.rm (h : Inv extra hole s) (hr : r ∈ s.routelist) :
    Inv extra hole (s.uipDs6RouteRm (some r)) ∧ Shrinks s (s.uipDs6RouteRm (some r)) ∧
      (s.uipDs6RouteRm (some r)).numRoutes = s.numRoutes - 1 ∧
      ∀ k, (s.route r).neighborRoutes = some k →
        ((s.uipDs6RouteRm (some r)).routeList k).length + 1 = (s.routeList k).length := by
  obtain ⟨k, record, hk, hfind, hmem, hroute⟩ := h.exists_record hr
  obtain ⟨f, hf⟩ : ∃ f, f = update s.routeList k (listRemove (s.routeList k) record) := ⟨_, rfl⟩
  have hrecords := records_erase hmem hf
  have hlist : s.routelist.Perm (r :: listRemove s.routelist r) := perm_cons_erase hr
  have hne : listRemove (s.routeList k) record ≠ [] → s.routeList k ≠ [] := by
    intro hne hnil
    rw [hnil] at hmem
    cases hmem
  have hsub : ∀ j, ∀ x ∈ f j, x ∈ s.routeList j := by
    intro j x hx
    by_cases hj : j = k
    · subst hj
      rw [hf, update_self] at hx
      exact mem_of_mem_erase hx
    · rwa [hf, update_of_ne hj] at hx
  rw [uipDs6RouteRm_eq hk hfind, ← hf]
  have hbits := h.unmark_bits (k := k) hne
  rw [← hf] at hbits
  refine ⟨{ h.toCore.unmark k (listRemove (s.routeList k) record) with
    routes := (h.routes.perm hlist).free
    records := (h.records.perm hrecords).free
    refer := ?_
    own := fun j x hx => h.own j x (hsub j x hx)
    num := ?_
    used := fun j => (hbits j).1
    locked := fun j => (hbits j).2 }, ⟨unmark_same .., ?_⟩, rfl, ?_⟩
  · have hmap := (hrecords.map s.recordRoute).symm.trans (h.refer.trans hlist)
    rw [map_cons, hroute] at hmap
    exact hmap.cons_inv
  · have hlen := hlist.length_eq
    have hnum := h.num
    simp only [length_cons] at hlen ⊢
    omega
  · intro j hj
    exact eq_nil_iff_forall_not_mem.mpr fun x hx => by simpa [hj] using hsub j x hx
  · intro j hj
    obtain rfl : j = k := some.inj (hj.symm.trans hk)
    change (f j).length + 1 = _
    rw [hf, update_self, listRemove, length_erase_add_one hmem]

/-- The loop of `rm_routelist` takes the routes of the neighbour one by one, to the last. -/
theorem Inv.rmRoutes (h : Inv extra hole s) (hfuel : (s.routeList k).length ≤ fuel) :
    Inv extra hole (Routes.rmRoutes k fuel s) ∧ Shrinks s (Routes.rmRoutes k fuel s) ∧
      (Routes.rmRoutes k fuel s).routeList k = [] := by
  induction fuel generalizing s with
  | zero => exact ⟨h, .refl s, eq_nil_of_length_eq_zero (Nat.le_zero.mp hfuel)⟩
  | succ fuel ih =>
    cases hl : s.routeList k with
    | nil =>
      simp only [Routes.rmRoutes, hl, head?_nil]
      exact ⟨h, .refl s, trivial⟩
    | cons record l =>
      have hmem : record ∈ s.routeList k := hl ▸ mem_cons_self
      obtain ⟨hinv, hshrinks, -, hlen⟩ := h.rm (h.mem_routelist hmem)
      have hless := hlen k (h.own k record hmem)
      obtain ⟨hinv', hshrinks', hempty⟩ := ih hinv (by omega)
      simp only [Routes.rmRoutes, hl]
      exact ⟨hinv', hshrinks.trans hshrinks', hempty⟩

theorem Core.length_routeList (h : Core extra s) : (s.routeList k).length ≤ uipDs6RouteNb := by
  obtain ⟨l₁, l₂, hl⟩ := append_of_mem (mem_finRange k)
  have hrecords :
      s.records = l₁.flatMap s.routeList ++ (s.routeList k ++ l₂.flatMap s.routeList) := by
    rw [Routes.records, hl, flatMap_append, flatMap_cons]
  have hlen := h.records.length_le
  rw [hrecords, length_append, length_append] at hlen
  omega

section

variable (h : Inv extra hole s)

include h

/-- `rm_routelist`. -/
theorem Inv.rmRoutelist (k : NbrIndex) :
    Inv extra hole (s.rmRoutelist (some k)) ∧ Shrinks s (s.rmRoutelist (some k)) ∧
      (s.rmRoutelist (some k)).routeList k = [] := by
  obtain ⟨hinv, hshrinks, hempty⟩ := h.rmRoutes h.length_routeList
  generalize hq : Routes.rmRoutes k uipDs6RouteNb s = q
  rw [hq] at hinv hshrinks hempty
  have hrm : s.rmRoutelist (some k) = { q with tables := q.unmark k [] } := by rw [← hq]; rfl
  have hsame : update q.routeList k [] = q.routeList := by rw [← hempty, update_eq_self]
  have hbits := hinv.unmark_bits (k := k) (absurd rfl)
  rw [hsame] at hbits
  rw [hrm]
  exact ⟨{ hinv.toCore.unmark k [] with
      used := fun j => (hbits j).1
      locked := fun j => (hbits j).2 }, hshrinks.trans ⟨unmark_same q k [], fun _ hj => hj⟩, hempty⟩

/-! ### Lookup -/

/-- `uip_ds6_route_lookup` returns a listed route and only changes the order of the list. -/
theorem Inv.lookup {addr : Option Ipaddr} {o : Option RouteIndex}
    (ho : s.uipDs6RouteLookup behind addr = (s', o)) :
    Inv extra hole s' ∧ Shrinks s s' ∧ ∀ r ∈ o, r ∈ s'.routelist := by
  cases addr with
  | none =>
    cases ho
    exact ⟨h, .refl s, nofun⟩
  | some addr =>
    obtain ⟨heq, -⟩ | ⟨r, l, heq, hperm, hhead, -⟩ := lookup_cases h.routes.nodup
    · cases heq.symm.trans ho
      exact ⟨h, .refl s, nofun⟩
    · cases heq.symm.trans ho
      refine ⟨{ h with
        routes := h.routes.perm hperm
        refer := h.refer.trans hperm
        num := h.num.trans (congrArg _ hperm.length_eq) },
        ⟨⟨rfl, rfl, rfl, rfl⟩, fun _ hk => hk⟩, fun x hx => ?_⟩
      exact mem_of_head? (some.inj hx ▸ hhead)

/-! ### Calls that make no neighbour -/

/-- What a callback may do. -/
theorem Inv.calm {c : Calm} (hc : s.calm c = some s') : Inv extra hole s' ∧ Shrinks s s' := by
  cases c with
  | lookup behind addr =>
    rcases hq : s.uipDs6RouteLookup behind addr with ⟨s₁, o⟩
    rw [Routes.calm, hq] at hc
    cases hc
    obtain ⟨hinv, hshrinks, -⟩ := h.lookup hq
    exact ⟨hinv, hshrinks⟩
  | rm route =>
    obtain ⟨hr, hc⟩ := ite_none_right_eq_some.mp hc
    cases hc
    cases route with
    | none => exact ⟨h, .refl s⟩
    | some r =>
      obtain ⟨hinv, hshrinks, -⟩ := h.rm (hr r rfl)
      exact ⟨hinv, hshrinks⟩
  | rmByNexthop nexthop =>
    cases hc
    rw [uipDs6RouteRmByNexthop]
    generalize s.tables.nbrTableGetFromLladdr .nbrRoutes _ = o
    cases o with
    | none => exact ⟨h, .refl s⟩
    | some k =>
      obtain ⟨hinv, hshrinks, -⟩ := h.rmRoutelist k
      exact ⟨hinv, hshrinks⟩
  | remove t item =>
    obtain ⟨ht, hc⟩ := ite_none_right_eq_some.mp hc
    cases hc
    exact ⟨h.remove_foreign ht, ⟨rfl, rfl, rfl, rfl⟩, fun _ hk => hk⟩
  | lock t item | unlock t item =>
    obtain ⟨ht, hc⟩ := ite_none_right_eq_some.mp hc
    cases hc
    exact ⟨h.setLocked_foreign ht, ⟨rfl, rfl, rfl, rfl⟩, fun _ hk => hk⟩

/-- A callback's script. -/
theorem Inv.script (cs : List Calm) :
    Inv extra hole (cs.foldl (fun s c => (s.calm c).getD s) s) ∧
      Shrinks s (cs.foldl (fun s c => (s.calm c).getD s) s) := by
  induction cs generalizing s with
  | nil => exact ⟨h, .refl s⟩
  | cons c cs ih =>
    rw [foldl_cons]
    cases hc : s.calm c with
    | none => exact ih h
    | some s₁ =>
      obtain ⟨hinv, hshrinks⟩ := h.calm hc
      obtain ⟨hinv', hshrinks'⟩ := ih hinv
      exact ⟨hinv', hshrinks.trans hshrinks'⟩

end

/-! ### Evictions -/

variable {script : Tab → List Calm}

/-- One turn of the loop over the tables, while the neighbour is evicted. -/
theorem Inv.callCallback (h : Inv extra (some k) s) (script : Tab → List Calm)
    (b : Fin maxNumTables) :
    Inv extra (some k) ((host script).callCallback k s b) ∧
      Shrinks s ((host script).callCallback k s b) ∧
      ((s.tables.table .nbrRoutes).index = b →
        ((host script).callCallback k s b).routeList k = []) := by
  have hget : (host script).get s = s.tables := rfl
  rw [Host.callCallback, hget]
  split
  · rename_i t ht
    have hindex : (s.tables.table t).index = b := h.sound.index ht
    have hreg : s.tables.nbrTableIsRegistered t := registered_iff.mpr (hindex ▸ ht)
    have hroutes : (s.tables.table .nbrRoutes).index = b → t = .nbrRoutes := fun hb =>
      registered_index_inj h.registered hreg (hindex.trans hb.symm)
    by_cases hnr : t = .nbrRoutes
    · subst hnr
      split_ifs with hu
      · exact (h.rmRoutelist k).imp_right fun hr => ⟨hr.1, fun _ => hr.2⟩
      · have hempty : s.routeList k = [] := by
          by_contra hne
          exact hu ⟨h.callback, (h.used k).mpr hne⟩
        exact ⟨h, .refl s, fun _ => hempty⟩
    · split
      · obtain ⟨hinv, hshrinks⟩ := h.script (script t)
        have hforeign : Foreign ((script t).foldl (fun s c => (s.calm c).getD s) s) t :=
          ⟨hnr, (registered_congr hshrinks.same t).mpr hreg⟩
        simp only [host, if_neg hnr]
        exact ⟨hinv.remove_foreign hforeign, hshrinks.trans ⟨⟨rfl, rfl, rfl, rfl⟩, fun _ hj => hj⟩,
          fun hb => absurd (hroutes hb) hnr⟩
      · exact ⟨h, .refl s, fun hb => absurd (hroutes hb) hnr⟩
  · rename_i ht
    refine ⟨h, .refl s, fun hb => ?_⟩
    rw [← hb, registered_iff.mp h.registered] at ht
    cases ht

theorem Inv.callCallbacks (h : Inv extra (some k) s) {l : List (Fin maxNumTables)}
    (hs' : s' = l.foldl ((host script).callCallback k) s) :
    Inv extra (some k) s' ∧ Shrinks s s' ∧
      ((s.tables.table .nbrRoutes).index ∈ l → s'.routeList k = []) := by
  induction l generalizing s with
  | nil =>
    subst hs'
    exact ⟨h, .refl s', nofun⟩
  | cons b l ih =>
    obtain ⟨hinv, hshrinks, hempty⟩ := h.callCallback script b
    obtain ⟨hinv', hshrinks', hempty'⟩ := ih hinv hs'
    refine ⟨hinv', hshrinks.trans hshrinks', fun hmem => ?_⟩
    rcases mem_cons.mp hmem with hb | hl
    · exact hshrinks'.empty k (hempty hb)
    · exact hempty' (hshrinks.same.table ▸ hl)

/-- The neighbour to be evicted loses its lock. -/
theorem Inv.unlock (h : Inv extra none s) :
    Inv extra (some k) { s with tables := { s.tables with
      lockedMap := update s.tables.lockedMap k 0 } } := by
  refine { h with sound := h.sound.unlock, locked := fun j => ?_ }
  have hj := h.locked j
  rw [NbrTables.locked] at hj ⊢
  by_cases hjk : j = k
  · simp [hjk]
  · have hkj : k ≠ j := fun hkj => hjk hkj.symm
    simpa [hjk, hkj] using hj

/-- **Eviction.**  The routes through the neighbour are gone with it. -/
theorem Inv.removeKey (h : Inv [] (some k) s) (hk : k ∈ s.tables.keys)
    (hs' : s' = (host script).removeKey s k) :
    Inv [k] none s' ∧ (∀ j ∈ s'.tables.keys, j ∈ s.tables.keys) ∧
      s'.tables.lladdr = s.tables.lladdr ∧
      ∀ t, s.tables.nbrTableIsRegistered t → s'.tables.nbrTableIsRegistered t := by
  obtain ⟨q, hq⟩ : ∃ q, q = (finRange maxNumTables).foldl ((host script).callCallback k) s :=
    ⟨_, rfl⟩
  obtain ⟨hinv, hshrinks, hempty⟩ := h.callCallbacks hq
  have hgone : q.routeList k = [] := hempty (mem_finRange _)
  have hremove : s' = { q with tables := q.tables.dropKey k } := by
    rw [hs', Host.removeKey, ← hq]
    rfl
  have hused : q.tables.used .nbrRoutes k = false := by
    rw [← Bool.not_eq_true, hinv.used, hgone]
    exact not_not.mpr rfl
  have hnone : Inv [] none q := ⟨hinv.toCore, hinv.used, fun j => by
    rw [hinv.locked]
    by_cases hj : j = k
    · simp [hj, hgone]
    · simp [Ne.symm hj]⟩
  rw [hremove]
  refine ⟨hnone.setTables (hinv.sound.dropKey (hshrinks.same.keys ▸ hk))
    (fun _ ht => ht) rfl (fun j => ?_)
    fun _ => rfl, fun j hj => ?_, hshrinks.same.lladdr,
      fun t ht => (registered_congr hshrinks.same t).mpr ht⟩
  · by_cases hj : j = k
    · rw [hj, hused, NbrTables.used, NbrTables.dropKey]
      simp
    · simp [NbrTables.used, hj]
  · exact hshrinks.same.keys ▸ ((mem_listRemove hinv.sound.nodup).mp hj).2

theorem leastUsedKey_mem (h : tables.Sound extra)
    (hk : tables.leastUsedKey policy = some k) : k ∈ tables.keys := by
  have hfind : tables.findLeastUsed none tables.keys = some k → k ∈ tables.keys := fun hf =>
    ((findLeastUsed_spec hf).resolve_left nofun).1
  rw [leastUsedKey.eq_def] at hk
  split at hk
  · exact hfind hk
  · cases hk
  · split at hk
    · rename_i j hj
      cases hk
      exact (h.indexFromLladdr_eq_some.mp hj).1
    · exact hfind hk

/-- `nbr_table_allocate`. -/
theorem Inv.allocate (h : Inv [] none s) {o : Option NbrIndex}
    (ho : (host script).nbrTableAllocate policy s = (s', o)) :
    Inv o.toList none s' ∧ (∀ j ∈ s'.tables.keys, j ∈ s.tables.keys ∧
      s'.tables.lladdr j = s.tables.lladdr j) ∧
      ∀ t, s.tables.nbrTableIsRegistered t → s'.tables.nbrTableIsRegistered t := by
  rw [Host.nbrTableAllocate] at ho
  split at ho
  · rename_i k count ha
    cases ho
    exact ⟨h.setTables (h.sound.alloc ha) (fun _ ht => ht) rfl (fun _ => rfl) fun _ => rfl,
      fun j hj => ⟨hj, rfl⟩, fun _ ht => ht⟩
  · split at ho
    · cases ho
      exact ⟨h, fun j hj => ⟨hj, rfl⟩, fun _ ht => ht⟩
    · rename_i k hk
      cases ho
      have hmem : k ∈ s.tables.keys := leastUsedKey_mem h.sound hk
      obtain ⟨hinv, hkeys, hlladdr, hreg⟩ := h.unlock.removeKey hmem rfl
      exact ⟨hinv, fun j hj => ⟨hkeys j hj, congrFun hlladdr j⟩, hreg⟩

/-- `nbr_table_add_lladdr` of another table. -/
theorem Inv.addLladdr (h : Inv [] none s) (ht : s.Foreign t) {lladdr : Option Linkaddr}
    {o : Option NbrIndex} (ho : (host script).nbrTableAddLladdr policy t lladdr s = (s', o)) :
    Inv [] none s' := by
  rw [Host.nbrTableAddLladdr] at ho
  split at ho
  · rename_i k hk
    cases ho
    exact h.setUsed_foreign ht fun _ => (h.sound.indexFromLladdr_eq_some.mp hk).1
  · rename_i hk
    rcases hq : (host script).nbrTableAllocate policy s with ⟨s₁, o₁⟩
    obtain ⟨hinv, hkeys, hreg⟩ := h.allocate hq
    rw [hq] at ho
    cases o₁ with
    | none =>
      cases ho
      exact hinv
    | some k =>
      cases ho
      have hnew : ∀ i ∈ s₁.tables.keys, s₁.tables.lladdr i ≠ lladdr.getD linkaddrNull := by
        intro i hi
        rw [(hkeys i hi).2]
        exact Sound.indexFromLladdr_eq_none hk i (hkeys i hi).1
      have hadd : Inv [] none { s₁ with tables := s₁.tables.addKey k (lladdr.getD linkaddrNull) } :=
        hinv.setTables (hinv.sound.addKey hnew) (fun _ ht => ht) rfl (fun _ => rfl) fun _ => rfl
      exact hadd.setUsed_foreign ⟨ht.1, hreg t ht.2⟩ fun _ =>
        (mem_listAdd hinv.sound.nodup).mpr (.inl rfl)

/-! ### Adding -/

theorem nbrLookupFrom_used {item : Option NbrIndex}
    (hitem : ∀ j ∈ item, s.tables.used .ds6Neighbors j = true)
    (h : s.nbrLookupFrom ipaddr fuel item = some k) :
    s.tables.used .ds6Neighbors k = true := by
  induction fuel generalizing item with
  | zero => cases h
  | succ fuel ih =>
    cases item with
    | none => cases h
    | some j =>
      rw [nbrLookupFrom] at h
      split at h
      · exact some.inj h ▸ hitem j rfl
      · exact ih (fun i hi => find?_some hi) h

/-- There is a neighbour with this address. -/
def Knows (s : Routes) (lladdr : Linkaddr) : Prop := ∃ k ∈ s.tables.keys, s.tables.lladdr k = lladdr

theorem Core.lladdr_of_ipaddr (h : Core extra s) {ipaddr : Option Ipaddr}
    (hl : s.uipDs6NbrLladdrFromIpaddr ipaddr = some lladdr) : s.Knows lladdr := by
  obtain ⟨k, hk, rfl⟩ := map_eq_some_iff.mp hl
  obtain ⟨a, -, hk⟩ := bind_eq_some_iff.mp hk
  refine ⟨k, h.sound.mem_of_used (nbrLookupFrom_used (fun j hj => ?_) hk), rfl⟩
  rw [nbrTableHead_eq h.sound.nodup] at hj
  exact find?_some hj

/-- What `uip_ds6_route_add` has before it makes the route: the neighbour is used, but may have no
route yet. -/
structure Linkable (k : NbrIndex) (s : Routes) : Prop extends Core [] s where
  mem : k ∈ s.tables.keys
  usedNow : s.tables.used .nbrRoutes k = true
  used : ∀ j, j ≠ k → (s.tables.used .nbrRoutes j = true ↔ s.routeList j ≠ [])
  locked : ∀ j, j ≠ k → (s.tables.locked .nbrRoutes j = true ↔ s.routeList j ≠ [])

/-- A route is made: there is a block for it and for its record. -/
theorem Linkable.link (h : Linkable k s) (hroom : s.numRoutes ≠ uipDs6RouteNb) (ipaddr : Ipaddr)
    (length : UInt8) :
    ∃ r, (s.link ipaddr length k).2 = .route r ∧ Inv [] none (s.link ipaddr length k).1 := by
  have hlen : s.routelist.length ≠ uipDs6RouteNb := fun hlen => hroom (by rw [h.num, hlen])
  obtain ⟨⟨r, routeMemb⟩, hr⟩ :=
    ne_none_iff_exists'.mp fun ha => hlen (h.routes.length_of_membAlloc_none ha)
  obtain ⟨⟨record, recordMemb⟩, hrec⟩ := ne_none_iff_exists'.mp fun ha =>
    hlen (h.length_records ▸ h.records.length_of_membAlloc_none ha)
  obtain ⟨hrnew, hroutes⟩ := h.routes.alloc hr
  obtain ⟨hrecnew, hrecords⟩ := h.records.alloc hrec
  have hnot : record ∉ s.routeList k := fun hmem => hrecnew (mem_records.mpr ⟨k, hmem⟩)
  have hadd : listAdd (s.routeList k) record = s.routeList k ++ [record] := by
    rw [listAdd, listRemove, erase_of_not_mem hnot]
  have hpush : listPush s.routelist r = r :: s.routelist := by
    rw [listPush, listRemove, erase_of_not_mem hrnew]
  generalize hf : update s.routeList k (s.routeList k ++ [record]) = f
  have hperm : ((finRange nbrTableMaxNeighbors).flatMap f).Perm (record :: s.records) := by
    rw [← hf]
    exact flatMap_update_perm (nodup_finRange _) (mem_finRange k) (perm_append_singleton ..)
  have hfne : ∀ j, f j ≠ [] ↔ j = k ∨ s.routeList j ≠ [] := by
    intro j
    by_cases hj : j = k
    · simp [← hf, hj]
    · simp [← hf, hj]
  have hlink : s.link ipaddr length k =
      ({ s with
          routeMemb
          routelist := r :: s.routelist
          neighborRouteMemb := recordMemb
          recordRoute := update s.recordRoute record r
          routeList := f
          numRoutes := s.numRoutes + 1
          tables := s.tables.nbrTableLock .nbrRoutes k
          route := update s.route r ⟨ipaddr, length, some k⟩ }, .route r) := by
    simp only [Routes.link, hr, hrec, hpush, hadd, ← hf]
  have hmem : ∀ j x, x ∈ f j → x ∈ s.routeList j ∨ j = k ∧ x = record := by
    intro j x hx
    by_cases hj : j = k
    · subst hj
      rw [← hf, update_self] at hx
      exact (mem_append.mp hx).imp_right fun hx => ⟨rfl, mem_singleton.mp hx⟩
    · rw [← hf, update_of_ne hj] at hx
      exact .inl hx
  -- the new record is on no list, and the new route is in no record
  have hold : ∀ x ∈ s.records, update s.recordRoute record r x = s.recordRoute x := fun x hx =>
    update_of_ne (fun hxr : x = record => hrecnew (hxr ▸ hx)) ..
  have hrefer : (((finRange nbrTableMaxNeighbors).flatMap f).map
      (update s.recordRoute record r)).Perm (r :: s.routelist) := by
    refine (hperm.map _).trans ?_
    rw [map_cons, update_self, map_congr_left hold]
    exact h.refer.cons r
  have hown : ∀ j, ∀ x ∈ f j, (update s.route r ⟨ipaddr, length, some k⟩
      (update s.recordRoute record r x)).neighborRoutes = some j := by
    intro j x hx
    rcases hmem j x hx with hx | ⟨rfl, rfl⟩
    · have hne : s.recordRoute x ≠ r := fun heq => hrnew (heq ▸ h.mem_routelist hx)
      rw [hold x (mem_records.mpr ⟨j, hx⟩), update_of_ne hne]
      exact h.own j x hx
    · rw [update_self, update_self]
  rw [hlink]
  refine ⟨r, rfl, ⟨⟨h.sound.setLocked h.registered, h.registered, h.neighbors, h.callback, hroutes,
    hrecords.perm hperm.symm, hrefer, hown, ?_⟩, ?_, ?_⟩⟩
  · have hnum := h.num
    simp only [length_cons]
    omega
  · intro j
    refine Iff.trans ?_ (hfne j).symm
    by_cases hj : j = k
    · subst hj
      exact ⟨fun _ => .inl rfl, fun _ => h.usedNow⟩
    · exact (h.used j hj).trans (or_iff_right hj).symm
  · intro j
    rw [NbrTables.nbrTableLock, locked_setLocked]
    by_cases hj : j = k
    · simp [hj, (hfne k).mpr (.inl rfl)]
    · rw [if_neg fun hjk => hj hjk.1, h.locked j hj, hfne]
      simp [hj]

/-- A neighbour that there is gets its list of routes, and none is evicted for it. -/
theorem Inv.nexthopRoutes (h : Inv [] none s) (policy : Option (Option Linkaddr))
    (script : Tab → List Calm) (hl : s.Knows lladdr) :
    ∃ k, (s.nexthopRoutes policy script lladdr).2 = some k ∧
      Linkable k (s.nexthopRoutes policy script lladdr).1 ∧
      (s.nexthopRoutes policy script lladdr).1.numRoutes = s.numRoutes := by
  obtain ⟨k, hk, rfl⟩ := hl
  have hindex : s.tables.indexFromLladdr (some (s.tables.lladdr k)) = some k :=
    h.sound.indexFromLladdr_eq_some.mpr ⟨hk, rfl⟩
  by_cases hu : s.tables.used .nbrRoutes k = true
  · have hget : s.tables.nbrTableGetFromLladdr .nbrRoutes (some (s.tables.lladdr k)) = some k := by
      rw [nbrTableGetFromLladdr, hindex, filter_some, if_pos hu]
    rw [Routes.nexthopRoutes, hget]
    exact ⟨k, rfl, ⟨h.toCore, hk, hu, fun j _ => h.used j,
      fun j _ => (h.locked j).trans (and_iff_left nofun)⟩, rfl⟩
  · have hget : s.tables.nbrTableGetFromLladdr .nbrRoutes (some (s.tables.lladdr k)) = none := by
      rw [nbrTableGetFromLladdr, hindex, filter_some, if_neg hu]
    have hempty : s.routeList k = [] := by
      by_contra hne
      exact hu ((h.used k).mpr hne)
    have hadd : (host script).nbrTableAddLladdr policy .nbrRoutes (some (s.tables.lladdr k)) s =
        ({ s with tables := s.tables.setUsed .nbrRoutes k true }, some k) := by
      have hhost : ((host script).get s).indexFromLladdr (some (s.tables.lladdr k)) = some k :=
        hindex
      rw [Host.nbrTableAddLladdr, hhost]
      rfl
    have hsame : update s.routeList k [] = s.routeList := by rw [← hempty, update_eq_self]
    rw [Routes.nexthopRoutes, hget, hadd]
    simp only [hsame]
    refine ⟨k, rfl, ⟨{ h with sound := h.sound.setUsed h.registered fun _ => hk }, hk, ?_,
      fun j hj => ?_, fun j _ => (h.locked j).trans (and_iff_left nofun)⟩, trivial⟩
    · rw [used_setUsed, if_pos ⟨rfl, rfl⟩]
    · rw [used_setUsed, if_neg fun hjk => hj hjk.1]
      exact h.used j

/-- What a call may end with. -/
def Added.Expected : Added → Prop
  | .refused | .route _ => True
  | .noNeighborEntry | .noRoute | .noRecord => False

theorem Inv.addVia (h : Inv [] none s) (hnum : s.numRoutes ≠ uipDs6RouteNb) (hl : s.Knows lladdr)
    (ho : s.addVia policy script ipaddr length lladdr = (s', o)) : Inv [] none s' ∧ o.Expected := by
  obtain ⟨k, hk, hlink, hnum'⟩ := h.nexthopRoutes policy script hl
  rcases hq : s.nexthopRoutes policy script lladdr with ⟨s₁, o₁⟩
  rw [hq] at hk hlink hnum'
  obtain rfl : o₁ = some k := hk
  obtain ⟨r, hr, hinv⟩ := hlink.link (fun heq => hnum (hnum' ▸ heq)) ipaddr length
  rw [Routes.addVia, hq] at ho
  rw [show s₁.link ipaddr length k = (s', o) from ho] at hr hinv
  obtain rfl : o = .route r := hr
  exact ⟨hinv, trivial⟩

/-- The neighbours are there after a removal. -/
theorem Shrinks.knows (h : Shrinks s s') (hl : s.Knows lladdr) : s'.Knows lladdr := by
  rwa [Knows, h.same.keys, h.same.lladdr]

/-- Adding a route. -/
theorem Inv.addNew (h : Inv [] none s) (hl : s.Knows lladdr)
    (ho : s.addNew removeOldest policy script ipaddr length lladdr = (s', o)) :
    Inv [] none s' ∧ o.Expected := by
  rw [Routes.addNew] at ho
  obtain ⟨oldest, holdest⟩ : ∃ oldest, oldest = if removeOldest then s.routelist.getLast?
    else none := ⟨_, rfl⟩
  simp only [← holdest] at ho
  split at ho
  · cases ho
    exact ⟨h, trivial⟩
  · rename_i hfull
    split_ifs at ho with hnum
    · obtain ⟨r, rfl⟩ : ∃ r, oldest = some r :=
        ne_none_iff_exists'.mp fun hnone => hfull ⟨hnum, hnone⟩
      have hr : r ∈ s.routelist := by
        cases removeOldest with
        | false => cases holdest
        | true => exact mem_of_getLast? holdest.symm
      obtain ⟨hinv, hshrinks, hless, -⟩ := h.rm hr
      refine hinv.addVia ?_ (hshrinks.knows hl) ho
      omega
    · exact h.addVia hnum hl ho

/-- `uip_ds6_route_add`. -/
theorem Inv.routeAdd (h : Inv [] none s) {ipaddr : Option Ipaddr} {nexthop : Option Ipaddr}
    (ho : s.uipDs6RouteAdd removeOldest behind policy script ipaddr length nexthop = (s', o)) :
    Inv [] none s' ∧ o.Expected := by
  cases ipaddr with
  | none =>
    cases ho
    exact ⟨h, trivial⟩
  | some ipaddr =>
    rw [uipDs6RouteAdd] at ho
    split at ho
    · cases ho
      exact ⟨h, trivial⟩
    · split at ho
      · cases ho
        exact ⟨h, trivial⟩
      · rename_i lladdr hl
        rcases hq : s.uipDs6RouteLookup behind (some ipaddr) with ⟨s₁, o₁⟩
        obtain ⟨hinv, hlookup, hlisted⟩ := h.lookup hq
        have hneighbor := hlookup.knows (h.lladdr_of_ipaddr hl)
        rw [hq] at ho
        cases o₁ with
        | none => exact hinv.addNew hneighbor ho
        | some r =>
          dsimp only at ho
          split at ho
          · cases ho
            exact ⟨hinv, trivial⟩
          · obtain ⟨hinv', hshrinks, -⟩ := hinv.rm (hlisted r rfl)
            exact hinv'.addNew (hshrinks.knows hneighbor) ho

/-! ### Runs -/

theorem Inv.initial : Inv [] none initial where
  sound := NbrTables.Sound.initial.nbrTableRegister.nbrTableRegister
  registered := by decide
  neighbors := by decide
  callback := by decide
  routes := .nil
  records := .nil
  refer := .refl _
  own := nofun
  num := rfl
  used _ := ⟨fun h => absurd (h.symm.trans (getBit_zero _)) nofun, fun h => absurd rfl h⟩
  locked _ := ⟨fun h => absurd (h.symm.trans (getBit_zero _)) nofun, fun h => absurd rfl h.1⟩

/-- **Step lemma.** -/
theorem Inv.step (h : Inv [] none s) {c : Call} {o : Option Added}
    (hc : s.step removeOldest c = some (s', o)) : Inv [] none s' ∧ ∀ a ∈ o, a.Expected := by
  cases c with
  | calm c =>
    obtain ⟨s₁, hs₁, heq⟩ := map_eq_some_iff.mp hc
    cases heq
    exact ⟨(h.calm hs₁).1, nofun⟩
  | routeAdd behind policy script ipaddr length nexthop =>
    rcases hq : s.uipDs6RouteAdd removeOldest behind policy script ipaddr length nexthop
      with ⟨s₁, a⟩
    rw [Routes.step, hq] at hc
    cases hc
    obtain ⟨hinv, hexpected⟩ := h.routeAdd hq
    exact ⟨hinv, fun b hb => some.inj hb ▸ hexpected⟩
  | nbrAdd policy script ipaddr lladdr =>
    rcases hq : (host script).nbrTableAddLladdr policy .ds6Neighbors lladdr s with ⟨s₁, o₁⟩
    have hforeign : s.Foreign .ds6Neighbors := ⟨nofun, h.neighbors⟩
    have hinv := h.addLladdr hforeign hq
    rw [Routes.step, uipDs6NbrAdd, hq] at hc
    cases hc
    cases o₁ with
    | none => exact ⟨hinv, nofun⟩
    | some k => exact ⟨{ hinv with }, nofun⟩
  | tableAdd policy script n lladdr =>
    obtain ⟨ht, hc⟩ := ite_none_right_eq_some.mp hc
    rcases hq : (host script).nbrTableAddLladdr policy (.other n) lladdr s with ⟨s₁, o₁⟩
    rw [hq] at hc
    cases hc
    exact ⟨h.addLladdr ht hq, nofun⟩
  | register n callback =>
    cases hc
    obtain ⟨htable, hreg, hused, hlocked⟩ :=
      h.sound.register_frame (show Tab.nbrRoutes ≠ .other n from nofun) callback
    obtain ⟨-, hreg', -⟩ :=
      h.sound.register_frame (show Tab.ds6Neighbors ≠ .other n from nofun) callback
    exact ⟨{ h with
      sound := h.sound.nbrTableRegister
      registered := hreg h.registered
      neighbors := hreg' h.neighbors
      callback := htable ▸ h.callback
      used := fun k => hused k ▸ h.used k
      locked := fun k => hlocked k ▸ h.locked k }, nofun⟩

/-- The routing table as its users see it. -/
structure Consistent (s : Routes) : Prop where
  count : s.numRoutes = s.routelist.length
  bound : s.routelist.length ≤ uipDs6RouteNb
  once : s.routelist.Nodup
  /-- a listed route has its record on the list of its next hop, and no other -/
  referenced : ∀ r ∈ s.routelist, ∃ k record, (s.route r).neighborRoutes = some k ∧
    (s.routeList k).count record = 1 ∧
    ∀ k' record', record' ∈ s.routeList k' ∧ s.recordRoute record' = r ↔ k' = k ∧ record' = record
  refers : ∀ k, ∀ record ∈ s.routeList k, s.recordRoute record ∈ s.routelist
  marked : ∀ k, (s.tables.used .nbrRoutes k = true ↔ s.routeList k ≠ []) ∧
    (s.tables.locked .nbrRoutes k = true ↔ s.routeList k ≠ [])

theorem Core.recordRoute_inj (h : Core extra s) {x y : RecordIndex} (hx : x ∈ s.records)
    (hy : y ∈ s.records) (hxy : s.recordRoute x = s.recordRoute y) : x = y :=
  inj_on_of_nodup_map (h.refer.nodup_iff.mpr h.routes.nodup) hx hy hxy

/-- What the invariant says of the tables. -/
theorem Inv.consistent (h : Inv [] none s) : Consistent s where
  count := h.num
  bound := h.length_le
  once := h.routes.nodup
  referenced r hr := by
    obtain ⟨k, record, hk, -, hmem, rfl⟩ := h.exists_record hr
    have hnodup : (s.routeList k).Nodup :=
      (nodup_flatMap.mp h.records.nodup).1 k (mem_finRange k)
    refine ⟨k, record, hk, count_eq_one_of_mem hnodup hmem, fun k' record' => ⟨?_, ?_⟩⟩
    · rintro ⟨hmem', hroute⟩
      have hrecord := h.recordRoute_inj (mem_records.mpr ⟨k', hmem'⟩)
        (mem_records.mpr ⟨k, hmem⟩) hroute
      have hk' := h.own k' record' hmem'
      rw [hroute, hk] at hk'
      exact ⟨(some.inj hk').symm, hrecord⟩
    · rintro ⟨rfl, rfl⟩
      exact ⟨hmem, rfl⟩
  refers _ _ hmem := h.mem_routelist hmem
  marked k := ⟨h.used k, (h.locked k).trans (and_iff_left nofun)⟩

/-- **The routing table stays consistent.**  After any calls, with any evictions among them,
`num_routes` is the length of `routelist`, each route has one record, on the list of its next hop,
each record has a route, and a neighbour is used and locked in `nbr_routes` while it has routes; no
`uip_ds6_route_add` has ended in a branch that should not happen. -/
theorem routing_table_consistent {removeOldest : Bool} {tr : List (Call × Option Added)}
    {s : Routes} (hrun : Runs (step removeOldest) (fun _ _ => True) initial tr s) :
    Consistent s ∧ ∀ io ∈ tr, ∀ a ∈ io.2, a.Expected := by
  obtain ⟨hinv, hout⟩ := hrun.invariant (Inv [] none) (fun o => ∀ a ∈ o, a.Expected)
    (fun h _ hc => h.step hc) Inv.initial
  exact ⟨hinv.consistent, hout⟩

/-- A route through a neighbour that is locked, and evicted all the same. -/
theorem routing_table_consistent_evicted :
    ∃ tr s, Runs (step false) (fun _ _ => True) initial tr s ∧ some (.route 0) ∈ tr.map Prod.snd ∧
      s.tables.keys.length = 16 ∧ s.routelist = [] ∧ Consistent s := by
  have hrun : (execute (step false) (fun _ _ => True) initial
      ((range 16).map (fun n => Call.nbrAdd none (fun _ => []) (List.Vector.replicate 16 n.toUInt8)
          (some (List.Vector.replicate 8 n.toUInt8))) ++
        [.routeAdd (fun _ => false) none (fun _ => []) (some (List.Vector.replicate 16 99)) 128
          (some (List.Vector.replicate 16 3)),
        .nbrAdd (some (some (List.Vector.replicate 8 3))) (fun _ => [])
          (List.Vector.replicate 16 77)
          (some (List.Vector.replicate 8 77))])).map
      (fun q =>
        decide (some (.route 0) ∈ q.2.map Prod.snd ∧
          q.1.tables.keys.length = 16 ∧ q.1.routelist = [])) =
      some true := by
    decide +kernel
  obtain ⟨q, hq, hroute, hkeys, hlist⟩ := exists_run_of_decide hrun
  exact ⟨q.2, q.1, hq, hroute, hkeys, hlist, (routing_table_consistent hq).1⟩

end Nespy.Net.Routes
