import Mathlib.Data.Fintype.Card
import Nespy.Net.NbrSound
import Nespy.Sys.Timer

/-!
# Net — the neighbour about to expire

`uip_ds6_get_least_lifetime_neighbor` of `net/ipv6/uip-ds6-nbr.c`, where the table is
`ds6_neighbors`; the clock stands still during the call.  The loop compares the remaining time of
each neighbour with itself and not with that of the candidate, so the candidate stays the first
neighbour of the table (`leastLifetime_eq_head`), and the result is right where that one happens to
expire first.
-/

namespace Nespy.Net

open Nespy.Sys

/-- `struct stimer`, in seconds. -/
structure Stimer where
  start : ClockTime
  interval : ClockTime

/-- The seconds that are left, which wrap around. -/
def stimerRemaining (now : ClockTime) (s : Stimer) : ClockTime := s.start + s.interval - now

namespace NbrTables

variable {T : Type} (s : NbrTables T) (t : T) (reachable : NbrIndex → Stimer) (now : ClockTime)

/-- The loop of `uip_ds6_get_least_lifetime_neighbor`, from an item on. -/
def leastLifetimeFrom : ℕ → (nbr nbrExpiring : Option NbrIndex) → Option NbrIndex
  | 0, _, _ => none
  | _ + 1, none, nbrExpiring => nbrExpiring
  | fuel + 1, some nbr, some nbrExpiring =>
    let curr := stimerRemaining now (reachable nbr)
    leastLifetimeFrom fuel (s.nbrTableNext t (some nbr))
      (if curr < stimerRemaining now (reachable nbr) then some nbr else some nbrExpiring)
  | fuel + 1, some nbr, none => leastLifetimeFrom fuel (s.nbrTableNext t (some nbr)) (some nbr)

/-- There are at most `nbrTableMaxNeighbors` items. -/
def uipDs6GetLeastLifetimeNeighbor : Option NbrIndex :=
  s.leastLifetimeFrom t reachable now (nbrTableMaxNeighbors + 1) (s.nbrTableHead t) none

/-- `NULL` for an empty table, else a neighbour of the table whose remaining time is minimal. -/
def LeastLifetime : Option NbrIndex → Prop
  | none => s.keys.filter (s.used t) = []
  | some nbr => nbr ∈ s.keys.filter (s.used t) ∧
    ∀ k ∈ s.keys.filter (s.used t),
      stimerRemaining now (reachable nbr) ≤ stimerRemaining now (reachable k)

variable {s t reachable now}

/-- **Run.**  The candidate stays. -/
theorem leastLifetimeFrom_some {nbr : Option NbrIndex} {l : List NbrIndex}
    (h : Enumerates s t nbr l) {fuel : ℕ} (hfuel : l.length < fuel) (k : NbrIndex) :
    s.leastLifetimeFrom t reachable now fuel nbr (some k) = some k := by
  induction h generalizing fuel with
  | nil =>
    obtain ⟨fuel, rfl⟩ := Nat.exists_eq_add_one_of_ne_zero (Nat.ne_zero_of_lt hfuel)
    rfl
  | cons _ ih =>
    obtain ⟨fuel, rfl⟩ := Nat.exists_eq_add_one_of_ne_zero (Nat.ne_zero_of_lt hfuel)
    rw [leastLifetimeFrom, if_neg (UInt64.lt_irrefl _)]
    exact ih (Nat.lt_of_succ_lt_succ hfuel)

theorem leastLifetime_eq_head (hkeys : s.keys.Nodup) :
    s.uipDs6GetLeastLifetimeNeighbor t reachable now = s.nbrTableHead t := by
  have hlen : (s.keys.filter (s.used t)).length ≤ nbrTableMaxNeighbors := by
    simpa using (hkeys.filter (s.used t)).length_le_card
  have henum := enumerates_head (t := t) hkeys
  rw [uipDs6GetLeastLifetimeNeighbor]
  generalize s.nbrTableHead t = head, s.keys.filter (s.used t) = l at henum hlen
  cases henum with
  | nil => rfl
  | cons hrest => exact leastLifetimeFrom_some hrest hlen _

/-- **The neighbour about to expire.**  The list of keys has each block once. -/
theorem least_lifetime_iff (hkeys : s.keys.Nodup) :
    s.LeastLifetime t reachable now (s.uipDs6GetLeastLifetimeNeighbor t reachable now) ↔
      ∀ nbr, s.nbrTableHead t = some nbr → ∀ k ∈ s.keys.filter (s.used t),
        stimerRemaining now (reachable nbr) ≤ stimerRemaining now (reachable k) := by
  rw [leastLifetime_eq_head hkeys]
  have henum := enumerates_head (t := t) hkeys
  generalize s.nbrTableHead t = head, hl : s.keys.filter (s.used t) = l at henum
  cases henum with
  | nil | cons => simp [LeastLifetime, hl]

/-- Two neighbours. -/
def twoNbrs : NbrTables Unit := { initial Unit with keys := [0, 1], usedMap := fun _ => 1 }

/-- The second one expires first. -/
theorem least_lifetime_first : ¬twoNbrs.LeastLifetime () (fun k => ⟨0, if k = 0 then 20 else 10⟩) 0
    (twoNbrs.uipDs6GetLeastLifetimeNeighbor () (fun k => ⟨0, if k = 0 then 20 else 10⟩) 0) := by
  rw [leastLifetime_eq_head (by decide)]
  intro h
  exact absurd (h.2 1 (by decide)) (by decide)

theorem least_lifetime_iff_same : twoNbrs.LeastLifetime () (fun _ => ⟨0, 20⟩) 0
    (twoNbrs.uipDs6GetLeastLifetimeNeighbor () (fun _ => ⟨0, 20⟩) 0) :=
  (least_lifetime_iff (by decide)).mpr fun _ _ _ _ => UInt64.le_refl _

end NbrTables

end Nespy.Net
