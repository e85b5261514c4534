import Nespy.Lib.Loop
import Nespy.Lib.Probing

/-!
# Lib — hash tables that grow

A call looks for a key in a table (`Probe.search`).  It does what it does to an entry that it hits;
where there is none and the call adds, it fills a free slot, and where the table is full, the table
is first rehashed into a larger one and searched again.  How it is rehashed is an argument of the
search, since rehashing needs calls that add (`reinsert`).

`Probe.run_settles` is the rule for a call: it ends, in one of the three ways of `Done`, on a table
that holds the same map.  `Probe.run_room` is the same for a table with room, which is not rehashed.
From this follows the rule for rehashing (`reinsert_settles`).
-/

open List

namespace Nespy.Lib

variable {S E Q R : Type*}

/-- A call on a table in the state `S`, with a result in `R`. -/
structure Probe (S E R : Type*) where
  /-- the slots of the table -/
  slots : S → List (Slot E)
  /-- the hash of the key -/
  hash : ℕ
  /-- whether the entry has the key -/
  hits : E → Bool
  /-- what is done with an entry in a slot -/
  hit : S → ℕ → E → S × R
  /-- whether the key is added where there is no entry -/
  adds : Bool
  /-- a free slot is given to the key -/
  fill : S → ℕ → S × R
  /-- the result where there is no entry -/
  absent : R

namespace Probe

variable (P : Probe S E R)

/-- The slot where the search starts. -/
def start (s : S) : ℕ := P.hash % (P.slots s).length

/-- The end of a turn of the search that saw another key or a deleted slot: it goes on with the next
slot, unless that is the one where it started.  `search` is what is left of the search. -/
def turn (rehash : S → Option S)
    (search : S → (pos startPos : ℕ) → (avail : Option ℕ) → Option (S × R)) (s : S)
    (pos startPos : ℕ) (avail : Option ℕ) : Option (S × R) :=
  if (pos + 1) % (P.slots s).length = startPos then
    if P.adds then
      match avail with
      | some i => some (P.fill s i)
      -- not enough room in the table
      | none => (rehash s).bind fun s' => search s' (P.start s') (P.start s') none
    else some (s, P.absent)
  else search s ((pos + 1) % (P.slots s).length) startPos avail

/-- The search from slot `pos` on, where `avail` is the first deleted slot that it has seen; `none`
says that the fuel did not suffice. -/
def search (rehash : S → Option S) :
    ℕ → S → (pos startPos : ℕ) → (avail : Option ℕ) → Option (S × R)
  | 0, _, _, _, _ => none
  | fuel + 1, s, pos, startPos, avail =>
    match (P.slots s)[pos]? with
    | none => none
    | some .empty => if P.adds then some (P.fill s (avail.getD pos)) else some (s, P.absent)
    | some .deleted => P.turn rehash (search rehash fuel) s pos startPos (avail.or (some pos))
    | some (.live e) =>
      if P.hits e then some (P.hit s pos e)
      else P.turn rehash (search rehash fuel) s pos startPos avail

/-- The call; a table without slots is rehashed before the search. -/
def run (rehash : S → Option S) (fuel : ℕ) (s : S) : Option (S × R) :=
  if (P.slots s).length = 0 then
    if P.adds then (rehash s).bind fun s' => P.search rehash fuel s' (P.start s') (P.start s') none
    else some (s, P.absent)
  else P.search rehash fuel s (P.start s) (P.start s) none

end Probe

/-- The entries of an old table are added to a new one. -/
def reinsert (add : S → E → Option S) : List (Slot E) → S → Option S
  | [], s => some s
  | .live e :: rest, s => (add s e).bind (reinsert add rest)
  | _ :: rest, s => reinsert add rest s

/-! ### The search and the scan of the table -/

variable {P : Probe S E R} {rehash : S → Option S} {s : S}

/-- What the call does with the result of a scan; `again` is the search after rehashing. -/
@[simp] def Probe.finish (P : Probe S E R) (s : S) (again : Option (S × R)) : Found → Option (S × R)
  | .hit i => ((P.slots s)[i]?.bind Slot.live?).map (P.hit s i)
  | .gap i avail => if P.adds then some (P.fill s (avail.getD i)) else some (s, P.absent)
  | .round (some i) => if P.adds then some (P.fill s i) else some (s, P.absent)
  | .round none => if P.adds then again else some (s, P.absent)

/-- One turn of the search, when the rest of it is as a scan of what is left. -/
theorem search_turn {pos startPos fuel left : ℕ} {avail : Option ℕ} {again : Option (S × R)}
    (hpos : pos < (P.slots s).length)
    (hturn : ∀ avail', P.turn rehash (P.search rehash fuel) s pos startPos avail' =
      P.finish s again (scan P.hits (P.slots s) left ((pos + 1) % (P.slots s).length) avail')) :
    P.search rehash (fuel + 1) s pos startPos avail =
      P.finish s again (scan P.hits (P.slots s) (left + 1) pos avail) := by
  unfold Probe.search scan
  cases hslot : (P.slots s)[pos]? with
  | none =>
    rw [getElem?_eq_none_iff] at hslot
    omega
  | some slot =>
    cases slot with
    | empty => rfl
    | deleted => exact hturn _
    | live e =>
      cases hhit : P.hits e with
      | true => simp [hslot, hhit, Slot.live?]
      | false => simpa [hhit] using hturn avail

/-- A search is a scan of the slots, and a rehash if that finds no place. -/
theorem search_eq {left : ℕ} : ∀ {pos fuel : ℕ} {avail : Option ℕ}, pos < (P.slots s).length →
    left < (P.slots s).length →
    P.search rehash (fuel + (left + 1)) s pos ((pos + 1 + left) % (P.slots s).length) avail =
      P.finish s ((rehash s).bind fun s' => P.search rehash fuel s' (P.start s') (P.start s') none)
        (scan P.hits (P.slots s) (left + 1) pos avail) := by
  induction left with
  | zero =>
    intro pos fuel avail hpos hleft
    refine search_turn hpos fun avail' => ?_
    unfold Probe.turn
    rw [if_pos rfl]
    cases avail' <;> rfl
  | succ left ih =>
    intro pos fuel avail hpos hleft
    have hnext : (pos + 1) % (P.slots s).length ≠ (pos + 1 + (left + 1)) % (P.slots s).length :=
      fun h => Nat.succ_ne_zero left ((next_eq_start_iff pos hleft).mp h)
    have hstart : (pos + 1 + (left + 1)) % (P.slots s).length =
        ((pos + 1) % (P.slots s).length + 1 + left) % (P.slots s).length := by
      rw [Nat.add_assoc ((pos + 1) % _), Nat.mod_add_mod, Nat.add_comm 1 left]
    refine search_turn hpos fun avail' => ?_
    unfold Probe.turn
    rw [if_neg hnext, hstart]
    exact ih (Nat.mod_lt _ (by omega)) (by omega)

/-- **The search of a whole table.** -/
theorem search_start {fuel : ℕ} (hlen : 0 < (P.slots s).length) :
    P.search rehash (fuel + (P.slots s).length) s (P.start s) (P.start s) none =
      P.finish s ((rehash s).bind fun s' => P.search rehash fuel s' (P.start s') (P.start s') none)
        (scan P.hits (P.slots s) (P.slots s).length (P.start s) none) := by
  obtain ⟨n, hn⟩ := Nat.exists_eq_succ_of_ne_zero hlen.ne'
  have hstart : (P.start s + 1 + n) % (P.slots s).length = P.start s := by
    rw [Nat.add_assoc, Nat.add_comm 1 n, ← Nat.succ_eq_add_one, ← hn, Nat.add_mod_right]
    exact Nat.mod_mod _ _
  have heq := @search_eq S E R P rehash s n (P.start s) fuel none (Nat.mod_lt _ hlen) (by omega)
  rwa [hstart, ← Nat.succ_eq_add_one, ← hn] at heq

/-! ### Calls -/

variable [DecidableEq Q] {key : E → Q} {home : Q → ℕ} {m : Finmap fun _ : Q => E} {q : Q}

/-- The call is for the key `q` of the map. -/
structure Probe.For (P : Probe S E R) (key : E → Q) (home : Q → ℕ) (m : Finmap fun _ : Q => E)
    (q : Q) : Prop where
  hash_eq : P.hash = home q
  hits_iff : ∀ e, m.lookup (key e) = some e → (P.hits e = true ↔ key e = q)

/-- The ways in which a call for `q` ends on the table `s`. -/
inductive Done (P : Probe S E R) (home : Q → ℕ) (m : Finmap fun _ : Q => E) (q : Q) (s : S) :
    S × R → Prop
  | found {i : ℕ} {e : E} : (P.slots s)[i]? = some (.live e) → m.lookup q = some e →
      Done P home m q s (P.hit s i e)
  | absent : m.lookup q = none → P.adds = false → Done P home m q s (s, P.absent)
  | filled {i : ℕ} : m.lookup q = none → P.adds = true → Free (P.slots s) (home q) i →
      Done P home m q s (P.fill s i)

/-- The end of a search: the call is done, or it adds to a table that is full. -/
theorem finish_cases {r : Found} (ht : r.Tells home (P.slots s) m q) :
    (∃ r', Done P home m q s r' ∧ ∀ again, P.finish s again r = some r') ∨
      (P.slots s).length ≤ m.keys.card ∧ P.adds = true ∧ ∀ again, P.finish s again r = again := by
  -- a free slot is taken when the call adds
  have htake : ∀ i, m.lookup q = none → Free (P.slots s) (home q) i →
      ∃ r', Done P home m q s r' ∧
        (if P.adds then some (P.fill s i) else some (s, P.absent)) = some r' := by
    intro i hq hfree
    cases hadds : P.adds with
    | true => exact ⟨_, .filled hq hadds hfree, if_pos rfl⟩
    | false => exact ⟨_, .absent hq hadds, rfl⟩
  cases r with
  | hit i =>
    obtain ⟨e, hi, hq⟩ := ht
    refine .inl ⟨_, .found hi hq, fun again => ?_⟩
    rw [Probe.finish, hi]
    rfl
  | gap i avail =>
    obtain ⟨r', hdone, hr'⟩ := htake _ ht.1 ht.2
    exact .inl ⟨r', hdone, fun _ => hr'⟩
  | round avail =>
    cases avail with
    | some i =>
      obtain ⟨r', hdone, hr'⟩ := htake i ht.1 ht.2
      exact .inl ⟨r', hdone, fun _ => hr'⟩
    | none =>
      cases hadds : P.adds with
      | true => exact .inr ⟨ht.2, rfl, fun _ => if_pos hadds⟩
      | false => exact .inl ⟨_, .absent ht.1 hadds, fun _ => by simp [hadds]⟩

section

variable (hs : Stores key home (P.slots s) m) (hfor : P.For key home m q)
  (hroom : m.keys.card < (P.slots s).length)

include hs hfor hroom

/-- A search in a table with room. -/
theorem search_room :
    ∃ r, Done P home m q s r ∧
      ∀ rehash fuel,
        P.search rehash (fuel + (P.slots s).length) s (P.start s) (P.start s) none = some r := by
  have ht := scan_spec hs hfor.hits_iff
  rw [← hfor.hash_eq] at ht
  rcases finish_cases ht with ⟨r, hdone, hr⟩ | ⟨hfull, -⟩
  · refine ⟨r, hdone, fun rehash fuel => ?_⟩
    rw [search_start (Nat.zero_lt_of_lt hroom)]
    exact hr _
  · omega

/-- **A call on a table with room.** -/
theorem Probe.run_room :
    ∃ r, Done P home m q s r ∧ ∀ rehash fuel,
      P.run rehash (fuel + (P.slots s).length) s = some r := by
  obtain ⟨r, hdone, hr⟩ := search_room hs hfor hroom
  refine ⟨r, hdone, fun rehash fuel => ?_⟩
  rw [Probe.run, if_neg (Nat.ne_zero_of_lt hroom)]
  exact hr rehash fuel

end

/-- **A call.**  Whatever `Holds` says of tables, if rehashing keeps it and makes room, then the
call ends, on a table of which it holds. -/
theorem Probe.run_settles (Holds : S → Prop) {rehash : ℕ → S → Option S} (hfor : P.For key home m q)
    (hstores : ∀ s, Holds s → Stores key home (P.slots s) m)
    (hrehash : ∀ s, Holds s → ∃ s', Holds s' ∧ m.keys.card < (P.slots s').length ∧
      Settles (fun fuel => rehash fuel s) s') (hs : Holds s) :
    ∃ s' r, Holds s' ∧ Done P home m q s' r ∧
      Settles (fun fuel => P.run (rehash fuel) fuel s) r := by
  -- the search in the table that rehashing makes
  have hagain : ∃ s' r, Holds s' ∧ Done P home m q s' r ∧
    ∃ n, ∀ fuel, n ≤ fuel → ∀ fuel', n ≤ fuel' →
      (rehash fuel s).bind (fun s' =>
        P.search (rehash fuel) fuel' s' (P.start s') (P.start s') none) =
        some r := by
    obtain ⟨s', hs', hroom, n, hn⟩ := hrehash s hs
    obtain ⟨r, hdone, hr⟩ := search_room (hstores s' hs') hfor hroom
    refine ⟨s', r, hs', hdone, n + (P.slots s').length, fun fuel hfuel fuel' hfuel' => ?_⟩
    obtain ⟨k, rfl⟩ := Nat.exists_eq_add_of_le' (Nat.le_trans (Nat.le_add_left _ n) hfuel')
    have hre : rehash fuel s = some s' := hn fuel (by omega)
    rw [hre]
    exact hr _ k
  by_cases hlen : (P.slots s).length = 0
  · cases hadds : P.adds with
    | true =>
      obtain ⟨s', r, hs', hdone, n, hn⟩ := hagain
      refine ⟨s', r, hs', hdone, n, fun fuel hfuel => ?_⟩
      simp only [Probe.run, hlen, hadds]
      exact hn fuel hfuel fuel hfuel
    | false =>
      have hnone : m.lookup q = none := by
        have hcard := (hstores s hs).card_le
        rw [hlen, Nat.le_zero, Finset.card_eq_zero] at hcard
        refine Finmap.lookup_eq_none.mpr fun hmem => ?_
        rw [← Finmap.mem_keys, hcard] at hmem
        exact Finset.notMem_empty q hmem
      refine ⟨s, _, hs, .absent hnone hadds, Settles.of_eq fun fuel => ?_⟩
      simp [Probe.run, hlen, hadds]
  · have ht := scan_spec (hstores s hs) hfor.hits_iff
    rw [← hfor.hash_eq] at ht
    rcases finish_cases ht with ⟨r, hdone, hr⟩ | ⟨-, -, hfull⟩
    · refine ⟨s, r, hs, hdone, (P.slots s).length, fun fuel hfuel => ?_⟩
      obtain ⟨k, rfl⟩ := Nat.exists_eq_add_of_le' hfuel
      simp only [Probe.run, hlen]
      rw [search_start (Nat.pos_of_ne_zero hlen)]
      exact hr _
    · obtain ⟨s', r, hs', hdone, n, hn⟩ := hagain
      refine ⟨s', r, hs', hdone, n + (P.slots s).length, fun fuel hfuel => ?_⟩
      obtain ⟨k, rfl⟩ := Nat.exists_eq_add_of_le' (Nat.le_trans (Nat.le_add_left _ n) hfuel)
      simp only [Probe.run, hlen]
      rw [search_start (Nat.pos_of_ne_zero hlen)]
      exact (hfull _).trans (hn _ (by omega) k (by omega))

/-! ### Rehashing -/

/-- The entries of a list of slots have different keys. -/
def KeysDiffer (key : E → Q) (l : List (Slot E)) : Prop :=
  l.Pairwise fun a b => ∀ e e', a = .live e → b = .live e' → key e ≠ key e'

theorem Stores.keysDiffer {t : List (Slot E)} (h : Stores key home t m) : KeysDiffer key t := by
  refine pairwise_iff_getElem.mpr fun i j hi hj hij e e' he he' heq => ?_
  have hi' : t[i]? = some (.live e) := he ▸ getElem?_eq_getElem hi
  have hj' : t[j]? = some (.live e') := he' ▸ getElem?_eq_getElem hj
  have := h.once i j e e' hi' hj' heq
  omega

section Reinsert

variable {slots : S → List (Slot E)} {Holds : S → (Finmap fun _ : Q => E) → Prop}
  {add : ℕ → S → E → Option S}

/-- Adding an entry of a new key to a table with room. -/
def AddsIn (key : E → Q) (slots : S → List (Slot E)) (Holds : S → (Finmap fun _ : Q => E) → Prop)
    (add : ℕ → S → E → Option S) : Prop :=
  ∀ s m e, Holds s m → m.keys.card < (slots s).length → m.lookup (key e) = none →
    ∃ s', Holds s' (m.insert (key e) e) ∧ (slots s').length = (slots s).length ∧
      Settles (fun fuel => add fuel s e) s'

/-- The loop over the old table. -/
theorem reinsert_settles (hadd : AddsIn key slots Holds add) (l : List (Slot E)) :
    ∀ {s : S} {m : Finmap fun _ : Q => E}, Holds s m → m.keys.card + l.length ≤ (slots s).length →
      KeysDiffer key l → (∀ e, .live e ∈ l → m.lookup (key e) = none) →
      ∃ s' m', Holds s' m' ∧ (slots s').length = (slots s).length ∧
        (∀ q e, m'.lookup q = some e ↔ m.lookup q = some e ∨ key e = q ∧ .live e ∈ l) ∧
        Settles (fun fuel => reinsert (add fuel) l s) s' := by
  induction l with
  | nil =>
    intro s m hs _ _ _
    exact ⟨s, m, hs, rfl, by simp, Settles.of_eq fun _ => rfl⟩
  | cons slot rest ih =>
    intro s m hs hroom hdiffer hnew
    obtain ⟨hhead, hrest⟩ := pairwise_cons.mp hdiffer
    rw [length_cons] at hroom
    cases slot with
    | live e =>
      have habs := hnew e (mem_cons_self ..)
      obtain ⟨s₁, hs₁, hlen, hsettles⟩ := hadd s m e hs (by omega) habs
      have hroom₁ : (m.insert (key e) e).keys.card + rest.length ≤ (slots s₁).length := by
        rw [card_keys_insert habs]
        omega
      have hnew₁ : ∀ e', .live e' ∈ rest → (m.insert (key e) e).lookup (key e') = none := by
        intro e' hmem
        rw [Finmap.lookup_insert_of_ne _ (hhead _ hmem e e' rfl rfl).symm]
        exact hnew e' (mem_cons_of_mem _ hmem)
      obtain ⟨s', m', hs', hlen', hiff, hsettles'⟩ := ih hs₁ hroom₁ hrest hnew₁
      refine ⟨s', m', hs', hlen'.trans hlen, fun q e' => ?_, hsettles.bind hsettles'⟩
      rw [hiff, mem_cons, Slot.live.injEq]
      rcases eq_or_ne q (key e) with rfl | hne
      · rw [Finmap.lookup_insert, habs, Option.some.injEq]
        constructor
        · rintro (rfl | ⟨hk, hmem⟩)
          · exact .inr ⟨rfl, .inl rfl⟩
          · exact .inr ⟨hk, .inr hmem⟩
        · rintro (hnone | ⟨hk, rfl | hmem⟩)
          · cases hnone
          · exact .inl rfl
          · exact .inr ⟨hk, hmem⟩
      · rw [Finmap.lookup_insert_of_ne _ hne]
        refine or_congr_right (and_congr_right fun hk => ?_)
        constructor
        · exact .inr
        · rintro (rfl | hmem)
          · exact absurd hk.symm hne
          · exact hmem
    | empty | deleted =>
      obtain ⟨s', m', hs', hlen', hiff, hsettles'⟩ := ih hs (by omega) hrest
        fun e hmem => hnew e (mem_cons_of_mem _ hmem)
      exact ⟨s', m', hs', hlen', by simpa using hiff, hsettles'⟩

/-- **Rehashing** a table into a larger one that is empty keeps the map. -/
theorem rehash_settles {fresh : S} {t : List (Slot E)} (hadd : AddsIn key slots Holds add)
    (hfresh : Holds fresh ∅) (ht : Stores key home t m) (hlen : t.length < (slots fresh).length) :
    ∃ s', Holds s' m ∧ m.keys.card < (slots s').length ∧
      Settles (fun fuel => reinsert (add fuel) t fresh) s' := by
  obtain ⟨s', m', hs', hlen', hiff, hsettles⟩ := reinsert_settles hadd t hfresh
    (by simpa using hlen.le) ht.keysDiffer (fun e _ => Finmap.lookup_empty _)
  have hmap : m' = m := by
    refine Finmap.ext_lookup fun q => Option.ext fun e => ?_
    rw [hiff, ht.lookup_iff, mem_iff_getElem?]
    simp
  subst hmap
  have hcard := ht.card_le
  exact ⟨s', hs', by omega, hsettles⟩

end Reinsert

end Nespy.Lib
