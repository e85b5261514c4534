import Mathlib.Data.Finmap
import Mathlib.Data.Fintype.Card
import Mathlib.Data.Nat.ModEq

/-!
# Lib — open addressing with linear probing

A table is a list of slots that are empty, deleted or live.  An entry `e` has a key `key e`, and the
search for a key `q` starts at the slot `home q` modulo the length of the table and goes from slot
to slot, around the end of the table, until it sees the key or an empty slot or is back where it
began (`scan`).

`Stores t m` says that the table holds the finite map `m`: the live slots are its entries, no two of
one key (`Lists`), and between the home of a live entry and its slot there is no empty slot.
`scan_spec` says what a search finds. `Stores.fill` puts an entry into a slot that the search has
found free, `Stores.put` replaces one by another of the same key, and `Stores.vacate` takes one out:
its slot becomes empty where the next one is, and deleted otherwise.
-/

open Option

namespace Nespy.Lib

/-- A slot of a hash table. -/
inductive Slot (E : Type*) where
  | empty
  | deleted
  | live (e : E)
  deriving DecidableEq

variable {E Q : Type*}

/-- The entry in a slot. -/
def Slot.live? : Slot E → Option E
  | .live e => some e
  | _ => none

/-- What a search ends with; `avail` is the first deleted slot that it has seen. -/
inductive Found where
  | hit (i : ℕ)
  | gap (i : ℕ) (avail : Option ℕ)
  | round (avail : Option ℕ)

/-- The search from slot `pos` on for an entry with `p`, with `left` slots to see. -/
def scan (p : E → Bool) (t : List (Slot E)) : ℕ → ℕ → Option ℕ → Found
  | 0, _, avail => .round avail
  | left + 1, pos, avail =>
    match t[pos]? with
    | some (.live e) => if p e then .hit pos else scan p t left ((pos + 1) % t.length) avail
    | some .deleted => scan p t left ((pos + 1) % t.length) (avail.or (some pos))
    | _ => .gap pos avail

/-- The slot is reached from home `h` without seeing an empty one before it. -/
def Reach (t : List (Slot E)) (h i : ℕ) : Prop :=
  ∃ d < t.length, i = (h + d) % t.length ∧ ∀ c < d, t[(h + c) % t.length]? ≠ some .empty

/-- The slot can take an entry with home `h`. -/
structure Free (t : List (Slot E)) (h i : ℕ) : Prop where
  lt : i < t.length
  not_live : ∀ e, t[i]? ≠ some (.live e)
  reach : Reach t h i

section Map

variable [DecidableEq Q] {key : E → Q} {home : Q → ℕ} {t : List (Slot E)}
  {m : Finmap fun _ : Q => E} {p : E → Bool} {q : Q} {e : E} {i : ℕ}

/-- The live slots of the table are the entries of the finite map, each once. -/
structure Lists (key : E → Q) (t : List (Slot E)) (m : Finmap fun _ : Q => E) : Prop where
  lookup_iff : ∀ q e, m.lookup q = some e ↔ key e = q ∧ ∃ i : ℕ, t[i]? = some (.live e)
  once : ∀ (i j : ℕ) (e e' : E), t[i]? = some (.live e) →
    t[j]? = some (.live e') → key e = key e' → i = j

/-- The table holds the finite map. -/
structure Stores (key : E → Q) (home : Q → ℕ) (t : List (Slot E)) (m : Finmap fun _ : Q => E) : Prop
    extends Lists key t m where
  reach : ∀ (i : ℕ) (e : E), t[i]? = some (.live e) → Reach t (home (key e)) i

theorem Stores.lookup_live (h : Stores key home t m) (hi : t[i]? = some (.live e)) :
    m.lookup (key e) = some e :=
  (h.lookup_iff _ _).mpr ⟨rfl, i, hi⟩

/-- A table without live slots holds the empty map. -/
theorem stores_replicate (key : E → Q) (home : Q → ℕ) (n : ℕ) :
    Stores key home (List.replicate n .empty) ∅ where
  lookup_iff q e := by simp [List.getElem?_replicate]
  once i j e e' h := by simp [List.getElem?_replicate] at h
  reach i e h := by simp [List.getElem?_replicate] at h

/-- A table with live slots only has no more of them than the map has keys. -/
theorem Stores.length_le (h : Stores key home t m)
    (hfull : ∀ i < t.length, ∃ e, t[i]? = some (.live e)) :
    t.length ≤ m.keys.card := by
  choose g hg using fun i : Fin t.length => hfull i i.isLt
  have hcard := Finset.card_le_card_of_injOn (s := Finset.univ) (fun i => key (g i))
    (fun i _ => Finmap.mem_keys.mpr (Finmap.mem_of_lookup_eq_some (h.lookup_live (hg i))))
    (fun i _ j _ hij => Fin.ext (h.once _ _ _ _ (hg i) (hg j) hij))
  simpa using hcard

/-- The map has no more keys than the table has slots. -/
theorem Stores.card_le (h : Stores key home t m) : m.keys.card ≤ t.length := by
  have hslot : ∀ q ∈ m.keys, ∃ i : ℕ, i < t.length ∧ ∃ e, t[i]? = some (.live e) ∧ key e = q := by
    intro q hq
    obtain ⟨e, he⟩ := Finmap.mem_iff.mp (Finmap.mem_keys.mp hq)
    obtain ⟨hk, i, hi⟩ := (h.lookup_iff q e).mp he
    exact ⟨i, (List.getElem?_eq_some_iff.mp hi).1, e, hi, hk⟩
  choose! slot hslot using hslot
  have hcard := Finset.card_le_card_of_injOn slot
    (fun q hq => Finset.mem_coe.mpr (Finset.mem_range.mpr (hslot q hq).1))
    (fun q hq q' hq' heq => by
      obtain ⟨-, e, he, rfl⟩ := hslot q hq
      obtain ⟨-, e', he', rfl⟩ := hslot q' hq'
      rw [heq, he', some.injEq, Slot.live.injEq] at he
      rw [he])
  simpa using hcard

theorem card_keys_insert (habs : m.lookup q = none) :
    (m.insert q e).keys.card = m.keys.card + 1 := by
  have hkeys : (m.insert q e).keys = insert q m.keys := by
    ext a
    simp [Finmap.mem_keys]
  rw [hkeys]
  exact Finset.card_insert_of_notMem fun hmem =>
    Finmap.lookup_eq_none.mp habs (Finmap.mem_keys.mp hmem)

theorem erase_of_lookup_eq_none (habs : m.lookup q = none) : m.erase q = m := by
  refine Finmap.ext_lookup fun a => ?_
  rcases eq_or_ne a q with rfl | hne
  · rw [Finmap.lookup_erase, habs]
  · exact Finmap.lookup_erase_ne hne

/-- The map has no more and no less keys when a live slot gets another entry of its key. -/
theorem Stores.keys_put (h : Stores key home t m) (e' : E) (hi : t[i]? = some (.live e)) :
    (m.insert (key e) e').keys = m.keys := by
  ext a
  rw [Finmap.mem_keys, Finmap.mem_insert]
  constructor
  · rintro (rfl | ha)
    · exact Finmap.mem_of_lookup_eq_some (h.lookup_live hi)
    · exact ha
  · exact .inr

theorem Stores.card_keys_erase (h : Stores key home t m) (hi : t[i]? = some (.live e)) :
    (m.erase (key e)).keys.card = m.keys.card - 1 := by
  rw [Finmap.keys_erase]
  exact Finset.card_erase_of_mem
    (Finmap.mem_keys.mpr (Finmap.mem_of_lookup_eq_some (h.lookup_live hi)))

/-! ### Searching -/

/-- What a search has seen in the first `d` slots from home `h`. -/
structure Seen (p : E → Bool) (t : List (Slot E)) (h d : ℕ) (avail : Option ℕ) : Prop where
  full : ∀ c < d, t[(h + c) % t.length]? ≠ some .empty
  other : ∀ c < d, ∀ e, t[(h + c) % t.length]? = some (.live e) → p e = false
  unavailable : avail = none → ∀ c < d, ∃ e, t[(h + c) % t.length]? = some (.live e)
  available : ∀ a, avail = some a → ∃ c < d, a = (h + c) % t.length ∧ t[a]? = some .deleted

theorem seen_zero (p : E → Bool) (t : List (Slot E)) (h : ℕ) : Seen p t h 0 none where
  full c hc := absurd hc (Nat.not_lt_zero c)
  other c hc := absurd hc (Nat.not_lt_zero c)
  unavailable _ c hc := absurd hc (Nat.not_lt_zero c)
  available a ha := by cases ha

variable {e' : E} {avail : Option ℕ} {d h j n : ℕ}

/-- The search goes on over a live slot. -/
theorem Seen.live (hs : Seen p t h d avail)
    (hslot : t[(h + d) % t.length]? = some (.live e)) (hp : p e = false) :
    Seen p t h (d + 1) avail where
  full := Nat.forall_lt_succ_right.mpr ⟨hs.full, by simp [hslot]⟩
  other := by
    refine Nat.forall_lt_succ_right.mpr ⟨hs.other, fun e' he' => ?_⟩
    rw [hslot, some.injEq, Slot.live.injEq] at he'
    exact he' ▸ hp
  unavailable ha := Nat.forall_lt_succ_right.mpr ⟨hs.unavailable ha, e, hslot⟩
  available a ha := by
    obtain ⟨c, hc, hac⟩ := hs.available a ha
    exact ⟨c, Nat.lt_succ_of_lt hc, hac⟩

/-- The search goes on over a deleted slot. -/
theorem Seen.deleted (hs : Seen p t h d avail) (hslot : t[(h + d) % t.length]? = some .deleted) :
    Seen p t h (d + 1) (avail.or (some ((h + d) % t.length))) where
  full := Nat.forall_lt_succ_right.mpr ⟨hs.full, by simp [hslot]⟩
  other := Nat.forall_lt_succ_right.mpr ⟨hs.other, by simp [hslot]⟩
  unavailable ha := by simp at ha
  available a ha := by
    cases avail with
    | none =>
      rw [Option.none_or, some.injEq] at ha
      exact ⟨d, Nat.lt_succ_self d, ha.symm, ha ▸ hslot⟩
    | some b =>
      obtain ⟨c, hc, hac⟩ := hs.available a (by simpa using ha)
      exact ⟨c, Nat.lt_succ_of_lt hc, hac⟩

/-- A slot that was available when all before it are seen is free. -/
theorem Seen.free {a : ℕ} (hs : Seen p t h d (some a)) (hd : d ≤ t.length) : Free t h a := by
  obtain ⟨c, hc, rfl, hdel⟩ := hs.available a rfl
  refine ⟨Nat.mod_lt _ (by omega), fun e he => ?_, c,
    by omega, rfl, fun c' hc' => hs.full c' (by omega)⟩
  simp [hdel] at he

/-- Every slot is at some distance from home. -/
theorem exists_distance (h : ℕ) (hi : i < n) : ∃ c < n, (h + c) % n = i := by
  have hlt := Nat.mod_lt h (Nat.zero_lt_of_lt hi)
  have hsum : h + (i + (n - h % n)) = i + n * (h / n + 1) := by
    have hdiv := Nat.mod_add_div h n
    rw [Nat.mul_add]
    omega
  refine ⟨(i + (n - h % n)) % n, Nat.mod_lt _ (Nat.zero_lt_of_lt hi), ?_⟩
  rw [Nat.add_mod_mod, hsum, Nat.add_mul_mod_self_left, Nat.mod_eq_of_lt hi]

/-- A search is back at its start when it has no slot left to see. -/
theorem next_eq_start_iff {left : ℕ} (pos : ℕ) (h : left < n) :
    (pos + 1) % n = (pos + 1 + left) % n ↔ left = 0 := by
  constructor
  · intro heq
    have hdvd := (Nat.modEq_iff_dvd' (Nat.le_add_right (pos + 1) left)).mp heq
    rw [Nat.add_sub_cancel_left] at hdvd
    exact Nat.eq_zero_of_dvd_of_lt hdvd h
  · rintro rfl
    rfl

/-- What the result of a search for `q` tells. -/
def Found.Tells (home : Q → ℕ) (t : List (Slot E)) (m : Finmap fun _ : Q => E) (q : Q) :
    Found → Prop
  | .hit i => ∃ e, t[i]? = some (.live e) ∧ m.lookup q = some e
  | .gap i avail => m.lookup q = none ∧ Free t (home q) (avail.getD i)
  | .round (some a) => m.lookup q = none ∧ Free t (home q) a
  | .round none => m.lookup q = none ∧ t.length ≤ m.keys.card

section Search

variable (hst : Stores key home t m)
  (hp : ∀ e, m.lookup (key e) = some e → (p e = true ↔ key e = q))

include hst hp

/-- A key is not in a table whose slots were seen up to an empty one, or all. -/
theorem Seen.absent (hs : Seen p t (home q) d avail)
    (hd : d = t.length ∨ t[(home q + d) % t.length]? = some .empty) : m.lookup q = none := by
  by_contra hne
  obtain ⟨e, he⟩ := Option.ne_none_iff_exists'.mp hne
  obtain ⟨rfl, i, hi⟩ := (hst.lookup_iff q e).mp he
  obtain ⟨c, hc, rfl, hpath⟩ := hst.reach i e hi
  rcases Nat.lt_trichotomy c d with hlt | rfl | hlt
  · have := hs.other c hlt e hi
    rw [(hp e he).mpr rfl] at this
    cases this
  · rcases hd with hd | hd
    · omega
    · rw [hi] at hd
      cases hd
  · rcases hd with hd | hd
    · omega
    · exact hpath d hlt hd

/-- **A search**, from the slot where it has seen `d` slots. -/
theorem scan_seen (left : ℕ) :
    ∀ {d : ℕ} {avail : Option ℕ}, Seen p t (home q) d avail → d + left = t.length →
      (scan p t left ((home q + d) % t.length) avail).Tells home t m q := by
  induction left with
  | zero =>
    intro d avail hs hd
    have habs := hs.absent hst hp (.inl hd)
    cases avail with
    | some a => exact ⟨habs, hs.free hd.le⟩
    | none =>
      refine ⟨habs, hst.length_le fun i hi => ?_⟩
      obtain ⟨c, hc, hci⟩ := exists_distance (home q) hi
      rw [← hci]
      exact hs.unavailable rfl c (by omega)
  | succ left ih =>
    intro d avail hs hd
    have hlt : (home q + d) % t.length < t.length := Nat.mod_lt _ (by omega)
    have hstep : ((home q + d) % t.length + 1) % t.length = (home q + (d + 1)) % t.length := by
      rw [Nat.mod_add_mod, Nat.add_assoc]
    unfold scan
    rw [hstep]
    cases hslot : t[(home q + d) % t.length]? with
    | none => simp only [List.getElem?_eq_none_iff] at hslot; omega
    | some slot =>
      cases slot with
      | empty =>
        refine ⟨hs.absent hst hp (.inr hslot), ?_⟩
        cases avail with
        | some a => exact hs.free (by omega)
        | none => exact ⟨hlt, by simp [hslot], d, by omega, rfl, hs.full⟩
      | deleted => exact ih (hs.deleted hslot) (by omega)
      | live e =>
        by_cases he : p e = true
        · simp only [he]
          have hm := hst.lookup_live hslot
          exact ⟨e, hslot, (hp e hm).mp he ▸ hm⟩
        · simp only [he]
          exact ih (hs.live hslot (by simpa using he)) (by omega)

/-- **A search of the whole table.** -/
theorem scan_spec : (scan p t t.length (home q % t.length) none).Tells home t m q :=
  scan_seen hst hp t.length (seen_zero p t (home q)) (Nat.zero_add _)

end Search

/-! ### Changing the table -/

theorem Reach.mono {t' : List (Slot E)} (hr : Reach t h i) (hlen : t'.length = t.length)
    (hkeep : ∀ j : ℕ, t'[j]? = some .empty → t[j]? = some .empty) : Reach t' h i := by
  obtain ⟨d, hd, hi, hpath⟩ := hr
  rw [← hlen] at hd hi hpath
  exact ⟨d, hd, hi, fun c hc he => hpath c hc (hkeep _ he)⟩

theorem live_set {x : Slot E} (hi : i < t.length) :
    (t.set i x)[j]? = some (.live e') ↔ j = i ∧ x = .live e' ∨ j ≠ i ∧ t[j]? = some (.live e') := by
  rcases eq_or_ne j i with rfl | hne
  · simp [List.getElem?_set_self hi]
  · simp [List.getElem?_set_ne hne.symm, hne]

theorem empty_of_set_live (h : (t.set i (.live e))[j]? = some .empty) : t[j]? = some .empty := by
  rcases eq_or_ne j i with rfl | hne
  · have hlt : j < t.length := by
      have := (List.getElem?_eq_some_iff.mp h).1
      simpa using this
    rw [List.getElem?_set_self hlt] at h
    cases h
  · rwa [List.getElem?_set_ne hne.symm] at h

/-- The slot of key `k` gets what the map has for `k`. -/
theorem Lists.set (h : Lists key t m) {m' : Finmap fun _ : Q => E} {k : Q} {x : Slot E}
    (hi : i < t.length) (hold : ∀ {j : ℕ} {e}, t[j]? = some (.live e) → (j = i ↔ key e = k))
    (hnew : ∀ e, x = .live e → key e = k)
    (hsame : ∀ q ≠ k, m'.lookup q = m.lookup q) (hk : ∀ e, m'.lookup k = some e ↔ x = .live e) :
    Lists key (t.set i x) m' := by
  refine ⟨fun q e => ?_, fun j j' e₁ e₂ hj hj' heq => ?_⟩
  · rcases eq_or_ne q k with rfl | hne
    · rw [hk]
      constructor
      · exact fun he => ⟨hnew e he, i, (live_set hi).mpr (.inl ⟨rfl, he⟩)⟩
      · rintro ⟨he, j, hj⟩
        rcases (live_set hi).mp hj with ⟨-, hx⟩ | ⟨hji, hj⟩
        · exact hx
        · exact absurd ((hold hj).mpr he) hji
    · rw [hsame q hne, h.lookup_iff]
      refine and_congr_right fun he => exists_congr fun j => ?_
      rw [live_set hi]
      constructor
      · exact fun hj => .inr ⟨fun hji => hne (he.symm.trans ((hold hj).mp hji)), hj⟩
      · rintro (⟨-, hx⟩ | ⟨-, hj⟩)
        · exact absurd (he.symm.trans (hnew e hx)) hne
        · exact hj
  · rcases (live_set hi).mp hj with ⟨rfl, hx₁⟩ | ⟨-, h₁⟩ <;>
      rcases (live_set hi).mp hj' with ⟨rfl, hx₂⟩ | ⟨-, h₂⟩
    · rfl
    · exact ((hold h₂).mpr (heq.symm.trans (hnew e₁ hx₁))).symm
    · exact (hold h₁).mpr (heq.trans (hnew e₂ hx₂))
    · exact h.once j j' e₁ e₂ h₁ h₂ heq

/-- **Filling a free slot.** -/
theorem Stores.fill (h : Stores key home t m) (habs : m.lookup (key e) = none)
    (hfree : Free t (home (key e)) i) :
    Stores key home (t.set i (.live e)) (m.insert (key e) e) where
  toLists := by
    refine h.toLists.set hfree.lt (fun {j e'} hj => iff_of_false ?_ fun hk => ?_) (fun e' he => ?_)
      (fun q hne => Finmap.lookup_insert_of_ne _ hne) fun e' => ?_
    · exact fun hji => hfree.not_live e' (hji ▸ hj)
    · rw [← hk, h.lookup_live hj] at habs
      cases habs
    · rw [Slot.live.inj he]
    · rw [Finmap.lookup_insert, some.injEq, Slot.live.injEq]
  reach j e' hj := by
    have hr : Reach t (home (key e')) j := by
      rcases (live_set hfree.lt).mp hj with ⟨rfl, he⟩ | ⟨-, hj⟩
      · cases he; exact hfree.reach
      · exact h.reach j e' hj
    exact hr.mono (List.length_set ..) fun _ => empty_of_set_live

/-- The slot of a live entry is the one of its key. -/
theorem Stores.slot_iff (h : Stores key home t m) (hi : t[i]? = some (.live e))
    (hj : t[j]? = some (.live e')) :
    j = i ↔ key e' = key e := by
  refine ⟨?_, h.once j i e' e hj hi⟩
  rintro rfl
  rw [hi, some.injEq, Slot.live.injEq] at hj
  rw [hj]

/-- Replacing an entry by one of the same key. -/
theorem Stores.put (h : Stores key home t m) (hi : t[i]? = some (.live e)) (hk : key e' = key e) :
    Stores key home (t.set i (.live e')) (m.insert (key e) e') := by
  have hlt : i < t.length := (List.getElem?_eq_some_iff.mp hi).1
  refine ⟨h.toLists.set hlt (h.slot_iff hi) (fun x hx => ?_)
    (fun q hne => Finmap.lookup_insert_of_ne _ hne)
    fun x => ?_, fun j x hj => ?_⟩
  · rw [← Slot.live.inj hx, hk]
  · rw [Finmap.lookup_insert, some.injEq, Slot.live.injEq]
  · have hr : Reach t (home (key x)) j := by
      rcases (live_set hlt).mp hj with ⟨rfl, he⟩ | ⟨-, hj⟩
      · cases he; exact hk ▸ h.reach j e hi
      · exact h.reach j x hj
    exact hr.mono (List.length_set ..) fun _ => empty_of_set_live

/-- What becomes of a slot whose entry is taken out. -/
def vacated (t : List (Slot E)) (i : ℕ) : Slot E :=
  match t[(i + 1) % t.length]? with
  | some .empty => .empty
  | _ => .deleted

theorem vacated_ne_live (t : List (Slot E)) (i : ℕ) (e : E) : vacated t i ≠ .live e := by
  unfold vacated
  split <;> simp

theorem vacated_eq_empty (h : vacated t i = .empty) : t[(i + 1) % t.length]? = some .empty := by
  unfold vacated at h
  split at h
  · assumption
  · cases h

/-- The slots before a live one stay not empty when one of them is vacated. -/
theorem Reach.vacate (hr : Reach t h j) (hj : t[j]? = some (.live e')) (hi : i < t.length) :
    Reach (t.set i (vacated t i)) h j := by
  obtain ⟨d, hd, rfl, hpath⟩ := hr
  refine ⟨d, by simpa using hd, by simp, fun c hc he => ?_⟩
  rw [List.length_set] at he
  rcases eq_or_ne ((h + c) % t.length) i with hci | hne
  · rw [hci, List.getElem?_set_self hi, some.injEq] at he
    -- the slot after it is empty, but it is on the way too, or the live one
    have hnext := vacated_eq_empty he
    rw [← hci, Nat.mod_add_mod, Nat.add_assoc] at hnext
    rcases Nat.lt_or_eq_of_le (Nat.succ_le_of_lt hc) with hlt | heq
    · exact hpath (c + 1) hlt hnext
    · rw [← heq] at hj
      rw [hj] at hnext
      cases hnext
  · rw [List.getElem?_set_ne (Ne.symm hne)] at he
    exact hpath c hc he

/-- **Taking an entry out.** -/
theorem Stores.vacate (h : Stores key home t m) (hi : t[i]? = some (.live e)) :
    Stores key home (t.set i (vacated t i)) (m.erase (key e)) := by
  have hlt : i < t.length := (List.getElem?_eq_some_iff.mp hi).1
  refine ⟨h.toLists.set hlt (h.slot_iff hi) (fun x hx => absurd hx (vacated_ne_live t i x))
    (fun q hne => Finmap.lookup_erase_ne hne) fun x => ?_, fun j x hj => ?_⟩
  · rw [Finmap.lookup_erase]
    exact iff_of_false (some_ne_none x).symm (vacated_ne_live t i x)
  · rcases (live_set hlt).mp hj with ⟨-, hx⟩ | ⟨-, hj⟩
    · exact absurd hx (vacated_ne_live t i x)
    · exact (h.reach j x hj).vacate hj hlt

end Map

end Nespy.Lib
