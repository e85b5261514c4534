import Nespy.Net.NbrTable

/-!
# Net — the variables of the neighbour table

`Sound` says that the key list, its memory block, the bitmaps and the registered tables fit
together.  In the middle of an insertion there may be a block that is in use and not on the list, so
`Sound` takes the list of such blocks.
-/

open List Function

namespace Nespy.Net

open Nespy.Sys
open Nespy.Sicslowpan (Linkaddr linkaddrNull)

variable {T : Type}

namespace NbrTables

variable {s : NbrTables T} {t t' : T} {i j k : NbrIndex} {extra : List NbrIndex} {a : Linkaddr}

/-! ### The operations, bit by bit -/

theorem getBit_update (m : NbrIndex → BitVec 8) (i j : NbrIndex) (b c : Fin maxNumTables)
    (value : Bool) :
    getBit (update m i (setBit (m i) b value) j) c =
      if j = i ∧ c = b then value else getBit (m j) c := by
  by_cases hj : j = i
  · subst hj
    simp
  · simp [hj]

variable {value : Bool} {post pre : List NbrIndex}

@[simp] theorem used_setUsed :
    (s.setUsed t i value).used t' j =
      if j = i ∧ (s.table t').index = (s.table t).index then value else s.used t' j :=
  getBit_update ..

@[simp] theorem locked_setLocked :
    (s.setLocked t i value).locked t' j =
      if j = i ∧ (s.table t').index = (s.table t).index then value else s.locked t' j :=
  getBit_update ..

@[simp] theorem used_setLocked : (s.setLocked t i value).used = s.used := rfl

@[simp] theorem locked_setUsed : (s.setUsed t i value).locked = s.locked := rfl

/-- The neighbour that the search finds is on the list and not locked. -/
theorem findLeastUsed_spec {best : Option (NbrIndex × ℕ)} {l : List NbrIndex}
    (h : s.findLeastUsed best l = some k) :
    best.map Prod.fst = some k ∨ k ∈ l ∧ s.lockedMap k = 0 := by
  induction l generalizing best with
  | nil => exact .inl h
  | cons j l ih =>
    rw [findLeastUsed] at h
    split_ifs at h with hj
    · exact (ih h).imp_right fun hk => ⟨mem_cons_of_mem _ hk.1, hk.2⟩
    · have hfree : s.lockedMap j = 0 := not_not.mp hj
      dsimp only at h
      split at h
      · split at h
        · cases h
          exact .inr ⟨mem_cons_self, hfree⟩
        · rcases ih h with hb | hk
          · cases hb
            exact .inr ⟨mem_cons_self, hfree⟩
          · exact .inr ⟨mem_cons_of_mem _ hk.1, hk.2⟩
      · exact (ih h).imp_right fun hk => ⟨mem_cons_of_mem _ hk.1, hk.2⟩

theorem locked_of_lockedMap (h : s.lockedMap k = 0) : s.locked t k = false := by
  rw [locked, h]
  exact getBit_zero _

/-! ### Enumeration -/

/-- The loop `for(item = first; item != NULL; item = nbr_table_next(t, item))` visits the items of
the list. -/
inductive Enumerates (s : NbrTables T) (t : T) : Option NbrIndex → List NbrIndex → Prop where
  | nil : Enumerates s t none []
  | cons {k : NbrIndex} {l : List NbrIndex} :
      Enumerates s t (s.nbrTableNext t (some k)) l → Enumerates s t (some k) (k :: l)

section

variable (hnodup : s.keys.Nodup)

include hnodup

theorem nbrTableNext_of_append (hkeys : s.keys = pre ++ k :: post) :
    s.nbrTableNext t (some k) = post.find? (s.used t) := by
  have hk : k ∉ pre := fun hk => (nodup_append.mp (hkeys ▸ hnodup)).2.2 k hk k mem_cons_self rfl
  have hdrop : s.keys.dropWhile (· ≠ k) = k :: post := by
    rw [hkeys, dropWhile_append_of_pos
      (by simpa using fun x hx => fun hxk : x = k => hk (hxk ▸ hx))]
    simp
  rw [nbrTableNext, Option.bind_some, hdrop, drop_one, tail_cons]

theorem nbrTableHead_eq : s.nbrTableHead t = s.keys.find? (s.used t) := by
  cases hkeys : s.keys with
  | nil => simp [nbrTableHead, hkeys, nbrTableNext]
  | cons k keys =>
    simp only [nbrTableHead, hkeys, head?_cons]
    split_ifs with hu
    · rw [find?_cons_of_pos hu]
    · rw [find?_cons_of_neg hu]
      exact nbrTableNext_of_append hnodup (show s.keys = [] ++ k :: keys from hkeys)

theorem enumerates_find (hkeys : s.keys = pre ++ post) :
    Enumerates s t (post.find? (s.used t)) (post.filter (s.used t)) := by
  induction post generalizing pre with
  | nil => exact .nil
  | cons k post ih =>
    have hrest := ih (show s.keys = (pre ++ [k]) ++ post by rw [hkeys, append_assoc]; rfl)
    by_cases hu : s.used t k = true
    · rw [find?_cons_of_pos hu, filter_cons_of_pos hu]
      refine .cons ?_
      rw [nbrTableNext_of_append hnodup hkeys]
      exact hrest
    · rw [find?_cons_of_neg hu, filter_cons_of_neg hu]
      exact hrest

theorem enumerates_head : Enumerates s t (s.nbrTableHead t) (s.keys.filter (s.used t)) := by
  rw [nbrTableHead_eq hnodup]
  exact enumerates_find hnodup (show s.keys = [] ++ s.keys from rfl)

end

/-- What callbacks leave alone. -/
structure SameKeys (s s' : NbrTables T) : Prop where
  keys : s'.keys = s.keys
  lladdr : s'.lladdr = s.lladdr
  allTables : s'.allTables = s.allTables
  table : s'.table = s.table

/-! ### A sound table -/

/-- The variables of the module fit together; the blocks `extra` are in use and have no key on the
list. -/
structure Sound (extra : List NbrIndex) (s : NbrTables T) : Prop where
  holds : Holds s.count (extra ++ s.keys)
  distinct : ∀ i ∈ s.keys, ∀ j ∈ s.keys, s.lladdr i = s.lladdr j → i = j
  unused : ∀ i, i ∉ s.keys → s.usedMap i = 0#8
  index : ∀ {b t}, s.allTables b = some t → (s.table t).index = b
  bound : ∀ b : Fin maxNumTables, s.numTables ≤ b → s.allTables b = none
  free : ∀ b i, s.allTables b = none → getBit (s.usedMap i) b = false ∧
    getBit (s.lockedMap i) b = false

namespace Sound

theorem initial : Sound [] (NbrTables.initial T) where
  holds := .nil
  distinct := nofun
  unused _ _ := rfl
  index := nofun
  bound _ _ := rfl
  free b _ _ := ⟨getBit_zero b, getBit_zero b⟩

theorem nodup (h : Sound extra s) : s.keys.Nodup := h.holds.nodup.of_append_right

theorem nodup_lladdrs (h : Sound extra s) : (s.keys.map s.lladdr).Nodup :=
  h.nodup.map_on fun i hi j hj => h.distinct i hi j hj

/-- What a table uses is a neighbour. -/
theorem mem_of_used (h : Sound extra s) (hu : s.used t i = true) : i ∈ s.keys := by
  by_contra hi
  rw [used, h.unused i hi, getBit_zero] at hu
  cases hu

variable {lladdr : Option Linkaddr}

theorem indexFromLladdr_eq_some (h : Sound extra s) :
    s.indexFromLladdr lladdr = some i ↔ i ∈ s.keys ∧ s.lladdr i = lladdr.getD linkaddrNull := by
  rw [indexFromLladdr]
  constructor
  · intro hf
    exact ⟨mem_of_find?_eq_some hf, by simpa using find?_some hf⟩
  · rintro ⟨hi, ha⟩
    obtain ⟨j, hj⟩ : ∃ j, s.keys.find? (fun k => s.lladdr k = lladdr.getD linkaddrNull) = some j :=
      Option.isSome_iff_exists.mp (find?_isSome.mpr ⟨i, hi, by simpa using ha⟩)
    have haj : s.lladdr j = lladdr.getD linkaddrNull := by simpa using find?_some hj
    rw [hj, h.distinct i hi j (mem_of_find?_eq_some hj) (ha.trans haj.symm)]

theorem indexFromLladdr_eq_none (h : s.indexFromLladdr lladdr = none) :
    ∀ i ∈ s.keys, s.lladdr i ≠ lladdr.getD linkaddrNull := by
  intro i hi ha
  simpa [ha] using find?_eq_none.mp h i hi

/-- A neighbour goes. -/
theorem dropKey (h : Sound [] s) (hk : k ∈ s.keys) : Sound [k] (s.dropKey k) where
  holds := h.holds.perm (perm_cons_erase hk)
  distinct i hi j hj := h.distinct i ((mem_listRemove h.nodup).mp hi).2 j
    ((mem_listRemove h.nodup).mp hj).2
  unused i hi := by
    by_cases hik : i = k
    · simp [hik]
    · have hmem : i ∉ s.keys := fun hmem => hi ((mem_listRemove h.nodup).mpr ⟨hik, hmem⟩)
      simpa [hik] using h.unused i hmem
  index := h.index
  bound := h.bound
  free b i hb := by
    refine ⟨?_, (h.free b i hb).2⟩
    by_cases hik : i = k
    · simp [hik]
    · simpa [hik] using (h.free b i hb).1

/-- A new neighbour. -/
theorem addKey (h : Sound [k] s) (ha : ∀ i ∈ s.keys, s.lladdr i ≠ a) : Sound [] (s.addKey k a) := by
  have hk : k ∉ s.keys := (nodup_cons.mp h.holds.nodup).1
  have hmem : ∀ i, i ∈ listAdd s.keys k ↔ i = k ∨ i ∈ s.keys := fun i => mem_listAdd h.nodup
  refine ⟨?_, ?_, fun i hi => h.unused i fun hmem' => hi ((hmem i).mpr (.inr hmem')),
    h.index, h.bound, h.free⟩
  · refine h.holds.perm ?_
    rw [NbrTables.addKey, listAdd, listRemove, erase_of_not_mem hk]
    exact (perm_append_singleton k s.keys).symm
  · -- the new address is not on the list, and the others keep theirs
    have hold : ∀ i ∈ s.keys, (s.addKey k a).lladdr i = s.lladdr i := fun i hi =>
      update_of_ne (fun hik : i = k => hk (hik ▸ hi)) ..
    have hnew : (s.addKey k a).lladdr k = a := update_self ..
    intro i hi j hj heq
    rcases (hmem i).mp hi with rfl | hi' <;> rcases (hmem j).mp hj with rfl | hj'
    · rfl
    · exact absurd ((hold j hj').symm.trans (heq.symm.trans hnew)) (ha j hj')
    · exact absurd ((hold i hi').symm.trans (heq.trans hnew)) (ha i hi')
    · exact h.distinct i hi' j hj' ((hold i hi').symm.trans (heq.trans (hold j hj')))

/-- A neighbour loses all its locks. -/
theorem unlock (h : Sound extra s) :
    Sound extra { s with lockedMap := update s.lockedMap k 0 } := by
  refine { h with free := fun b i hb => ⟨(h.free b i hb).1, ?_⟩ }
  by_cases hik : i = k
  · simp [hik]
  · simpa [hik] using (h.free b i hb).2

/-- A block that was free. -/
theorem alloc (h : Sound [] s) {count : Memb nbrTableMaxNeighbors}
    (ha : membAlloc s.count = some (k, count)) :
    Sound [k] { s with count } :=
  { h with holds := (h.holds.alloc ha).2 }

end Sound

/-! ### Registered tables -/

variable [DecidableEq T]

@[simp] theorem registered_iff :
    s.nbrTableIsRegistered t = true ↔ s.allTables (s.table t).index = some t := beq_iff_eq

/-- A registered table is known by its index. -/
theorem registered_index_inj (ht : s.nbrTableIsRegistered t) (ht' : s.nbrTableIsRegistered t')
    (h : (s.table t').index = (s.table t).index) : t' = t := by
  rw [registered_iff] at ht ht'
  rw [h, ht] at ht'
  exact (Option.some.inj ht').symm

theorem index_ne_of_none (ht : s.nbrTableIsRegistered t) {b : Fin maxNumTables}
    (hb : s.allTables b = none) :
    b ≠ (s.table t).index := by
  rintro rfl
  rw [registered_iff, hb] at ht
  cases ht

theorem registered_congr {s' : NbrTables T} (h : SameKeys s s') (t : T) :
    s'.nbrTableIsRegistered t ↔ s.nbrTableIsRegistered t := by
  rw [registered_iff, registered_iff, h.allTables, h.table]

namespace Sound

variable {value : Bool}

section

variable (h : Sound extra s) (ht : s.nbrTableIsRegistered t)

include h ht

/-- A registered table has its bits to itself. -/
theorem setUsed (hi : value → i ∈ s.keys) :
    Sound extra (s.setUsed t i value) where
  holds := h.holds
  distinct := h.distinct
  unused j hj := by
    by_cases hji : j = i
    · subst hji
      cases value with
      | false => simp [NbrTables.setUsed, h.unused j hj, setBit]
      | true => exact absurd (hi rfl) hj
    · simpa [NbrTables.setUsed, hji] using h.unused j hj
  index := h.index
  bound := h.bound
  free b j hb := by
    refine ⟨?_, (h.free b j hb).2⟩
    rw [NbrTables.setUsed, getBit_update, if_neg fun hjb => index_ne_of_none ht hb hjb.2]
    exact (h.free b j hb).1

theorem setLocked : Sound extra (s.setLocked t i value) := by
  refine { h with free := fun b j hb => ⟨(h.free b j hb).1, ?_⟩ }
  rw [NbrTables.setLocked, getBit_update, if_neg fun hjb => index_ne_of_none ht hb hjb.2]
  exact (h.free b j hb).2

theorem nbrTableRemove : Sound extra (s.nbrTableRemove t i) :=
  (h.setUsed ht (show false = true → i ∈ s.keys from nofun)).setLocked ht

end

/-- Registering a table. -/
theorem nbrTableRegister (h : Sound extra s) {callback : Bool} :
    Sound extra (s.nbrTableRegister t callback).1 := by
  rw [NbrTables.nbrTableRegister]
  split
  · refine { h with index := fun {b t'} hb => ?_ }
    by_cases htt : t' = t
    · subst htt
      simpa using h.index hb
    · simpa [htt] using h.index hb
  · rename_i ht
    split_ifs with hn
    · refine ⟨h.holds, h.distinct, h.unused, fun {b t'} hb => ?_, fun b hb => ?_,
        fun b i hb => ?_⟩ <;> dsimp only at hb ⊢
      · by_cases hbn : b = ⟨s.numTables, hn⟩
        · rw [hbn, update_self] at hb
          cases hb
          rw [update_self, hbn]
        · rw [update_of_ne hbn] at hb
          have htt : t' ≠ t := by
            rintro rfl
            exact ht (registered_iff.mpr (h.index hb ▸ hb))
          rw [update_of_ne htt]
          exact h.index hb
      · have hbn : b ≠ ⟨s.numTables, hn⟩ := by
          rintro rfl
          exact Nat.not_succ_le_self _ hb
        rw [update_of_ne hbn]
        exact h.bound b (Nat.le_of_succ_le hb)
      · by_cases hbn : b = ⟨s.numTables, hn⟩
        · rw [hbn, update_self] at hb
          cases hb
        · rw [update_of_ne hbn] at hb
          exact h.free b i hb
    · exact h

/-- The registration of a table changes nothing for another one. -/
theorem register_frame (h : Sound extra s) (hne : t' ≠ t) (callback : Bool) :
    (s.nbrTableRegister t callback).1.table t' = s.table t' ∧
      (s.nbrTableIsRegistered t' → (s.nbrTableRegister t callback).1.nbrTableIsRegistered t') ∧
      (∀ k, (s.nbrTableRegister t callback).1.used t' k = s.used t' k) ∧
      ∀ k, (s.nbrTableRegister t callback).1.locked t' k = s.locked t' k := by
  rw [NbrTables.nbrTableRegister]
  split_ifs with ht hn
  · refine ⟨by simp [hne], fun ht' => ?_,
      fun k => by simp [used, hne], fun k => by simp [locked, hne]⟩
    simpa [hne] using ht'
  · refine ⟨by simp [hne], fun ht' => ?_,
      fun k => by simp [used, hne], fun k => by simp [locked, hne]⟩
    rw [registered_iff] at ht' ⊢
    have hindex : (s.table t').index ≠ ⟨s.numTables, hn⟩ := by
      intro heq
      rw [heq, h.bound _ le_rfl] at ht'
      cases ht'
    simpa [hne, hindex] using ht'
  · exact ⟨rfl, fun ht' => ht', fun _ => rfl, fun _ => rfl⟩

end Sound

end NbrTables

end Nespy.Net
