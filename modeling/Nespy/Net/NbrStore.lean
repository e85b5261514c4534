import Nespy.Lib.Runs
import Nespy.Net.NbrSound

/-!
# Net — the neighbour table as a keyed store

What a neighbour table is for: a table stores an item for a link address until the item is removed
or its neighbour is evicted.  `Store` keeps that of a history of events, and `Inv` says that the
bitmaps and the key list agree with it after every call.
-/

open List Option Function

namespace Nespy.Net

open Nespy.Lib Nespy.Sys
open Nespy.Sicslowpan (Linkaddr linkaddrNull)

variable {T : Type}

/-! ### The store -/

/-- What happens to the items of the tables. -/
inductive NbrEvent (T : Type) where
  | added (t : T) (lladdr : Linkaddr) (item : NbrIndex)
  | removed (t : T) (item : NbrIndex)
  | locked (t : T) (item : NbrIndex)
  | unlocked (t : T) (item : NbrIndex)
  | callback (t : T) (item : NbrIndex)
  | evicted (item : NbrIndex) (lladdr : Linkaddr)
  deriving DecidableEq

/-- For each table, the item last added for an address and not removed or evicted since, and whether
the table has locked an item. -/
structure Store (T : Type) where
  stored : T → Linkaddr → Option NbrIndex
  locked : T → NbrIndex → Bool

namespace Store

/-- Nothing is stored. -/
def empty : Store T where
  stored _ _ := none
  locked _ _ := false

variable [DecidableEq T]

/-- An item is locked or unlocked. -/
def setLocked (sp : Store T) (t : T) (item : NbrIndex) (value : Bool) : Store T :=
  { sp with locked := fun t' i => if t' = t ∧ i = item then value else sp.locked t' i }

/-- What an event means for the store. -/
def update (sp : Store T) : NbrEvent T → Store T
  | .added t a item =>
    { sp with stored := fun t' a' => if t' = t ∧ a' = a then some item else sp.stored t' a' }
  | .removed t item =>
    { sp.setLocked t item false with
      stored := fun t' a => if t' = t ∧ sp.stored t' a = some item then none else sp.stored t' a }
  | .locked t item => sp.setLocked t item true
  | .unlocked t item => sp.setLocked t item false
  | .callback _ _ => sp
  | .evicted item _ =>
    { sp with stored := fun t a => if sp.stored t a = some item then none else sp.stored t a }

end Store

variable {es : List (NbrEvent T)} {s : NbrTables T} {sp : Store T}

namespace NbrTables

/-- The calls of callbacks among the events. -/
@[simp] def callbacks (es : List (NbrEvent T)) : List (T × NbrIndex) :=
  es.filterMap fun
    | .callback t item => some (t, item)
    | _ => none

/-- An eviction among the events of a call is of a neighbour that no table has locked, and calls the
callback of exactly the tables that use it, once each; without one no callback is called. -/
structure SafeEviction (s : NbrTables T) (sp : Store T) (es : List (NbrEvent T)) : Prop where
  unlocked : ∀ i a t, .evicted i a ∈ es → sp.locked t i = false
  once : (callbacks es).Nodup
  called : ∀ t i, (t, i) ∈ callbacks es ↔
    ∃ a, .evicted i a ∈ es ∧ sp.stored t a = some i ∧ (s.table t).callback = true

namespace SafeEviction

theorem of_quiet (hcallbacks : callbacks es = []) (hevicted : ∀ i a, .evicted i a ∉ es) :
    SafeEviction s sp es where
  unlocked i a _ he := absurd he (hevicted i a)
  once := hcallbacks ▸ nodup_nil
  called t i := by
    rw [hcallbacks]
    exact ⟨nofun, fun ⟨a, he, _⟩ => absurd he (hevicted i a)⟩

theorem nil : SafeEviction s sp [] := .of_quiet rfl fun _ _ => not_mem_nil

theorem added {t : T} {a : Linkaddr} {k : NbrIndex} (h : SafeEviction s sp es) :
    SafeEviction s sp (es ++ [NbrEvent.added t a k]) := by
  have hcallbacks : callbacks (es ++ [NbrEvent.added t a k]) = callbacks es := by simp
  have hevicted : ∀ i b, .evicted i b ∈ es ++ [NbrEvent.added t a k] ↔ .evicted i b ∈ es := by simp
  refine ⟨fun i b t' he => h.unlocked i b t' ((hevicted i b).mp he),
    hcallbacks ▸ h.once, fun t' i => ?_⟩
  rw [hcallbacks, h.called]
  simp only [hevicted]

end SafeEviction

end NbrTables

/-- The tables of a program whose callbacks remove the item they are given, with the events. -/
def storeHost [DecidableEq T] : Host T (NbrTables T × List (NbrEvent T)) where
  get := Prod.fst
  set s tables := (tables, s.2)
  callback s t k := (s.1.nbrTableRemove t k, s.2 ++ [.callback t k, .removed t k])
  evicted s k := (s.1, s.2 ++ [.evicted k (s.1.lladdr k)])

/-- The calls; an item may be null. -/
inductive NbrCall (T : Type) where
  | register (t : T) (callback : Bool)
  | addLladdr (t : T) (lladdr : Option Linkaddr)
  | remove (t : T) (item : Option NbrIndex)
  | lock (t : T) (item : Option NbrIndex)
  | unlock (t : T) (item : Option NbrIndex)

namespace NbrTables

variable [DecidableEq T]

/-- A call for an item, which does nothing when the item is null. -/
def onItem (s : NbrTables T) (f : NbrIndex → NbrTables T) (event : NbrIndex → NbrEvent T) :
    Option NbrIndex → NbrTables T × List (NbrEvent T)
  | some item => (f item, [event item])
  | none => (s, [])

/-- `nbr_table_add_lladdr`, without a policy for evictions. -/
def addStored (s : NbrTables T) (t : T) (lladdr : Option Linkaddr) :
    NbrTables T × List (NbrEvent T) :=
  match storeHost.nbrTableAddLladdr none t lladdr (s, []) with
  | (r, some item) => (r.1, r.2 ++ [.added t (lladdr.getD linkaddrNull) item])
  | (r, none) => r

/-- One call.  A table is registered before it is used. -/
def call (s : NbrTables T) : NbrCall T → Option (NbrTables T × List (NbrEvent T))
  | .register t callback => some ((s.nbrTableRegister t callback).1, [])
  | .addLladdr t lladdr => if s.nbrTableIsRegistered t then some (s.addStored t lladdr) else none
  | .remove t item =>
    if s.nbrTableIsRegistered t then some (s.onItem (s.nbrTableRemove t) (.removed t) item)
      else none
  | .lock t item =>
    if s.nbrTableIsRegistered t then some (s.onItem (s.nbrTableLock t) (.locked t) item) else none
  | .unlock t item =>
    if s.nbrTableIsRegistered t then some (s.onItem (s.nbrTableUnlock t) (.unlocked t) item)
      else none

/-- The tables hold what the store says. -/
structure Inv (extra : List NbrIndex) (s : NbrTables T) (sp : Store T) : Prop where
  sound : Sound extra s
  stored : ∀ t a i, sp.stored t a = some i ↔
    s.nbrTableIsRegistered t ∧ i ∈ s.keys ∧ s.lladdr i = a ∧ s.used t i
  locked : ∀ t i, sp.locked t i = true ↔ s.nbrTableIsRegistered t ∧ s.locked t i

variable {t t' : T} {i j k : NbrIndex} {extra : List NbrIndex} {a : Linkaddr}

namespace Inv

theorem initial : Inv [] (NbrTables.initial T) Store.empty where
  sound := .initial
  stored _ _ _ := ⟨nofun, fun h => absurd h.2.1 not_mem_nil⟩
  locked _ _ := ⟨nofun, fun h => absurd (registered_iff.mp h.1) nofun⟩

theorem setLocked (h : Inv extra s sp) (ht : s.nbrTableIsRegistered t) {value : Bool} :
    Inv extra (s.setLocked t i value) (sp.setLocked t i value) where
  sound := h.sound.setLocked ht
  stored := h.stored
  locked t' j := by
    rw [locked_setLocked]
    change (if t' = t ∧ j = i then value else sp.locked t' j) = true ↔ s.nbrTableIsRegistered t' ∧ _
    by_cases heq : t' = t ∧ j = i
    · obtain ⟨rfl, rfl⟩ := heq
      simp [ht]
    · rw [if_neg heq, h.locked]
      refine and_congr_right fun ht' => ?_
      rw [if_neg fun hji => heq ⟨registered_index_inj ht ht' hji.2, hji.1⟩]

/-- Removing an item. -/
theorem remove (h : Inv extra s sp) (ht : s.nbrTableIsRegistered t) :
    Inv extra (s.nbrTableRemove t i) (sp.update (.removed t i)) where
  sound := h.sound.nbrTableRemove ht
  stored t' a j := by
    change (if t' = t ∧ sp.stored t' a = some i then none else sp.stored t' a) = some j ↔
      s.nbrTableIsRegistered t' ∧ j ∈ s.keys ∧ s.lladdr j = a ∧ (s.setUsed t i false).used t' j
    rw [used_setUsed]
    by_cases heq : t' = t ∧ sp.stored t' a = some i
    · obtain ⟨rfl, hi⟩ := heq
      obtain ⟨-, hik, hia, -⟩ := (h.stored ..).mp hi
      rw [if_pos ⟨rfl, hi⟩]
      refine ⟨nofun, fun ⟨_, hj, hja, hu⟩ => ?_⟩
      have hji : j = i := h.sound.distinct j hj i hik (hja.trans hia.symm)
      simp [hji] at hu
    · rw [if_neg heq, h.stored]
      refine and_congr_right fun ht' => and_congr_right fun hj => and_congr_right fun hja => ?_
      by_cases hu : s.used t' j = true
      · have hne : ¬(j = i ∧ (s.table t').index = (s.table t).index) := by
          rintro ⟨rfl, hindex⟩
          exact heq ⟨registered_index_inj ht ht' hindex, (h.stored ..).mpr ⟨ht', hj, hja, hu⟩⟩
        rw [if_neg hne]
      · simp [hu]
  locked := (h.setLocked ht).locked

/-- The end of an eviction. -/
theorem evict (h : Inv [] s sp) (hk : k ∈ s.keys) :
    Inv [k] (s.dropKey k) (sp.update (.evicted k a)) where
  sound := h.sound.dropKey hk
  stored t b i := by
    change (if sp.stored t b = some k then none else sp.stored t b) = some i ↔
      s.nbrTableIsRegistered t ∧
      i ∈ listRemove s.keys k ∧ s.lladdr i = b ∧ getBit (update s.usedMap k 0 i) (s.table t).index
    rw [mem_listRemove h.sound.nodup]
    by_cases hik : i = k
    · split <;> simp_all
    · rw [update_of_ne hik]
      have hold := h.stored t b i
      rw [used] at hold
      simp only [ne_eq, hik, not_false_eq_true, true_and, ← hold]
      split
      · rename_i hb
        rw [hb, some_inj]
        exact ⟨fun hnone => absurd hnone.symm (some_ne_none _), fun hki => absurd hki.symm hik⟩
      · rfl
  locked := h.locked

/-- A table uses a neighbour that there is. -/
theorem addUsed (h : Inv [] s sp) (ht : s.nbrTableIsRegistered t) (hk : k ∈ s.keys)
    (ha : s.lladdr k = a) :
    Inv [] (s.setUsed t k true) (sp.update (.added t a k)) where
  sound := h.sound.setUsed ht fun _ => hk
  stored t' b i := by
    rw [used_setUsed]
    change (if t' = t ∧ b = a then some k else sp.stored t' b) = some i ↔
      s.nbrTableIsRegistered t' ∧ i ∈ s.keys ∧ s.lladdr i = b ∧ _
    by_cases heq : t' = t ∧ b = a
    · obtain ⟨rfl, rfl⟩ := heq
      rw [if_pos ⟨rfl, rfl⟩, some_inj]
      constructor
      · rintro rfl
        exact ⟨ht, hk, ha, by simp⟩
      · rintro ⟨-, hi, hib, -⟩
        exact h.sound.distinct k hk i hi (ha.trans hib.symm)
    · rw [if_neg heq, h.stored]
      refine and_congr_right fun ht' => and_congr_right fun _ => and_congr_right fun hib => ?_
      have hne : ¬(i = k ∧ (s.table t').index = (s.table t).index) := by
        rintro ⟨rfl, hindex⟩
        exact heq ⟨registered_index_inj ht ht' hindex, hib.symm.trans ha⟩
      rw [if_neg hne]
  locked := h.locked

/-- A new neighbour, which no table uses yet. -/
theorem addKey (h : Inv [k] s sp) (ha : ∀ i ∈ s.keys, s.lladdr i ≠ a) :
    Inv [] (s.addKey k a) sp where
  sound := h.sound.addKey ha
  stored t b i := by
    have hk : k ∉ s.keys := (nodup_cons.mp h.sound.holds.nodup).1
    rw [h.stored]
    change s.nbrTableIsRegistered t ∧ _ ↔ s.nbrTableIsRegistered t ∧ i ∈ listAdd s.keys k ∧
      update s.lladdr k a i = b ∧ s.used t i
    rw [mem_listAdd h.sound.nodup]
    refine and_congr_right fun _ => ?_
    by_cases hik : i = k
    · have hu : s.used t k = false := by rw [used, h.sound.unused k hk, getBit_zero]
      simp [hik, hu]
    · simp [hik]
  locked := h.locked

theorem alloc (h : Inv [] s sp) {count : Memb nbrTableMaxNeighbors}
    (ha : membAlloc s.count = some (k, count)) :
    Inv [k] { s with count } sp :=
  ⟨h.sound.alloc ha, h.stored, h.locked⟩

theorem congr_tables (h : Inv extra s sp) {s' : NbrTables T} (hsound : Sound extra s')
    (hkeys : s'.keys = s.keys) (hlladdr : s'.lladdr = s.lladdr)
    (hused : ∀ t i, s'.nbrTableIsRegistered t ∧ s'.used t i ↔ s.nbrTableIsRegistered t ∧ s.used t i)
    (hlocked : ∀ t i, s'.nbrTableIsRegistered t ∧ s'.locked t i ↔
      s.nbrTableIsRegistered t ∧ s.locked t i) :
    Inv extra s' sp where
  sound := hsound
  stored t a i := by
    rw [h.stored, hkeys, hlladdr]
    have := hused t i
    tauto
  locked t i := by rw [h.locked, hlocked]

/-- A table that was not registered has stored and locked nothing. -/
theorem register (h : Inv [] s sp) {callback : Bool} :
    Inv [] (s.nbrTableRegister t callback).1 sp := by
  have hsound : Sound [] (s.nbrTableRegister t callback).1 := h.sound.nbrTableRegister
  rw [nbrTableRegister] at hsound ⊢
  split_ifs at hsound ⊢ with ht hn
  · have hindex : ∀ t', (update s.table t { s.table t with callback } t').index =
        (s.table t').index := by
      intro t'
      by_cases htt : t' = t
      · rw [htt, update_self]
      · rw [update_of_ne htt]
    refine h.congr_tables hsound rfl rfl (fun t' i => ?_) fun t' i => ?_ <;>
      simp only [registered_iff, used, NbrTables.locked, hindex]
  · have hfree : ∀ i, _ := fun i => h.sound.free ⟨s.numTables, hn⟩ i (h.sound.bound _ le_rfl)
    have hreg :
      ∀ t', t' ≠ t → (update s.allTables ⟨s.numTables, hn⟩ (some t) (s.table t').index = some t' ↔
        s.allTables (s.table t').index = some t') := by
      intro t' htt
      by_cases hb : (s.table t').index = ⟨s.numTables, hn⟩
      · rw [hb, update_self, h.sound.bound _ le_rfl]
        exact ⟨fun heq => absurd (some.inj heq).symm htt,
          fun hnone => absurd hnone.symm (some_ne_none _)⟩
      · rw [update_of_ne hb]
    rw [registered_iff] at ht
    refine h.congr_tables hsound rfl rfl (fun t' i => ?_) fun t' i => ?_ <;>
      · simp only [registered_iff, used, NbrTables.locked]
        by_cases htt : t' = t
        · subst htt
          simp [hfree i, ht]
        · rw [update_of_ne htt, hreg t' htt]
  · exact h

end Inv

/-! ### Evictions -/

/-- The callback that an eviction owes the table with the index. -/
def called (s : NbrTables T) (k : NbrIndex) (b : Fin maxNumTables) : Option (T × NbrIndex) :=
  match s.allTables b with
  | some t => if (s.table t).callback ∧ s.used t k then some (t, k) else none
  | none => none

variable {b : Fin maxNumTables} {r : NbrTables T × List (NbrEvent T)}

theorem called_eq_some (h : Sound extra s) : s.called k b = some (t, i) ↔
      i = k ∧ (s.table t).index = b ∧ s.nbrTableIsRegistered t ∧
        (s.table t).callback ∧ s.used t k := by
  rw [called]
  constructor
  · intro hc
    split at hc
    · rename_i t' ht'
      obtain ⟨hu, heq⟩ := ite_none_right_eq_some.mp hc
      cases heq
      exact ⟨rfl, h.index ht', registered_iff.mpr (h.index ht' ▸ ht'), hu⟩
    · cases hc
  · rintro ⟨rfl, rfl, ht, hu⟩
    rw [registered_iff.mp ht]
    exact if_pos hu

/-- A turn of the loop of `remove_key`, with the callbacks of this program. -/
theorem callCallback_storeHost (b : Fin maxNumTables) (es : List (NbrEvent T)) :
    storeHost.callCallback k (s, es) b =
      match s.called k b with
      | some (t, _) => (s.nbrTableRemove t k, es ++ [NbrEvent.callback t k, NbrEvent.removed t k])
      | none => (s, es) := by
  rw [called]
  change (match s.allTables b with | some t => _ | none => _) = _
  cases s.allTables b with
  | none => rfl
  | some t =>
    by_cases hu : (s.table t).callback ∧ s.used t k
    · simp only [if_pos hu]
      exact if_pos hu
    · simp only [if_neg hu]
      exact if_neg hu

/-- A table that removes its item has no other table called or not called for it. -/
theorem called_nbrTableRemove (h : Sound extra s) (ht : s.nbrTableIsRegistered t)
    (hb : b ≠ (s.table t).index) : (s.nbrTableRemove t k).called k b = s.called k b := by
  refine ext fun q => ?_
  obtain ⟨t', i⟩ := q
  rw [called_eq_some h, called_eq_some (h.nbrTableRemove ht)]
  refine and_congr_right fun _ => and_congr_right fun hb' => and_congr_right fun _ =>
    and_congr_right fun _ => ?_
  have hne : ¬(k = k ∧ (s.table t').index = (s.table t).index) := by
    rintro ⟨-, heq⟩
    exact hb (hb'.symm.trans heq)
  change (s.setUsed t k false).used t' k = true ↔ _
  rw [used_setUsed, if_neg hne]

/-- **Callbacks.**  Those of the tables that use the neighbour are called once each. -/
theorem Inv.callCallbacks {l : List (Fin maxNumTables)} (hl : l.Nodup)
    (h : Inv [] s (es.foldl Store.update sp))
    (hr : r = l.foldl (storeHost.callCallback k) (s, es)) :
    Inv [] r.1 (r.2.foldl Store.update sp) ∧ SameKeys s r.1 ∧
      callbacks r.2 = callbacks es ++ l.filterMap (s.called k) ∧
      ∀ i b, NbrEvent.evicted i b ∈ r.2 → NbrEvent.evicted i b ∈ es := by
  induction l generalizing s es with
  | nil =>
    subst hr
    exact ⟨h, ⟨rfl, rfl, rfl, rfl⟩, (append_nil _).symm, fun _ _ he => he⟩
  | cons b l ih =>
    obtain ⟨hb, hl⟩ := nodup_cons.mp hl
    rw [foldl_cons] at hr
    cases hcalled : s.called k b with
    | none =>
      rw [callCallback_storeHost, hcalled] at hr
      rw [filterMap_cons_none hcalled]
      exact ih hl h hr
    | some q =>
      obtain ⟨t, i⟩ := q
      obtain ⟨rfl, hindex, hreg, -⟩ := (called_eq_some h.sound).mp hcalled
      have hinv : Inv [] (s.nbrTableRemove t i)
          ((es ++ [NbrEvent.callback t i, NbrEvent.removed t i]).foldl Store.update sp) := by
        rw [foldl_append]
        exact h.remove hreg
      rw [callCallback_storeHost, hcalled] at hr
      obtain ⟨hinv', hsame, hcalls, hev⟩ := ih hl hinv hr
      -- the tables behind this one are called as they would have been at first
      have hrest : ∀ c ∈ l, (s.nbrTableRemove t i).called i c = s.called i c := fun c hc =>
        called_nbrTableRemove h.sound hreg fun heq => hb (hindex ▸ heq ▸ hc)
      refine ⟨hinv', ⟨hsame.keys, hsame.lladdr, hsame.allTables, hsame.table⟩, ?_, fun j a he => ?_⟩
      · rw [hcalls, filterMap_congr hrest, filterMap_cons_some hcalled]
        simp
      · simpa using hev j a he

section

variable (h : Inv [] s sp)

include h

/-- **Eviction.**  The block of the neighbour is left over, and the tables are the same. -/
theorem Inv.removeKey (hk : k ∈ s.keys) (hfree : s.lockedMap k = 0)
    (hr : r = storeHost.removeKey (s, []) k) :
    Inv [k] r.1 (r.2.foldl Store.update sp) ∧ SafeEviction s sp r.2 ∧
      ∃ s', SameKeys s s' ∧ r.1 = s'.dropKey k := by
  obtain ⟨q, hq⟩ : ∃ q, q = (finRange maxNumTables).foldl (storeHost.callCallback k) (s, []) :=
    ⟨_, rfl⟩
  obtain ⟨hinv, hsame, hcalls, hev⟩ := Inv.callCallbacks (nodup_finRange _) h hq
  have hr' : r = (q.1.dropKey k, q.2 ++ [NbrEvent.evicted k (s.lladdr k)]) := by
    rw [hr, Host.removeKey, ← hq, ← hsame.lladdr]
    rfl
  have hcallbacks : callbacks r.2 = (finRange maxNumTables).filterMap (s.called k) := by
    rw [hr']
    simpa using hcalls
  have hevicted : ∀ i a, .evicted i a ∈ r.2 ↔ i = k ∧ a = s.lladdr k := by
    intro i a
    rw [hr', mem_append, mem_singleton, NbrEvent.evicted.injEq]
    exact or_iff_right fun he => absurd (hev i a he) not_mem_nil
  have hmem : ∀ t i, (t, i) ∈ callbacks r.2 ↔
      i = k ∧ s.nbrTableIsRegistered t ∧ (s.table t).callback ∧ s.used t k := by
    intro t i
    rw [hcallbacks, mem_filterMap]
    constructor
    · rintro ⟨b, -, hb⟩
      obtain ⟨rfl, -, hreg⟩ := (called_eq_some h.sound).mp hb
      exact ⟨rfl, hreg⟩
    · rintro ⟨rfl, hreg⟩
      exact ⟨_, mem_finRange _, (called_eq_some h.sound).mpr ⟨rfl, rfl, hreg⟩⟩
  refine ⟨?_, ⟨fun i a t he => ?_, ?_, fun t i => ?_⟩, q.1, hsame, by rw [hr']⟩
  · rw [hr', foldl_append]
    exact hinv.evict (a := s.lladdr k) (hsame.keys ▸ hk)
  · obtain ⟨rfl, -⟩ := (hevicted i a).mp he
    rw [← Bool.not_eq_true, h.locked, locked_of_lockedMap hfree]
    exact fun hl => Bool.false_ne_true hl.2
  · rw [hcallbacks]
    -- the index of a table says for which turn of the loop it was called
    refine (nodup_finRange _).filterMap fun b c q hb hc => ?_
    exact ((called_eq_some h.sound).mp hb).2.1.symm.trans ((called_eq_some h.sound).mp hc).2.1
  · rw [hmem]
    constructor
    · rintro ⟨rfl, hreg, hcb, hu⟩
      exact ⟨_, (hevicted ..).mpr ⟨rfl, rfl⟩, (h.stored ..).mpr ⟨hreg, hk, rfl, hu⟩, hcb⟩
    · rintro ⟨a, he, hs, hcb⟩
      obtain ⟨rfl, -⟩ := (hevicted ..).mp he
      obtain ⟨hreg, -, -, hu⟩ := (h.stored ..).mp hs
      exact ⟨rfl, hreg, hcb, hu⟩

/-- `nbr_table_allocate`: a block for a new key, from the memory block or by an eviction. -/
theorem Inv.allocate {o : Option NbrIndex} (hr : storeHost.nbrTableAllocate none (s, []) = (r, o)) :
    Inv o.toList r.1 (r.2.foldl Store.update sp) ∧ SafeEviction s sp r.2 ∧
      (∀ t, r.1.nbrTableIsRegistered t = s.nbrTableIsRegistered t) ∧
      ∀ i ∈ r.1.keys, i ∈ s.keys ∧ r.1.lladdr i = s.lladdr i := by
  rw [Host.nbrTableAllocate] at hr
  split at hr
  · rename_i k count ha
    cases hr
    exact ⟨h.alloc ha, .nil, fun _ => rfl, fun _ hi => ⟨hi, rfl⟩⟩
  · split at hr
    · cases hr
      exact ⟨h, .nil, fun _ => rfl, fun _ hi => ⟨hi, rfl⟩⟩
    · rename_i k hk
      obtain ⟨hmem, hfree⟩ : k ∈ s.keys ∧ s.lockedMap k = 0 :=
        (findLeastUsed_spec hk).resolve_left (some_ne_none k).symm
      -- the neighbour is not locked, so there is nothing to unlock
      have hsame : { s with lockedMap := update s.lockedMap k 0 } = s := by
        rw [← hfree, update_eq_self]
      change (storeHost.removeKey ({ s with lockedMap := update s.lockedMap k 0 }, []) k,
        some k) = _ at hr
      rw [hsame] at hr
      obtain ⟨hremove, rfl⟩ := Prod.mk.inj hr
      obtain ⟨hinv, hsafe, s', hs', hdrop⟩ := h.removeKey hmem hfree hremove.symm
      refine ⟨hinv, hsafe, fun t => ?_, fun i hi => ?_⟩
      · rw [hdrop, nbrTableIsRegistered, nbrTableIsRegistered, ← hs'.allTables, ← hs'.table]
        rfl
      · rw [hdrop] at hi ⊢
        have hi' : i ∈ listRemove s.keys k := hs'.keys ▸ hi
        exact ⟨((mem_listRemove h.sound.nodup).mp hi').2, congrFun hs'.lladdr i⟩

/-- `nbr_table_add_lladdr`. -/
theorem Inv.addStored (ht : s.nbrTableIsRegistered t) {lladdr : Option Linkaddr}
    (hr : s.addStored t lladdr = r) :
    Inv [] r.1 (r.2.foldl Store.update sp) ∧ SafeEviction s sp r.2 := by
  rw [NbrTables.addStored, Host.nbrTableAddLladdr] at hr
  cases hk : s.indexFromLladdr lladdr with
  | some k =>
    obtain ⟨hmem, hka⟩ := h.sound.indexFromLladdr_eq_some.mp hk
    simp only [storeHost, hk, nil_append] at hr
    rw [← hr]
    exact ⟨h.addUsed ht hmem hka, .added .nil⟩
  | none =>
    rcases hq : storeHost.nbrTableAllocate none (s, []) with ⟨⟨s', es⟩, o⟩
    obtain ⟨hinv, hsafe, hreg, hkeys⟩ := h.allocate hq
    rw [hq] at hr
    simp only [storeHost, hk] at hr
    cases o with
    | none =>
      cases hr
      exact ⟨hinv, hsafe⟩
    | some k =>
      cases hr
      have hnew : ∀ i ∈ s'.keys, s'.lladdr i ≠ lladdr.getD linkaddrNull := by
        intro i hi
        rw [(hkeys i hi).2]
        exact Sound.indexFromLladdr_eq_none hk i (hkeys i hi).1
      have hadd : Inv [] (s'.addKey k (lladdr.getD linkaddrNull)) (es.foldl Store.update sp) :=
        hinv.addKey hnew
      have hmem : k ∈ (s'.addKey k (lladdr.getD linkaddrNull)).keys :=
        (mem_listAdd hinv.sound.nodup).mpr (.inl rfl)
      dsimp only
      rw [foldl_append]
      exact ⟨hadd.addUsed ((hreg t).trans ht) hmem (update_self ..), hsafe.added⟩

/-- **A step keeps the tables and the store together.** -/
theorem Inv.call {c : NbrCall T} {s' : NbrTables T} (hc : s.call c = some (s', es)) :
    Inv [] s' (es.foldl Store.update sp) ∧ SafeEviction s sp es := by
  cases c with
  | register t callback =>
    cases hc
    exact ⟨h.register, .nil⟩
  | addLladdr t lladdr =>
    obtain ⟨ht, hc⟩ := ite_none_right_eq_some.mp hc
    exact h.addStored ht (some.inj hc)
  | remove t item =>
    obtain ⟨ht, hc⟩ := ite_none_right_eq_some.mp hc
    cases item with
    | none =>
      cases hc
      exact ⟨h, .nil⟩
    | some i =>
      cases hc
      exact ⟨h.remove ht, .of_quiet rfl (by simp)⟩
  | lock t item | unlock t item =>
    obtain ⟨ht, hc⟩ := ite_none_right_eq_some.mp hc
    cases item with
    | none =>
      cases hc
      exact ⟨h, .nil⟩
    | some i =>
      cases hc
      exact ⟨h.setLocked ht, .of_quiet rfl (by simp)⟩

/-! ### The neighbour table as a store -/

theorem Inv.get (ht : s.nbrTableIsRegistered t) (lladdr : Option Linkaddr) :
    s.nbrTableGetFromLladdr t lladdr = sp.stored t (lladdr.getD linkaddrNull) := by
  refine ext fun i => ?_
  rw [h.stored, nbrTableGetFromLladdr, filter_eq_some_iff, h.sound.indexFromLladdr_eq_some]
  tauto

end

/-- What the tables are to their users after the history `sp`. -/
structure KeyedStore (s : NbrTables T) (sp : Store T) : Prop where
  distinct : (s.keys.map s.lladdr).Nodup
  get : ∀ t, s.nbrTableIsRegistered t → ∀ lladdr,
    s.nbrTableGetFromLladdr t lladdr = sp.stored t (lladdr.getD linkaddrNull)
  enumerates : ∀ t, s.nbrTableIsRegistered t → ∃ l, Enumerates s t (s.nbrTableHead t) l ∧ l.Nodup ∧
    ∀ i, i ∈ l ↔ ∃ a, sp.stored t a = some i
  evicts : ∀ c s' es, s.call c = some (s', es) → SafeEviction s sp es

theorem Inv.keyedStore (h : Inv [] s sp) : KeyedStore s sp where
  distinct := h.sound.nodup_lladdrs
  get _ ht := h.get ht
  enumerates t ht := by
    refine ⟨_, enumerates_head h.sound.nodup, h.sound.nodup.filter _, fun i => ?_⟩
    rw [mem_filter]
    constructor
    · rintro ⟨hi, hu⟩
      exact ⟨s.lladdr i, (h.stored ..).mpr ⟨ht, hi, rfl, hu⟩⟩
    · rintro ⟨a, ha⟩
      obtain ⟨-, hi, -, hu⟩ := (h.stored ..).mp ha
      exact ⟨hi, hu⟩
  evicts _ _ _ hc := (h.call hc).2

/-- **The neighbour table is a keyed store with safe eviction.**  After any calls the addresses of
the keys are pairwise different, a registered table finds for an address the item that it last added
and that was not removed or evicted since, its items in use are those that the loop from
`nbr_table_head` visits, and the next call evicts only a neighbour that no table has locked, and
calls the callbacks of exactly the tables that use it, once each. -/
theorem nbr_table_keyed_store {tr : List (NbrCall T × List (NbrEvent T))} {s : NbrTables T}
    (hrun : Runs call (fun _ _ => True) (initial T) tr s) :
    KeyedStore s ((events tr).foldl Store.update Store.empty) := by
  have hstep : ∀ {s : NbrTables T} {sp c s' es}, Inv [] s sp → True → s.call c = some (s', es) →
      Inv [] s' (es.foldl Store.update sp) ∧ AllGood Store.update (fun _ _ => True) sp es := by
    intro s sp c s' es h _ hc
    exact ⟨(h.call hc).1, allGood_of_forall _ _ fun _ _ => trivial⟩
  exact (hrun.history (Inv []) hstep Inv.initial).1.keyedStore

/-- Seventeen neighbours, of which the first was locked: the second makes room. -/
theorem nbr_table_keyed_store_evicts : ∃ tr s, Runs call (fun _ _ => True) (initial Bool) tr s ∧
      NbrEvent.evicted 1 (List.Vector.replicate 8 1) ∈ events tr ∧
      NbrEvent.callback true 1 ∈ events tr ∧
      KeyedStore s ((events tr).foldl Store.update Store.empty) := by
  have hrun : (execute call (fun _ _ => True) (initial Bool)
      ([.register true true, .addLladdr true (some (List.Vector.replicate 8 0)),
        .lock true (some 0)] ++
        (range 16).map fun n =>
          .addLladdr true (some (List.Vector.replicate 8 (n + 1).toUInt8)))).map
      (fun r => decide (NbrEvent.evicted 1 (List.Vector.replicate 8 1) ∈ events r.2 ∧
        NbrEvent.callback true 1 ∈ events r.2)) = some true := by
    decide +kernel
  obtain ⟨r, hr, hevicted, hcallback⟩ := exists_run_of_decide hrun
  exact ⟨r.2, r.1, hr, hevicted, hcallback, nbr_table_keyed_store hr⟩

end NbrTables

end Nespy.Net
