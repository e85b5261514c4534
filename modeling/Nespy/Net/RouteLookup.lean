import Mathlib.Data.Fintype.Card
import Nespy.Net.Route

/-!
# Net — which route is found

`uip_ds6_route_lookup` keeps the last of the longest routes whose prefix is that of the address, and
moves it to the head of the list.  `uip_ipaddr_prefixcmp` compares `length >> 3` whole bytes.

**The lookup is longest-prefix match for the lengths that are a multiple of 8 and at most 128, and
for no others** (`route_lookup_longest_iff`).  The bits of a prefix behind its last whole byte are
never compared, so with any other length up to 128 in the table some address is looked up wrongly:
two addresses that differ in those bits, and in no byte that is compared, get the same route.
-/

open List

namespace Nespy.Net.Routes

open Nespy.Sys
open Nespy.Sicslowpan (Ipaddr)

variable (s : Routes) (behind : RouteIndex → Bool) (addr : Ipaddr)

/-- Bit `i` of an address, from the front. -/
def bit (a : Ipaddr) (i : ℕ) : Bool := (a.u8 (i / 8)).toBitVec.getMsbD (i % 8)

/-- The first `length` bits of the address are those of the route. -/
def Covers (r : RouteIndex) : Prop :=
  (s.route r).length ≤ 128 ∧ ∀ i < (s.route r).length.toNat, bit addr i = bit (s.route r).ipaddr i

/-- A longest route that covers the address is returned and stands first in the list. -/
structure LongestMatch (s s' : Routes) (addr : Ipaddr) (o : Option RouteIndex) : Prop where
  perm : s.routelist.Perm s'.routelist
  none : o = none → ∀ q ∈ s.routelist, ¬s.Covers addr q
  some : ∀ r, o = some r → s'.routelist.head? = some r ∧ s.Covers addr r ∧
    ∀ q ∈ s.routelist, s.Covers addr q → (s.route q).length ≤ (s.route r).length

/-- `uip_ipaddr_prefixcmp` on a route. -/
def compares (r : RouteIndex) : Bool :=
  uipIpaddrPrefixcmp (behind r) addr (s.route r).ipaddr (s.route r).length

variable {s behind addr} {r : RouteIndex}

/-- The loop keeps what it has found, or finds a longest route in the rest of the list. -/
theorem lookupFrom_best (found : Option RouteIndex) (longest : UInt8) (l : List RouteIndex) :
    (s.lookupFrom behind addr found longest l = found ∧
      ∀ q ∈ l, s.compares behind addr q → (s.route q).length < longest) ∨
    ∃ r ∈ l, s.lookupFrom behind addr found longest l = some r ∧ s.compares behind addr r ∧
      longest ≤ (s.route r).length ∧ ∀ q ∈ l, s.compares behind addr q → (s.route q).length ≤ 128 →
        (s.route q).length ≤ (s.route r).length := by
  induction l generalizing found longest with
  | nil => exact .inl ⟨rfl, fun q hq => absurd hq not_mem_nil⟩
  | cons x l ih =>
    rw [lookupFrom]
    split_ifs with hmatch hall
    · exact .inr ⟨x, mem_cons_self, rfl, hmatch.2, hmatch.1, fun q _ _ hle => hall ▸ hle⟩
    · obtain ⟨heq, hless⟩ | ⟨r, hr, heq, hcmp, hle, hmax⟩ := ih (some x) (s.route x).length
      · refine .inr ⟨x, mem_cons_self, heq, hmatch.2, hmatch.1, forall_mem_cons.mpr ⟨?_, ?_⟩⟩
        · exact fun _ _ => UInt8.le_refl _
        · exact fun q hq hcmp _ => UInt8.le_of_lt (hless q hq hcmp)
      · exact .inr ⟨r, mem_cons_of_mem _ hr, heq, hcmp, UInt8.le_trans hmatch.1 hle,
          forall_mem_cons.mpr ⟨fun _ _ => hle, hmax⟩⟩
    · have hx : s.compares behind addr x → (s.route x).length < longest := fun hcmp =>
        UInt8.not_le.mp fun hle => hmatch ⟨hle, hcmp⟩
      obtain ⟨heq, hless⟩ | ⟨r, hr, heq, hcmp, hle, hmax⟩ := ih found longest
      · exact .inl ⟨heq, forall_mem_cons.mpr ⟨hx, hless⟩⟩
      · exact .inr ⟨r, mem_cons_of_mem _ hr, heq, hcmp, hle,
          forall_mem_cons.mpr ⟨fun hcmp _ => UInt8.le_trans (UInt8.le_of_lt (hx hcmp)) hle, hmax⟩⟩

/-- What `uip_ds6_route_lookup` does: no route compares, or a listed one moves to the head. -/
theorem lookup_cases (hnodup : s.routelist.Nodup) :
    (s.uipDs6RouteLookup behind (some addr) = (s, none) ∧
      ∀ q ∈ s.routelist, ¬s.compares behind addr q) ∨
    ∃ r l, s.uipDs6RouteLookup behind (some addr) = ({ s with routelist := l }, some r) ∧
      s.routelist.Perm l ∧ l.head? = some r ∧ s.compares behind addr r ∧
      ∀ q ∈ s.routelist, s.compares behind addr q → (s.route q).length ≤ 128 →
        (s.route q).length ≤ (s.route r).length := by
  rw [uipDs6RouteLookup]
  obtain ⟨heq, hless⟩ | ⟨r, hr, heq, hcmp, -, hmax⟩ := lookupFrom_best none 0 s.routelist
  · rw [heq]
    exact .inl ⟨rfl, fun q hq hcmp => Nat.not_lt_zero _ (hless q hq hcmp)⟩
  · rw [heq]
    dsimp only
    split_ifs with hhead
    · exact .inr ⟨r, s.routelist, rfl, .refl _, hhead, hcmp, hmax⟩
    · have hnot : r ∉ listRemove s.routelist r := fun hr => ((mem_listRemove hnodup).mp hr).1 rfl
      refine .inr ⟨r, _, rfl, ?_, rfl, hcmp, hmax⟩
      rw [listPush, listRemove, erase_of_not_mem hnot]
      exact perm_cons_erase hr

theorem prefixcmp_iff {b : Bool} {ipaddr : Ipaddr} {length : UInt8} :
    uipIpaddrPrefixcmp b addr ipaddr length ↔
    (∀ j < length.toNat / 8, addr.u8 j = ipaddr.u8 j) ∧ (length.toNat / 8 ≤ 16 ∨ b) := by
  rw [uipIpaddrPrefixcmp, Bool.and_eq_true, beq_iff_eq, Bool.or_eq_true, decide_eq_true_eq]
  refine and_congr_left' ⟨fun h j hj => ?_, fun h => ext_getElem (by simp) fun j hj _ => ?_⟩
  · have hbyte := congrArg (fun l : List UInt8 => l[j]?.getD 0) h
    simpa [getElem?_take, hj] using hbyte
  · rw [length_take, List.Vector.toList_length, Nat.lt_min] at hj
    simpa [hj.2] using h j hj.1

/-- Whole bytes are equal when their bits are. -/
theorem bits_iff {a a' : Ipaddr} {k : ℕ} :
    (∀ i < 8 * k, bit a i = bit a' i) ↔ ∀ j < k, a.u8 j = a'.u8 j := by
  constructor
  · refine fun h j hj => UInt8.eq_of_toBitVec_eq (BitVec.eq_of_getMsbD_eq fun i hi => ?_)
    have hbit := h (8 * j + i) (by omega)
    rwa [bit, bit, Nat.mul_add_div (by decide), Nat.mul_add_mod, Nat.mod_eq_of_lt hi,
      Nat.div_eq_of_lt hi] at hbit
  · intro h i hi
    rw [bit, bit, h (i / 8) (by omega)]

theorem covers_iff (h8 : 8 ∣ (s.route r).length.toNat) (hle : (s.route r).length ≤ 128) :
    s.Covers addr r ↔ s.compares behind addr r := by
  have hle' : (s.route r).length.toNat ≤ 128 := hle
  rw [compares, prefixcmp_iff, ← bits_iff, Nat.mul_div_cancel' h8, Covers]
  exact ⟨fun h => ⟨h.2, .inl (by omega)⟩, fun h => ⟨hle, h.1⟩⟩

theorem lookup_longest (hnodup : s.routelist.Nodup)
    (h : ∀ r ∈ s.routelist, 8 ∣ (s.route r).length.toNat ∧ (s.route r).length ≤ 128) :
    LongestMatch s (s.uipDs6RouteLookup behind (some addr)).1 addr
      (s.uipDs6RouteLookup behind (some addr)).2 := by
  have hcovers : ∀ r ∈ s.routelist, s.Covers addr r ↔ s.compares behind addr r := fun r hr =>
    covers_iff (h r hr).1 (h r hr).2
  obtain ⟨heq, hnone⟩ | ⟨r, l, heq, hperm, hhead, hcmp, hmax⟩ := lookup_cases hnodup
  · rw [heq]
    exact ⟨.refl _, fun _ q hq hc => hnone q hq ((hcovers q hq).mp hc), nofun⟩
  · rw [heq]
    have hr : r ∈ s.routelist := hperm.mem_iff.mpr (mem_of_head? hhead)
    refine ⟨hperm, nofun, fun r' hr' => ?_⟩
    cases hr'
    exact ⟨hhead, (hcovers r hr).mpr hcmp, fun q hq hc => hmax q hq ((hcovers q hq).mp hc) hc.1⟩

/-- Some address has the whole bytes of the prefix `::`, but not the bits behind them. -/
theorem exists_not_covered {length : UInt8} (h : ¬(8 ∣ length.toNat ∧ length ≤ 128)) :
    ∃ addr, uipIpaddrPrefixcmp true addr (.ofBytes []) length ∧
      ¬(length ≤ 128 ∧ ∀ i < length.toNat, bit addr i = bit (.ofBytes []) i) := by
  have htable : ∀ n : Fin 256, ¬(8 ∣ (UInt8.ofNat n).toNat ∧ UInt8.ofNat n ≤ 128) →
      let addr := Ipaddr.ofBytes (replicate (n / 8) 0 ++ [0xff])
      uipIpaddrPrefixcmp true addr (.ofBytes []) (UInt8.ofNat n) ∧
        ¬(UInt8.ofNat n ≤ 128 ∧ ∀ i < (UInt8.ofNat n).toNat, bit addr i = bit (.ofBytes []) i) := by
    decide +kernel
  have hn := htable ⟨length.toNat, length.toNat_lt⟩
  rw [UInt8.ofNat_toNat] at hn
  exact ⟨_, hn h⟩

/-! ### One table -/

/-- The lookup sees of an address how it compares with the routes. -/
theorem lookupFrom_congr {addr' : Ipaddr} {l : List RouteIndex}
    (h : ∀ r ∈ l, s.compares behind addr r = s.compares behind addr' r) (found : Option RouteIndex)
    (longest : UInt8) :
    s.lookupFrom behind addr found longest l = s.lookupFrom behind addr' found longest l := by
  induction l generalizing found longest with
  | nil => rfl
  | cons x l ih =>
    obtain ⟨hx, hl⟩ := forall_mem_cons.mp h
    rw [compares, compares] at hx
    rw [lookupFrom, lookupFrom, hx, ih hl, ih hl]

/-- The address with the first `k` bytes of another one, and a byte behind them. -/
def withByte (ipaddr : Ipaddr) (k : ℕ) (c : UInt8) : Ipaddr :=
  .ofBytes (ipaddr.toList.take k ++ [c])

theorem withByte_of_lt {ipaddr : Ipaddr} {k j : ℕ} (c : UInt8) (hk : k < 16) (hj : j < k) :
    (withByte ipaddr k c).u8 j = ipaddr.u8 j := by
  simp [withByte, Ipaddr.ofBytes, show j < 16 by omega, getElem?_append_left, hj]

theorem withByte_self {ipaddr : Ipaddr} {k : ℕ} (c : UInt8) (hk : k < 16) :
    (withByte ipaddr k c).u8 k = c := by
  have hlen : (ipaddr.toList.take k).length = k := by simp [hk.le]
  simp [withByte, Ipaddr.ofBytes, hk, hlen]

/-- In each half of the bytes there is one that no route has at that place. -/
theorem exists_free_byte (f : RouteIndex → UInt8) (b : Bool) :
    ∃ c : UInt8, c.toBitVec.getMsbD 0 = b ∧ ∀ q, f q ≠ c := by
  have hhalf : ∀ b : Bool, ∀ i : Fin 128,
      (UInt8.ofNat (i + b.toNat * 128)).toBitVec.getMsbD 0 = b := by
    decide +kernel
  by_contra hnone
  have htaken : ∀ i : Fin 128, ∃ q, f q = UInt8.ofNat (i + b.toNat * 128) := fun i => by
    by_contra hfree
    exact hnone ⟨_, hhalf b i, not_exists.mp hfree⟩
  choose g hg using htaken
  have hinj : Function.Injective g := fun i i' heq => by
    have hbyte : UInt8.ofNat (i + b.toNat * 128) = UInt8.ofNat (i' + b.toNat * 128) := by
      rw [← hg, ← hg, heq]
    have hnat := congrArg UInt8.toNat hbyte
    have hb := b.toNat_le
    have hsize : UInt8.size = 256 := rfl
    rw [UInt8.toNat_ofNat_of_lt' (by omega), UInt8.toNat_ofNat_of_lt' (by omega)] at hnat
    exact Fin.ext (by omega)
  have hcard := Fintype.card_le_of_injective g hinj
  rw [Fintype.card_fin, Fintype.card_fin, uipDs6RouteNb] at hcard
  omega

/-- Two addresses that differ in the bit behind the whole bytes of a route, but not in how they
compare. -/
theorem exists_alike (s : Routes) (behind : RouteIndex → Bool) (ipaddr : Ipaddr) {k : ℕ}
    (hk : k < 16) :
    ∃ a a', bit a (8 * k) = false ∧ bit a' (8 * k) = true ∧ (∀ j < k, a.u8 j = ipaddr.u8 j) ∧
      ∀ q, s.compares behind a q = s.compares behind a' q := by
  -- no route has their next byte
  obtain ⟨c, hc, hfree⟩ := exists_free_byte (fun q => (s.route q).ipaddr.u8 k) false
  obtain ⟨c', hc', hfree'⟩ := exists_free_byte (fun q => (s.route q).ipaddr.u8 k) true
  refine ⟨withByte ipaddr k c, withByte ipaddr k c', ?_, ?_,
    fun j => withByte_of_lt c hk, fun q => ?_⟩
  · rw [bit, Nat.mul_div_cancel_left _ (by decide), Nat.mul_mod_right, withByte_self c hk, hc]
  · rw [bit, Nat.mul_div_cancel_left _ (by decide), Nat.mul_mod_right, withByte_self c' hk, hc']
  · rw [Bool.eq_iff_iff, compares, compares, prefixcmp_iff, prefixcmp_iff]
    by_cases hshort : (s.route q).length.toNat / 8 ≤ k
    · refine and_congr_left' (forall₂_congr fun j hj => ?_)
      rw [withByte_of_lt c hk (by omega), withByte_of_lt c' hk (by omega)]
    · refine iff_of_false (fun hcmp => hfree q ?_) fun hcmp => hfree' q ?_
      · rw [← hcmp.1 k (by omega), withByte_self c hk]
      · rw [← hcmp.1 k (by omega), withByte_self c' hk]

/-- A table that matches every address has whole bytes only. -/
theorem dvd_of_longest (hnodup : s.routelist.Nodup)
    (hle : ∀ r ∈ s.routelist, (s.route r).length ≤ 128)
    (h : ∀ addr, LongestMatch s (s.uipDs6RouteLookup behind (some addr)).1 addr
      (s.uipDs6RouteLookup behind (some addr)).2) : ∀ r ∈ s.routelist,
        8 ∣ (s.route r).length.toNat := by
  intro r hr
  by_contra hdvd
  have hle' : (s.route r).length.toNat ≤ 128 := UInt8.le_iff_toNat_le.mp (hle r hr)
  have hk : (s.route r).length.toNat / 8 < 16 := by omega
  obtain ⟨a, a', hbit, hbit', hbytes, hsame⟩ := exists_alike s behind (s.route r).ipaddr hk
  have hcmp : s.compares behind a r := by
    rw [compares, prefixcmp_iff]
    exact ⟨hbytes, .inl hk.le⟩
  have heq : s.uipDs6RouteLookup behind (some a) = s.uipDs6RouteLookup behind (some a') := by
    rw [uipDs6RouteLookup, uipDs6RouteLookup, lookupFrom_congr fun q _ => hsame q]
  obtain ⟨-, hnone⟩ | ⟨r', l, hlookup, -, -, -, hlongest⟩ := @lookup_cases s behind a hnodup
  · exact hnone r hr hcmp
  · -- the route that is found has a bit of both
    have hlong := UInt8.le_iff_toNat_le.mp (hlongest r hr hcmp (hle r hr))
    have hcovers := ((h a).some r' (by rw [hlookup])).2.1.2 (8 * ((s.route r).length.toNat / 8))
      (by omega)
    have hcovers' := ((h a').some r' (by rw [← heq, hlookup])).2.1.2
      (8 * ((s.route r).length.toNat / 8)) (by omega)
    rw [← hcovers', hbit, hbit'] at hcovers
    cases hcovers

/-- **Longest-prefix match.**  Whatever the routes and the order of the list, the lookup returns a
longest route that has the first bits of the address, and moves it to the head, if the lengths are
whole bytes of an address; for any other length there are a table and an address for which it does
not.  In a table with lengths up to 128 it does so for every address just when they are whole
bytes. -/
theorem route_lookup_longest_iff (s : Routes) (P : UInt8 → Prop) :
    ((∀ route routelist behind addr, routelist.Nodup → (∀ r ∈ routelist, P (route r).length) →
      LongestMatch { s with route, routelist }
        ({ s with route, routelist }.uipDs6RouteLookup behind (some addr)).1
        addr ({ s with route, routelist }.uipDs6RouteLookup behind (some addr)).2) ↔
    ∀ length, P length → 8 ∣ length.toNat ∧ length ≤ 128) ∧
    (s.routelist.Nodup → (∀ r ∈ s.routelist, (s.route r).length ≤ 128) → ∀ behind,
      ((∀ addr, LongestMatch s (s.uipDs6RouteLookup behind (some addr)).1 addr
        (s.uipDs6RouteLookup behind (some addr)).2) ↔
        ∀ r ∈ s.routelist, 8 ∣ (s.route r).length.toNat)) := by
  refine ⟨⟨?_, ?_⟩, fun hnodup hle behind => ⟨dvd_of_longest hnodup hle, fun h addr => ?_⟩⟩
  · intro h length hP
    by_contra hbad
    obtain ⟨addr, hcmp, hnot⟩ := exists_not_covered hbad
    have hmatch := h (fun _ => ⟨.ofBytes [], length, none⟩) [0] (fun _ => true) addr
      (nodup_singleton _) fun _ _ => hP
    exact hnot (hmatch.some 0 (by simp [uipDs6RouteLookup, lookupFrom, hcmp])).2.1
  · intro h route routelist behind addr hnodup hP
    exact lookup_longest hnodup fun r hr => h _ (hP r hr)
  · exact lookup_longest hnodup fun r hr => ⟨h r hr, hle r hr⟩

/-- The only route is `2000::/3`. -/
def globalRoute : Routes :=
  { initial with route := fun _ => ⟨.ofBytes [0x20], 3, none⟩, routelist := [0] }

/-- It is found for `fd00::`, whose first bit is another one. -/
theorem global_route_found_for_local :
    ¬LongestMatch globalRoute (globalRoute.uipDs6RouteLookup (fun _ => false)
      (some (.ofBytes [0xfd]))).1
      (.ofBytes [0xfd]) (globalRoute.uipDs6RouteLookup (fun _ => false)
        (some (.ofBytes [0xfd]))).2 := by
  intro h
  have hbits := (h.some 0 (by decide +kernel)).2.1.2
  exact absurd (hbits 0 (by decide)) (by decide)

end Nespy.Net.Routes
