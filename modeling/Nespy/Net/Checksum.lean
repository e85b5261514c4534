import Mathlib.Algebra.BigOperators.Group.List.Basic
import Mathlib.Algebra.GroupWithZero.Nat

/-!
# Net — the Internet checksum

`chksum` adds the big-endian words of the data with end-around carry: its result is the sum modulo
65535, with 0 only for 0 (`chksum_eq`).  A field that holds the complement of the sum of everything
else makes that 65535.
-/

open List

namespace Nespy.Net

/-- `sum += t`, with the carry. -/
def addCarry (sum t : UInt16) : UInt16 :=
  let sum := sum + t
  if sum < t then sum + 1 else sum

/-- `chksum`: the sum of the words with the carries. -/
def chksum (sum : UInt16) : List UInt8 → UInt16
  | [] => sum
  | [a] => addCarry sum (a.toUInt16 <<< 8 + 0)
  | a :: b :: data => chksum (addCarry sum (a.toUInt16 <<< 8 + b.toUInt16)) data

/-- `UIP_HTONS` of a little-endian processor. -/
def uipHtons (n : UInt16) : UInt16 := n <<< 8 ||| n >>> 8

variable (buf : List UInt8) (uipExtLen proto : UInt8)

/-- `upper_layer_len`; the buffer begins with the IPv6 header. -/
def upperLayerLen : UInt16 :=
  (buf.getD 4 0).toUInt16 <<< 8 + (buf.getD 5 0).toUInt16 - uipExtLen.toUInt16

/-- The sum of the pseudo header and the upper layer. -/
def upperLayerSum : UInt16 :=
  let len := upperLayerLen buf uipExtLen
  let sum := chksum (len + proto.toUInt16) ((buf.drop 8).take 32)
  chksum sum ((buf.drop (40 + uipExtLen.toNat)).take len.toNat)

/-- The sum that is left, which is never zero. -/
def upperLayerChksum : UInt16 :=
  let sum := upperLayerSum buf uipExtLen proto
  if sum = 0 then 0xffff else uipHtons sum

/-- A sixteen-bit field in memory. -/
def putField (i : ℕ) (v : UInt16) : List UInt8 :=
  (buf.set i v.toUInt8).set (i + 1) (v >>> 8).toUInt8

/-- The big-endian words of the data, with a zero behind a last single byte. -/
def words : List UInt8 → List ℕ
  | [] => []
  | [a] => [a.toNat * 256]
  | a :: b :: data => (a.toNat * 256 + b.toNat) :: words data

/-- The one's-complement sum of sixteen-bit numbers with sum `n`. -/
def onesSum (n : ℕ) : ℕ := if n = 0 then 0 else (n - 1) % 65535 + 1

theorem onesSum_add (a b : ℕ) : onesSum (onesSum a + b) = onesSum (a + b) := by
  unfold onesSum
  split_ifs <;> omega

theorem toNat_addCarry (x y : UInt16) : (addCarry x y).toNat = onesSum (x.toNat + y.toNat) := by
  have hx := x.toNat_lt
  have hy := y.toNat_lt
  have hadd : (x + y).toNat = (x.toNat + y.toNat) % 65536 := UInt16.toNat_add x y
  have hsucc : (x + y + 1).toNat = ((x + y).toNat + 1) % 65536 := UInt16.toNat_add _ 1
  rw [addCarry, onesSum]
  by_cases hlt : x + y < y
  · have hlt' : (x + y).toNat < y.toNat := hlt
    rw [if_pos hlt]
    split <;> omega
  · have hge : ¬(x + y).toNat < y.toNat := hlt
    rw [if_neg hlt]
    split <;> omega

theorem toNat_word (a b : UInt8) :
    (a.toUInt16 <<< 8 + b.toUInt16).toNat = a.toNat * 256 + b.toNat := by
  have ha := a.toNat_lt
  have hb := b.toNat_lt
  simp
  omega

theorem chksum_eq (sum : UInt16) (data : List UInt8) :
    (chksum sum data).toNat = onesSum (sum.toNat + (words data).sum) := by
  induction data using words.induct generalizing sum with
  | case1 =>
    have hlt := sum.toNat_lt
    rw [chksum, words, sum_nil, onesSum]
    split <;> omega
  | case2 a =>
    rw [chksum, toNat_addCarry, show (0 : UInt16) = (0 : UInt8).toUInt16 from rfl,
      toNat_word, words, sum_singleton]
    rw [UInt8.toNat_zero, Nat.add_zero]
  | case3 a b data ih =>
    rw [chksum, ih, toNat_addCarry, onesSum_add, toNat_word, words, sum_cons, Nat.add_assoc]

/-- The value of a field in memory as a word. -/
def fieldWord (v : UInt16) : ℕ := v.toUInt8.toNat * 256 + (v >>> 8).toUInt8.toNat

theorem sum_words_putField {data : List UInt8} {k : ℕ} (h : 2 * k + 2 ≤ data.length) (v : UInt16) :
    (words (putField data (2 * k) v)).sum =
      (words (putField data (2 * k) 0)).sum + fieldWord v := by
  induction data using words.induct generalizing k with
  | case1 => simp at h
  | case2 a => simp at h
  | case3 a b data ih =>
    cases k with
    | zero =>
      change (fieldWord v + (words data).sum) = 0 + (words data).sum + fieldWord v
      omega
    | succ k =>
      have hk : 2 * k + 2 ≤ data.length := by simpa [Nat.mul_succ] using h
      have hput (v : UInt16) : putField (a :: b :: data) (2 * (k + 1)) v =
        a :: b :: putField data (2 * k) v := rfl
      rw [hput, hput, words, words, sum_cons, sum_cons, ih hk, ← Nat.add_assoc]

variable {buf uipExtLen} {k : ℕ}

theorem toNat_uipHtons (n : UInt16) : (uipHtons n).toNat = n.toNat % 256 * 256 + n.toNat / 256 := by
  have hn := n.toNat_lt
  have h8 : (8 : UInt16).toNat % 16 = 8 := rfl
  have hlow : n.toNat <<< 8 % 2 ^ 16 = (n.toNat % 256) <<< 8 := by
    rw [Nat.shiftLeft_eq, Nat.shiftLeft_eq]
    omega
  rw [uipHtons, UInt16.toNat_or, UInt16.toNat_shiftLeft, UInt16.toNat_shiftRight, h8, hlow,
    ← Nat.shiftLeft_add_eq_or_of_lt (by omega), Nat.shiftLeft_eq, Nat.shiftRight_eq_div_pow]

theorem fieldWord_eq (v : UInt16) : fieldWord v = v.toNat % 256 * 256 + v.toNat / 256 := by
  have hv := v.toNat_lt
  have h8 : (8 : UInt16).toNat % 16 = 8 := rfl
  rw [fieldWord, UInt16.toNat_toUInt8, UInt16.toNat_toUInt8, UInt16.toNat_shiftRight, h8]
  omega

theorem take_drop_putField {i m : ℕ} (h : m ≤ i) (n : ℕ) (v : UInt16) :
    ((putField buf i v).drop m).take n = putField ((buf.drop m).take n) (i - m) v := by
  rw [putField, drop_set, if_neg (by omega), drop_set, if_neg (by omega),
    take_set, take_set, putField, Nat.sub_add_comm h]

/-- The sum depends on the field by its value. -/
theorem upperLayerSum_putField {i : ℕ} (hi : i = 40 + uipExtLen.toNat + 2 * k)
    (h : 2 * k + 2 ≤ (upperLayerLen buf uipExtLen).toNat) (hbuf : i + 2 ≤ buf.length) :
    ∃ n, ∀ v, (upperLayerSum (putField buf i v) uipExtLen proto).toNat =
      onesSum (n + fieldWord v) := by
  have hlen (v : UInt16) : upperLayerLen (putField buf i v) uipExtLen =
      upperLayerLen buf uipExtLen := by
    simp only [upperLayerLen, putField, getD_eq_getElem?_getD]
    rw [getElem?_set_ne (by omega), getElem?_set_ne (by omega), getElem?_set_ne (by omega),
      getElem?_set_ne (by omega)]
  have haddrs (v : UInt16) : ((putField buf i v).drop 8).take 32 = (buf.drop 8).take 32 := by
    have hle : ((buf.drop 8).take 32).length ≤ i - 8 := by
      rw [length_take]
      omega
    rw [take_drop_putField (by omega), putField, set_eq_of_length_le hle,
      set_eq_of_length_le (Nat.le_succ_of_le hle)]
  generalize hl : upperLayerLen buf uipExtLen = len
  generalize hd : (buf.drop (40 + uipExtLen.toNat)).take len.toNat = data
  rw [hl] at h hlen
  have hroom : 2 * k + 2 ≤ data.length := by
    rw [← hd, length_take, length_drop]
    omega
  refine ⟨(chksum (len + proto.toUInt16) ((buf.drop 8).take 32)).toNat +
    (words (putField data (2 * k) 0)).sum, fun v => ?_⟩
  rw [upperLayerSum, hlen, haddrs, take_drop_putField (by omega), hd,
    show i - (40 + uipExtLen.toNat) = 2 * k by omega,
    chksum_eq, sum_words_putField hroom, ← Nat.add_assoc]

/-- **The Internet checksum.**  `chksum` is the one's-complement sum of its argument and the words
of the data.  With the complement of the checksum in its field, which is one of the words of the
upper layer, it is `0xffff`. -/
theorem internet_checksum :
    (∀ sum data, (chksum sum data).toNat = onesSum (sum.toNat + (words data).sum)) ∧
    ∀ buf uipExtLen proto k i, i = 40 + uipExtLen.toNat + 2 * k →
      2 * k + 2 ≤ (upperLayerLen buf uipExtLen).toNat → i + 2 ≤ buf.length →
      upperLayerChksum (putField buf i (~~~upperLayerChksum (putField buf i 0) uipExtLen proto))
        uipExtLen proto =
        0xffff := by
  refine ⟨chksum_eq, fun buf uipExtLen proto k i hi h hbuf => ?_⟩
  obtain ⟨n, hn⟩ := upperLayerSum_putField proto hi h hbuf
  generalize hs : upperLayerSum (putField buf i 0) uipExtLen proto = s
  have hsum : s.toNat = onesSum n := hs ▸ hn 0
  have hlt := s.toNat_lt
  rw [upperLayerChksum, upperLayerChksum, hs]
  by_cases hzero : s = 0
  · have hsame : upperLayerSum (putField buf i (~~~0xffff)) uipExtLen proto = 0 := by
      rw [← hzero, ← hs]
      rfl
    rw [if_pos hzero, if_pos hsame]
  · have hones : upperLayerSum (putField buf i (~~~uipHtons s)) uipExtLen proto = 0xffff := by
      apply UInt16.toNat_inj.mp
      have hne : s.toNat ≠ 0 := fun h0 => hzero (UInt16.toNat_inj.mp h0)
      have hword : fieldWord (~~~uipHtons s) = 65535 - s.toNat := by
        rw [fieldWord_eq, UInt16.toNat_not, toNat_uipHtons, UInt16.size]
        omega
      rw [hn, hword]
      unfold onesSum at hsum ⊢
      split at hsum
      · exact absurd hsum hne
      · rw [if_neg (by omega)]
        change _ = 65535
        omega
    rw [if_neg hzero, hones]
    rfl

/-- An ICMPv6 message of four bytes, whose checksum is the second of its words. -/
theorem internet_checksum_icmp6 : ∃ buf : List UInt8,
    upperLayerLen buf 0 = 4 ∧ upperLayerChksum
      (putField buf 42 (~~~upperLayerChksum (putField buf 42 0) 0 58)) 0 58 =
      0xffff :=
  ⟨replicate 5 0 ++ 4 :: replicate 38 1, rfl,
    internet_checksum.2 _ 0 58 1 42 rfl (by decide) (by decide)⟩

end Nespy.Net
