import Nespy.Coap.ParseOptions

/-!
# Coap — values read back

The value of each option of a message is read back to the option's content: integers from their
bytes, blocks from the fields packed into an integer, paths and queries from their segments
(`accumulateAll_values`).
-/

open List

namespace Nespy.Coap

open Nespy.Lib

/-! ### Integers -/

variable {o : CoapOption} {num v : UInt32} {sep : UInt8}

theorem mask_ne_zero {mask : UInt32} (k : ℕ) (hmask : mask.toBitVec = BitVec.allOnes 32 <<< k) :
    mask &&& v ≠ 0 ↔ 2 ^ k ≤ v.toNat := by
  have h := toNat_high_and v.toBitVec k
  rw [← hmask, ← UInt32.toBitVec_and] at h
  rw [ne_eq, ← UInt32.toNat_inj]
  change ¬ (mask &&& v).toBitVec.toNat = 0 ↔ _
  rw [h, Nat.mul_eq_zero, Nat.div_eq_zero_iff]
  have hpos := Nat.two_pow_pos k
  have hv : v.toBitVec.toNat = v.toNat := rfl
  omega

/-- An integer of up to four bytes. -/
theorem toNat_foldl_bytes (bs : List UInt8) {x : UInt32} (hbs : bs.length ≤ 4)
    (hx : x.toNat < 2 ^ (32 - 8 * bs.length)) :
    (bs.foldl (fun (var : UInt32) b => var <<< 8 ||| b.toUInt32) x).toNat =
      bs.foldl (fun n b => n * 256 + b.toNat) x.toNat := by
  induction bs generalizing x with
  | nil => rfl
  | cons b bs ih =>
    rw [length_cons] at hbs hx
    have hb := b.toNat_lt
    have hsplit : 2 ^ (32 - 8 * bs.length) = 2 ^ (32 - 8 * (bs.length + 1)) * 2 ^ 8 := by
      rw [← Nat.pow_add]
      congr 1
      omega
    have hpush : (x <<< 8 ||| b.toUInt32).toNat = x.toNat * 256 + b.toNat := by
      exact toNat_shiftLeft_or (k := 8) (by decide)
        (hx.trans_le (Nat.pow_le_pow_right (by decide) (by omega))) hb
    rw [foldl_cons, foldl_cons, ih (by omega) (by omega), hpush]

/-- **An integer is read back.** -/
theorem coapParseIntOption_intBytes (v : UInt32) : coapParseIntOption (intBytes v) = v := by
  have hv := v.toNat_lt
  have h3 : 0xff000000 &&& v ≠ 0 ↔ 2 ^ 24 ≤ v.toNat := mask_ne_zero 24 rfl
  have h2 : 0xffff0000 &&& v ≠ 0 ↔ 2 ^ 16 ≤ v.toNat := mask_ne_zero 16 rfl
  have h1 : 0xffffff00 &&& v ≠ 0 ↔ 2 ^ 8 ≤ v.toNat := mask_ne_zero 8 rfl
  have h0 : 0xffffffff &&& v ≠ 0 ↔ 2 ^ 0 ≤ v.toNat := mask_ne_zero 0 rfl
  apply UInt32.toNat_inj.mp
  simp only [intBytes, h3, h2, h1, h0, coapParseIntOption]
  -- the number of bytes, from four down to none
  split_ifs
  all_goals first
    | omega
    | (rw [toNat_foldl_bytes _ (by simp) (by simp)]
       simp
       try omega)

/-! ### Blocks -/

theorem coapLog2_two_pow : ∀ k : Fin 8, coapLog2 ((16 : UInt16) <<< UInt16.ofNat k / 16) = k := by
  decide

/-- The lower four bits of the value of a block: `more` and the exponent of the size. -/
def blockLow (more : Bool) (k : Fin 8) : UInt32 :=
  (if more then 0x8 else 0) ||| UInt32.ofNat k

theorem blockLow_lt : ∀ (more : Bool) (k : Fin 8), (blockLow more k).toNat < 2 ^ 4 := by
  decide

/-- The fields of the lower bits. -/
theorem blockLow_fields : ∀ (more : Bool) (k : Fin 8),
    ((blockLow more k &&& 0x08) >>> 3).toUInt8 = (if more then 1 else 0) ∧
      blockLow more k &&& 0x07 = UInt32.ofNat k ∧ (0xf &&& UInt32.ofNat k) = UInt32.ofNat k := by
  decide

theorem blockValue_eq (num : UInt32) (more : UInt8) (k : Fin 8) :
    blockValue num more ((16 : UInt16) <<< UInt16.ofNat k) =
      num <<< 4 ||| blockLow (more ≠ 0) k := by
  obtain ⟨-, -, hk⟩ := blockLow_fields true k
  simp only [blockValue, blockLow, coapLog2_two_pow, hk, UInt32.or_assoc, decide_eq_true_eq]

theorem exponent : ∀ k : Fin 8, (UInt32.ofNat k).toNat % 32 = k ∧
    (UInt32.ofNat k).toUInt16 = UInt16.ofNat k ∧
    ((16 : UInt16) <<< UInt16.ofNat k).toUInt32.toNat = 16 * 2 ^ (k : ℕ) := by
  decide

/-- A word of a number and four lower bits. -/
theorem split_low {low : UInt32} (hnum : num.toNat < 2 ^ 28) (hlow : low.toNat < 2 ^ 4)
    (hv : v = num <<< 4 ||| low) :
    v >>> 4 = num ∧ v &&& (0xfffffff0 : UInt32) = num <<< 4 ∧
      ∀ mask : UInt32, 0xf &&& mask = mask → v &&& mask = low &&& mask := by
  have htoNat : v.toNat = num.toNat * 16 + low.toNat := by
    rw [hv]
    exact toNat_shiftLeft_or (by decide) hnum hlow
  refine ⟨?_, ?_, fun mask hmask => ?_⟩
  · apply UInt32.toNat_inj.mp
    rw [UInt32.toNat_shiftRight, Nat.shiftRight_eq_div_pow]
    change _ / 16 = _
    omega
  · apply UInt32.toNat_inj.mp
    rw [UInt32.and_comm]
    have h : (0xfffffff0 &&& v).toNat = v.toNat / 2 ^ 4 * 2 ^ 4 := toNat_high_and v.toBitVec 4
    rw [UInt32.toNat_shiftLeft, Nat.shiftLeft_eq]
    change _ = num.toNat * 2 ^ 4 % 2 ^ 32
    omega
  · have hmod : v &&& 0xf = low := by
      apply UInt32.toNat_inj.mp
      rw [UInt32.toNat_and]
      exact (Nat.and_two_pow_sub_one_eq_mod _ 4).trans (by omega)
    rw [← hmod, UInt32.and_assoc, hmask]

/-- **A block is read back**, if its size is a power of two: its number, `more`, its size, and the
offset that belongs to them. -/
theorem parseBlock_blockValue (hnum : num ≤ 0x0fffff) (more : UInt8) (k : Fin 8) :
    let size := (16 : UInt16) <<< UInt16.ofNat k
    parseBlock (blockValue num more size) =
      (num, if more ≠ 0 then 1 else 0, size, num * size.toUInt32) := by
  intro size
  obtain ⟨hmore, hexp, -⟩ := blockLow_fields (more ≠ 0) k
  have hnum' : num.toNat ≤ 0x0fffff := hnum
  obtain ⟨hshift, hhigh, hand⟩ := split_low (show num.toNat < 2 ^ 28 by omega)
    (blockLow_lt (more ≠ 0) k) (blockValue_eq num more k)
  rw [parseBlock, hshift, hhigh, hand 0x08 rfl, hand 0x07 rfl, hmore, hexp]
  have hoffset : num <<< 4 <<< UInt32.ofNat k = num * size.toUInt32 := by
    obtain ⟨hshift, -, hsize⟩ := exponent k
    apply UInt32.toNat_inj.mp
    rw [UInt32.toNat_shiftLeft, UInt32.toNat_shiftLeft, UInt32.toNat_mul, hshift, hsize,
      Nat.shiftLeft_eq, Nat.shiftLeft_eq, Nat.mod_mul_mod, Nat.mul_assoc]
    rfl
  rw [hoffset, (exponent k).2.1]
  simp only [decide_eq_true_eq]
  rfl

/-- The size of a block that was asked for. -/
theorem parseBlock_size (v : UInt32) :
    ∃ k : Fin 8, v &&& 0x07 = UInt32.ofNat k ∧ (parseBlock v).2.2.1.toNat = 16 * 2 ^ (k : ℕ) := by
  obtain ⟨k, hk⟩ : ∃ k : Fin 8, v &&& 0x07 = UInt32.ofNat k := by
    refine ⟨⟨v.toNat % 8, by omega⟩, ?_⟩
    apply UInt32.toNat_inj.mp
    have hlt : v.toNat % 8 < 2 ^ 32 := by omega
    rw [UInt32.toNat_ofNat', Nat.mod_eq_of_lt hlt]
    exact Nat.and_two_pow_sub_one_eq_mod _ 3
  refine ⟨k, hk, ?_⟩
  obtain ⟨-, hexp, hsize⟩ := exponent k
  rw [parseBlock, hk, hexp]
  exact hsize

/-- The fields of a block belong together: the offset is the number times the size, in thirty-two
bits. -/
theorem parseBlock_offset (v : UInt32) :
    (parseBlock v).2.2.2.toNat = (parseBlock v).1.toNat * (parseBlock v).2.2.1.toNat % 2 ^ 32 := by
  obtain ⟨k, hk, hsize⟩ := parseBlock_size v
  have hhigh : (v &&& 0xfffffff0).toNat = v.toNat / 2 ^ 4 * 2 ^ 4 := by
    rw [UInt32.and_comm]
    exact toNat_high_and v.toBitVec 4
  rw [hsize, parseBlock, hk, UInt32.toNat_shiftLeft, (exponent k).1, hhigh, UInt32.toNat_shiftRight,
    Nat.shiftLeft_eq, Nat.shiftRight_eq_div_pow, Nat.mul_assoc]
  rfl

/-! ### Paths and queries -/

/-- Further segments are joined to a string that is not empty. -/
theorem accumulateAll_bytes (hsep : o.separator? = some sep)
    (segs : List (List UInt8)) : ∀ {acc : List UInt8}, (segs ≠ [] → acc ≠ []) →
    accumulateAll o (some (.bytes acc)) segs =
      some (.bytes (List.intercalate [sep] (acc :: segs))) := by
  induction segs with
  | nil =>
    intro acc _
    rw [intercalate_singleton]
    rfl
  | cons seg segs ih =>
    intro acc hacc
    obtain ⟨b, bs, rfl⟩ := exists_cons_of_ne_nil (hacc (cons_ne_nil _ _))
    have hjoin : accumulate o (some (.bytes (b :: bs))) seg = .bytes (b :: bs ++ sep :: seg) :=
      accumulate_join hsep _ _
    have hne : b :: bs ++ sep :: seg ≠ [] := cons_ne_nil _ _
    rw [accumulateAll, foldl_cons, hjoin, ← accumulateAll, ih fun _ => hne,
      intercalate_cons_cons]
    cases segs with
    | nil =>
      simp only [intercalate_singleton, append_assoc]
      rfl
    | cons seg' segs =>
      simp only [intercalate_cons_cons, append_assoc]
      rfl

theorem accumulateAll_splitOn (hsep : o.separator? = some sep) {l : List UInt8} (h : Joined sep l) :
    accumulateAll o none (l.splitOn sep) = some (.bytes l) := by
  obtain ⟨seg, segs, hsplit, hjoin, -, -, hne⟩ := splitOn_parts h
  have hfirst : accumulate o none seg = .bytes seg := accumulate_join hsep _ _
  rw [hsplit, accumulateAll, foldl_cons, hfirst, ← accumulateAll, accumulateAll_bytes hsep segs hne,
    ← hjoin]

/-! ### The contents of a built message -/

/-- A block as the setters store it, if its size is a power of two. -/
def BlockOk (num : UInt32) (more : UInt8) (size : UInt16) : Prop :=
  num ≤ 0x0fffff ∧ (more = 0 ∨ more = 1) ∧ ∃ k : Fin 8, size = 16 <<< UInt16.ofNat k

/-- What the setters promise of a message. -/
structure WellBuilt (m : Built) : Prop where
  source : ∀ o, (m.source o).Ok
  etag : m.etagLen.toNat ≤ coapEtagLen
  ifMatch : m.ifMatchLen.toNat ≤ coapEtagLen
  block2 : m.has .block2 → BlockOk m.block2Num m.block2More m.block2Size
  block1 : m.has .block1 → BlockOk m.block1Num m.block1More m.block1Size
  proxy : ∀ o, m.has o → o.isProxy = false
  token : m.tokenLen.toNat ≤ coapTokenLen ∧ m.tokenLen.toNat ≤ m.token.length
  payload : m.payloadLen.toNat ≤ coapMaxChunkSize ∧ m.payloadLen.toNat ≤ (m.payload.getD []).length

/-- The message with the offsets of its blocks, which the setters leave at 0. -/
def CoapMessage.located (m : Built) : Built :=
  { m with block2Offset := m.block2Num * m.block2Size.toUInt32
           block1Offset := m.block1Num * m.block1Size.toUInt32 }

theorem accumulate_block {more : UInt8} {size : UInt16} (h : BlockOk num more size) :
    parseBlock (coapParseIntOption (intBytes (blockValue num more size))) =
      (num, more, size, num * size.toUInt32) := by
  obtain ⟨hnum, hmore, k, rfl⟩ := h
  rw [coapParseIntOption_intBytes]
  refine (parseBlock_blockValue hnum more k).trans ?_
  rcases hmore with rfl | rfl <;> rfl

theorem text_id (x : Option (List UInt8)) (n : ℕ) : text id (x, n) = (x.getD []).take n := by
  cases x <;> rfl

/-- **The values of an option are read back to its content.** -/
theorem accumulateAll_values {m : Built} (h : WellBuilt m) (ho : m.has o) :
    accumulateAll o none (m.source o).values = some (m.located.content id o) := by
  have hsource := h.source o
  have hstr : ∀ {o : CoapOption} {sep : UInt8} {arr : List UInt8} {n : ℕ}, o.separator? = some sep →
      sep ≠ 0 → (Source.array arr n sep).Ok →
      accumulateAll o none (Source.array arr n sep).values = some (.bytes (arr.take n)) := by
    intro o sep arr n hsep hne hok
    rw [Source.values, if_pos hne]
    exact accumulateAll_splitOn hsep (hok.2 hne)
  have hint : ∀ v : UInt16, (coapParseIntOption (intBytes v.toUInt32)).toUInt16.toUInt32 =
      v.toUInt32 := by
    intro v
    rw [coapParseIntOption_intBytes, UInt16.toUInt16_toUInt32]
  cases o with
  | locationPath | uriPath | uriQuery | locationQuery =>
    refine (hstr rfl (by decide) hsource).trans ?_
    exact congrArg (some ∘ Content.bytes) (text_id _ _).symm
  | uriHost => exact congrArg (some ∘ Content.bytes) (text_id _ _).symm
  | proxyUri | proxyScheme => exact absurd (h.proxy _ ho) (by decide)
  | ifMatch | etag =>
    exact congrArg (some ∘ Content.bytes) (take_of_length_le (by simp [h.ifMatch, h.etag]))
  | ifNoneMatch => rfl
  | observe | maxAge | size1 | size2 =>
    exact congrArg (some ∘ Content.int) (coapParseIntOption_intBytes _)
  | uriPort | contentFormat | accept => exact congrArg (some ∘ Content.int) (hint _)
  | block2 =>
    have hblock := accumulate_block (h.block2 ho)
    show some (accumulate .block2 none (intBytes _)) = _
    rw [accumulate, hblock]
    rfl
  | block1 =>
    have hblock := accumulate_block (h.block1 ho)
    show some (accumulate .block1 none (intBytes _)) = _
    rw [accumulate, hblock]
    rfl

end Nespy.Coap
