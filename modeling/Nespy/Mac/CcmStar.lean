import Mathlib.Data.List.Range
import Nespy.Lib.Loop

/-!
# Mac — CCM*

`lib/ccm-star.c`.  AES is a parameter.  The message and the additional data are taken block by
block, in three loops of one form (`blocks`): the position is a `uint8_t` that goes up by the size
of a block and wraps.  From a start `r` within the first block the positions are `r`, `r + 16`, up
to `r + 240`, and then `r` again.  So the loop ends exactly when the length is not beyond the last
of them (`blocks_finishes`, `blocks_eq_none`): the message loops start at 0 and the loop over the
additional data at 14.

`ctr` also gives the counters that it used, one for each block.
-/

namespace Nespy.Mac.CcmStar

open Lib

/-- `AES_128_BLOCK_SIZE`. -/
def aes128BlockSize : UInt8 := 16

/-- `CCM_STAR_NONCE_LENGTH`. -/
def ccmStarNonceLength : ℕ := 13

/-- The flags of a block of the key stream. -/
def ccmStarEncryptionFlags : UInt8 := 1

/-- `CCM_STAR_AUTH_FLAGS`, as the `uint8_t` argument that it becomes. -/
def ccmStarAuthFlags (adata micLen : UInt8) : UInt8 :=
  ((if adata ≠ 0 then (1 : UInt32) <<< 6 else 0) |||
    ((micLen.toUInt32 - 2) >>> 1) <<< 3 ||| 1).toUInt8

/-- The block that is encrypted for a counter. -/
def setIv (flags : UInt8) (nonce : List UInt8) (counter : UInt8) : List UInt8 :=
  flags :: nonce.take ccmStarNonceLength ++ [0, counter]

/-- `while(pos < len) { body; pos += AES_128_BLOCK_SIZE; }` -/
def blocks {S : Type} (len : UInt8) (body : UInt8 → S → S) (fuel : ℕ) (pos : UInt8) (s : S) :
    Option S :=
  loop (fun p : UInt8 × S =>
    some (if p.1 < len then .inl (p.1 + aes128BlockSize, body p.1 p.2) else .inr p.2)) fuel (pos, s)

section Driver

variable (encrypt : List UInt8 → List UInt8) (nonce : List UInt8)

/-- One block of the message with the key stream. -/
def ctrStep (pos : UInt8) (mAndResult : List UInt8) (mLen counter : UInt8) : List UInt8 :=
  let a := encrypt (setIv ccmStarEncryptionFlags nonce counter)
  mAndResult.mapIdx fun j b =>
    if pos.toNat ≤ j ∧ j < mLen.toNat ∧ j - pos.toNat < aes128BlockSize.toNat then
      b ^^^ a.getD (j - pos.toNat) 0
    else b

/-- What `ctr` works on. -/
structure CtrState where
  m : List UInt8
  counter : UInt8
  /-- the counters of the blocks so far -/
  used : List UInt8

/-- `ctr`; the counters that were used are recorded. -/
def ctr (fuel : ℕ) (m : List UInt8) (mLen : UInt8) : Option CtrState :=
  blocks mLen (fun pos s =>
    { m := ctrStep encrypt nonce pos s.m mLen s.counter
      counter := s.counter + 1
      used := s.used ++ [s.counter] }) fuel 0 ⟨m, 1, []⟩

/-- A block of `data` from `pos` on goes into the MIC. -/
def micStep (data : List UInt8) (len pos : UInt8) (x : List UInt8) : List UInt8 :=
  encrypt (x.mapIdx fun i b =>
    if pos.toNat + i < len.toNat ∧ i < aes128BlockSize.toNat then
      b ^^^ data.getD (pos.toNat + i) 0
    else b)

/-- The first block of the additional data stands behind its length. -/
def micFirst (a : List UInt8) (aLen : UInt8) (x : List UInt8) : List UInt8 :=
  encrypt (x.mapIdx fun i b =>
    if i = 1 then b ^^^ aLen
    else if 2 ≤ i ∧ i - 2 < aLen.toNat ∧ i < aes128BlockSize.toNat then b ^^^ a.getD (i - 2) 0
      else b)

/-- `mic`. -/
def mic (fuel : ℕ) (m : List UInt8) (mLen : UInt8) (a : List UInt8) (aLen micLen : UInt8) :
    Option (List UInt8) :=
  let x := encrypt (setIv (ccmStarAuthFlags aLen micLen) nonce mLen)
  (if aLen ≠ 0 then
      blocks aLen (micStep encrypt a aLen) fuel 14 (micFirst encrypt a aLen x)
    else some x).bind
    fun x => (if mLen ≠ 0 then blocks mLen (micStep encrypt m mLen) fuel 0 x else some x).map
      fun x => (ctrStep encrypt nonce 0 x aes128BlockSize 0).take micLen.toNat

/-- `aead`; the result is what `m` and `result` hold afterwards. -/
def aead (fuel : ℕ) (m : List UInt8) (mLen : UInt8) (a : List UInt8) (aLen micLen : UInt8)
    (forward : Bool) :
    Option (List UInt8 × List UInt8) :=
  if forward then
    (mic encrypt nonce fuel m mLen a aLen micLen).bind fun result =>
      (ctr encrypt nonce fuel m mLen).map fun s => (s.m, result)
  else
    (ctr encrypt nonce fuel m mLen).bind fun s =>
      (mic encrypt nonce fuel s.m mLen a aLen micLen).map fun result => (s.m, result)

end Driver

/-! ### The loop over the blocks -/

/-- The function of the fuel has a result. -/
def Finishes {R : Type} (g : ℕ → Option R) : Prop := ∃ r, Settles g r

variable {S : Type} {len pos : UInt8} {body : UInt8 → S → S} {s : S}

/-- The position stays where it was within a block. -/
theorem toNat_add_blockSize_mod (pos : UInt8) :
    (pos + aes128BlockSize).toNat % 16 = pos.toNat % 16 := by
  change (pos.toNat + 16) % 256 % 16 = _
  omega

/-- While the length is not beyond the last position, the next position is the larger one. -/
theorem toNat_add_blockSize {r : ℕ} (hr : pos.toNat % 16 = r) (hlen : len.toNat ≤ 240 + r)
    (hlt : pos < len) :
    (pos + aes128BlockSize).toNat = pos.toNat + 16 := by
  have hpos := UInt8.lt_iff_toNat_lt.mp hlt
  change (pos.toNat + 16) % 256 = _
  omega

/-- **The loop with an invariant**, for a length that is not beyond the last position. -/
theorem blocks_spec (Inv : ℕ → S → Prop) (hpos : pos.toNat < 16)
    (hlen : len.toNat ≤ 240 + pos.toNat)
    (hbody : ∀ (p : UInt8) (s : S), p.toNat < len.toNat → Inv p.toNat s →
      Inv (p.toNat + 16) (body p s))
    (hs : Inv pos.toNat s) :
    ∃ s', Settles (fun fuel => blocks len body fuel pos s) s' ∧ ∃ p, len.toNat ≤ p ∧
      (p = pos.toNat ∨ p < len.toNat + 16) ∧ p % 16 = pos.toNat ∧ Inv p s' := by
  refine loop_settles
    (fun q : UInt8 × S => q.1.toNat % 16 = pos.toNat ∧
      (q.1.toNat = pos.toNat ∨ q.1.toNat < len.toNat + 16) ∧
      Inv q.1.toNat q.2)
    (fun q => 256 - q.1.toNat) _ (fun q hq => ?_) ⟨Nat.mod_eq_of_lt hpos, .inl rfl, hs⟩
  obtain ⟨hmod, hat, hinv⟩ := hq
  by_cases hlt : q.1 < len
  · have hq' := UInt8.lt_iff_toNat_lt.mp hlt
    have hnext := toNat_add_blockSize hmod hlen hlt
    refine .inl ⟨_, by rw [if_pos hlt], ⟨?_, .inr (by dsimp only; omega), ?_⟩, by dsimp only; omega⟩
    · rw [toNat_add_blockSize_mod, hmod]
    · rw [hnext]
      exact hbody q.1 q.2 hq' hinv
  · have hq' := UInt8.lt_iff_toNat_lt.not.mp hlt
    exact .inr ⟨q.2, by rw [if_neg hlt], q.1.toNat, Nat.not_lt.mp hq', hat, hmod, hinv⟩

/-- Beyond the last position the loop goes round for ever. -/
theorem blocks_eq_none (hpos : pos.toNat < 16) (hlen : 240 + pos.toNat < len.toNat) (fuel : ℕ) :
    blocks len body fuel pos s = none := by
  refine loop_eq_none (fun q : UInt8 × S => q.1.toNat % 16 = pos.toNat) (fun q hq => ?_) fuel
    (Nat.mod_eq_of_lt hpos)
  have hlt : q.1 < len := UInt8.lt_iff_toNat_lt.mpr (by have := q.1.toNat_lt; omega)
  exact ⟨_, by rw [if_pos hlt], (toNat_add_blockSize_mod q.1).trans hq⟩

theorem blocks_finishes (body : UInt8 → S → S) (s : S) (hpos : pos.toNat < 16)
    (hlen : len.toNat ≤ 240 + pos.toNat) : Finishes fun fuel => blocks len body fuel pos s := by
  obtain ⟨s', hs', -⟩ :=
    blocks_spec (fun _ _ => True) hpos hlen (fun _ _ _ _ => trivial) trivial
  exact ⟨s', hs'⟩

/-! ### The driver -/

section Driver

variable (encrypt : List UInt8 → List UInt8) (nonce m a : List UInt8) {mLen aLen : UInt8}
  (micLen : UInt8)

/-- The counters are those from 1 on, one for each block. -/
def CtrState.CountsUp (s : CtrState) (mLen : UInt8) : Prop :=
  s.used.Pairwise (· < ·) ∧ s.used.map UInt8.toNat = List.range' 1 ((mLen.toNat + 15) / 16)

/-- The loop ends if the position does not wrap around, and its counters count up. -/
theorem ctr_settles (h : mLen.toNat ≤ 240) :
    ∃ s, Settles (fun fuel => ctr encrypt nonce fuel m mLen) s ∧ s.CountsUp mLen := by
  -- before the block at `p` the counter is the number of the block
  let Inv (p : ℕ) (s : CtrState) : Prop :=
    s.counter.toNat = p / 16 + 1 ∧ s.used.map UInt8.toNat = List.range' 1 (p / 16)
  have hbody : ∀ (q : UInt8) (s : CtrState), q.toNat < mLen.toNat →
    Inv q.toNat s → Inv (q.toNat + 16)
      ⟨ctrStep encrypt nonce q s.m mLen s.counter, s.counter + 1, s.used ++ [s.counter]⟩ := by
    rintro q s hq ⟨hcounter, hused⟩
    have hdiv : (q.toNat + 16) / 16 = q.toNat / 16 + 1 := Nat.add_div_right _ (by decide)
    refine ⟨?_, ?_⟩
    · rw [UInt8.toNat_add, hcounter]
      change (q.toNat / 16 + 1 + 1) % 256 = _
      omega
    · rw [List.map_append, hused, hdiv, List.range'_1_concat, List.map_singleton, hcounter,
        Nat.add_comm 1]
  obtain ⟨s, hs, p, hlen, hat, hmod, -, hused⟩ :=
    blocks_spec Inv (by decide : UInt8.toNat 0 < 16) h hbody
    (s := ⟨m, 1, []⟩) ⟨rfl, rfl⟩
  have hp : p / 16 = (mLen.toNat + 15) / 16 := by
    rw [UInt8.toNat_zero] at hat hmod
    omega
  rw [hp] at hused
  have hsorted : (s.used.map UInt8.toNat).Pairwise (· < ·) := by
    rw [hused]
    exact List.pairwise_lt_range'
  exact ⟨s, hs, (List.pairwise_map.mp hsorted).imp UInt8.lt_iff_toNat_lt.mpr, hused⟩

/-- The authentication ends too. -/
theorem mic_finishes (hm : mLen.toNat ≤ 240) (ha : aLen.toNat ≤ 254) :
    Finishes fun fuel => mic encrypt nonce fuel m mLen a aLen micLen := by
  -- a part of the data that may be absent
  have hpart : ∀ (c : Prop) [Decidable c] (len pos : UInt8) (data x : List UInt8), pos.toNat < 16 →
      len.toNat ≤ 240 + pos.toNat → ∀ y, ∃ z, Settles (fun fuel =>
        if c then blocks len (micStep encrypt data len) fuel pos x else some y) z := by
    intro c _ len pos data x hpos hlen y
    by_cases hc : c
    · simp only [if_pos hc]
      exact blocks_finishes _ x hpos hlen
    · simp only [if_neg hc]
      exact ⟨y, Settles.of_eq fun _ => rfl⟩
  obtain ⟨x, hx⟩ := hpart (aLen ≠ 0) aLen 14 a _ (by decide) ha _
  obtain ⟨y, hy⟩ := hpart (mLen ≠ 0) mLen 0 m x (by decide) hm x
  exact ⟨_, hx.bind (hy.map _)⟩

theorem mic_eq_none (h : 240 < mLen.toNat ∨ 254 < aLen.toNat) (fuel : ℕ) :
    mic encrypt nonce fuel m mLen a aLen micLen = none := by
  rcases h with hm | ha
  · have hne : mLen ≠ 0 := by
      rintro rfl
      simp at hm
    have hnone : ∀ x, blocks mLen (micStep encrypt m mLen) fuel 0 x = none := fun x =>
      blocks_eq_none (by decide : UInt8.toNat 0 < 16) hm fuel
    simp [mic, hne, hnone]
  · have hne : aLen ≠ 0 := by
      rintro rfl
      simp at ha
    have hnone : ∀ x, blocks aLen (micStep encrypt a aLen) fuel 14 x = none := fun x =>
      blocks_eq_none (by decide : UInt8.toNat 14 < 16) ha fuel
    simp [mic, hne, hnone]

theorem aead_finishes (hm : mLen.toNat ≤ 240) (ha : aLen.toNat ≤ 254) (forward : Bool) :
    Finishes fun fuel => aead encrypt nonce fuel m mLen a aLen micLen forward := by
  obtain ⟨s, hs, -⟩ := ctr_settles encrypt nonce m hm
  cases forward with
  | true =>
    obtain ⟨x, hx⟩ := mic_finishes encrypt nonce m a micLen hm ha
    exact ⟨(s.m, x), hx.bind (hs.map _)⟩
  | false =>
    obtain ⟨x, hx⟩ := mic_finishes encrypt nonce s.m a micLen hm ha
    exact ⟨(s.m, x), hs.bind (hx.map _)⟩

/-- **CCM\* terminates** exactly for messages of at most 240 and additional data of at most 254
bytes; with more, the position of a loop wraps before it gets to the end. -/
theorem aead_terminates_iff (forward : Bool) :
    ((∃ s, Settles (fun fuel => ctr encrypt nonce fuel m mLen) s ∧ s.CountsUp mLen) ∧
      (Finishes fun fuel => mic encrypt nonce fuel m mLen a aLen micLen) ∧
      Finishes fun fuel => aead encrypt nonce fuel m mLen a aLen micLen forward) ↔
    mLen.toNat ≤ 240 ∧ aLen.toNat ≤ 254 := by
  constructor
  · rintro ⟨-, ⟨x, hx⟩, -⟩
    by_contra hlong
    have hbeyond : 240 < mLen.toNat ∨ 254 < aLen.toNat := by omega
    exact not_settles (mic_eq_none encrypt nonce m a micLen hbeyond) x hx
  · rintro ⟨hm, ha⟩
    exact ⟨ctr_settles encrypt nonce m hm, mic_finishes encrypt nonce m a micLen hm ha,
      aead_finishes encrypt nonce m a micLen hm ha forward⟩

/-- A message of 241 bytes is never encrypted. -/
theorem ctr_never_ends :
    ¬ ∃ fuel, (ctr id (List.replicate 13 0) fuel (List.replicate 241 0) 241).isSome := by
  rintro ⟨fuel, h⟩
  rw [ctr, blocks_eq_none (by decide) (by decide)] at h
  cases h

end Driver

end Nespy.Mac.CcmStar
