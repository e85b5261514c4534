import Nespy.Mac.Frame

/-!
# Mac — the fields of a frame header

The header that `frame802154_create` writes is a row of fields, each of which is a list of bytes
(`bytes`).  For every field there is a lemma that the writer puts these bytes behind what is written
already (`Written`), and one that the reader takes them from where they are.
-/

open List Option

namespace Nespy.Mac

open Nespy.Lib

/-! ### Fields of a byte -/

variable {u : UInt8}

theorem exists_fin_of_lt {n : ℕ} (h : u.toNat < n) : ∃ i : Fin n, u = UInt8.ofNat i :=
  ⟨⟨u.toNat, h⟩, by simp⟩

theorem and_one_eq_zero_iff (h : u.toNat < 2) : u &&& 1 = 0 ↔ u = 0 := by
  have htable : ∀ i : Fin 2, UInt8.ofNat i &&& 1 = 0 ↔ UInt8.ofNat i = 0 := by decide
  obtain ⟨i, rfl⟩ := exists_fin_of_lt h
  exact htable i

/-- The values that fit into the fields of the frame control field; the address modes are the three
that are in use. -/
structure FrameFcf.InRange (fcf : FrameFcf) : Prop where
  frameType : fcf.frameType.toNat < 8
  securityEnabled : fcf.securityEnabled.toNat < 2
  framePending : fcf.framePending.toNat < 2
  ackRequired : fcf.ackRequired.toNat < 2
  panidCompression : fcf.panidCompression.toNat < 2
  sequenceNumberSuppression : fcf.sequenceNumberSuppression.toNat < 2
  ieListPresent : fcf.ieListPresent.toNat < 2
  destAddrMode : fcf.destAddrMode ∈ [frame802154Noaddr, frame802154Shortaddrmode,
    frame802154Longaddrmode]
  frameVersion : fcf.frameVersion.toNat < 4
  srcAddrMode : fcf.srcAddrMode ∈ [frame802154Noaddr, frame802154Shortaddrmode,
    frame802154Longaddrmode]

/-- The values that fit into the fields of the security control field. -/
structure Scf.InRange (c : Scf) : Prop where
  securityLevel : c.securityLevel.toNat < 8
  keyIdMode : c.keyIdMode.toNat < 4
  frameCounterSuppression : c.frameCounterSuppression.toNat < 2
  frameCounterSize : c.frameCounterSize.toNat < 2

namespace Frame

/-- The first byte of the frame control field reads back. -/
theorem fcf_byte₀ : ∀ t : Fin 8, ∀ s f a c : Fin 2,
    let b := (UInt8.ofNat t &&& 7) ||| maskAt (UInt8.ofNat s) 1 3 ||| maskAt (UInt8.ofNat f) 1 4 |||
      maskAt (UInt8.ofNat a) 1 5 ||| maskAt (UInt8.ofNat c) 1 6
    b &&& 7 = UInt8.ofNat t ∧ (b >>> 3) &&& 1 = UInt8.ofNat s ∧ (b >>> 4) &&& 1 = UInt8.ofNat f ∧
      (b >>> 5) &&& 1 = UInt8.ofNat a ∧ (b >>> 6) &&& 1 = UInt8.ofNat c := by
  decide +kernel

/-- The second byte reads back. -/
theorem fcf_byte₁ : ∀ q i : Fin 2, ∀ d v s : Fin 4,
    let b := (UInt8.ofNat q &&& 1) ||| maskAt (UInt8.ofNat i) 1 1 ||| maskAt (UInt8.ofNat d) 3 2 |||
      maskAt (UInt8.ofNat v) 3 4 ||| maskAt (UInt8.ofNat s) 3 6
    b &&& 1 = UInt8.ofNat q ∧ (b >>> 1) &&& 1 = UInt8.ofNat i ∧ (b >>> 2) &&& 3 = UInt8.ofNat d ∧
      (b >>> 4) &&& 3 = UInt8.ofNat v ∧ (b >>> 6) &&& 3 = UInt8.ofNat s := by
  decide +kernel

section

variable {m : UInt8} (h : m ∈ [frame802154Noaddr, frame802154Shortaddrmode,
  frame802154Longaddrmode])

include h

theorem addrMode_lt :
    m.toNat < 4 := by
  simp only [mem_cons, not_mem_nil, or_false] at h
  rcases h with rfl | rfl | rfl <;> decide

theorem addrMode_cases (hne : m ≠ 0) :
    m = frame802154Shortaddrmode ∨ m = frame802154Longaddrmode := by
  simp only [mem_cons, not_mem_nil, or_false] at h
  exact h.resolve_left hne

end

/-- The frame control field is read as it was written. -/
theorem parseFcf_createFcf {fcf : FrameFcf} (h : fcf.InRange) :
    frame802154ParseFcf (frame802154CreateFcf fcf) = fcf := by
  obtain ⟨⟨t, c, q, d, v, s⟩, e, f, a, i⟩ := fcf
  obtain ⟨ht, he, hf, ha, hc, hq, hi, hd, hv, hs⟩ := h
  obtain ⟨t, rfl⟩ := exists_fin_of_lt ht
  obtain ⟨e, rfl⟩ := exists_fin_of_lt he
  obtain ⟨f, rfl⟩ := exists_fin_of_lt hf
  obtain ⟨a, rfl⟩ := exists_fin_of_lt ha
  obtain ⟨c, rfl⟩ := exists_fin_of_lt hc
  obtain ⟨q, rfl⟩ := exists_fin_of_lt hq
  obtain ⟨i, rfl⟩ := exists_fin_of_lt hi
  obtain ⟨d, rfl⟩ := exists_fin_of_lt (addrMode_lt hd)
  obtain ⟨v, rfl⟩ := exists_fin_of_lt hv
  obtain ⟨s, rfl⟩ := exists_fin_of_lt (addrMode_lt hs)
  obtain ⟨h₁, h₂, h₃, h₄, h₅⟩ := fcf_byte₀ t e f a c
  obtain ⟨h₆, h₇, h₈, h₉, h₁₀⟩ := fcf_byte₁ q i d v s
  simp only [frame802154ParseFcf, frame802154CreateFcf, getD_cons_zero, getD_cons_succ]
  simp only [h₁, h₂, h₃, h₄, h₅, h₆, h₇, h₈, h₉, h₁₀]

/-- The security control field reads back. -/
theorem scf_byte : ∀ l : Fin 8, ∀ k : Fin 4, ∀ s z : Fin 2,
    let b := UInt8.ofNat l ||| (UInt8.ofNat k <<< 3) ||| (UInt8.ofNat
      s <<< 5) ||| (UInt8.ofNat z <<< 6)
    b &&& 7 = UInt8.ofNat l ∧ (b >>> 3) &&& 3 = UInt8.ofNat k ∧ b >>> 5 = UInt8.ofNat (s + 2 * z) ∧
      b >>> 6 = UInt8.ofNat z := by
  decide +kernel

/-! ### The fields as bytes -/

variable {cfg : Llsec}

/-- The sequence number in the frame. -/
def seqBytes (p : Frame) : List UInt8 :=
  if p.fcf.sequenceNumberSuppression &&& 1 = 0 then [p.seq] else []

/-- A PAN identifier in the frame. -/
@[simp] def pidBytes (has : Bool) (pid : UInt16) : List UInt8 :=
  if has then [pid.toUInt8, (pid >>> 8).toUInt8] else []

/-- An address in the frame, which begins with its last byte. -/
def addrBytes (mode : UInt8) (addr : List.Vector UInt8 8) : List UInt8 :=
  (addr.toList.take (addrLen (mode &&& 3))).reverse

/-- The frame counter; `gap` is what was in the buffer in the place of its fifth byte. -/
def counterBytes (gap : UInt8) (a : AuxHdr) : List UInt8 :=
  if a.securityControl.frameCounterSuppression = 0 then
    a.frameCounter.toList ++ if a.securityControl.frameCounterSize = 1 then [gap] else []
  else []

/-- The key identifier in the frame. -/
def keyBytes (cfg : Llsec) (a : AuxHdr) : List UInt8 :=
  if cfg.usesExplicitKeys ∧ a.securityControl.keyIdMode ≠ 0 then
    a.keySource.toList.take ((a.securityControl.keyIdMode.toNat - 1) * 4) ++ [a.keyIndex]
  else []

/-- The auxiliary security header in the frame. -/
def auxBytes (cfg : Llsec) (gap : UInt8) (a : AuxHdr) : List UInt8 :=
  [scfByte cfg a.securityControl] ++ counterBytes gap a ++ keyBytes cfg a

/-- Whether there is an auxiliary security header. -/
def HasAux (cfg : Llsec) (p : Frame) : Prop := cfg.usesAuxHeader ∧ p.fcf.securityEnabled &&& 1 ≠ 0

instance {p : Frame} : Decidable (HasAux cfg p) := inferInstanceAs (Decidable (_ ∧ _))

/-- The header of an adjusted frame up to the auxiliary security header. -/
def headBytes (p : Frame) : List UInt8 :=
  let hasPanid := frame802154HasPanid p.fcf.toFcf
  frame802154CreateFcf p.fcf ++ seqBytes p ++ pidBytes hasPanid.2 p.destPid ++
    addrBytes p.fcf.destAddrMode p.destAddr ++ pidBytes hasPanid.1 p.srcPid ++
    addrBytes p.fcf.srcAddrMode p.srcAddr

/-- The header of an adjusted frame. -/
def bytes (cfg : Llsec) (gap : UInt8) (p : Frame) : List UInt8 :=
  headBytes p ++ if HasAux cfg p then auxBytes cfg gap p.auxHdr else []

theorem length_pidBytes {has : Bool} {pid : UInt16} :
    (pidBytes has pid).length = if has then 2 else 0 := by
  rw [pidBytes]
  split <;> rfl

theorem length_addrBytes {mode : UInt8} {addr : List.Vector UInt8 8} :
    (addrBytes mode addr).length = addrLen (mode &&& 3) := by
  have hle := addrLen_le (mode &&& 3)
  rw [addrBytes, length_reverse, length_take, List.Vector.toList_length]
  omega

@[simp] theorem addrBytes_zero {addr : List.Vector UInt8 8} : addrBytes 0 addr = [] := rfl

variable {a : AuxHdr} {p : Frame} {pre : List UInt8} {st : List UInt8 × ℕ} {gap : UInt8} {n : ℕ}

theorem length_counterBytes : (counterBytes gap a).length =
    if a.securityControl.frameCounterSuppression = 0 then
      if a.securityControl.frameCounterSize = 1 then 5 else 4
    else 0 := by
  rw [counterBytes]
  split_ifs <;> simp

/-- The bytes of the key source that are sent. -/
def keySourceBytes (a : AuxHdr) : List UInt8 :=
  a.keySource.toList.take ((a.securityControl.keyIdMode.toNat - 1) * 4)

theorem length_keySourceBytes (h : a.securityControl.keyIdMode.toNat < 4) :
    (keySourceBytes a).length = (a.securityControl.keyIdMode.toNat - 1) * 4 := by
  rw [keySourceBytes, length_take, List.Vector.toList_length]
  omega

theorem keyBytes_eq (h : cfg.usesExplicitKeys ∧ a.securityControl.keyIdMode ≠ 0) :
    keyBytes cfg a = keySourceBytes a ++ [a.keyIndex] := if_pos h

theorem getKeyIdLen_eq {k : UInt8} (h : k.toNat < 4) :
    getKeyIdLen k = if k = 0 then 0 else (k.toNat - 1) * 4 + 1 := by
  have htable : ∀ i : Fin 4, getKeyIdLen (UInt8.ofNat i) =
    if UInt8.ofNat i = 0 then 0 else ((UInt8.ofNat i).toNat - 1) * 4 + 1 := by decide
  obtain ⟨i, rfl⟩ := exists_fin_of_lt h
  exact htable i

theorem length_keyBytes (h : a.securityControl.keyIdMode.toNat < 4) :
    (keyBytes cfg a).length = if cfg.usesExplicitKeys then getKeyIdLen a.securityControl.keyIdMode
      else 0 := by
  rw [getKeyIdLen_eq h]
  by_cases he : cfg.usesExplicitKeys
  · rw [if_pos he]
    by_cases hz : a.securityControl.keyIdMode = 0
    · rw [keyBytes, if_neg (fun hc => hc.2 hz), if_pos hz]
      rfl
    · rw [keyBytes_eq ⟨he, hz⟩, if_neg hz, length_append, length_keySourceBytes h]
      rfl
  · rw [keyBytes, if_neg (fun hc => he hc.1), if_neg he]
    rfl

theorem length_auxBytes (h : a.securityControl.keyIdMode.toNat < 4) :
    (auxBytes cfg gap a).length = auxSecLen cfg a := by
  rw [auxBytes, length_append, length_append, length_counterBytes, length_keyBytes h]
  rfl

theorem length_seqBytes :
    (seqBytes p).length = if p.fcf.sequenceNumberSuppression &&& 1 = 0 then 1 else 0 := by
  rw [seqBytes]
  split <;> rfl

section

variable (h : p.auxHdr.securityControl.keyIdMode.toNat < 4)

include h

theorem length_auxIf :
    (if HasAux cfg p then auxBytes cfg gap p.auxHdr else []).length =
      if HasAux cfg p then auxSecLen cfg p.auxHdr else 0 := by
  split
  · exact length_auxBytes h
  · rfl

/-- The header has the length that `hdrlen` tells. -/
theorem length_bytes (hadj : p.adjust = p) :
    (bytes cfg gap p).length = frame802154Hdrlen cfg p := by
  simp only [bytes, headBytes, length_append, length_seqBytes, length_pidBytes,
    length_addrBytes, length_auxIf h, frame802154Hdrlen, fieldLen, hadj]
  rfl

end

/-! ### Writing -/

/-- The buffer begins with `pre`, and the position is behind that. -/
def Written (n : ℕ) (pre : List UInt8) (st : List UInt8 × ℕ) : Prop :=
  ∃ rest, st = (pre ++ rest, pre.length) ∧ (pre ++ rest).length = n

section

variable (h : Written n pre st)

include h

theorem Written.put (bs : List UInt8)
    (hle : (pre ++ bs).length ≤ n) :
    ∃ st', Frame.put bs st = some st' ∧ Written n (pre ++ bs) st' := by
  obtain ⟨rest, rfl, hn⟩ := h
  rw [length_append] at hle hn
  have hroom : bs.length ≤ rest.length := by omega
  refine ⟨((pre ++ bs) ++ rest.drop bs.length, (pre ++ bs).length), ?_,
    rest.drop bs.length, rfl, ?_⟩
  · rw [Frame.put, writeAt_room rfl hroom, map_some, append_assoc, length_append]
  · simp only [length_append, length_drop]
    omega

/-- Writing a PAN identifier. -/
theorem Written.putPid
    (has : Bool) (pid : UInt16) (hle : (pre ++ pidBytes has pid).length ≤ n) :
    ∃ st', Frame.putPid (if has then 2 else 0) pid st = some st' ∧
      Written n (pre ++ pidBytes has pid) st' := by
  cases has with
  | true => exact h.put _ hle
  | false => exact ⟨st, rfl, by rwa [pidBytes, if_neg (by decide), append_nil]⟩

/-- Writing the frame counter, of which a fifth byte is left as it was. -/
theorem Written.putCounter
    (hle : ∀ gap, (pre ++ counterBytes gap a).length ≤ n) :
    ∃ st' gap, Frame.putCounter a st = some st' ∧ Written n (pre ++ counterBytes gap a) st' := by
  rw [Frame.putCounter]
  by_cases hs : a.securityControl.frameCounterSuppression = 0
  · have hbytes : ∀ gap, counterBytes gap a =
        a.frameCounter.toList ++ if a.securityControl.frameCounterSize = 1 then [gap] else [] :=
      fun gap => if_pos hs
    have hroom : (pre ++ a.frameCounter.toList).length ≤ n := by
      have hle₀ := hle 0
      rw [hbytes, ← append_assoc, length_append] at hle₀
      omega
    obtain ⟨st', hput, rest, rfl, hn⟩ := h.put _ hroom
    rw [if_pos hs, hput]
    by_cases hz : a.securityControl.frameCounterSize = 1
    · -- the position moves over a byte of the buffer
      have hle₁ := hle 0
      rw [hbytes, if_pos hz, ← hn] at hle₁
      have hpos : 0 < rest.length := by
        simp only [length_append, length_singleton] at hle₁
        omega
      obtain ⟨gap, rest, rfl⟩ := exists_cons_of_length_pos hpos
      refine ⟨_, gap, rfl, rest, ?_, ?_⟩
      · simp [hbytes, hz]
      · simpa [hbytes, hz] using hn
    · refine ⟨_, 0, rfl, rest, ?_, ?_⟩
      · simp [hbytes, hz]
      · simpa [hbytes, hz] using hn
  · have hbytes : counterBytes 0 a = [] := if_neg hs
    refine ⟨st, 0, if_neg hs, ?_⟩
    rwa [hbytes, append_nil]

/-- Writing the key identifier. -/
theorem Written.putKey
    (hk : a.securityControl.keyIdMode.toNat < 4) (hle : (pre ++ keyBytes cfg a).length ≤ n) :
    ∃ st', Frame.putKey cfg a st = some st' ∧ Written n (pre ++ keyBytes cfg a) st' := by
  rw [Frame.putKey]
  by_cases hc : cfg.usesExplicitKeys ∧ a.securityControl.keyIdMode ≠ 0
  · rw [keyBytes_eq hc, ← append_assoc] at hle ⊢
    obtain ⟨rest, hsource⟩ :
      ∃ rest, readN ((a.securityControl.keyIdMode.toNat - 1) * 4) a.keySource.toList =
        some (keySourceBytes a, rest) := ⟨_, if_pos (by rw [List.Vector.toList_length]; omega)⟩
    obtain ⟨st₁, hput₁, h₁⟩ := h.put _ ((length_append ▸ Nat.le_add_right _ _).trans hle)
    obtain ⟨st₂, hput₂, h₂⟩ := h₁.put _ hle
    refine ⟨st₂, ?_, h₂⟩
    rw [if_pos hc, hsource]
    change ((Frame.put _ st).bind fun st => Frame.put [a.keyIndex] st) = _
    rw [hput₁]
    exact hput₂
  · have hbytes : keyBytes cfg a = [] := if_neg hc
    refine ⟨st, if_neg hc, ?_⟩
    rwa [hbytes, append_nil]

/-- Writing the auxiliary security header. -/
theorem Written.putAux (cfg : Llsec)
    (p : Frame) (hk : p.auxHdr.securityControl.keyIdMode.toNat < 4)
    (hle : pre.length + (if HasAux cfg p then auxSecLen cfg p.auxHdr else 0) ≤ n) :
    ∃ st' gap, Frame.putAux cfg (if HasAux cfg p then auxSecLen cfg p.auxHdr else 0) p.auxHdr st =
      some st' ∧
      Written n (pre ++ if HasAux cfg p then auxBytes cfg gap p.auxHdr else []) st' := by
  by_cases ha : HasAux cfg p
  · simp only [if_pos ha] at hle ⊢
    have hne : auxSecLen cfg p.auxHdr ≠ 0 := by
      rw [auxSecLen]
      omega
    have hlen : ∀ gap, pre.length + (auxBytes cfg gap p.auxHdr).length ≤ n := fun gap => by
      rwa [length_auxBytes hk]
    simp only [auxBytes, length_append, length_singleton] at hlen
    obtain ⟨st₁, hput₁, h₁⟩ := h.put [scfByte cfg p.auxHdr.securityControl] (by
      have hlen₀ := hlen 0
      rw [length_append, length_singleton]
      omega)
    obtain ⟨st₂, gap, hput₂, h₂⟩ := h₁.putCounter (a := p.auxHdr) fun gap => by
      have hlen' := hlen gap
      simp only [length_append, length_singleton]
      omega
    obtain ⟨st₃, hput₃, h₃⟩ := h₂.putKey hk (by
      simp only [length_append, length_singleton, ← Nat.add_assoc] at hlen ⊢
      exact hlen gap)
    refine ⟨st₃, gap, ?_, ?_⟩
    · rw [Frame.putAux, if_pos ⟨ha.1, hne⟩, hput₁, bind_eq_bind, bind_some, hput₂]
      exact hput₃
    · simpa only [auxBytes, append_assoc] using h₃
  · simp only [if_neg ha, append_nil]
    exact ⟨st, 0, if_neg fun hc => hc.2 rfl, h⟩

end

theorem adjust_adjust : p.adjust.adjust = p.adjust := by
  by_cases h : p.fcf.frameVersion < frame802154Ieee8021542015
  · have hadj : p.adjust = { p with
        fcf.panidCompression :=
          if p.fcf.destAddrMode &&& 3 ≠ 0 ∧ p.fcf.srcAddrMode &&& 3 ≠ 0 ∧ p.srcPid = p.destPid
            then 1 else 0 } :=
      if_pos h
    rw [hadj]
    exact if_pos h
  · have hadj : p.adjust = p := if_neg h
    rw [hadj, hadj]

theorem adjust_auxHdr : p.adjust.auxHdr = p.auxHdr := by
  rw [adjust]
  split <;> rfl

theorem frame802154Hdrlen_adjust : frame802154Hdrlen cfg p.adjust = frame802154Hdrlen cfg p := by
  rw [frame802154Hdrlen, frame802154Hdrlen, fieldLen, fieldLen, adjust_adjust]

theorem Written.putSeq (h : Written n pre st) (p : Frame) (hle : (pre ++ seqBytes p).length ≤ n) :
    ∃ st', Frame.putSeq (if p.fcf.sequenceNumberSuppression &&& 1 = 0 then 1 else 0) p.seq st =
      some st' ∧
      Written n (pre ++ seqBytes p) st' := by
  by_cases hs : p.fcf.sequenceNumberSuppression &&& 1 = 0
  · have hbytes : seqBytes p = [p.seq] := if_pos hs
    rw [hbytes] at hle ⊢
    rw [if_pos hs]
    exact h.put _ hle
  · have hbytes : seqBytes p = [] := if_neg hs
    rw [if_neg hs, hbytes, append_nil]
    exact ⟨st, rfl, h⟩

/-- `frame802154_create` writes the fields one behind the other. -/
theorem create_spec {buf : List UInt8} (hk : p.auxHdr.securityControl.keyIdMode.toNat < 4)
    (hle : frame802154Hdrlen cfg p ≤ buf.length) :
    ∃ buf' gap, frame802154Create cfg p buf = some (p.adjust, buf', frame802154Hdrlen cfg p) ∧
      buf'.take (frame802154Hdrlen cfg p) = bytes cfg gap p.adjust ∧
      (bytes cfg gap p.adjust).length = frame802154Hdrlen cfg p := by
  generalize hq : p.adjust = q
  rw [← adjust_auxHdr, hq] at hk
  rw [← frame802154Hdrlen_adjust, hq] at hle ⊢
  have hlen : ∀ gap, (bytes cfg gap q).length = frame802154Hdrlen cfg q :=
    fun gap => length_bytes hk (by rw [← hq, adjust_adjust])
  have hle₀ : (bytes cfg 0 q).length ≤ buf.length := by rwa [hlen]
  simp only [bytes, headBytes, length_append] at hle₀
  have hstart : Written buf.length [] (buf, 0) := ⟨buf, rfl, rfl⟩
  obtain ⟨st₁, h₁, w₁⟩ : ∃ st', put (frame802154CreateFcf q.fcf) (buf, 0) = some st' ∧
      Written buf.length (frame802154CreateFcf q.fcf) st' :=
        hstart.put _ (by rw [nil_append]; omega)
  obtain ⟨st₂, h₂, w₂⟩ := w₁.putSeq q (by simp only [length_append]; omega)
  obtain ⟨st₃, h₃, w₃⟩ := w₂.putPid (frame802154HasPanid q.fcf.toFcf).2 q.destPid
    (by simp only [length_append]; omega)
  obtain ⟨st₄, h₄, w₄⟩ := w₃.put (addrBytes q.fcf.destAddrMode q.destAddr)
    (by simp only [length_append]; omega)
  obtain ⟨st₅, h₅, w₅⟩ := w₄.putPid (frame802154HasPanid q.fcf.toFcf).1 q.srcPid
    (by simp only [length_append]; omega)
  obtain ⟨st₆, h₆, w₆⟩ := w₅.put (addrBytes q.fcf.srcAddrMode q.srcAddr)
    (by simp only [length_append]; omega)
  obtain ⟨st₇, gap, h₇, w₇⟩ := w₆.putAux cfg q hk (by
    simp only [length_append]
    rw [length_auxIf hk] at hle₀
    exact hle₀)
  obtain ⟨rest, rfl, hn⟩ : Written buf.length (bytes cfg gap q) st₇ := w₇
  refine ⟨bytes cfg gap q ++ rest, gap, ?_, ?_, hlen gap⟩
  · have hcreate : frame802154Create cfg p buf = some (q, bytes cfg gap q ++ rest,
        (bytes cfg gap q).length) := by
      rw [frame802154Create, fieldLen, hq]
      simp only [bind_eq_bind]
      rw [h₁, bind_some, h₂, bind_some, h₃]
      change ((put (addrBytes q.fcf.destAddrMode q.destAddr) st₃).bind _) = _
      rw [h₄, bind_some, h₅]
      change ((put (addrBytes q.fcf.srcAddrMode q.srcAddr) st₅).bind _) = _
      rw [h₆]
      exact congrArg (Option.bind · fun st => some (q, st)) h₇
    rw [hcreate, hlen]
  · rw [← hlen gap, take_left]

/-! ### Reading -/

section Read

variable {data pre rest : List UInt8}

variable {a a' : AuxHdr} {has hasSrc : Bool} {fcf : Fcf} {p pf : Frame} {bs : List UInt8} {c : Scf}
  {pid : UInt16} {gap mode : UInt8} {pos pos' : ℕ}

theorem readBytes_append (n : ℕ) (hn : bs.length = n) (hdata : data = pre ++ (bs ++ rest)) :
    readBytes data pre.length n = some bs := by
  rw [readBytes, hdata, drop_left, readN_append hn]
  rfl

theorem behind (hdata : data = pre ++ (bs ++ rest)) : data = pre ++ bs ++ rest := by
  rw [hdata, append_assoc]

theorem parseSeq_bytes (p pf : Frame) (hfcf : pf.fcf = p.fcf)
    (hs : p.fcf.sequenceNumberSuppression.toNat < 2)
    (hdata : data = pre ++ (seqBytes p ++ rest)) :
    parseSeq data pf pre.length = some ({ pf with seq :=
      if p.fcf.sequenceNumberSuppression = 0 then p.seq else pf.seq },
        (pre ++ seqBytes p).length) := by
  have hmask := and_one_eq_zero_iff hs
  obtain ⟨destAddr, srcAddr, fcf, seq, destPid, srcPid, auxHdr, payload, payloadLen⟩ := pf
  obtain rfl := hfcf
  rw [parseSeq]
  rw [seqBytes] at hdata ⊢
  by_cases h : p.fcf.sequenceNumberSuppression = 0
  · rw [if_pos (hmask.mpr h)] at hdata ⊢
    rw [if_pos h, if_pos h, readBytes_append 1 rfl hdata, length_append]
    rfl
  · rw [if_neg (mt hmask.mp h)] at hdata ⊢
    rw [if_neg h, if_neg h, append_nil]

theorem word_of_pid (pid : UInt16) :
    pid.toUInt8.toUInt16 + (pid >>> 8).toUInt8.toUInt16 <<< 8 = pid := by
  apply UInt16.toNat_inj.mp
  have h := pid.toNat_lt
  have h8 : (8 : UInt16).toNat % 16 = 8 := rfl
  rw [UInt16.toNat_add, UInt16.toNat_shiftLeft, UInt8.toNat_toUInt16,
    UInt8.toNat_toUInt16, UInt16.toNat_toUInt8, UInt16.toNat_toUInt8, UInt16.toNat_shiftRight, h8]
  omega

theorem parsePid_bytes (hdata : data = pre ++ (pidBytes true pid ++ rest)) :
    parsePid data pre.length = some pid := by
  rw [parsePid, readBytes_append 2 rfl hdata]
  exact congrArg some (word_of_pid pid)

theorem parseDestPid_bytes (hdata : data = pre ++ (pidBytes has pid ++ rest)) :
    parseDestPid has data pre.length = some (if has then pid else 0,
      (pre ++ pidBytes has pid).length) := by
  rw [parseDestPid]
  cases has with
  | true =>
    rw [parsePid_bytes hdata, length_append]
    rfl
  | false =>
    rw [pidBytes, if_neg (by decide), if_neg (by decide), if_neg (by decide), append_nil]

theorem take_addrOf {addr : List.Vector UInt8 8} :
    (addrOf (addrBytes mode addr)).toList.take (addrLen (mode &&& 3)) =
      addr.toList.take (addrLen (mode &&& 3)) := by
  have hlen : (addr.toList.take (addrLen (mode &&& 3))).length = addrLen (mode &&& 3) := by
    rw [← length_reverse]
    exact length_addrBytes
  have hle := addrLen_le (mode &&& 3)
  change ((((addrBytes mode addr).reverse ++ List.replicate 8 0).take 8).take
    (addrLen (mode &&& 3))) = _
  rw [take_take, Nat.min_eq_left hle, addrBytes, reverse_reverse, take_left' hlen]

theorem parseAddr_bytes {addr old : List.Vector UInt8 8}
    (hmode : mode = frame802154Shortaddrmode ∨ mode = frame802154Longaddrmode)
    (hdata : data = pre ++ (addrBytes mode addr ++ rest)) :
    parseAddr mode old data pre.length = some (addrOf (addrBytes mode addr),
      (pre ++ addrBytes mode addr).length) := by
  rw [length_append, length_addrBytes]
  rcases hmode with rfl | rfl
  · rw [parseAddr, readBytes_append _ (by rw [length_addrBytes]; rfl) hdata]
    rfl
  · rw [parseAddr, if_neg (by decide), readBytes_append _ (by rw [length_addrBytes]; rfl) hdata]
    rfl

theorem parseDest_bytes (hfcf : pf.fcf = p.fcf) (h : p.fcf.InRange)
    (hhas : has = true → p.fcf.destAddrMode ≠ 0)
    (hdata :
      data = pre ++ (pidBytes has p.destPid ++ (addrBytes p.fcf.destAddrMode p.destAddr ++ rest))) :
    parseDest has data pf pre.length = some
      ({ pf with destPid := if has then p.destPid else 0, destAddr := addrOf (addrBytes
        p.fcf.destAddrMode p.destAddr) },
        (pre ++ pidBytes has p.destPid ++ addrBytes p.fcf.destAddrMode p.destAddr).length) := by
  rw [parseDest, hfcf]
  by_cases hmode : p.fcf.destAddrMode = 0
  · obtain rfl : has = false := Bool.eq_false_iff.mpr fun ht => hhas ht hmode
    rw [hmode]
    simp
  · rw [if_pos hmode, parseDestPid_bytes hdata]
    change ((parseAddr p.fcf.destAddrMode pf.destAddr data
      (pre ++ pidBytes has p.destPid).length).bind _) = _
    rw [parseAddr_bytes (addrMode_cases h.destAddrMode hmode) (behind hdata)]
    rfl

/-- What reading the source leaves as it is. -/
def KeepsDest (pf pf' : Frame) : Prop :=
  pf'.fcf = pf.fcf ∧ pf'.seq = pf.seq ∧ pf'.destAddr = pf.destAddr ∧ pf'.auxHdr = pf.auxHdr

theorem parseSrcPid_bytes (pf : Frame) (hasDest : Bool)
    (hdata : data = pre ++ (pidBytes hasSrc pid ++ rest)) :
    ∃ pf', parseSrcPid hasSrc hasDest data pf pre.length =
      some (pf', (pre ++ pidBytes hasSrc pid).length) ∧
      KeepsDest pf pf' ∧ (hasSrc = true → pf'.srcPid = pid) ∧
        (hasDest = true → pf'.destPid = pf.destPid) := by
  rw [parseSrcPid]
  cases hasSrc with
  | true =>
    rw [parsePid_bytes hdata, length_append]
    refine ⟨{ pf with srcPid := pid, destPid := if hasDest then pf.destPid else pid }, rfl,
      ⟨rfl, rfl, rfl, rfl⟩, fun _ => rfl, ?_⟩
    rintro rfl
    rfl
  | false =>
    rw [pidBytes, if_neg (by decide), if_neg (by decide), append_nil]
    exact ⟨{ pf with srcPid := pf.destPid }, rfl, ⟨rfl, rfl, rfl, rfl⟩, nofun, fun _ => rfl⟩

/-- Reading the source back. -/
theorem parseSrc_bytes (hasDest : Bool) (hfcf : pf.fcf = p.fcf) (h : p.fcf.InRange)
    (hhas : hasSrc = true → p.fcf.srcAddrMode ≠ 0)
    (hdata :
      data = pre ++ (pidBytes hasSrc p.srcPid ++ (addrBytes p.fcf.srcAddrMode p.srcAddr ++ rest))) :
    ∃ pf', parseSrc hasSrc hasDest data pf pre.length = some
        (pf', (pre ++ pidBytes hasSrc p.srcPid ++ addrBytes p.fcf.srcAddrMode p.srcAddr).length) ∧
      KeepsDest pf pf' ∧ pf'.srcAddr = addrOf (addrBytes p.fcf.srcAddrMode p.srcAddr) ∧
      (hasSrc = true → pf'.srcPid = p.srcPid) ∧ (hasDest = true → pf'.destPid = pf.destPid) := by
  by_cases hmode : p.fcf.srcAddrMode = 0
  · obtain rfl : hasSrc = false := Bool.eq_false_iff.mpr fun ht => hhas ht hmode
    refine ⟨{ pf with srcAddr := addrOf [], srcPid := 0 }, ?_, ⟨rfl, rfl, rfl, rfl⟩,
      ?_, nofun, fun _ => rfl⟩
    · rw [parseSrc, if_neg (by rw [hfcf]; exact not_not.mpr hmode), hmode]
      simp
    · rw [hmode, addrBytes_zero]
  · obtain ⟨pf₁, hpid, hkeeps, hsrc, hdest⟩ := parseSrcPid_bytes pf hasDest hdata
    refine ⟨{ pf₁ with srcAddr := addrOf (addrBytes p.fcf.srcAddrMode p.srcAddr) }, ?_,
      hkeeps, rfl, hsrc, hdest⟩
    rw [parseSrc, if_pos (by rw [hfcf]; exact hmode), hpid]
    change ((parseAddr pf₁.fcf.srcAddrMode pf₁.srcAddr data
      (pre ++ pidBytes hasSrc p.srcPid).length).bind _) = _
    rw [hkeeps.1, hfcf, parseAddr_bytes (addrMode_cases h.srcAddrMode hmode) (behind hdata)]
    rfl

/-- The frames of the 2015 version with no address and the compression bit, which have a destination
PAN. -/
def NoAddrPan (fcf : Fcf) : Prop :=
  fcf.frameVersion = frame802154Ieee8021542015 ∧ fcf.destAddrMode = frame802154Noaddr ∧
    fcf.srcAddrMode = frame802154Noaddr ∧ fcf.panidCompression = 1

instance {fcf : Fcf} : Decidable (NoAddrPan fcf) := inferInstanceAs (Decidable (_ ∧ _))

theorem hasSrcPanid_mode (h : (frame802154HasPanid fcf).1 = true) : fcf.srcAddrMode ≠ 0 := by
  intro hmode
  revert h
  rw [frame802154HasPanid, hmode]
  split_ifs <;> simp

theorem hasDestPanid_mode (h : (frame802154HasPanid fcf).2 = true) (hno : ¬NoAddrPan fcf) :
    fcf.destAddrMode ≠ 0 := by
  intro hmode
  revert h
  rw [frame802154HasPanid, hmode]
  split_ifs with hv
  · intro h
    simp at h
    exact hno ⟨hv, hmode, h.1, h.2⟩
  · simp
  · simp

theorem NoAddrPan.hasPanid (h : NoAddrPan fcf) : frame802154HasPanid fcf = (false, true) := by
  obtain ⟨hv, hd, hs, hc⟩ := h
  simp [frame802154HasPanid, hv, hd, hs, hc]

/-! ### The auxiliary security header -/

/-- The length that the reader finds for the frame counter. -/
def counterLen (c : Scf) : ℕ :=
  if c.frameCounterSuppression = 0 then if c.frameCounterSize = 1 then 5 else 4 else 0

/-- The length of the key identifier as the parser counts it. -/
def keyLen (cfg : Llsec) (c : Scf) : ℕ :=
  if cfg.usesExplicitKeys ∧ c.keyIdMode ≠ 0 then (c.keyIdMode.toNat - 1) * 4 + 1 else 0

theorem parseCounter_some (h : parseCounter data a pos = some (a', pos')) :
    a'.securityControl = a.securityControl ∧ pos' = pos + counterLen a.securityControl := by
  rw [parseCounter] at h
  rw [counterLen]
  by_cases hs : a.securityControl.frameCounterSuppression = 0
  · rw [if_pos hs] at h ⊢
    obtain ⟨b, -, hb⟩ := bind_eq_some_iff.mp h
    cases hb
    refine ⟨rfl, ?_⟩
    split <;> rfl
  · rw [if_neg hs] at h ⊢
    cases h
    exact ⟨rfl, rfl⟩

theorem parseKey_some (h : parseKey cfg data a pos = some (a', pos')) :
    a'.securityControl = a.securityControl ∧ pos' = pos + keyLen cfg a.securityControl := by
  rw [parseKey] at h
  rw [keyLen]
  split_ifs at h ⊢ with hc
  · obtain ⟨source, -, hb⟩ := bind_eq_some_iff.mp h
    obtain ⟨index, -, hb⟩ := bind_eq_some_iff.mp hb
    cases hb
    exact ⟨rfl, rfl⟩
  · cases h
    exact ⟨rfl, rfl⟩

/-- What the reader makes of the first byte decides all lengths. -/
theorem parseAux_some {fcf : FrameFcf}
    (haux : cfg.usesAuxHeader ∧ fcf.securityEnabled ≠ 0)
    (h : parseAux cfg fcf data a pos = some (a', pos')) :
    ∃ b, readBytes data pos 1 = some b ∧
      a'.securityControl = parseScf cfg a.securityControl (b.getD 0 0) ∧
      pos' = pos + 1 + counterLen a'.securityControl + keyLen cfg a'.securityControl := by
  rw [parseAux, if_pos haux] at h
  obtain ⟨b, hb, h⟩ := bind_eq_some_iff.mp h
  obtain ⟨⟨a₁, pos₁⟩, hcounter, hkey⟩ := bind_eq_some_iff.mp h
  obtain ⟨hscf₁, hpos₁⟩ := parseCounter_some hcounter
  obtain ⟨hscf, hpos⟩ := parseKey_some hkey
  refine ⟨b, hb, hscf.trans hscf₁, ?_⟩
  rw [hpos, hpos₁, hscf, hscf₁]

theorem toList_copyFront {n : ℕ} {old : List.Vector UInt8 n} (h : bs.length ≤ n) :
    (copyFront bs old).toList.take bs.length = bs := by
  change (((bs ++ old.toList.drop bs.length).take n).take bs.length) = bs
  rw [take_take, Nat.min_eq_left h, take_left]

/-- The fields of the auxiliary security header that are there. -/
structure SameAux (cfg : Llsec) (a a' : AuxHdr) : Prop where
  securityLevel : a'.securityControl.securityLevel = a.securityControl.securityLevel
  keyIdMode : cfg.usesExplicitKeys → a'.securityControl.keyIdMode = a.securityControl.keyIdMode
  frameCounterSuppression :
    a'.securityControl.frameCounterSuppression = a.securityControl.frameCounterSuppression
  frameCounterSize : a'.securityControl.frameCounterSize = a.securityControl.frameCounterSize
  frameCounter : a.securityControl.frameCounterSuppression = 0 → a'.frameCounter = a.frameCounter
  key : cfg.usesExplicitKeys → a.securityControl.keyIdMode ≠ 0 →
    a'.keySource.toList.take ((a.securityControl.keyIdMode.toNat - 1) * 4) =
        a.keySource.toList.take ((a.securityControl.keyIdMode.toNat - 1) * 4) ∧
      a'.keyIndex = a.keyIndex

/-- Reading the frame counter back. -/
theorem parseCounter_bytes (a₁ : AuxHdr)
    (hs : a₁.securityControl.frameCounterSuppression = a.securityControl.frameCounterSuppression)
    (hz : a₁.securityControl.frameCounterSize = 0) (hz' : a.securityControl.frameCounterSize = 0)
    (hdata : data = pre ++ (counterBytes gap a ++ rest)) :
    ∃ a₂, parseCounter data a₁ pre.length = some (a₂, (pre ++ counterBytes gap a).length) ∧
      (a.securityControl.frameCounterSuppression = 0 → a₂.frameCounter = a.frameCounter) := by
  rw [parseCounter, hs]
  by_cases h : a.securityControl.frameCounterSuppression = 0
  · have hbytes : counterBytes gap a = a.frameCounter.toList := by
      rw [counterBytes, if_pos h, if_neg (by rw [hz']; decide), append_nil]
    have hlen : a.frameCounter.toList.length = 4 := by simp
    rw [hbytes] at hdata ⊢
    rw [if_pos h, readBytes_append 4 hlen hdata, length_append, hlen]
    refine ⟨{ a₁ with frameCounter := copyFront a.frameCounter.toList a₁.frameCounter },
      by rw [hz]; rfl, fun _ => ?_⟩
    apply List.Vector.toList_injective
    have hcopy : (copyFront _ a₁.frameCounter).toList.take _ = _ := toList_copyFront hlen.le
    rwa [hlen, take_of_length_le (by simp)] at hcopy
  · have hbytes : counterBytes gap a = [] := if_neg h
    rw [if_neg h, hbytes, append_nil]
    exact ⟨a₁, rfl, fun hc => absurd hc h⟩

/-- Reading the key identifier back. -/
theorem parseKey_bytes (a₁ : AuxHdr)
    (hk : cfg.usesExplicitKeys → a₁.securityControl.keyIdMode = a.securityControl.keyIdMode)
    (hlt : a.securityControl.keyIdMode.toNat < 4) (hdata : data = pre ++ (keyBytes cfg a ++ rest)) :
    ∃ a₂, parseKey cfg data a₁ pre.length = some (a₂, (pre ++ keyBytes cfg a).length) ∧
      a₂.frameCounter = a₁.frameCounter ∧
      (cfg.usesExplicitKeys → a.securityControl.keyIdMode ≠ 0 →
        a₂.keySource.toList.take ((a.securityControl.keyIdMode.toNat - 1) * 4) = keySourceBytes a ∧
          a₂.keyIndex = a.keyIndex) := by
  rw [parseKey]
  by_cases he : cfg.usesExplicitKeys
  · rw [hk he]
    by_cases hz : a.securityControl.keyIdMode = 0
    · have hno : ¬(cfg.usesExplicitKeys ∧ a.securityControl.keyIdMode ≠ 0) := fun hc => hc.2 hz
      rw [keyBytes, if_neg hno, if_neg hno, append_nil]
      exact ⟨a₁, rfl, rfl, fun _ hne => absurd hz hne⟩
    · rw [keyBytes_eq ⟨he, hz⟩] at hdata ⊢
      have hlen := length_keySourceBytes hlt
      rw [append_assoc] at hdata
      have hread := readBytes_append 1 rfl (behind hdata)
      rw [length_append, hlen] at hread
      rw [if_pos ⟨he, hz⟩]
      dsimp only
      rw [readBytes_append _ hlen hdata, hread]
      refine ⟨{ a₁ with
        keySource := copyFront (keySourceBytes a) a₁.keySource, keyIndex := a.keyIndex }, ?_, rfl,
        fun _ _ => ⟨?_, rfl⟩⟩
      · rw [length_append, length_append, hlen]
        rfl
      · rw [← hlen]
        exact toList_copyFront (hlen.trans_le (by omega))
  · have hno : ∀ k : UInt8, ¬(cfg.usesExplicitKeys ∧ k ≠ 0) := fun k hc => he hc.1
    rw [keyBytes, if_neg (hno _), if_neg (hno _), append_nil]
    exact ⟨a₁, rfl, rfl, fun hc => absurd hc he⟩

/-- The reader takes the size of the frame counter for part of its suppression. -/
theorem parseScf_scfByte (cfg : Llsec) (old : Scf) (h : c.InRange) :
    parseScf cfg old (scfByte cfg c) =
    { securityLevel := c.securityLevel
      keyIdMode := if cfg.usesExplicitKeys then c.keyIdMode else old.keyIdMode
      frameCounterSuppression := UInt8.ofNat
        (c.frameCounterSuppression.toNat + 2 * c.frameCounterSize.toNat)
      frameCounterSize := c.frameCounterSize } := by
  obtain ⟨l, k, s, z⟩ := c
  obtain ⟨hl, hk, hs, hz⟩ := h
  obtain ⟨l, rfl⟩ := exists_fin_of_lt hl
  obtain ⟨k, rfl⟩ := exists_fin_of_lt hk
  obtain ⟨s, rfl⟩ := exists_fin_of_lt hs
  obtain ⟨z, rfl⟩ := exists_fin_of_lt hz
  have hs' : (UInt8.ofNat s).toNat = s := UInt8.toNat_ofNat_of_lt' (s.isLt.trans (by decide))
  have hz' : (UInt8.ofNat z).toNat = z := UInt8.toNat_ofNat_of_lt' (z.isLt.trans (by decide))
  cases he : cfg.usesExplicitKeys with
  | true =>
    obtain ⟨h₁, h₂, h₃, h₄⟩ := scf_byte l k s z
    simp only [parseScf, scfByte, he, if_true, h₁, h₂, h₃, h₄, hs', hz']
  | false =>
    obtain ⟨h₁, -, h₃, h₄⟩ := scf_byte l 0 s z
    have hzero : UInt8.ofNat (0 : Fin 4).val <<< 3 = 0 := by decide
    rw [hzero] at h₁ h₃ h₄
    simp only [parseScf, scfByte, he, Bool.false_eq_true, if_false, h₁, h₃, h₄, hs', hz']

/-- Reading the auxiliary security header back. -/
theorem parseAux_bytes {fcf : FrameFcf} (old : AuxHdr)
    (haux : cfg.usesAuxHeader ∧ fcf.securityEnabled ≠ 0) (h : a.securityControl.InRange)
    (hz : a.securityControl.frameCounterSize = 0)
    (hdata : data = pre ++ (auxBytes cfg gap a ++ rest)) :
    ∃ a', parseAux cfg fcf data old pre.length = some (a', (pre ++ auxBytes cfg gap a).length) ∧
      SameAux cfg a a' := by
  generalize hc : parseScf cfg old.securityControl (scfByte cfg a.securityControl) = c
  have hscf := parseScf_scfByte cfg old.securityControl h
  rw [hc, hz] at hscf
  have hsup : c.frameCounterSuppression = a.securityControl.frameCounterSuppression := by
    rw [hscf]
    exact UInt8.ofNat_toNat
  have hbyte :
      data = pre ++ ([scfByte cfg a.securityControl] ++
        (counterBytes gap a ++ (keyBytes cfg a ++ rest))) := by
    rw [hdata, auxBytes]
    simp only [append_assoc]
  have hcounter := behind hbyte
  obtain ⟨a₂, h₂, hcounter₂⟩ := parseCounter_bytes { old with securityControl := c } hsup
    (by rw [hscf]) hz hcounter
  have hsc₂ : a₂.securityControl = c := (parseCounter_some h₂).1
  have hmode : cfg.usesExplicitKeys →
      a₂.securityControl.keyIdMode = a.securityControl.keyIdMode := by
    intro he
    rw [hsc₂, hscf]
    exact if_pos he
  obtain ⟨a₃, h₃, hframe₃, hkey₃⟩ := parseKey_bytes a₂ hmode h.keyIdMode (behind hcounter)
  have hsc₃ : a₃.securityControl = c := (parseKey_some h₃).1.trans hsc₂
  refine ⟨a₃, ?_, ?_, fun he => ?_, ?_, ?_, fun hs => ?_, hkey₃⟩
  · rw [parseAux, if_pos haux, readBytes_append 1 rfl hbyte]
    change ((parseCounter data { old with
      securityControl := parseScf cfg old.securityControl (scfByte cfg a.securityControl) }
        (pre.length + 1)).bind _) = _
    have hpos : pre.length + 1 = (pre ++ [scfByte cfg a.securityControl]).length := by simp
    rw [hc, hpos, h₂]
    change parseKey cfg data a₂ (pre ++ [scfByte cfg a.securityControl] ++
      counterBytes gap a).length = _
    rw [h₃, auxBytes]
    simp only [append_assoc]
  · rw [hsc₃, hscf]
  · rw [hsc₃, ← hsc₂, hmode he]
  · rw [hsc₃, hsup]
  · rw [hsc₃, hscf, hz]
  · rw [hframe₃, hcounter₂ hs]

/-- The length of the counter is not five for any first byte. -/
theorem counterLen_parseScf (old : Scf) (b : UInt8) :
    counterLen (parseScf cfg old b) = 0 ∨ counterLen (parseScf cfg old b) = 4 := by
  rw [counterLen]
  by_cases hs : (parseScf cfg old b).frameCounterSuppression = 0
  · have hz : (parseScf cfg old b).frameCounterSize ≠ 1 := by
      intro hz
      have hs' := congrArg UInt8.toNat hs
      have hz' := congrArg UInt8.toNat hz
      change (b >>> 5).toNat = 0 at hs'
      change (b >>> 6).toNat = 1 at hz'
      rw [UInt8.toNat_shiftRight] at hs' hz'
      have h5 : (5 : UInt8).toNat % 8 = 5 := rfl
      have h6 : (6 : UInt8).toNat % 8 = 6 := rfl
      rw [h5] at hs'
      rw [h6] at hz'
      omega
    rw [if_pos hs, if_neg hz]
    exact .inr rfl
  · rw [if_neg hs]
    exact .inl rfl

theorem getKeyIdLen_mem (k : UInt8) : getKeyIdLen k ∈ [0, 1, 5, 9] := by
  rw [getKeyIdLen]
  split_ifs <;> decide

theorem keyLen_mem (h : cfg.usesExplicitKeys → c.keyIdMode.toNat < 4) :
    keyLen cfg c ∈ [0, 1, 5, 9] := by
  rw [keyLen]
  split_ifs with hc
  · have hlen := getKeyIdLen_mem c.keyIdMode
    rwa [getKeyIdLen_eq (h hc.1), if_neg hc.2] at hlen
  · decide

/-- The reader never takes the auxiliary header to be two bytes longer than it is. -/
theorem parsed_ne_auxSecLen (a : AuxHdr) (hc : counterLen c = 0 ∨ counterLen c = 4)
    (hk : keyLen cfg c ∈ [0, 1, 5, 9]) : 1 + counterLen c + keyLen cfg c ≠ 2 + auxSecLen cfg a := by
  have hlen : (if cfg.usesExplicitKeys then getKeyIdLen a.securityControl.keyIdMode else 0) ∈
      [0, 1, 5, 9] := by
    split
    · exact getKeyIdLen_mem _
    · decide
  have hcounter : counterLen a.securityControl = 0 ∨ counterLen a.securityControl = 4 ∨
      counterLen a.securityControl = 5 := by
    rw [counterLen]
    split_ifs <;> simp
  simp only [mem_cons, not_mem_nil, or_false] at hlen hk
  change _ ≠ 2 + (1 + counterLen a.securityControl + _)
  omega

end Read

end Frame

end Nespy.Mac
