import Nespy.Mac.FrameFields

/-!
# Mac — the header of a frame, written and read

`frame802154_parse` reads what `frame802154_create` has written, for every frame but those of two
kinds. In the 2015 version a frame with no address and the compression bit set has a destination
PAN, which is written and not read.  And the reader takes the size of the frame counter for part of
its suppression, so that a counter of five bytes is skipped.
-/

open List Option

namespace Nespy.Mac.Frame

variable {cfg : Llsec} {p : Frame} {data rest : List UInt8} {len : ℕ} {pf₀ : Frame}

/-- What the reader has found in front of the auxiliary security header. -/
structure SameHead (p pf : Frame) : Prop where
  fcf : pf.fcf = p.fcf
  seq : p.fcf.sequenceNumberSuppression = 0 → pf.seq = p.seq
  destAddr : pf.destAddr.toList.take (addrLen (p.fcf.destAddrMode &&& 3)) =
    p.destAddr.toList.take (addrLen (p.fcf.destAddrMode &&& 3))
  srcAddr : pf.srcAddr.toList.take (addrLen (p.fcf.srcAddrMode &&& 3)) =
    p.srcAddr.toList.take (addrLen (p.fcf.srcAddrMode &&& 3))
  destPid : (frame802154HasPanid p.fcf.toFcf).2 = true → pf.destPid = p.destPid
  srcPid : (frame802154HasPanid p.fcf.toFcf).1 = true → pf.srcPid = p.srcPid

/-- The end of `frame802154_parse`. -/
def finish (len : ℕ) (pf : Frame) (r : AuxHdr × ℕ) : ℕ × Frame :=
  (if len < r.2 then 0 else r.2, { pf with auxHdr := r.1, payloadLen := len - r.2, payload := r.2 })

/-- What the reader has after the sequence number. -/
def afterSeq (p pf₀ : Frame) : Frame :=
  { pf₀ with fcf := p.fcf, seq := if p.fcf.sequenceNumberSuppression = 0 then p.seq else pf₀.seq }

section

variable (cfg : Llsec) (pf₀ : Frame) (h : p.fcf.InRange) (hlen : 2 ≤ len)

include h hlen

/-- Reading the first two fields. -/
theorem parse_start (hdata : data = frame802154CreateFcf p.fcf ++ (seqBytes p ++ rest)) :
    frame802154Parse cfg data len pf₀ =
      (parseDest (frame802154HasPanid p.fcf.toFcf).2 data
        (afterSeq p pf₀) (frame802154CreateFcf p.fcf ++ seqBytes p).length).bind fun r =>
      (parseSrc (frame802154HasPanid p.fcf.toFcf).1 (frame802154HasPanid p.fcf.toFcf).2
        data r.1 r.2).bind fun r =>
      (parseAux cfg p.fcf data r.1.auxHdr r.2).map (finish len r.1) := by
  have hdata' : data = [] ++ (frame802154CreateFcf p.fcf ++ (seqBytes p ++ rest)) := hdata
  have hfcf : readBytes data 0 2 = some (frame802154CreateFcf p.fcf) :=
    readBytes_append 2 rfl hdata'
  have hseq : parseSeq data { pf₀ with fcf := p.fcf } 2 = some (afterSeq p pf₀,
        (frame802154CreateFcf p.fcf ++ seqBytes p).length) :=
    parseSeq_bytes p { pf₀ with fcf := p.fcf } rfl h.sequenceNumberSuppression hdata
  rw [frame802154Parse, if_neg (by omega), hfcf, bind_eq_bind]
  simp only [parseFcf_createFcf h, hseq, bind_some, map_eq_bind]
  rfl

/-- Reading up to the auxiliary security header. -/
theorem parse_head (hno : ¬NoAddrPan p.fcf.toFcf) (hdata : data = headBytes p ++ rest) :
    ∃ pf, SameHead p pf ∧ frame802154Parse cfg data len pf₀ =
      (parseAux cfg p.fcf data pf₀.auxHdr (headBytes p).length).map (finish len pf) := by
  rw [headBytes] at hdata
  obtain ⟨hasSrc, hasDest, hpan⟩ : ∃ hasSrc hasDest,
      frame802154HasPanid p.fcf.toFcf = (hasSrc, hasDest) :=
    ⟨_, _, rfl⟩
  have hsrcMode : hasSrc = true → p.fcf.srcAddrMode ≠ 0 :=
    fun ht => hasSrcPanid_mode (by rw [hpan]; exact ht)
  have hdestMode : hasDest = true → p.fcf.destAddrMode ≠ 0 :=
    fun ht => hasDestPanid_mode (by rw [hpan]; exact ht) hno
  simp only [hpan] at hdata
  have hdest : data = (frame802154CreateFcf p.fcf ++ seqBytes p) ++ (pidBytes hasDest p.destPid ++
      (addrBytes p.fcf.destAddrMode p.destAddr ++ (pidBytes hasSrc p.srcPid ++
        (addrBytes p.fcf.srcAddrMode p.srcAddr ++ rest)))) := by
    rw [hdata]
    simp only [append_assoc]
  have hfcf₁ : (afterSeq p pf₀).fcf = p.fcf := rfl
  generalize hpf₂ : ({ afterSeq p pf₀ with
      destPid := if hasDest then p.destPid else 0
      destAddr := addrOf (addrBytes p.fcf.destAddrMode p.destAddr) } : Frame) = pf₂
  have hfcf₂ : pf₂.fcf = p.fcf := by rw [← hpf₂, hfcf₁]
  obtain ⟨pf₃, hparse, ⟨hfcf₃, hseq₃, haddr₃, haux₃⟩, hsrcAddr, hsrcPid, hdestPid⟩ :=
    parseSrc_bytes hasDest hfcf₂ h hsrcMode (behind (behind hdest))
  refine ⟨pf₃, ⟨hfcf₃.trans hfcf₂, fun hs => ?_, ?_, ?_, fun ht => ?_, fun ht => ?_⟩, ?_⟩
  · rw [hseq₃, ← hpf₂]
    exact if_pos hs
  · rw [haddr₃, ← hpf₂]
    exact take_addrOf
  · rw [hsrcAddr]
    exact take_addrOf
  · rw [hpan] at ht
    rw [hdestPid ht, ← hpf₂]
    exact if_pos ht
  · rw [hpan] at ht
    exact hsrcPid ht
  · rw [parse_start _ _ h hlen (by rw [hdest, append_assoc]), hpan]
    simp only [parseDest_bytes hfcf₁ h hdestMode hdest, bind_some]
    rw [hpf₂, hparse, bind_some, haux₃, ← hpf₂, headBytes, hpan]
    rfl

/-- Reading a frame with no address but a destination PAN: the PAN is not read. -/
theorem parse_noAddrPan (hno : NoAddrPan p.fcf.toFcf)
    (hdata : data = frame802154CreateFcf p.fcf ++ (seqBytes p ++ rest)) :
    ∃ pf, frame802154Parse cfg data len pf₀ =
      (parseAux cfg p.fcf data pf₀.auxHdr (frame802154CreateFcf p.fcf ++ seqBytes p).length).map
        (finish len pf) := by
  rw [parse_start _ _ h hlen hdata]
  obtain ⟨-, hd, hs, -⟩ := hno
  refine ⟨{ afterSeq p pf₀ with
      destAddr := addrOf [], destPid := 0, srcAddr := addrOf [], srcPid := 0 }, ?_⟩
  rw [parseDest, if_neg (by exact not_not.mpr hd), bind_some, parseSrc,
    if_neg (by exact not_not.mpr hs), bind_some]
  rfl

end

/-! ### Round trips -/

/-- All values fit into their fields. -/
structure InRange (p : Frame) : Prop where
  fcf : p.fcf.InRange
  scf : p.auxHdr.securityControl.InRange

/-- `frame802154_create` and then `frame802154_parse` on the header and a payload behind it: the
length of the header, the place of the payload, and the fields that are there, are those of the
frame. -/
def RoundTrips (cfg : Llsec) (p : Frame) (buf payload : List UInt8) (pf₀ : Frame) : Prop :=
  ∃ p' buf' n pf, frame802154Create cfg p buf = some (p', buf', n) ∧
    frame802154Parse cfg (buf'.take n ++ payload) (n + payload.length) pf₀ =
      some (frame802154Hdrlen cfg p, pf) ∧
    pf.payload = n ∧ pf.payloadLen = payload.length ∧ SameHead p' pf ∧
    (HasAux cfg p' → SameAux cfg p'.auxHdr pf.auxHdr)

theorem hasAux_adjust : HasAux cfg p.adjust ↔ HasAux cfg p := by
  have hsec : p.adjust.fcf.securityEnabled = p.fcf.securityEnabled := by
    rw [adjust]
    split <;> rfl
  rw [HasAux, hsec, HasAux]

theorem noAddrPan_adjust : NoAddrPan p.adjust.fcf.toFcf ↔ NoAddrPan p.fcf.toFcf := by
  by_cases hv : p.fcf.frameVersion < frame802154Ieee8021542015
  · have hne : p.fcf.frameVersion ≠ frame802154Ieee8021542015 := by
      intro heq
      rw [heq] at hv
      exact absurd hv (by decide)
    have hver : p.adjust.fcf.frameVersion = p.fcf.frameVersion := by
      rw [adjust, if_pos hv]
    exact ⟨fun h => absurd (hver ▸ h.1) hne, fun h => absurd h.1 hne⟩
  · rw [adjust, if_neg hv]

theorem InRange.adjust (h : p.InRange) : p.adjust.InRange := by
  refine ⟨?_, by rw [adjust_auxHdr]; exact h.scf⟩
  obtain ⟨h₁, h₂, h₃, h₄, h₅, h₆, h₇, h₈, h₉, h₁₀⟩ := h.fcf
  rw [Frame.adjust]
  split
  · refine ⟨h₁, h₂, h₃, h₄, ?_, h₆, h₇, h₈, h₉, h₁₀⟩
    dsimp only
    split <;> decide
  · exact h.fcf

theorem hasAux_iff (h : p.fcf.InRange) :
    HasAux cfg p ↔ cfg.usesAuxHeader ∧ p.fcf.securityEnabled ≠ 0 := by
  rw [HasAux, ne_eq, and_one_eq_zero_iff h.securityEnabled]

theorem two_le_hdrlen : 2 ≤ frame802154Hdrlen cfg p := by
  rw [frame802154Hdrlen]
  omega

variable {buf payload : List UInt8}

section

variable (h : p.InRange) (hroom : frame802154Hdrlen cfg p ≤ buf.length)

include h hroom

/-- The reader on what was written. -/
theorem roundTrips_of
    (hno : ¬NoAddrPan p.fcf.toFcf)
    (hz : HasAux cfg p → p.auxHdr.securityControl.frameCounterSize = 0) :
    RoundTrips cfg p buf payload pf₀ := by
  obtain ⟨buf', gap, hcreate, hbytes, hn⟩ := create_spec h.scf.keyIdMode hroom
  generalize hq : p.adjust = q
  have hqr : q.InRange := hq ▸ h.adjust
  rw [hq] at hbytes hn
  rw [← hasAux_adjust, ← adjust_auxHdr, hq] at hz
  rw [← noAddrPan_adjust, hq] at hno
  have hlen : 2 ≤ frame802154Hdrlen cfg p + payload.length := Nat.le_add_right_of_le two_le_hdrlen
  have hdata : bytes cfg gap q ++ payload =
      headBytes q ++ ((if HasAux cfg q then auxBytes cfg gap q.auxHdr else []) ++ payload) := by
    rw [bytes, append_assoc]
  obtain ⟨pf, hhead, hparse⟩ := parse_head cfg pf₀ hqr.fcf hlen hno hdata
  obtain ⟨a', haux, hsame⟩ :
    ∃ a', parseAux cfg q.fcf (bytes cfg gap q ++ payload) pf₀.auxHdr (headBytes q).length =
      some (a', frame802154Hdrlen cfg p) ∧ (HasAux cfg q → SameAux cfg q.auxHdr a') := by
    rw [← hn, bytes]
    by_cases ha : HasAux cfg q
    · simp only [if_pos ha]
      obtain ⟨a', haux, hsame⟩ := parseAux_bytes pf₀.auxHdr
        ((hasAux_iff hqr.fcf).mp ha) hqr.scf (hz ha)
        (append_assoc (headBytes q) (auxBytes cfg gap q.auxHdr) payload)
      exact ⟨a', haux, fun _ => hsame⟩
    · refine ⟨pf₀.auxHdr, ?_, fun hc => absurd hc ha⟩
      rw [if_neg ha, append_nil, parseAux, if_neg (mt (hasAux_iff hqr.fcf).mpr ha)]
  refine ⟨p.adjust, buf', _, { pf with
      auxHdr := a', payload := frame802154Hdrlen cfg p
      payloadLen := (frame802154Hdrlen cfg p +
        payload.length : ℕ) - (frame802154Hdrlen cfg p : ℤ) },
    hcreate, ?_, rfl, ?_, ?_, ?_⟩
  · rw [hbytes, hparse, haux, map_some, finish,
      if_neg (by exact Nat.not_lt.mpr (Nat.le_add_right _ _))]
  · push_cast
    omega
  · rw [hq]
    exact ⟨hhead.1, hhead.2, hhead.3, hhead.4, hhead.5, hhead.6⟩
  · rw [hq]
    exact hsame

/-- The reader gets the bytes of the adjusted frame. -/
theorem RoundTrips.parse
    (hround : RoundTrips cfg p buf payload pf₀) : ∃ gap pf,
      (bytes cfg gap p.adjust).length = frame802154Hdrlen cfg p ∧
      frame802154Parse cfg (bytes cfg gap p.adjust ++ payload)
        (frame802154Hdrlen cfg p + payload.length) pf₀ =
        some (frame802154Hdrlen cfg p, pf) ∧
      (HasAux cfg p.adjust → SameAux cfg p.adjust.auxHdr pf.auxHdr) := by
  obtain ⟨p', buf₁, n, pf, hcreate₁, hparse, -, -, -, hsame⟩ := hround
  obtain ⟨buf', gap, hcreate, hbytes, hn⟩ := create_spec h.scf.keyIdMode hroom
  obtain ⟨rfl, hbuf⟩ := Prod.mk.inj (some.inj (hcreate.symm.trans hcreate₁))
  cases hbuf
  rw [hbytes] at hparse
  exact ⟨gap, pf, hn, hparse, hsame⟩

/-- A counter of five bytes is read as suppressed. -/
theorem not_roundTrips_size
    (hno : ¬NoAddrPan p.fcf.toFcf) (ha : HasAux cfg p)
    (hz : p.auxHdr.securityControl.frameCounterSize ≠ 0) :
    ¬RoundTrips cfg p buf payload pf₀ := by
  intro hround
  obtain ⟨gap, pf, hn, hparse, hsame⟩ := hround.parse h hroom
  generalize hq : p.adjust = q
  have hqr : q.InRange := hq ▸ h.adjust
  rw [hq] at hn hparse hsame
  rw [← adjust_auxHdr, hq] at hz
  rw [← noAddrPan_adjust, hq] at hno
  rw [← hasAux_adjust, hq] at ha
  have hlen : 2 ≤ frame802154Hdrlen cfg p + payload.length := Nat.le_add_right_of_le two_le_hdrlen
  have hdata : bytes cfg gap q ++ payload =
    headBytes q ++ ([scfByte cfg q.auxHdr.securityControl] ++
      (counterBytes gap q.auxHdr ++ keyBytes cfg q.auxHdr ++ payload)) := by
    rw [bytes, if_pos ha, auxBytes]
    simp only [append_assoc]
  obtain ⟨pf', -, hhead⟩ := parse_head cfg pf₀ hqr.fcf hlen hno hdata
  rw [hhead] at hparse
  obtain ⟨⟨a', pos⟩, haux, hfinish⟩ := map_eq_some_iff.mp hparse
  obtain ⟨b, hb, hscf, -⟩ := parseAux_some ((hasAux_iff hqr.fcf).mp ha) haux
  obtain rfl := some.inj (hb.symm.trans (readBytes_append 1 rfl hdata))
  obtain rfl : { pf' with auxHdr := a', payloadLen := _, payload := pos } = pf :=
    congrArg Prod.snd hfinish
  have hsup := (hsame ha).frameCounterSuppression
  rw [hscf] at hsup
  change (parseScf cfg pf₀.auxHdr.securityControl
    (scfByte cfg q.auxHdr.securityControl)).frameCounterSuppression = _
    at hsup
  rw [parseScf_scfByte cfg _ hqr.scf] at hsup
  have hnat := congrArg UInt8.toNat hsup
  have hs := hqr.scf.frameCounterSuppression
  have hz₁ := hqr.scf.frameCounterSize
  have hz₀ : q.auxHdr.securityControl.frameCounterSize.toNat ≠ 0 :=
    fun hc => hz (UInt8.toNat_inj.mp hc)
  rw [UInt8.toNat_ofNat_of_lt' (by rw [UInt8.size]; omega)] at hnat
  omega

/-- The PAN of a frame without addresses is not read, and no other field makes up for it. -/
theorem not_roundTrips_noAddrPan
    (hno : NoAddrPan p.fcf.toFcf) : ¬RoundTrips cfg p buf payload pf₀ := by
  intro hround
  obtain ⟨gap, pf, hn, hparse, -⟩ := hround.parse h hroom
  generalize hq : p.adjust = q
  have hqr : q.InRange := hq ▸ h.adjust
  rw [hq] at hn hparse
  rw [← noAddrPan_adjust, hq] at hno
  have hlen : 2 ≤ frame802154Hdrlen cfg p + payload.length := Nat.le_add_right_of_le two_le_hdrlen
  have hpan := hno.hasPanid
  have hbytes :
    bytes cfg gap q = frame802154CreateFcf q.fcf ++ (seqBytes q ++ (pidBytes true q.destPid ++
      if HasAux cfg q then auxBytes cfg gap q.auxHdr else [])) := by
    obtain ⟨-, hd, hs, -⟩ := id hno
    rw [bytes, headBytes, hpan, hd, hs]
    simp
  have hdata : bytes cfg gap q ++ payload = frame802154CreateFcf q.fcf ++
    (seqBytes q ++ (pidBytes true q.destPid ++
      (if HasAux cfg q then auxBytes cfg gap q.auxHdr else []) ++ payload)) := by
    rw [hbytes]
    simp only [append_assoc]
  have hlength : frame802154Hdrlen cfg p = (frame802154CreateFcf q.fcf ++ seqBytes q).length + 2 +
      if HasAux cfg q then auxSecLen cfg q.auxHdr else 0 := by
    rw [← hn, hbytes, ← append_assoc, ← append_assoc, length_append, length_append,
      length_auxIf hqr.scf.keyIdMode]
    rfl
  obtain ⟨pf', hhead⟩ := parse_noAddrPan cfg pf₀ hqr.fcf hlen hno hdata
  rw [hhead] at hparse
  obtain ⟨⟨a', pos⟩, haux, hfinish⟩ := map_eq_some_iff.mp hparse
  have hpos : pos = frame802154Hdrlen cfg p := by
    have hfst := congrArg Prod.fst hfinish
    dsimp only [finish] at hfst
    split at hfst
    · omega
    · exact hfst
  by_cases ha : HasAux cfg q
  · obtain ⟨b, -, hscf, hpos'⟩ := parseAux_some ((hasAux_iff hqr.fcf).mp ha) haux
    rw [if_pos ha] at hlength
    have hmode : cfg.usesExplicitKeys → a'.securityControl.keyIdMode.toNat < 4 := by
      intro he
      rw [hscf, parseScf, if_pos he]
      exact Nat.lt_succ_of_le Nat.and_le_right
    refine parsed_ne_auxSecLen q.auxHdr (hscf ▸ counterLen_parseScf _ _) (keyLen_mem hmode) ?_
    omega
  · rw [parseAux, if_neg (mt (hasAux_iff hqr.fcf).mpr ha)] at haux
    have hpos' := congrArg Prod.snd (some.inj haux)
    omega

end

/-- **Round trip.**  A frame is read back as it was written exactly when it is not one without
addresses that still has a PAN, and its frame counter, if there is a security header, is not of the
longer size. -/
theorem header_round_trip_iff (h : p.InRange) (hroom : frame802154Hdrlen cfg p ≤ buf.length) :
    RoundTrips cfg p buf payload pf₀ ↔
      ¬NoAddrPan p.fcf.toFcf ∧ (HasAux cfg p → p.auxHdr.securityControl.frameCounterSize = 0) := by
  constructor
  · intro hround
    have hno : ¬NoAddrPan p.fcf.toFcf := fun hno => not_roundTrips_noAddrPan h hroom hno hround
    refine ⟨hno, fun ha => ?_⟩
    by_contra hz
    exact not_roundTrips_size h hroom hno ha hz hround
  · rintro ⟨hno, hz⟩
    exact roundTrips_of h hroom hno hz

/-- A data frame of the 2015 version with the given address modes, whose other fields are plain. -/
def sample (destAddrMode srcAddrMode panidCompression frameCounterSize : UInt8) : Frame where
  destAddr := List.Vector.ofFn fun i => UInt8.ofNat (i + 1)
  srcAddr := List.Vector.ofFn fun i => UInt8.ofNat (i + 11)
  fcf :=
    { frameType := 1, panidCompression, sequenceNumberSuppression := 0, destAddrMode
      frameVersion := frame802154Ieee8021542015, srcAddrMode,
        securityEnabled := 1, framePending := 0
      ackRequired := 1, ieListPresent := 0 }
  seq := 7
  destPid := 0xabcd
  srcPid := 0xabcd
  auxHdr :=
    { securityControl :=
        { securityLevel := 5, keyIdMode := 1, frameCounterSuppression := 0, frameCounterSize }
      frameCounter := ⟨[1, 0, 0, 0], rfl⟩
      keySource := ⟨[0, 0, 0, 0, 0, 0, 0, 0], rfl⟩
      keyIndex := 3 }
  payload := 0
  payloadLen := 0

theorem sample_inRange {d s c z : UInt8}
    (hd : d ∈ [frame802154Noaddr, frame802154Shortaddrmode, frame802154Longaddrmode])
    (hs : s ∈ [frame802154Noaddr, frame802154Shortaddrmode, frame802154Longaddrmode])
    (hc : c.toNat < 2) (hz : z.toNat < 2) : (sample d s c z).InRange := by
  refine ⟨⟨?_, ?_, ?_, ?_, hc, ?_, ?_, hd, ?_, hs⟩, ?_, ?_, ?_, hz⟩ <;> simp [sample]

/-- A secured frame with long addresses. -/
theorem header_round_trip_iff_long :
    RoundTrips ⟨true, true⟩ (sample 3 3 0 0) (replicate 40 0) [1, 2, 3] (sample 0 0 0 0) :=
  (header_round_trip_iff (sample_inRange (by decide) (by decide) (by decide) (by decide))
    (by decide)).mpr
    ⟨by decide, fun _ => rfl⟩

/-- **Lost PAN, lost counter.**  A frame without addresses is read with its PAN as payload, and a
secured frame with a counter of five bytes with its counter as payload. -/
theorem header_not_round_trip :
    (¬RoundTrips ⟨true, true⟩ (sample 0 0 1 0) (replicate 40 0) [1, 2, 3] (sample 0 0 0 0)) ∧
      ¬RoundTrips ⟨true, true⟩ (sample 3 3 0 1) (replicate 40 0) [1, 2, 3] (sample 0 0 0 0) := by
  have hpan : (sample 0 0 1 0).InRange :=
    sample_inRange (by decide) (by decide) (by decide) (by decide)
  have hsize : (sample 3 3 0 1).InRange :=
    sample_inRange (by decide) (by decide) (by decide) (by decide)
  exact ⟨not_roundTrips_noAddrPan hpan (by decide) (by decide),
    not_roundTrips_size hsize (by decide) (by decide) (by decide) (by decide)⟩

end Nespy.Mac.Frame
