import Nespy.Mac.Framer

/-!
# Mac — 802.15.4 headers

`net/mac/framer/frame802154.c`: the header of a frame is written by `frame802154_create` and read by
`frame802154_parse`.  The two do not decide in the same way which fields there are: the writer takes
the lengths of all fields from `field_len`, the reader goes along the address modes.

Link-layer security is a choice of the build (`Llsec`).  A read or a write outside the memory given
gives `none`.  The position is a `uint8_t` in the writer; a header has at most 38 bytes, so it is a
natural number here.
-/

namespace Nespy.Mac

open Nespy.Lib

/-- `LLSEC802154_USES_AUX_HEADER` and `LLSEC802154_USES_EXPLICIT_KEYS`. -/
structure Llsec where
  usesAuxHeader : Bool
  usesExplicitKeys : Bool
  deriving DecidableEq

/-- `frame802154_fcf_t`. -/
structure FrameFcf extends Fcf where
  securityEnabled : UInt8
  framePending : UInt8
  ackRequired : UInt8
  ieListPresent : UInt8
  deriving DecidableEq

/-- `frame802154_scf_t`. -/
structure Scf where
  securityLevel : UInt8
  keyIdMode : UInt8
  frameCounterSuppression : UInt8
  frameCounterSize : UInt8
  deriving DecidableEq

/-- `frame802154_aux_hdr_t`. -/
structure AuxHdr where
  securityControl : Scf
  frameCounter : List.Vector UInt8 4
  keySource : List.Vector UInt8 8
  keyIndex : UInt8
  deriving DecidableEq

/-- `frame802154_t`; `payload` is the offset of the payload in the data. -/
structure Frame where
  destAddr : List.Vector UInt8 8
  srcAddr : List.Vector UInt8 8
  fcf : FrameFcf
  seq : UInt8
  destPid : UInt16
  srcPid : UInt16
  auxHdr : AuxHdr
  payload : ℕ
  payloadLen : ℤ
  deriving DecidableEq

/-! ### Lengths -/

/-- `field_length_t`. -/
structure FieldLength where
  seqnoLen : ℕ
  destPidLen : ℕ
  destAddrLen : ℕ
  srcPidLen : ℕ
  srcAddrLen : ℕ
  auxSecLen : ℕ
  deriving DecidableEq

/-- The length of the key identifier. -/
def getKeyIdLen (keyIdMode : UInt8) : ℕ :=
  if keyIdMode = 1 then 1 else if keyIdMode = 2 then 5 else if keyIdMode = 3 then 9 else 0

namespace Frame

variable (cfg : Llsec) (p : Frame)

/-- What `field_len` does to the compression bit: before the 2015 version it says whether there are
two addresses in one PAN. -/
def adjust : Frame :=
  if p.fcf.frameVersion < frame802154Ieee8021542015 then
    { p with
        fcf.panidCompression :=
          if p.fcf.destAddrMode &&& 3 ≠ 0 ∧ p.fcf.srcAddrMode &&& 3 ≠ 0 ∧ p.srcPid = p.destPid
            then 1 else 0 }
  else p

/-- The length of the auxiliary security header. -/
def auxSecLen (a : AuxHdr) : ℕ :=
  1 + (if a.securityControl.frameCounterSuppression = 0 then
        if a.securityControl.frameCounterSize = 1 then 5 else 4
      else 0) +
    if cfg.usesExplicitKeys then getKeyIdLen a.securityControl.keyIdMode else 0

/-- The lengths of the fields, with the adjusted frame. -/
def fieldLen : Frame × FieldLength :=
  let p := p.adjust
  let hasPanid := frame802154HasPanid p.fcf.toFcf
  (p, { seqnoLen := if p.fcf.sequenceNumberSuppression &&& 1 = 0 then 1 else 0
        destPidLen := if hasPanid.2 then 2 else 0
        destAddrLen := addrLen (p.fcf.destAddrMode &&& 3)
        srcPidLen := if hasPanid.1 then 2 else 0
        srcAddrLen := addrLen (p.fcf.srcAddrMode &&& 3)
        auxSecLen := if cfg.usesAuxHeader ∧ p.fcf.securityEnabled &&& 1 ≠ 0
          then auxSecLen cfg p.auxHdr else 0 })

/-- The length of the header. -/
def frame802154Hdrlen : ℕ :=
  let flen := (fieldLen cfg p).2
  2 + flen.seqnoLen + flen.destPidLen + flen.destAddrLen + flen.srcPidLen +
    flen.srcAddrLen + flen.auxSecLen

/-- Without security it is the length that depends only on the frame control field and the PANs. -/
theorem frame802154Hdrlen_eq {p : Frame} (h : cfg.usesAuxHeader = false) :
    frame802154Hdrlen cfg p = Mac.frame802154Hdrlen p.fcf.toFcf p.srcPid p.destPid := by
  have hfcf : p.adjust.fcf.toFcf =
      if p.fcf.frameVersion < frame802154Ieee8021542015 then
        { p.fcf.toFcf with panidCompression :=
            if p.fcf.destAddrMode &&& 3 ≠ 0 ∧ p.fcf.srcAddrMode &&& 3 ≠ 0 ∧ p.srcPid = p.destPid
              then 1 else 0 }
      else p.fcf.toFcf := by
    rw [adjust]
    split <;> rfl
  simp only [frame802154Hdrlen, fieldLen, h, hfcf, Mac.frame802154Hdrlen]
  simp

/-! ### Writing -/

/-- Bytes stored at the position, which moves behind them. -/
def put (bytes : List UInt8) (st : List UInt8 × ℕ) : Option (List UInt8 × ℕ) :=
  (writeAt st.1 st.2 bytes).map fun buf => (buf, st.2 + bytes.length)

/-- `(value & mask) << shift`. -/
def maskAt (value mask shift : UInt8) : UInt8 := (value &&& mask) <<< shift

/-- The two bytes of the frame control field. -/
def frame802154CreateFcf (fcf : FrameFcf) : List UInt8 :=
  [(fcf.frameType &&& 7) ||| maskAt fcf.securityEnabled 1 3 ||| maskAt fcf.framePending 1 4 |||
      maskAt fcf.ackRequired 1 5 ||| maskAt fcf.panidCompression 1 6,
    (fcf.sequenceNumberSuppression &&& 1) ||| maskAt fcf.ieListPresent 1 1 ||| maskAt
      fcf.destAddrMode 3 2 |||
      maskAt fcf.frameVersion 3 4 ||| maskAt fcf.srcAddrMode 3 6]

/-- Writing the sequence number. -/
def putSeq (len : ℕ) (seq : UInt8) (st : List UInt8 × ℕ) : Option (List UInt8 × ℕ) :=
  if len = 1 then put [seq] st else some st

/-- Writing a PAN identifier. -/
def putPid (len : ℕ) (pid : UInt16) (st : List UInt8 × ℕ) : Option (List UInt8 × ℕ) :=
  if len = 2 then put [pid.toUInt8, (pid >>> 8).toUInt8] st else some st

/-- The byte of the security control field. -/
def scfByte (c : Scf) : UInt8 :=
  c.securityLevel ||| (if cfg.usesExplicitKeys then c.keyIdMode <<< 3 else 0) |||
    (c.frameCounterSuppression <<< 5) ||| (c.frameCounterSize <<< 6)

/-- The frame counter; of one with five bytes the last is not written. -/
def putCounter (a : AuxHdr) (st : List UInt8 × ℕ) : Option (List UInt8 × ℕ) :=
  if a.securityControl.frameCounterSuppression = 0 then do
    let (buf, pos) ← put a.frameCounter.toList st
    some (buf, if a.securityControl.frameCounterSize = 1 then pos + 1 else pos)
  else some st

/-- Writing the key identifier. -/
def putKey (a : AuxHdr) (st : List UInt8 × ℕ) : Option (List UInt8 × ℕ) :=
  let keyIdMode := a.securityControl.keyIdMode
  if cfg.usesExplicitKeys ∧ keyIdMode ≠ 0 then do
    let (source, _) ← readN ((keyIdMode.toNat - 1) * 4) a.keySource.toList
    let st ← put source st
    put [a.keyIndex] st
  else some st

/-- Writing the auxiliary security header. -/
def putAux (len : ℕ) (a : AuxHdr) (st : List UInt8 × ℕ) : Option (List UInt8 × ℕ) :=
  if cfg.usesAuxHeader ∧ len ≠ 0 then do
    let st ← put [scfByte cfg a.securityControl] st
    let st ← putCounter a st
    putKey cfg a st
  else some st

/-- `frame802154_create`: the frame, with its compression bit adjusted, and the buffer with the
length of the header. -/
def frame802154Create (buf : List UInt8) : Option (Frame × List UInt8 × ℕ) := do
  let (p, flen) := fieldLen cfg p
  let st ← put (frame802154CreateFcf p.fcf) (buf, 0)
  let st ← putSeq flen.seqnoLen p.seq st
  let st ← putPid flen.destPidLen p.destPid st
  let st ← put (p.destAddr.toList.take flen.destAddrLen).reverse st
  let st ← putPid flen.srcPidLen p.srcPid st
  let st ← put (p.srcAddr.toList.take flen.srcAddrLen).reverse st
  let st ← putAux cfg flen.auxSecLen p.auxHdr st
  some (p, st)

/-! ### Reading -/

variable (data : List UInt8)

/-- The bytes at a position. -/
def readBytes (pos n : ℕ) : Option (List UInt8) := (readN n (data.drop pos)).map Prod.fst

/-- The frame control field of two bytes. -/
def frame802154ParseFcf : FrameFcf :=
  let d₀ := data.getD 0 0
  let d₁ := data.getD 1 0
  { frameType := d₀ &&& 7
    securityEnabled := (d₀ >>> 3) &&& 1
    framePending := (d₀ >>> 4) &&& 1
    ackRequired := (d₀ >>> 5) &&& 1
    panidCompression := (d₀ >>> 6) &&& 1
    sequenceNumberSuppression := d₁ &&& 1
    ieListPresent := (d₁ >>> 1) &&& 1
    destAddrMode := (d₁ >>> 2) &&& 3
    frameVersion := (d₁ >>> 4) &&& 3
    srcAddrMode := (d₁ >>> 6) &&& 3 }

/-- Reading the sequence number. -/
def parseSeq (pf : Frame) (pos : ℕ) : Option (Frame × ℕ) :=
  if pf.fcf.sequenceNumberSuppression = 0 then do
    let b ← readBytes data pos 1
    some ({ pf with seq := b.getD 0 0 }, pos + 1)
  else some (pf, pos)

/-- Reading a PAN identifier. -/
def parsePid (pos : ℕ) : Option UInt16 := do
  let b ← readBytes data pos 2
  some ((b.getD 0 0).toUInt16 + ((b.getD 1 0).toUInt16 <<< 8))

/-- An address in the order of `frame802154_t`, with zeros behind a short one. -/
def addrOf (bytes : List UInt8) : List.Vector UInt8 8 :=
  ⟨(bytes.reverse ++ List.replicate 8 0).take 8, by simp⟩

/-- The address under a mode other than none. -/
def parseAddr (mode : UInt8) (old : List.Vector UInt8 8) (data : List UInt8) (pos : ℕ) :
    Option (List.Vector UInt8 8 × ℕ) :=
  if mode = frame802154Shortaddrmode then do
    some (addrOf (← readBytes data pos 2), pos + 2)
  else if mode = frame802154Longaddrmode then do
    some (addrOf (← readBytes data pos 8), pos + 8)
  else some (old, pos)

section Addresses

variable (hasSrcPanid hasDestPanid : Bool) (data : List UInt8) (pf : Frame) (pos : ℕ)

/-- Reading the destination's PAN, if there is one. -/
def parseDestPid : Option (UInt16 × ℕ) :=
  if hasDestPanid then do some (← parsePid data pos, pos + 2) else some (0, pos)

/-- Reading the destination. -/
def parseDest : Option (Frame × ℕ) :=
  if pf.fcf.destAddrMode ≠ 0 then do
    let (pid, pos) ← parseDestPid hasDestPanid data pos
    let (addr, pos) ← parseAddr pf.fcf.destAddrMode pf.destAddr data pos
    some ({ pf with destPid := pid, destAddr := addr }, pos)
  else some ({ pf with destAddr := addrOf [], destPid := 0 }, pos)

/-- The PAN of the source; it stands for that of the destination when only it is there. -/
def parseSrcPid : Option (Frame × ℕ) :=
  if hasSrcPanid then do
    let pid ← parsePid data pos
    some ({ pf with srcPid := pid, destPid := if hasDestPanid then pf.destPid else pid }, pos + 2)
  else some ({ pf with srcPid := pf.destPid }, pos)

/-- Reading the source. -/
def parseSrc : Option (Frame × ℕ) :=
  if pf.fcf.srcAddrMode ≠ 0 then do
    let (pf, pos) ← parseSrcPid hasSrcPanid hasDestPanid data pf pos
    let (addr, pos) ← parseAddr pf.fcf.srcAddrMode pf.srcAddr data pos
    some ({ pf with srcAddr := addr }, pos)
  else some ({ pf with srcAddr := addrOf [], srcPid := 0 }, pos)

end Addresses

/-- The security control field from its byte; `old` is what was there. -/
def parseScf (old : Scf) (b : UInt8) : Scf where
  securityLevel := b &&& 7
  keyIdMode := if cfg.usesExplicitKeys then (b >>> 3) &&& 3 else old.keyIdMode
  frameCounterSuppression := b >>> 5
  frameCounterSize := b >>> 6

/-- `memcpy` to the front of a field. -/
def copyFront {n : ℕ} (bytes : List UInt8) (old : List.Vector UInt8 n) : List.Vector UInt8 n :=
  ⟨(bytes ++ old.toList.drop bytes.length).take n, by simp; omega⟩

/-- Reading the frame counter, of which a fifth byte is skipped. -/
def parseCounter (a : AuxHdr) (pos : ℕ) : Option (AuxHdr × ℕ) :=
  if a.securityControl.frameCounterSuppression = 0 then do
    let b ← readBytes data pos 4
    some ({ a with frameCounter := copyFront b a.frameCounter },
      if a.securityControl.frameCounterSize = 1 then pos + 4 + 1 else pos + 4)
  else some (a, pos)

/-- Reading the key identifier. -/
def parseKey (a : AuxHdr) (pos : ℕ) : Option (AuxHdr × ℕ) :=
  let keyIdMode := a.securityControl.keyIdMode
  if cfg.usesExplicitKeys ∧ keyIdMode ≠ 0 then do
    let c := (keyIdMode.toNat - 1) * 4
    let source ← readBytes data pos c
    let index ← readBytes data (pos + c) 1
    some ({ a with keySource := copyFront source a.keySource, keyIndex := index.getD 0 0 },
      pos + c + 1)
  else some (a, pos)

/-- Reading the auxiliary security header. -/
def parseAux (fcf : FrameFcf) (data : List UInt8) (a : AuxHdr) (pos : ℕ) : Option (AuxHdr × ℕ) :=
  if cfg.usesAuxHeader ∧ fcf.securityEnabled ≠ 0 then do
    let b ← readBytes data pos 1
    let (a, pos) ←
      parseCounter data { a with securityControl := parseScf cfg a.securityControl (b.getD 0 0) }
        (pos + 1)
    parseKey cfg data a pos
  else some (a, pos)

/-- `frame802154_parse`; `len` bytes of the data are the frame. -/
def frame802154Parse (len : ℕ) (pf : Frame) : Option (ℕ × Frame) :=
  if len < 2 then some (0, pf)
  else do
    let fcf := frame802154ParseFcf (← readBytes data 0 2)
    let hasPanid := frame802154HasPanid fcf.toFcf
    let (pf, pos) ← parseSeq data { pf with fcf } 2
    let (pf, pos) ← parseDest hasPanid.2 data pf pos
    let (pf, pos) ← parseSrc hasPanid.1 hasPanid.2 data pf pos
    let (aux, pos) ← parseAux cfg fcf data pf.auxHdr pos
    some (if len < pos then 0 else pos,
      { pf with auxHdr := aux, payloadLen := len - pos, payload := pos })

end Frame

end Nespy.Mac
