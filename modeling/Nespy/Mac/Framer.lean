import Nespy.Sicslowpan.Address

/-!
# Mac — the length of an 802.15.4 header

What `NETSTACK_FRAMER.length()` answers `sicslowpan.c`: `create_frame(0)` of `framer-802154.c`, down
to `frame802154_hdrlen`.  Link-layer security is off in the default build, so no auxiliary header is
counted, and `FRAME802154_VERSION` is `FRAME802154_IEEE802154_2006`.
-/

namespace Nespy.Mac

open Nespy.Sicslowpan (Linkaddr linkaddrNull)

@[simp] def frame802154Noaddr : UInt8 := 0
@[simp] def frame802154Shortaddrmode : UInt8 := 2
@[simp] def frame802154Longaddrmode : UInt8 := 3
def frame802154Ackframe : UInt8 := 2
def frame802154Ieee8021542006 : UInt8 := 1
@[simp] def frame802154Ieee8021542015 : UInt8 := 2

/-- The members of `frame802154_fcf_t` that the length depends on. -/
structure Fcf where
  frameType : UInt8
  panidCompression : UInt8
  sequenceNumberSuppression : UInt8
  destAddrMode : UInt8
  frameVersion : UInt8
  srcAddrMode : UInt8
  deriving DecidableEq

/-- `frame802154_has_panid`: whether the source and the destination PAN identifiers are present. -/
def frame802154HasPanid (fcf : Fcf) : Bool × Bool :=
  let d := fcf.destAddrMode
  let s := fcf.srcAddrMode
  let no := frame802154Noaddr
  let short := frame802154Shortaddrmode
  let long := frame802154Longaddrmode
  if fcf.frameVersion = frame802154Ieee8021542015 then
    (fcf.panidCompression == 0 &&
      ((d == no && s == long) || (d == no && s == short) || (d == short && s == short) ||
        (d == short && s == long) || (d == long && s == short)),
     (d == no && s == no && fcf.panidCompression == 1) ||
      (d != no && s == no && fcf.panidCompression == 0) ||
      (d == long && s == long && fcf.panidCompression == 0) ||
      ((d == short && s != no) || (d != no && s == short)))
  else if fcf.frameType ≠ frame802154Ackframe then
    (fcf.panidCompression == 0 && s &&& 3 != 0, d &&& 3 != 0)
  else (false, false)

/-- The length of an address in this mode. -/
def addrLen (mode : UInt8) : ℕ :=
  if mode = frame802154Shortaddrmode then 2 else if mode = frame802154Longaddrmode then 8 else 0

theorem addrLen_le (mode : UInt8) : addrLen mode ≤ 8 := by
  rw [addrLen]
  split_ifs <;> decide

/-- `frame802154_hdrlen`, with the adjustment `field_len` makes of the compression bit. -/
def frame802154Hdrlen (fcf : Fcf) (srcPid destPid : UInt16) : ℕ :=
  let fcf :=
    if fcf.frameVersion < frame802154Ieee8021542015 then
      { fcf with panidCompression :=
          if fcf.destAddrMode &&& 3 ≠ 0 ∧ fcf.srcAddrMode &&& 3 ≠ 0 ∧ srcPid = destPid then 1
            else 0 }
    else fcf
  let hasPanid := frame802154HasPanid fcf
  2 + (if fcf.sequenceNumberSuppression &&& 1 = 0 then 1 else 0) + (if hasPanid.2 then 2 else 0) +
    addrLen (fcf.destAddrMode &&& 3) + (if hasPanid.1 then 2 else 0) +
      addrLen (fcf.srcAddrMode &&& 3)

/-- `framer_802154_setup_params`, with `PACKETBUF_ATTR_MAC_NO_SRC_ADDR` and
`PACKETBUF_ATTR_MAC_NO_DEST_ADDR` unset and the frame type `frameType`. -/
def framer802154SetupParams (frameType : UInt8) (destIsBroadcast : Bool) : Fcf where
  frameType := frameType
  panidCompression := if destIsBroadcast then 1 else 0
  sequenceNumberSuppression :=
    if destIsBroadcast ∧ frame802154Ieee8021542006 ≥ frame802154Ieee8021542015 then 1 else 0
  destAddrMode := if destIsBroadcast then frame802154Shortaddrmode else frame802154Longaddrmode
  frameVersion := frame802154Ieee8021542006
  srcAddrMode := frame802154Longaddrmode

/-- `hdr_length`, on a packetbuf that was just cleared; `none` is a negative length. -/
def hdrLength (panId : UInt16) (receiver : Linkaddr) : Option ℕ :=
  if panId = 0xffff then none
  else some (frame802154Hdrlen (framer802154SetupParams 0 (receiver == linkaddrNull)) panId panId)

/-- A unicast frame has 21 bytes of header, a broadcast frame 15. -/
theorem hdrLength_eq {panId : UInt16} (h : panId ≠ 0xffff) (receiver : Linkaddr) :
    hdrLength panId receiver = some (if receiver = linkaddrNull then 15 else 21) := by
  rw [hdrLength, if_neg h]
  by_cases hr : receiver = linkaddrNull
  · simp only [hr, frame802154Hdrlen]
    rfl
  · have hb : (receiver == linkaddrNull) = false := by simpa using hr
    simp only [hb, if_neg hr, frame802154Hdrlen]
    rfl

end Nespy.Mac
