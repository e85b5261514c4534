import Nespy.Sicslowpan.Address

/-!
# Sicslowpan — `compress_hdr_iphc`

The sender's half of IPHC (RFC 6282).  `UipBuf` is the overlay `sicslowpan.c` puts on `uip_buf`: the
`struct uip_ip_hdr` and the bytes behind it.  `compressHdrIphc` returns the bytes it leaves in the
packetbuf from `packetbuf_ptr` on, so `hc06_ptr - packetbuf_ptr` is the length of that list.

The source writes the two encoding bytes last and patches the context byte and each NHC byte after
the fact.  Here the parts are computed in the source's order, each with the bits it sets in `iphc0`
or `iphc1` and the bytes it stores at `hc06_ptr`, and put in their places at the end.
`CHECK_BUFFER_SPACE` returns 0 from the middle of the function: `Except.error` carries what had been
written by then.
-/

namespace Nespy.Sicslowpan

/-! ### The buffer and the protocol numbers -/

/-- `struct uip_ip_hdr`; `flow0` and `flow1` are the bytes of `flow` as they lie in memory. -/
structure IpHdr where
  vtc : UInt8
  tcflow : UInt8
  flow0 : UInt8
  flow1 : UInt8
  len0 : UInt8
  len1 : UInt8
  proto : UInt8
  ttl : UInt8
  srcipaddr : Ipaddr
  destipaddr : Ipaddr
  deriving DecidableEq

/-- The forty bytes of the header. -/
def IpHdr.bytes (h : IpHdr) : List UInt8 :=
  [h.vtc, h.tcflow, h.flow0, h.flow1, h.len0, h.len1, h.proto, h.ttl] ++ h.srcipaddr.toList ++
    h.destipaddr.toList

/-- A buffer holding an IPv6 packet: `UIP_IP_BUF` and the bytes from `UIP_IPPAYLOAD_BUF` on. -/
structure UipBuf where
  ip : IpHdr
  pay : List UInt8
  deriving DecidableEq

/-- The packet in the buffer. -/
def UipBuf.bytes (b : UipBuf) : List UInt8 := b.ip.bytes ++ b.pay

@[simp] theorem IpHdr.bytes_length (h : IpHdr) : h.bytes.length = 40 := by
  simp [IpHdr.bytes]

/-- `MAC_MAX_PAYLOAD`, for frames of 127 bytes with a two-byte checksum. -/
def macMaxPayload : ℕ := 127 - 2

/-- `UIP_BUFSIZE`. -/
def uipBufsize : ℕ := 1280

/-- Hop-by-hop options. -/
def uipProtoHbho : UInt8 := 0

/-- UDP. -/
def uipProtoUdp : UInt8 := 17

/-- Routing header. -/
def uipProtoRouting : UInt8 := 43

/-- Fragment header. -/
def uipProtoFrag : UInt8 := 44

/-- Destination options. -/
def uipProtoDesto : UInt8 := 60

/-- The four extension headers `compress_hdr_iphc` knows, with the number NHC gives each. -/
def nhcEtxHdr (proto : UInt8) : Option UInt8 :=
  if proto = uipProtoHbho then some 0
  else if proto = uipProtoRouting then some 1
  else if proto = uipProtoFrag then some 2
  else if proto = uipProtoDesto then some 3
  else none

/-- `IS_COMPRESSABLE_PROTO`, with `COMPRESS_EXT_HDR` set as by default. -/
def isCompressableProto (proto : UInt8) : Bool :=
  proto == uipProtoUdp || (nhcEtxHdr proto).isSome

/-! ### The encoding bytes -/

/-- The first bits of a compressed header. -/
def dispatchIphc : UInt8 := 0x60

/-- The flow label is elided. -/
def iphcFlC : UInt8 := 0x10

/-- The traffic class is elided. -/
def iphcTcC : UInt8 := 0x08

/-- The next header is compressed. -/
def iphcNhC : UInt8 := 0x04

/-- A byte with the contexts follows. -/
def iphcCid : UInt8 := 0x80

/-- The source is compressed with a context. -/
def iphcSac : UInt8 := 0x40

/-- The destination is a multicast address. -/
def iphcM : UInt8 := 0x08

/-- The destination is compressed with a context. -/
def iphcDac : UInt8 := 0x04

/-- Where the source's mode is. -/
def iphcSamBit : UInt8 := 4

/-- Where the destination's mode is. -/
def iphcDamBit : UInt8 := 0

/-- A compressed extension header. -/
def nhcExtHdr : UInt8 := 0xE0

/-- The header behind is compressed too. -/
def nhcBit : UInt8 := 0x01

/-- UDP with both ports in full. -/
def nhcUdpCsP00 : UInt8 := 0xF0

/-- UDP with eight bits of the destination port. -/
def nhcUdpCsP01 : UInt8 := 0xF1

/-- UDP with eight bits of the source port. -/
def nhcUdpCsP10 : UInt8 := 0xF2

/-- UDP with four bits of both ports. -/
def nhcUdpCsP11 : UInt8 := 0xF3

/-- The first port of which four bits are enough. -/
def udp4BitPortMin : UInt16 := 0xF0B0

/-- The first port of which eight bits are enough. -/
def udp8BitPortMin : UInt16 := 0xF000

/-- The traffic class with its two ECN bits in front, as IPHC carries it. -/
def ecnDscp (vtc tcflow : UInt8) : UInt8 :=
  let tmp := (vtc <<< 4) ||| (tcflow >>> 4)
  ((tmp &&& 0x03) <<< 6) ||| (tmp >>> 2)

/-- Traffic class and flow label: the bits of `iphc0` and the bytes inlined. -/
def compressTf (ip : IpHdr) : UInt8 × List UInt8 :=
  let tmp := ecnDscp ip.vtc ip.tcflow
  if ip.tcflow &&& 0x0F = 0 ∧ ip.flow0 = 0 ∧ ip.flow1 = 0 then
    if ip.vtc &&& 0x0F = 0 ∧ ip.tcflow &&& 0xF0 = 0 then (iphcFlC ||| iphcTcC, [])
    else (iphcFlC, [tmp])
  else
    if ip.vtc &&& 0x0F = 0 ∧ ip.tcflow &&& 0xF0 = 0 then
      (iphcTcC, [(tmp &&& 0xc0) ||| (ip.tcflow &&& 0x0F), ip.flow0, ip.flow1])
    else (0, [tmp, ip.tcflow, ip.flow0, ip.flow1])

/-- Next header: elided when what follows is compressed too. -/
def compressNh (ip : IpHdr) : UInt8 × List UInt8 :=
  if isCompressableProto ip.proto then (iphcNhC, []) else (0, [ip.proto])

/-- Hop limit: 1, 64 and 255 have a code. -/
def compressTtl (ip : IpHdr) : UInt8 × List UInt8 :=
  if ip.ttl = 1 then (0x01, [])
  else if ip.ttl = 64 then (0x02, [])
  else if ip.ttl = 255 then (0x03, [])
  else (0, [ip.ttl])

/-- `compress_addr_64`: the mode, shifted to its place, and the bytes of the identifier inlined. -/
def compressAddr64 (bitpos : UInt8) (a : Ipaddr) (lladdr : Linkaddr) : UInt8 × List UInt8 :=
  if uipIsAddrMacAddrBased a lladdr then (3 <<< bitpos, [])
  else if isIid16BitCompressable a then (2 <<< bitpos, a.toList.drop 14)
  else (1 <<< bitpos, a.toList.drop 8)

/-- What an address contributes: bits of `iphc1`, bits of the context byte, inlined bytes. -/
structure AddrCode where
  bits : UInt8
  ctx : UInt8
  inl : List UInt8
  deriving DecidableEq

variable (ctxs : List AddrContext)

/-- The source address.  The prefix is elided without a context when the source is link-local and
bytes 2 to 7 of the *destination* are zero, as the source has it. -/
def compressSrc (uipLladdr : Linkaddr) (ip : IpHdr) : AddrCode :=
  if uipIsAddrUnspecified ip.srcipaddr then ⟨iphcSac, 0, []⟩
  else match addrContextLookupByPrefix ctxs ip.srcipaddr with
    | some c =>
      let (m, inl) := compressAddr64 iphcSamBit ip.srcipaddr uipLladdr
      ⟨iphcCid ||| iphcSac ||| m, c.number <<< 4, inl⟩
    | none =>
      if uipIsAddrLinklocal ip.srcipaddr && ip.destipaddr.u16Zero 1 && ip.destipaddr.u16Zero 2 &&
          ip.destipaddr.u16Zero 3 then
        let (m, inl) := compressAddr64 iphcSamBit ip.srcipaddr uipLladdr
        ⟨m, 0, inl⟩
      else ⟨0, 0, ip.srcipaddr.toList⟩

/-- The destination address. -/
def compressDest (linkDestaddr : Linkaddr) (ip : IpHdr) : AddrCode :=
  let a := ip.destipaddr
  if uipIsAddrMcast a then
    if isMcastAddrCompressable8 a then ⟨iphcM ||| 0x03, 0, a.toList.drop 15⟩
    else if isMcastAddrCompressable32 a then ⟨iphcM ||| 0x02, 0, a.u8 1 :: a.toList.drop 13⟩
    else if isMcastAddrCompressable48 a then ⟨iphcM ||| 0x01, 0, a.u8 1 :: a.toList.drop 11⟩
    else ⟨iphcM, 0, a.toList⟩
  else match addrContextLookupByPrefix ctxs a with
    | some c =>
      let (m, inl) := compressAddr64 iphcDamBit a linkDestaddr
      ⟨iphcDac ||| m, c.number, inl⟩
    | none =>
      if uipIsAddrLinklocal a && a.u16Zero 1 && a.u16Zero 2 && a.u16Zero 3 then
        let (m, inl) := compressAddr64 iphcDamBit a linkDestaddr
        ⟨m, 0, inl⟩
      else ⟨0, 0, a.toList⟩

/-! ### Extension headers and UDP -/

/-- What the compressor leaves: the packetbuf up to `hc06_ptr`, and `uncomp_hdr_len`. -/
structure Compressed where
  out : List UInt8
  uncompHdrLen : UInt8
  deriving DecidableEq

/-- `CHECK_BUFFER_SPACE`, before `k`. -/
def checkBufferSpace (macMaxPayload writelen : ℕ) (out : List UInt8)
    (k : Except (List UInt8) Compressed) : Except (List UInt8) Compressed :=
  if macMaxPayload ≤ out.length + writelen then .error out else k

/-- `GET16` of the two bytes of a network-order field. -/
def get16 (hi lo : UInt8) : UInt16 := hi.toUInt16 <<< 8 ||| lo.toUInt16

/-- The NHC byte and the ports, for the four ways `UIP_PROTO_UDP` is compressed; `s0 s1 d0 d1` are
the bytes of `srcport` and `destport`. -/
def compressPorts (s0 s1 d0 d1 : UInt8) : UInt8 × List UInt8 :=
  let srcport := get16 s0 s1
  let destport := get16 d0 d1
  if srcport &&& 0xfff0 = udp4BitPortMin ∧ destport &&& 0xfff0 = udp4BitPortMin then
    (nhcUdpCsP11, [((srcport - udp4BitPortMin) <<< 4).toUInt8 +
      (destport - udp4BitPortMin).toUInt8])
  else if destport &&& 0xff00 = udp8BitPortMin then
    (nhcUdpCsP01, [s0, s1, (destport - udp8BitPortMin).toUInt8])
  else if srcport &&& 0xff00 = udp8BitPortMin then
    (nhcUdpCsP10, [(srcport - udp8BitPortMin).toUInt8, d0, d1])
  else (nhcUdpCsP00, [s0, s1, d0, d1])

/-- `case UIP_PROTO_UDP`: the NHC byte is reserved and patched before the first check. -/
def compressUdp (macMaxPayload : ℕ) (udp : List UInt8) (out : List UInt8) (unc : UInt8) :
    Except (List UInt8) Compressed :=
  let (nhc, ports) := compressPorts (udp.getD 0 0) (udp.getD 1 0) (udp.getD 2 0) (udp.getD 3 0)
  let out := out ++ [nhc]
  checkBufferSpace macMaxPayload ports.length out <|
    let out := out ++ ports
    checkBufferSpace macMaxPayload 2 out <|
      .ok ⟨out ++ [udp.getD 6 0, udp.getD 7 0], unc + 8⟩

/-- The loop over the next headers.  `pay` is `UIP_IPPAYLOAD_BUF(ext_hdr_len)`, `out` the packetbuf
up to `next_nhc`.  Every turn on an extension header stores at least eight bytes below
`mac_max_payload`, so `mac_max_payload` turns are never used up (`compressNextHdrs_fuel`). -/
def compressNextHdrs (macMaxPayload : ℕ) :
    ℕ → UInt8 → List UInt8 → List UInt8 → UInt8 → Except (List UInt8) Compressed
  | 0, _, _, out, _ => .error out
  | fuel + 1, proto, pay, out, unc =>
    match nhcEtxHdr proto with
    | some eid =>
      let next := pay.getD 0 0
      let len := (pay.getD 1 0).toNat * 8 + 8
      let hdr := (pay.takeD len 0).set 1 (UInt8.ofNat (len - 2))
      if isCompressableProto next then
        checkBufferSpace macMaxPayload len out <|
          -- the NHC byte lands on the elided next-header byte
          compressNextHdrs macMaxPayload fuel next (pay.drop len)
            (out ++ hdr.set 0 (nhcExtHdr ||| nhcBit ||| (eid <<< 1))) (unc + UInt8.ofNat len)
      else
        checkBufferSpace macMaxPayload 1 out <|
          let out := out ++ [nhcExtHdr ||| (eid <<< 1)]
          checkBufferSpace macMaxPayload len out <|
            .ok ⟨out ++ hdr, unc + UInt8.ofNat len⟩
    | none =>
      if proto = uipProtoUdp then compressUdp macMaxPayload pay out unc else .ok ⟨out, unc⟩

/-- `compress_hdr_iphc`, on a node of link address `uipLladdr` sending to `linkDestaddr`. -/
def compressHdrIphc (uipLladdr linkDestaddr : Linkaddr) (macMaxPayload : ℕ) (b : UipBuf) :
    Except (List UInt8) Compressed :=
  if macMaxPayload ≤ 2 + 38 then .error []
  else
    let cid := (addrContextLookupByPrefix ctxs b.ip.destipaddr).isSome ||
      (addrContextLookupByPrefix ctxs b.ip.srcipaddr).isSome
    let (tfBits, tf) := compressTf b.ip
    let (nhBits, nh) := compressNh b.ip
    let (ttlBits, ttl) := compressTtl b.ip
    let src := compressSrc ctxs uipLladdr b.ip
    let dst := compressDest ctxs linkDestaddr b.ip
    let iphc0 := dispatchIphc ||| tfBits ||| nhBits ||| ttlBits
    let iphc1 := (if cid then iphcCid else 0) ||| src.bits ||| dst.bits
    let ctx := if cid then [src.ctx ||| dst.ctx] else []
    compressNextHdrs macMaxPayload macMaxPayload b.ip.proto b.pay
      ([iphc0, iphc1] ++ ctx ++ tf ++ nh ++ ttl ++ src.inl ++ dst.inl) 40

end Nespy.Sicslowpan
