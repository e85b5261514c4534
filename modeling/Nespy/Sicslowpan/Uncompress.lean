import Nespy.Sicslowpan.Compress

/-!
# Sicslowpan — `uncompress_hdr_iphc`

The receiver's half of IPHC.  The frame is read through `hc06_ptr`, here the list `p` of the bytes
from it to the end of the frame; a read past the end is `none`.  The destination buffer is the
overlay `UipBuf`, whose `pay` is as long as the memory behind the header; a write past it is `none`
as well. The source returns from the middle of the function when a context or an extension header is
unknown, leaving `packetbuf_hdr_len` as it was: such a return is a value here, with what had been
written.
-/

namespace Nespy.Sicslowpan

open Nespy.Lib (readN writeAt)

variable (iphc0 : UInt8) (mode : UInt8)

/-- How many bytes of prefix and suffix a mode has, for link-local addresses. -/
def uncLlconf : UInt8 := [0x0f, 0x28, 0x22, 0x20].getD mode.toNat 0

/-- The same for addresses with a context. -/
def uncCtxconf : UInt8 := [0x00, 0x88, 0x82, 0x80].getD mode.toNat 0

/-- The same for multicast addresses. -/
def uncMxconf : UInt8 := [0x0f, 0x25, 0x23, 0x21].getD mode.toNat 0

/-- `fe80::`. -/
def llprefix : List UInt8 := [0xfe, 0x80]

/-- The hop limits that have a code. -/
def ttlValues (code : UInt8) : UInt8 := [0, 1, 64, 255].getD code.toNat 0

/-- The uncompressor's results: the buffer, `uncomp_hdr_len` and `packetbuf_hdr_len`. -/
structure Uncompressed where
  buf : UipBuf
  uncompHdrLen : UInt8
  packetbufHdrLen : UInt8
  deriving DecidableEq

/-- The context byte, when one is sent. -/
def uncompressCid (iphc1 : UInt8) (p : List UInt8) : Option (UInt8 × List UInt8) :=
  if iphc1 &&& iphcCid ≠ 0 then
    match p with
    | ctx :: p => some (ctx, p)
    | [] => none
  else some (0, p)

/-- Traffic class and flow label. -/
def uncompressTf (ip : IpHdr) (p : List UInt8) : Option (IpHdr × List UInt8) :=
  if iphc0 &&& iphcFlC = 0 then
    if iphc0 &&& iphcTcC = 0 then
      match p with
      | tmp :: tf :: f0 :: f1 :: p =>
        some ({ ip with
          vtc := (0x60 : UInt8) ||| ((tmp >>> 2) &&& (0x0f : UInt8))
          tcflow := ((tmp >>> 2) &&& (0x30 : UInt8)) ||| (tmp <<< 6) ||| (tf &&& (0x0f : UInt8))
          flow0 := f0
          flow1 := f1 }, p)
      | _ => none
    else
      match p with
      | b :: f0 :: f1 :: p =>
        some ({ ip with
          vtc := 0x60
          tcflow := (b &&& (0x0F : UInt8)) ||| ((b >>> 2) &&& (0x30 : UInt8))
          flow0 := f0
          flow1 := f1 }, p)
      | _ => none
  else
    if iphc0 &&& iphcTcC = 0 then
      match p with
      | b :: p =>
        some ({ ip with
          vtc := (0x60 : UInt8) ||| ((b >>> 2) &&& (0x0f : UInt8))
          tcflow := ((b <<< 6) &&& (0xC0 : UInt8)) ||| ((b >>> 2) &&& (0x30 : UInt8))
          flow0 := 0
          flow1 := 0 }, p)
      | _ => none
    else some ({ ip with vtc := 0x60, tcflow := 0, flow0 := 0, flow1 := 0 }, p)

/-- Next header, when it is inline. -/
def uncompressNh (ip : IpHdr) (p : List UInt8) : Option (IpHdr × List UInt8) :=
  if iphc0 &&& iphcNhC = 0 then
    match p with
    | b :: p => some ({ ip with proto := b }, p)
    | [] => none
  else some (ip, p)

/-- Hop limit. -/
def uncompressTtl (ip : IpHdr) (p : List UInt8) : Option (IpHdr × List UInt8) :=
  if iphc0 &&& 0x03 ≠ 0 then some ({ ip with ttl := ttlValues (iphc0 &&& 0x03) }, p)
  else
    match p with
    | b :: p => some ({ ip with ttl := b }, p)
    | [] => none

/-- `uncompress_addr`: a prefix, zeroes, and a postfix read from the frame; the identifier comes
from the link address when the postfix is empty and the prefix is not. -/
def uncompressAddr (pfx : List UInt8) (prefPostCount : UInt8) (lladdr : Linkaddr)
    (p : List UInt8) : Option (Ipaddr × List UInt8) :=
  let prefcount := if prefPostCount >>> 4 = 15 then 16 else (prefPostCount >>> 4).toNat
  let postcount := if prefPostCount &&& 0x0f = 15 then 16 else (prefPostCount &&& 0x0f).toNat
  match readN postcount p with
  | none => none
  | some (post, p) =>
    let a := pfx.take prefcount ++ List.replicate (16 - (prefcount + postcount)) 0 ++ post
    let a :=
      if 0 < postcount then
        if postcount = 2 ∧ prefcount < 11 then (a.set 11 0xff).set 12 0xfe else a
      else if 0 < prefcount then uipDs6SetAddrIid a lladdr
      else a
    some (Ipaddr.ofBytes a, p)

variable (ctxs : List AddrContext)

/-- The source address; `none` inside is the early return on an unknown context. -/
def uncompressSrc (sender : Linkaddr) (iphc1 ctx : UInt8) (p : List UInt8) :
    Option (Option (Ipaddr × List UInt8)) :=
  let tmp := ((iphc1 &&& 0x30) >>> iphcSamBit) &&& 0x03
  if iphc1 &&& iphcSac ≠ 0 then
    let sci := if iphc1 &&& iphcCid ≠ 0 then ctx >>> 4 else 0
    if tmp ≠ 0 then
      match addrContextLookupByNumber ctxs sci with
      | none => some none
      | some c => (uncompressAddr c.pfx.toList (uncCtxconf tmp) sender p).map some
    else (uncompressAddr [] (uncCtxconf tmp) sender p).map some
  else (uncompressAddr llprefix (uncLlconf tmp) sender p).map some

/-- The destination address.  Context-based multicast is not implemented: the address stays
`old`. -/
def uncompressDest (receiver : Linkaddr) (iphc1 ctx : UInt8) (old : Ipaddr) (p : List UInt8) :
    Option (Option (Ipaddr × List UInt8)) :=
  let tmp := ((iphc1 &&& 0x03) >>> iphcDamBit) &&& 0x03
  if iphc1 &&& iphcM ≠ 0 then
    if iphc1 &&& iphcDac ≠ 0 then some (some (old, p))
    else if 0 < tmp ∧ tmp < 3 then
      match p with
      | b :: p => (uncompressAddr [0xff, b] (uncMxconf tmp) linkaddrNull p).map some
      | [] => none
    else (uncompressAddr [0xff, 0x02] (uncMxconf tmp) linkaddrNull p).map some
  else
    if iphc1 &&& iphcDac ≠ 0 then
      let dci := if iphc1 &&& iphcCid ≠ 0 then ctx &&& 0x0f else 0
      match addrContextLookupByNumber ctxs dci with
      | none => some none
      | some c => (uncompressAddr c.pfx.toList (uncCtxconf tmp) receiver p).map some
    else (uncompressAddr llprefix (uncLlconf tmp) receiver p).map some

/-! ### Extension headers and UDP -/

/-- The state of the loop over NHC headers: `last` is where `last_nextheader` points, the header's
`proto` or a byte behind the header, and `ipPayload` is `ip_payload - SICSLOWPAN_IPPAYLOAD_BUF`. -/
structure UncSt where
  buf : UipBuf
  last : Option ℕ
  ipPayload : ℕ
  extHdrLen : UInt8
  uncompHdrLen : UInt8
  nhc : Bool
  deriving DecidableEq

/-- `*last_nextheader = proto`. -/
def UncSt.setLast (s : UncSt) (proto : UInt8) : UipBuf :=
  match s.last with
  | none => { s.buf with ip := { s.buf.ip with proto := proto } }
  | some i => { s.buf with pay := s.buf.pay.set i proto }

/-- The protocol number of an NHC extension header. -/
def nhcProto (eid : UInt8) : Option UInt8 :=
  if eid = 0 then some uipProtoHbho
  else if eid = 1 then some uipProtoRouting
  else if eid = 2 then some uipProtoFrag
  else if eid = 3 then some uipProtoDesto
  else none

/-- One turn of the loop, behind the NHC byte `b`; `Sum.inl` is the early return. -/
def uncompressExt (b : UInt8) (s : UncSt) (p : List UInt8) : Option (UncSt ⊕ UncSt × List UInt8) :=
  do
  let eid := (b &&& 0x0e) >>> 1
  let nh := b &&& 0x01
  let (next, p) ← if nh = 0 then (match p with | next :: p => some (next, p) | [] => none)
    else some (0, p)
  let (len, p) ← (match p with | len :: p => some (len, p) | [] => none)
  let s := { s with nhc := nh != 0 }
  match nhcProto eid with
  | none => some (.inl s)
  | some proto =>
    let buf := s.setLast proto
    let (data, p) ← readN len.toNat p
    let elen := UInt8.ofNat ((2 + len.toNat) / 8) - 1
    let pay ← writeAt buf.pay s.ipPayload ([next, elen] ++ data)
    let step := (elen.toNat + 1) * 8
    some (.inr ({ s with
      buf := { buf with pay := pay }
      last := some s.ipPayload
      ipPayload := s.ipPayload + step
      extHdrLen := s.extHdrLen + UInt8.ofNat step
      uncompHdrLen := s.uncompHdrLen + UInt8.ofNat step }, p))

/-- The loop.  Each turn reads at least one byte, so a frame's length bounds the turns. -/
def uncompressExts : ℕ → UncSt → List UInt8 → Option (UncSt ⊕ UncSt × List UInt8)
  | 0, s, p => if s.nhc then none else some (.inr (s, p))
  | fuel + 1, s, p =>
    if s.nhc then
      match p with
      | [] => none
      | b :: q =>
        if b &&& 0xF0 = nhcExtHdr then
          match uncompressExt b s q with
          | some (.inr (s, q)) => uncompressExts fuel s q
          | r => r
        else some (.inr (s, p))
    else some (.inr (s, p))

/-- Both bytes of a 16-bit field in network order. -/
def set16 (v : UInt16) : List UInt8 := [(v >>> 8).toUInt8, v.toUInt8]

/-- The ports of a LOWPAN_UDP header behind the NHC byte `b`. -/
def uncompressPorts (b : UInt8) (p : List UInt8) : Option (List UInt8 × List UInt8) :=
  let mode := b &&& nhcUdpCsP11
  if mode = nhcUdpCsP00 then
    match p with
    | s0 :: s1 :: d0 :: d1 :: p => some ([s0, s1, d0, d1], p)
    | _ => none
  else if mode = nhcUdpCsP01 then
    match p with
    | s0 :: s1 :: d :: p => some ([s0, s1] ++ set16 (udp8BitPortMin + d.toUInt16), p)
    | _ => none
  else if mode = nhcUdpCsP10 then
    match p with
    | s :: d0 :: d1 :: p => some (set16 (udp8BitPortMin + s.toUInt16) ++ [d0, d1], p)
    | _ => none
  else
    match p with
    | sd :: p =>
      some (set16 (udp4BitPortMin + (sd >>> 4).toUInt16) ++
        set16 (udp4BitPortMin + (sd &&& 0x0F).toUInt16), p)
    | [] => none

/-- The UDP header, when the next byte announces one.  The checksum field keeps what the buffer held
when it is compressed away. -/
def uncompressUdp (ipLen : UInt16) (s : UncSt) (p : List UInt8) :
    Option (UncSt × List UInt8) :=
  if s.nhc then
    match p with
    | [] => none
    | b :: q =>
      if b &&& 0xF8 = nhcUdpCsP00 then do
        let buf := s.setLast uipProtoUdp
        let (ports, q) ← uncompressPorts b q
        let (sum, q) ← if b &&& 0x04 = 0 then readN 2 q
          else some ((buf.pay.drop (s.ipPayload + 6)).take 2, q)
        let udpLen : UInt16 := UInt16.ofNat (8 + q.length)
        let udplen := if ipLen = 0 then udpLen else ipLen - 40 - s.extHdrLen.toUInt16
        let pay ← writeAt buf.pay s.ipPayload (ports ++ set16 udplen ++ sum)
        some ({ s with
          buf := { buf with pay := pay }
          uncompHdrLen := s.uncompHdrLen + 8 }, q)
      else some (s, p)
  else some (s, p)

/-- The IP length field: from the frame when `ipLen` is zero, else from the fragment header. -/
def uncompressLen (datalen : ℕ) (ipLen : UInt16) (r : Uncompressed) : Uncompressed :=
  let len : ℤ :=
    if ipLen = 0 then (datalen : ℤ) - r.packetbufHdrLen.toNat + r.uncompHdrLen.toNat - 40
    else (ipLen.toNat : ℤ) - 40
  { r with buf := { r.buf with ip := { r.buf.ip with
      len0 := UInt8.ofInt (len / 256)
      len1 := UInt8.ofInt len } } }

/-- `uncompress_hdr_iphc` on the frame `pkt`, behind the first `hdrLen` bytes of it
(`packetbuf_hdr_len` on entry), into `buf`; `uncomp_hdr_len` is zero on entry. -/
def uncompressHdrIphc (sender receiver : Linkaddr) (buf : UipBuf) (ipLen : UInt16) (hdrLen : UInt8)
    (pkt : List UInt8) : Option Uncompressed := do
  match pkt.drop hdrLen.toNat with
  | iphc0 :: iphc1 :: p =>
    let (ctx, p) ← uncompressCid iphc1 p
    let (ip, p) ← uncompressTf iphc0 buf.ip p
    let (ip, p) ← uncompressNh iphc0 ip p
    let (ip, p) ← uncompressTtl iphc0 ip p
    match ← uncompressSrc ctxs sender iphc1 ctx p with
    | none => some ⟨{ buf with ip := ip }, 0, hdrLen⟩
    | some (src, p) =>
      let ip := { ip with srcipaddr := src }
      match ← uncompressDest ctxs receiver iphc1 ctx ip.destipaddr p with
      | none => some ⟨{ buf with ip := ip }, 0, hdrLen⟩
      | some (dest, p) =>
        let ip := { ip with destipaddr := dest }
        let s : UncSt := ⟨{ buf with ip := ip }, none, 0, 0, 40, iphc0 &&& iphcNhC ≠ 0⟩
        match ← uncompressExts p.length s p with
        | .inl s => some ⟨s.buf, s.uncompHdrLen, hdrLen⟩
        | .inr (s, p) =>
          let (s, p) ← uncompressUdp ipLen s p
          some (uncompressLen pkt.length ipLen
            ⟨s.buf, s.uncompHdrLen, UInt8.ofNat (pkt.length - p.length)⟩)
  | _ => none

end Nespy.Sicslowpan
