import Nespy.Net.SourceRoute

/-!
# Net — the source-routing header

The part of `net/routing/rpl-classic/rpl-ext-header.c` for networks in non-storing mode.  The root
puts the path to the destination into a routing header (`insert_srh_header`), and each node on the
path exchanges the IPv6 destination for the next address of the header
(`rpl_ext_header_srh_update`).  The addresses are without the leading bytes they all have in common.

A packet is its IPv6 header, of which only some fields are kept, and the bytes of `uip_buf` behind
that. An access outside `uip_buf`, or a loop that does not end, gives `none`.
-/

namespace Nespy.Net

open Nespy.Lib
open Nespy.Sicslowpan (Ipaddr)

variable (pathLen cmpr : ℕ)

/-- `UIP_BUFSIZE`, with `UIP_LLH_LEN` 0. -/
def uipBufsize : ℕ := 1280

/-- The length of an IPv6 header. -/
def uipIphLen : ℕ := 40

/-- Hop-by-hop options. -/
def uipProtoHbho : UInt8 := 0

/-- Destination options. -/
def uipProtoDesto : UInt8 := 60

/-- Routing header. -/
def uipProtoRouting : UInt8 := 43

/-- The option of RPL. -/
def uipExtHdrOptRpl : UInt8 := 0x63

/-- The type of a source routing header. -/
def rplRhTypeSrh : UInt8 := 3

/-- `RPL_RH_LEN + RPL_SRH_LEN`. -/
def rplSrhFixedLen : ℕ := 8

/-- `uip_buf`, `uip_len` and `uip_ext_len`; `buf` is what is behind the IPv6 header. -/
structure Packet where
  len0 : UInt8
  len1 : UInt8
  proto : UInt8
  dest : Ipaddr
  buf : List UInt8
  uipLen : ℕ
  uipExtLen : ℕ
  deriving DecidableEq

/-- The bytes from an offset on. -/
def readAt (buf : List UInt8) (i n : ℕ) : Option (List UInt8) :=
  if i + n ≤ buf.length then some ((buf.drop i).take n) else none

namespace Packet

/-- `memmove` inside the buffer. -/
def memmove (buf : List UInt8) (dst src n : ℕ) : Option (List UInt8) := do
  writeAt buf dst (← readAt buf src n)

variable (p : Packet)

/-- The in-place update of the length field of the IPv6 header, upwards. -/
def addLen (n : ℕ) : Packet :=
  let len1 := p.len1 + n.toUInt8
  { p with len1, len0 := if len1 < p.len1 then p.len0 + 1 else p.len0 }

/-- The same downwards. -/
def subLen (n : ℕ) : Packet :=
  let len1 := p.len1 - n.toUInt8
  { p with len1, len0 := if p.len1 < len1 then p.len0 - 1 else p.len0 }

/-! ### Removing headers -/

/-- `*uip_next_hdr`; the pointer is to the IPv6 header or into the buffer. -/
def nextHdr : Option ℕ → Option UInt8
  | none => some p.proto
  | some i => p.buf[i]?

/-- Writing the next header of the IPv6 header, or of an extension header. -/
def setNextHdr (value : UInt8) : Option ℕ → Option Packet
  | none => some { p with proto := value }
  | some i => do some { p with buf := ← writeAt p.buf i [value] }

/-- The loop of `rpl_ext_header_remove`. -/
def removeFrom : ℕ → Option ℕ → Packet → Option Packet
  | 0, _, _ => none
  | fuel + 1, loc, p => do
      let proto ← p.nextHdr loc
      let ext := p.uipExtLen
      if proto = uipProtoHbho ∨ proto = uipProtoRouting ∨ proto = uipProtoDesto then
        let next ← p.buf[ext]?
        let len ← p.buf[ext + 1]?
        let optType ← p.buf[ext + 2]?
        if proto ≠ uipProtoDesto ∧ (proto ≠ uipProtoHbho ∨ optType = uipExtHdrOptRpl) then
          let p ← p.setNextHdr next loc
          let hdrLen := (len.toNat * 8 + 8) % 256
          let p := { p.subLen hdrLen with uipLen := p.uipLen - hdrLen }
          let buf ← memmove p.buf ext (ext + hdrLen) (p.uipLen - uipIphLen)
          removeFrom fuel loc { p with buf }
        else
          removeFrom fuel (some ext) { p with uipExtLen := (ext + (len.toNat * 8 + 8)) % 256 }
      else some p

/-- `rpl_ext_header_remove`.  A header that stays moves the place of the next one, so there are at
most as many turns as bytes. -/
def rplExtHeaderRemove : Option Packet :=
  removeFrom uipBufsize none { p with uipExtLen := 0 }

end Packet

/-! ### Inserting the header -/

/-- `count_matching_bytes` of two addresses. -/
def countMatchingBytes (a b : Ipaddr) : ℕ :=
  ((a.toList.zip b.toList).takeWhile fun q => q.1 = q.2).length

/-- `ext_len` before padding; `uint8_t`. -/
def srhLen : ℕ :=
  (((rplSrhFixedLen : ℤ) + ((pathLen : ℤ) - 1) * (16 - cmpr) + (16 - cmpr)) % 256).toNat

/-- The header is padded to eight bytes. -/
def srhPadding : ℕ :=
  if srhLen pathLen cmpr % 8 = 0 then 0 else 8 - srhLen pathLen cmpr % 8

/-- `ext_len`. -/
def srhExtLen : ℕ := (srhLen pathLen cmpr + srhPadding pathLen cmpr) % 256

namespace SrNodes

variable {G : Type} [DecidableEq G] (s : SrNodes G) (env : Protocol G)

/-- The loop that finds the length of the path and how many bytes all its nodes have in common with
the destination; `cmpri` and `cmpre` are the same. -/
def pathLoop (root : SrIndex) (dest : Ipaddr) : ℕ → Option SrIndex → ℕ → ℕ → Option (ℕ × ℕ)
  | _, none, pathLen, cmpr => some (pathLen, cmpr)
  | 0, some _, _, _ => none
  | fuel + 1, some n, pathLen, cmpr =>
    if n = root then some (pathLen, cmpr)
    else
      pathLoop root dest fuel (s.node n).parent ((pathLen + 1) % 256)
        (min cmpr (countMatchingBytes (s.getSrNodeIpaddr env n) dest))

/-- The loop that writes the addresses, from the last to the first, and the address of the node at
which it stops. -/
def hopLoop (root : SrIndex) (cmpr : ℕ) : ℕ → Option SrIndex → ℕ → Ipaddr → List UInt8 →
    Option (List UInt8 × Ipaddr)
  | _, none, _, nodeAddr, buf => some (buf, nodeAddr)
  | 0, some _, _, _, _ => none
  | fuel + 1, some n, hop, _, buf =>
    let nodeAddr := s.getSrNodeIpaddr env n
    if (s.node n).parent = some root then some (buf, nodeAddr)
    else if hop < 16 - cmpr then none
    else do
      let buf ← writeAt buf (hop - (16 - cmpr)) (nodeAddr.toList.drop cmpr)
      hopLoop root cmpr fuel (s.node n).parent (hop - (16 - cmpr)) nodeAddr buf

/-- The header and the addresses, once its size is known. -/
def writeSrh (root destNode : SrIndex) (pathLen cmpr : ℕ) (p : Packet) : Option Packet := do
  let extLen := srhExtLen pathLen cmpr
  let base := p.uipExtLen
  let buf ← Packet.memmove p.buf (base + extLen) base (p.uipLen - uipIphLen)
  let buf ← writeAt buf base (List.replicate extLen 0)
  let buf ← writeAt buf base
    [p.proto, ((extLen - 8) / 8).toUInt8, rplRhTypeSrh, pathLen.toUInt8, (cmpr * 16 + cmpr).toUInt8,
      (srhPadding pathLen cmpr * 16).toUInt8]
  let (buf, nodeAddr) ← s.hopLoop env root cmpr (uipSrLinkNum + 1) (some destNode)
    (base + extLen - srhPadding pathLen cmpr) p.dest buf
  some { p.addLen extLen with
    buf, proto := uipProtoRouting, dest := nodeAddr, uipExtLen := (base + extLen) % 256
    uipLen := p.uipLen + extLen }

/-- `insert_srh_header`; `dag` is what `rpl_get_dag` returns for the destination. -/
def insertSrhHeader (dag : Option G) (p : Packet) : Option (Packet × Bool) :=
  match dag with
  | none => some (p, false)
  | some dag =>
    match s.uipSrGetNode env dag (some p.dest) with
    | none => some (p, true)
    | some destNode =>
      match s.uipSrGetNode env dag (some (env.dagId dag)) with
      | none => some (p, false)
      | some root =>
        if s.uipSrIsAddrReachable env dag p.dest = false then some (p, false)
        else if (s.node destNode).parent = some root then some (p, true)
        else do
          let (pathLen, cmpr) ←
            s.pathLoop env root p.dest (uipSrLinkNum + 1) (s.node destNode).parent 0 15
          if uipBufsize < p.uipLen + srhExtLen pathLen cmpr then some (p, false)
          else
            let p ← s.writeSrh env root destNode pathLen cmpr p
            some (p, true)

end SrNodes

/-! ### Following the header -/

namespace Packet

/-- Where the routing header is, if there is one behind hop-by-hop and destination options. -/
def findRouting (p : Packet) : ℕ → UInt8 → ℕ → Option (Option ℕ)
  | 0, _, _ => none
  | fuel + 1, proto, ext =>
    if proto = uipProtoRouting then some (some ext)
    else if proto = uipProtoHbho ∨ proto = uipProtoDesto then do
      let next ← p.buf[ext]?
      let len ← p.buf[ext + 1]?
      findRouting p fuel next ((ext + (len.toNat * 8 + 8)) % 256)
    else some none

/-- `path_len` as a node computes it; `uint8_t`. -/
def readPathLen (extLen padding cmpri cmpre : ℕ) : ℕ :=
  ((((extLen : ℤ) - padding - rplSrhFixedLen - (16 - cmpre)).tdiv (16 - cmpri) + 1) % 256).toNat

/-- The exchange of the destination with the next address, when there are segments left. -/
def swapNext (p : Packet) (ext : ℕ) (segLeft len cmpr pad : UInt8) : Option Packet := do
  let extLen := (len.toNat * 8 + 8) % 256
  let cmpri := cmpr.toNat / 16
  let cmpre := cmpr.toNat % 16
  let pathLen := readPathLen extLen (pad.toNat / 16) cmpri cmpre
  let i := (pathLen + 256 - segLeft.toNat) % 256
  let addr := ext + rplSrhFixedLen + i * (16 - cmpri)
  let c := if segLeft = 1 then cmpre else cmpri
  let bytes ← readAt p.buf addr (16 - c)
  let buf ← writeAt p.buf addr (p.dest.toList.drop c)
  let buf ← writeAt buf (ext + 3) [segLeft - 1]
  some { p with buf, dest := Ipaddr.ofBytes (p.dest.toList.take c ++ bytes) }

/-- `rpl_ext_header_srh_update`, with its return value. -/
def rplExtHeaderSrhUpdate (p : Packet) : Option (Packet × Bool) := do
  match ← p.findRouting uipBufsize p.proto 0 with
  | none => some (p, false)
  | some ext =>
    if (← p.buf[ext + 2]?) = rplRhTypeSrh then
      let segLeft ← p.buf[ext + 3]?
      if segLeft = 0 then some (p, true)
      else
        let p ← p.swapNext ext segLeft (← p.buf[ext + 1]?) (← p.buf[ext + 4]?) (← p.buf[ext + 5]?)
        some (p, true)
    else some (p, false)

end Packet

end Nespy.Net
