import Mathlib.Data.List.FinRange
import Nespy.Sicslowpan.Output
import Nespy.Sys.Timer

/-!
# Sicslowpan — `input` and reassembly

The receiver's half of `sicslowpan.c`: the reassembly contexts `frag_info`, the pool `frag_buf` of
fragment buffers that all contexts share, and `uip_buf`, where packets are delivered.  A context is
in use when its `len` is not zero, a buffer when it holds bytes; the first fragment is kept in its
context, in a buffer of its own size.

`input` answers with the new state and the packet it hands to `tcpip_input`, if any.  A return from
the middle is such an answer too; `none` is an access outside the frame or outside the buffer
written to.
-/

open List Function

namespace Nespy.Sicslowpan

open Nespy.Lib (readN writeAt writeAt_length)
open Nespy.Sys (ClockTime Timer timerSet timerExpired)

/-! ### The memory -/

/-- The overlay of a block of bytes. -/
def UipBuf.ofBytes (l : List UInt8) : UipBuf where
  ip := {
    vtc := l.getD 0 0
    tcflow := l.getD 1 0
    flow0 := l.getD 2 0
    flow1 := l.getD 3 0
    len0 := l.getD 4 0
    len1 := l.getD 5 0
    proto := l.getD 6 0
    ttl := l.getD 7 0
    srcipaddr := Ipaddr.ofBytes (l.drop 8)
    destipaddr := Ipaddr.ofBytes (l.drop 24) }
  pay := l.drop 40

/-- `memcpy` into a buffer, at `off`. -/
def UipBuf.write (b : UipBuf) (off : ℕ) (bs : List UInt8) : Option UipBuf :=
  (writeAt b.bytes off bs).map UipBuf.ofBytes

/-- The overlay of a buffer's bytes is the buffer. -/
@[simp] theorem UipBuf.ofBytes_bytes (b : UipBuf) : UipBuf.ofBytes b.bytes = b := by
  have hsrc : b.bytes.drop 8 = b.ip.srcipaddr.toList ++ (b.ip.destipaddr.toList ++ b.pay) := by
    simp [UipBuf.bytes, IpHdr.bytes]
  have hdest : b.bytes.drop 24 = b.ip.destipaddr.toList ++ b.pay := by
    rw [← drop_drop (i := 16), hsrc, drop_left' (by simp)]
  have hpay : b.bytes.drop 40 = b.pay := by
    rw [← drop_drop (i := 16), hdest, drop_left' (by simp)]
  rw [UipBuf.ofBytes, hsrc, hdest, hpay, Ipaddr.ofBytes_append, Ipaddr.ofBytes_append]
  rfl

theorem map_getD_range {n : ℕ} {l : List UInt8} (h : n ≤ l.length) :
    (range n).map (l.getD · 0) = l.take n := by
  refine ext_getElem (by simpa using h) fun k h1 h2 => ?_
  have hk : k < l.length := by simp at h1; omega
  simp [getElem?_eq_getElem hk]

/-- A block of bytes that holds a header is the bytes of its overlay. -/
theorem UipBuf.bytes_ofBytes {l : List UInt8} (h : 40 ≤ l.length) :
    (UipBuf.ofBytes l).bytes = l := by
  have haddr : ∀ k, k + 16 ≤ 40 → (Ipaddr.ofBytes (l.drop k)).toList = (l.drop k).take 16 :=
    fun k hk => map_getD_range (by rw [length_drop]; omega)
  have hhdr : (UipBuf.ofBytes l).bytes =
      ((range 8).map (l.getD · 0) ++ (Ipaddr.ofBytes (l.drop 8)).toList ++
        (Ipaddr.ofBytes (l.drop 24)).toList) ++ l.drop 40 := rfl
  rw [hhdr, map_getD_range (by omega), haddr 8 (by omega), haddr 24 (by omega), ← take_add,
    ← take_add, take_append_drop]

/-- `write`, in terms of the bytes. -/
theorem UipBuf.write_eq_some {b b' : UipBuf} {off : ℕ} {bs : List UInt8} :
    b.write off bs = some b' ↔ writeAt b.bytes off bs = some b'.bytes := by
  unfold UipBuf.write
  constructor
  · intro h
    obtain ⟨l, hl, rfl⟩ := Option.map_eq_some_iff.mp h
    have hlen := writeAt_length hl
    rw [UipBuf.bytes, length_append, IpHdr.bytes_length] at hlen
    rw [hl, UipBuf.bytes_ofBytes (by omega)]
  · intro h
    rw [h, Option.map_some, UipBuf.ofBytes_bytes]

/-- The buffers of all contexts. -/
def sicslowpanFragmentBuffers : ℕ := 12

/-- The packets that can be put together at a time. -/
def sicslowpanReassContexts : ℕ := 2

/-- The room of a buffer. -/
def sicslowpanFragmentSize : ℕ := macMaxPayload - 15

/-- The room for a first fragment, whose header is uncompressed. -/
def sicslowpanFirstFragmentSize : ℕ := sicslowpanFragmentSize + 38

/-- How long a context waits, in sixteenths of a second. -/
def sicslowpanReassMaxage : ClockTime := 8

/-- `CLOCK_SECOND`. -/
def clockSecond : ClockTime := 1000000

/-- The index of a reassembly context. -/
abbrev Ctx := Fin sicslowpanReassContexts

/-- `struct sicslowpan_frag_info`. -/
structure FragInfo where
  sender : Linkaddr
  tag : UInt16
  len : UInt16
  reassembledLen : UInt16
  reassTimer : Timer
  firstFragLen : UInt16
  firstFrag : UipBuf
  deriving DecidableEq

/-- `struct sicslowpan_frag_buf`; `data` is its first `len` bytes. -/
structure FragBuf where
  index : Ctx
  offset : UInt8
  data : List UInt8
  deriving DecidableEq

/-- What `input` keeps from one frame to the next. -/
structure Reass where
  fragInfo : Ctx → FragInfo
  fragBuf : Fin sicslowpanFragmentBuffers → FragBuf
  uipBuf : UipBuf

/-! ### Contexts and fragment buffers -/

variable (now : ClockTime) (s : Reass)

namespace Reass

/-- The buffer holds a fragment of context `i`. -/
def holds (i : Ctx) (j : Fin sicslowpanFragmentBuffers) : Bool :=
  (s.fragBuf j).data != [] && (s.fragBuf j).index == i

/-- The context and its buffers are free. -/
def clearFragments (i : Ctx) : Reass :=
  { s with
    fragInfo := update s.fragInfo i { s.fragInfo i with len := 0 }
    fragBuf := fun j => if s.holds i j then { s.fragBuf j with data := [] } else s.fragBuf j }

/-- The value `clear_fragments` returns. -/
def clearCount (i : Ctx) : ℕ := (finRange sicslowpanFragmentBuffers).countP (s.holds i)

/-- The context is in use and its timer has expired. -/
def expired (i : Ctx) : Bool :=
  (s.fragInfo i).len != 0 && timerExpired now (s.fragInfo i).reassTimer

/-- `timeout_fragments`: the state and the number of buffers freed. -/
def timeoutFragments (notContext : Ctx) : Reass × ℕ :=
  (finRange sicslowpanReassContexts).foldl (fun r i =>
    if r.1.expired now i && i != notContext then (r.1.clearFragments i, r.2 + r.1.clearCount i)
      else r)
    (s, 0)

/-- `store_fragment`: the length stored, or `none` for `-1`. -/
def storeFragment (i : Ctx) (offset : UInt8) (data : List UInt8) : Option (Reass × Option ℕ) :=
  match (finRange sicslowpanFragmentBuffers).find? fun j => (s.fragBuf j).data == [] with
  | none => some (s, none)
  | some j =>
    if data.length ≤ sicslowpanFragmentSize then
      some ({ s with fragBuf := update s.fragBuf j ⟨i, offset, data⟩ }, some data.length)
    else none

/-- The loop of `add_fragment` for a first fragment: expired contexts are cleared, and the first
free one is found. -/
def findFree : Reass × Option Ctx :=
  (finRange sicslowpanReassContexts).foldl (fun r i =>
    let s := if r.1.expired now i then r.1.clearFragments i else r.1
    (s, if r.2 = none ∧ (s.fragInfo i).len = 0 then some i else r.2)) (s, none)

/-- The context an N-fragment belongs to. -/
def findContext (sender : Linkaddr) (tag : UInt16) : Option Ctx :=
  (finRange sicslowpanReassContexts).find? fun i =>
    (s.fragInfo i).tag == tag && (s.fragInfo i).len != 0 && (s.fragInfo i).sender == sender

/-- Context `found`, taken for the packet of `tag` from `sender`. -/
def openContext (found : Ctx) (sender : Linkaddr)
    (tag fragSize : UInt16) : Reass :=
  { s with fragInfo := update s.fragInfo found { s.fragInfo found with
      len := fragSize
      tag := tag
      sender := sender
      reassTimer := timerSet now (sicslowpanReassMaxage * clockSecond / 16) } }

/-- `frag_info[i].reassembled_len += len`. -/
def addLen (i : Ctx) (len : ℕ) : Reass :=
  { s with fragInfo := update s.fragInfo i { s.fragInfo i with
      reassembledLen := (s.fragInfo i).reassembledLen + UInt16.ofNat len } }

/-- `add_fragment`, for a frame from `sender` with `data` behind its fragment header; the context,
or `none` for `-1`. -/
def addFragment (sender : Linkaddr) (data : List UInt8)
    (tag fragSize : UInt16) (offset : UInt8) : Option (Reass × Option Ctx) :=
  if offset = 0 then
    match s.findFree now with
    | (s, none) => some (s, none)
    | (s, some found) => some (s.openContext now found sender tag fragSize, some found)
  else
    match s.findContext sender tag with
    | none => some (s, none)
    | some i =>
      match s.storeFragment i offset data with
      | none => none
      | some (s, some len) =>
        if 0 < len then some (s.addLen i len, some i) else some (s, none)
      | some (s, none) =>
        -- no buffer is free: make room, and try once more
        let (s, freed) := s.timeoutFragments now i
        if 0 < freed then
          match s.storeFragment i offset data with
          | none => none
          | some (s, some len) =>
            if 0 < len then some (s.addLen i len, some i) else some (s, none)
          | some (s, none) => some (s, none)
        else some (s, none)

/-- The loop of `copy_frags2uip` over the fragment buffers. -/
def copyFrags (context : Ctx) : Option UipBuf :=
  (finRange sicslowpanFragmentBuffers).foldlM (fun b j =>
    if s.holds context j then b.write ((s.fragBuf j).offset.toNat <<< 3) (s.fragBuf j).data
    else some b) s.uipBuf

/-- The packet is put together, and the context is free. -/
def copyFrags2uip (context : Ctx) : Option Reass := do
  let info := s.fragInfo context
  let (first, _) ← readN info.firstFragLen.toNat info.firstFrag.bytes
  let b ← s.uipBuf.write 0 first
  let b ← ({ s with uipBuf := b } : Reass).copyFrags context
  some ({ s with uipBuf := b }.clearFragments context)

end Reass

/-! ### `input` -/

/-- What the fragment header made of a frame. -/
inductive Dispatch where
  | whole
  | first (context : Ctx)
  | nth (context : Ctx) (last : Bool)
  deriving DecidableEq

/-- The locals of `input` behind the fragment header. -/
structure FragHdr where
  dispatch : Dispatch
  fragSize : UInt16
  fragOffset : UInt8
  packetbufHdrLen : UInt8
  deriving DecidableEq

/-- The bits that tell a fragment. -/
def dispatchFragMask : UInt8 := 0xf8

/-- A paging byte. -/
def dispatchPaging : UInt8 := 0xf0

/-- The bits that tell one. -/
def dispatchPagingMask : UInt8 := 0xf0

/-- The bits that tell a compressed header. -/
def dispatchIphcMask : UInt8 := 0xe0

/-- An uncompressed header. -/
def dispatchIpv6 : UInt8 := 0x41

/-- The first switch of `input`: the fragment header, and `add_fragment`.  `none` inside is a
return. -/
def inputFrag (f : Frame) : Option (Reass × Option FragHdr) :=
  match f.data with
  | d0 :: d1 :: p =>
    if d0 &&& dispatchFragMask = 0xc0 then
      match p with
      | t0 :: t1 :: p => do
          let fragSize := get16 d0 d1 &&& 0x07ff
          match ← s.addFragment now f.sender p (get16 t0 t1) fragSize 0 with
          | (s, none) => some (s, none)
          | (s, some i) => some (s, some ⟨.first i, fragSize, 0, 4⟩)
      | _ => none
    else if d0 &&& dispatchFragMask = 0xe0 then
      match p with
      | t0 :: t1 :: fragOffset :: p => do
          let fragSize := get16 d0 d1 &&& 0x07ff
          match ← s.addFragment now f.sender p (get16 t0 t1) fragSize fragOffset with
          | (s, none) => some (s, none)
          | (s, some i) =>
            let last := (s.fragInfo i).reassembledLen ≥ fragSize
            some (s, some ⟨.nth i last, fragSize, fragOffset, 5⟩)
      | _ => none
    else some (s, some ⟨.whole, 0, 0, 0⟩)
  | _ => none

/-- The headers of a first or of an unfragmented frame, uncompressed into `buffer`: the buffer,
`uncomp_hdr_len` and `packetbuf_hdr_len`.  `none` inside is a return. -/
def inputHdr (ctxs : List AddrContext) (f : Frame) (buffer : UipBuf) (fragSize : UInt16)
    (hdrLen : UInt8) : Option (Option Uncompressed) :=
  match f.data.drop hdrLen.toNat with
  | [] => none
  | d :: _ =>
    -- the paging dispatch
    let currPage := if d &&& dispatchPagingMask = dispatchPaging then d &&& 0x0f else 0
    let hdrLen := if d &&& dispatchPagingMask = dispatchPaging then hdrLen + 1 else hdrLen
    if currPage > 1 then some none
    else
      match f.data.drop hdrLen.toNat with
      | [] => none
      | d :: p =>
        if d &&& dispatchIphcMask = dispatchIphc then
          (uncompressHdrIphc ctxs f.sender f.receiver buffer fragSize hdrLen f.data).map some
        else if d = dispatchIpv6 then do
          let (hdr, _) ← readN 40 p
          let buffer ← buffer.write 0 hdr
          some (some ⟨buffer, 40, hdrLen + 41⟩)
        else some none

/-- From `copypayload` on, for a first fragment or an unfragmented packet: the payload goes behind
the headers in `buffer`.  `none` inside is a return. -/
def inputPayload (f : Frame) (u : Uncompressed) : Option (Option UipBuf) :=
  if f.data.length < u.packetbufHdrLen.toNat then some none
  else
    let payload := f.data.drop u.packetbufHdrLen.toNat
    if u.uncompHdrLen.toNat + payload.length > uipBufsize then some none
    else (u.buf.write u.uncompHdrLen.toNat payload).map some

/-- `input` on the frame `f`: the state, and the packet delivered. -/
def input (ctxs : List AddrContext) (s : Reass) (now : ClockTime) (f : Frame) :
    Option (Reass × Option (List UInt8)) :=
  if f.data = [] then some (s, none)
  else
    match inputFrag now s f with
    | none => none
    | some (s, none) => some (s, none)
    | some (s, some h) =>
      match h.dispatch with
      | .whole => do
          match ← inputHdr ctxs f s.uipBuf 0 h.packetbufHdrLen with
          | none => some (s, none)
          | some u =>
            let s := { s with uipBuf := u.buf }
            match ← inputPayload f u with
            | none => some (s, none)
            | some b =>
              let uipLen := u.uncompHdrLen.toNat + (f.data.length - u.packetbufHdrLen.toNat)
              some ({ s with uipBuf := b }, some (b.bytes.take uipLen))
      | .first i => do
          match ← inputHdr ctxs f (s.fragInfo i).firstFrag h.fragSize h.packetbufHdrLen with
          | none => some (s, none)
          | some u =>
            let set (info : FragInfo) : Reass :=
              { s with fragInfo := update s.fragInfo i info }
            match ← inputPayload f u with
            | none => some (set { s.fragInfo i with firstFrag := u.buf }, none)
            | some b =>
              let len := UInt16.ofNat
                (u.uncompHdrLen.toNat + (f.data.length - u.packetbufHdrLen.toNat))
              if 0 < h.fragSize then
                some (set { s.fragInfo i with
                  firstFrag := b, reassembledLen := len, firstFragLen := len }, none)
              else some (set { s.fragInfo i with firstFrag := b }, none)
      | .nth i last =>
        if f.data.length < h.packetbufHdrLen.toNat then some (s, none)
        else if (h.fragOffset.toNat <<< 3) + (f.data.length - h.packetbufHdrLen.toNat) >
            uipBufsize then some (s, none)
        else if last then do
          let s ← if 0 < h.fragSize then
              ({ s with fragInfo := update s.fragInfo i { s.fragInfo i with
                reassembledLen := h.fragSize } } : Reass).copyFrags2uip i
            else some s
          some (s, some (s.uipBuf.bytes.take h.fragSize.toNat))
        else some (s, none)

end Nespy.Sicslowpan
