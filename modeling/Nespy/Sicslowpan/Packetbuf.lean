import Nespy.Mac.Frame
import Nespy.Sicslowpan.Lossless
import Nespy.Sicslowpan.Output

/-!
# Sicslowpan — `compress_hdr_iphc` in the packetbuf

`compressHdrIphc` says what the compressor leaves in the packetbuf.  Here is how it gets there:
`Hc06` is the packetbuf from `packetbuf_ptr` to `PACKETBUF_PAYLOAD_END`, with `hc06_ptr`, and every
store of the source is a store into it, in the source's order.  The NHC byte of a header is stored
behind the header it announces, the context byte is cleared at the start and or-ed into later, and
the two encoding bytes come last.

A store at or behind `PACKETBUF_PAYLOAD_END` is the answer `Stop.outside`, and a length that does
not fit the byte it is assigned to `Stop.truncated`.  Neither ever comes up, and what is in the
packetbuf in the end is what `compressHdrIphc` says (`compressInto_eq`).
-/

open List

namespace Nespy.Sicslowpan

open Nespy.Lib

/-! ### The packetbuf -/

/-- Why the compressor stops early: `CHECK_BUFFER_SPACE` returns 0, a store leaves the frame, or a
value is cut to fit a byte. -/
inductive Stop where
  | noSpace
  | outside
  | truncated
  deriving DecidableEq

/-- The packetbuf up to `PACKETBUF_PAYLOAD_END`, and `hc06_ptr`, both from `packetbuf_ptr` on. -/
structure Hc06 where
  mem : List UInt8
  ptr : ℕ
  deriving DecidableEq

namespace Hc06

variable (s : Hc06)

/-- Bytes stored at `i`. -/
def store (i : ℕ) (bs : List UInt8) : Except Stop Hc06 :=
  match writeAt s.mem i bs with
  | some mem => .ok { s with mem }
  | none => .error .outside

/-- `hc06_ptr += n`. -/
def skip (n : ℕ) : Hc06 := { s with ptr := s.ptr + n }

/-- Bytes stored at `hc06_ptr`, which moves behind them. -/
def emit (bs : List UInt8) : Except Stop Hc06 := do
  let s ← s.store s.ptr bs
  .ok (s.skip bs.length)

/-- `CHECK_BUFFER_SPACE`. -/
def check (writelen : ℕ) : Except Stop Unit :=
  if s.mem.length ≤ s.ptr + writelen then .error .noSpace else .ok ()

/-- `PACKETBUF_IPHC_BUF[2] |= ctx`, for an address with a context. -/
def orCtx (context : Option AddrContext) (ctx : UInt8) : Except Stop Hc06 :=
  match context with
  | some _ => s.store 2 [s.mem.getD 2 0 ||| ctx]
  | none => .ok s

end Hc06

/-- An `int` assigned to a `uint8_t`. -/
def assignByte (n : ℕ) : Except Stop UInt8 :=
  if n < 256 then .ok (UInt8.ofNat n) else .error .truncated

/-! ### The compressor -/

section

variable (ctxs : List AddrContext)

/-- The context the source address is coded with. -/
def srcContext (ip : IpHdr) : Option AddrContext :=
  if uipIsAddrUnspecified ip.srcipaddr then none else addrContextLookupByPrefix ctxs ip.srcipaddr

/-- The context the destination address is coded with. -/
def destContext (ip : IpHdr) : Option AddrContext :=
  if uipIsAddrMcast ip.destipaddr then none else addrContextLookupByPrefix ctxs ip.destipaddr

/-- The base header, but for the two encoding bytes. -/
def baseInto (uipLladdr linkDestaddr : Linkaddr) (ip : IpHdr) (s : Hc06) : Except Stop Hc06 :=
  do
  let src := compressSrc ctxs uipLladdr ip
  let dst := compressDest ctxs linkDestaddr ip
  s.check 38
  let s ← s.store 2 [0]
  let s := if cidOf ctxs ip then s.skip 1 else s
  let s ← s.emit (compressTf ip).2
  let s ← s.emit (compressNh ip).2
  let s ← s.emit (compressTtl ip).2
  let s ← s.orCtx (srcContext ctxs ip) src.ctx
  let s ← s.emit src.inl
  let s ← s.orCtx (destContext ctxs ip) dst.ctx
  s.emit dst.inl

/-- `case UIP_PROTO_UDP`. -/
def udpInto (udp : List UInt8) (s : Hc06) (nextNhc : ℕ) (unc : UInt8) :
    Except Stop (Hc06 × UInt8) := do
  let (nhc, ports) := compressPorts (udp.getD 0 0) (udp.getD 1 0) (udp.getD 2 0) (udp.getD 3 0)
  let s := s.skip 1
  let s ← s.store nextNhc [nhc]
  s.check ports.length
  let s ← s.emit ports
  s.check 2
  let s ← s.emit [udp.getD 6 0, udp.getD 7 0]
  .ok (s, unc + 8)

/-- The byte for the NHC header, when the next header is not elided. -/
def reserveNhc (next : UInt8) (s : Hc06) : Except Stop Hc06 :=
  if isCompressableProto next then .ok s
  else do
    s.check 1
    .ok (s.skip 1)

/-- An extension header copied to `hc06_ptr`, with its length in octets, and its NHC byte. -/
def copyExt (nhc : UInt8) (pay : List UInt8) (s : Hc06) (nextNhc : ℕ) : Except Stop Hc06 := do
  let len := extLen pay
  s.check len
  let extHdr := s.ptr
  let s ← s.emit (pay.takeD len 0)
  let byte ← assignByte (len - 2)
  let s ← s.store (extHdr + 1) [byte]
  s.store nextNhc [nhc]

/-- One extension header, `pay` being the bytes from it on. -/
def extInto (eid : UInt8) (pay : List UInt8) (s : Hc06) (nextNhc : ℕ) : Except Stop Hc06 := do
  let next := pay.getD 0 0
  let s ← reserveNhc next s
  copyExt (nhcExtHdr ||| (if isCompressableProto next then nhcBit else 0) ||| (eid <<< 1)) pay
    s nextNhc

/-- The loop over the next headers. -/
def nextHdrsInto : ℕ → UInt8 → List UInt8 → Hc06 → UInt8 → Except Stop (Hc06 × UInt8)
  | 0, _, _, _, _ => .error .noSpace
  | fuel + 1, proto, pay, s, unc =>
    match nhcEtxHdr proto with
    | some eid => do
        let s ← extInto eid pay s s.ptr
        nextHdrsInto fuel (pay.getD 0 0) (pay.drop (extLen pay)) s (unc + UInt8.ofNat (extLen pay))
    | none => if proto = uipProtoUdp then udpInto pay s s.ptr unc else .ok (s, unc)

/-- `compress_hdr_iphc` on the packetbuf `mem`: the packetbuf with `hc06_ptr`, and
`uncomp_hdr_len`. -/
def compressInto (uipLladdr linkDestaddr : Linkaddr) (b : UipBuf) (mem : List UInt8) :
    Except Stop (Hc06 × UInt8) := do
  let s ← baseInto ctxs uipLladdr linkDestaddr b.ip ⟨mem, 2⟩
  let (s, unc) ← nextHdrsInto (mem.length + 1) b.ip.proto b.pay s 40
  let s ← s.store 0 [iphc0Of b.ip]
  let s ← s.store 1 [iphc1Of ctxs uipLladdr b.ip linkDestaddr]
  .ok (s, unc)

end

/-! ### Stores inside -/

/-- The packetbuf of size `M` holds `w` behind the two encoding bytes, up to `hc06_ptr`. -/
structure Hc06.Held (M : ℕ) (s : Hc06) (w : List UInt8) : Prop where
  size : s.mem.length = M
  ptr : s.ptr = 2 + w.length
  bytes : ∃ g₀ g₁ rest, s.mem = g₀ :: g₁ :: (w ++ rest)

variable {M : ℕ} {s : Hc06} {w : List UInt8}

namespace Hc06

variable (h : s.Held M w)

include h

theorem Held.split :
    ∃ g₀ g₁ rest, s.mem = g₀ :: g₁ :: (w ++ rest) ∧ w.length + rest.length + 2 = M := by
  obtain ⟨g₀, g₁, rest, hmem⟩ := h.bytes
  have hsize := h.size
  rw [hmem] at hsize
  exact ⟨g₀, g₁, rest, hmem, by simpa using hsize⟩

/-- Bytes at `hc06_ptr`, with room for them. -/
theorem Held.emit (bs : List UInt8) (hroom : 2 + w.length + bs.length ≤ M) :
    ∃ s', s.emit bs = .ok s' ∧ s'.Held M (w ++ bs) := by
  obtain ⟨g₀, g₁, rest, hmem, hsize⟩ := h.split
  have hw : writeAt s.mem s.ptr bs = some (g₀ :: g₁ :: w ++ (bs ++ rest.drop bs.length)) := by
    rw [hmem, h.ptr]
    have hlen : (g₀ :: g₁ :: w).length = 2 + w.length := Nat.add_comm w.length 2
    exact writeAt_room hlen (by omega)
  refine ⟨⟨g₀ :: g₁ :: w ++ (bs ++ rest.drop bs.length), s.ptr + bs.length⟩,
    by rw [Hc06.emit, Hc06.store, hw]; rfl, ?_, ?_, g₀, g₁, rest.drop bs.length, ?_⟩
  · rw [← h.size]
    exact writeAt_length hw
  · rw [h.ptr, length_append, Nat.add_assoc]
  · simp

/-- A byte over one that is held. -/
theorem Held.store {i : ℕ} (hi : i < w.length) (b : UInt8) :
    ∃ s', s.store (2 + i) [b] = .ok s' ∧ s'.ptr = s.ptr ∧ s'.Held M (w.set i b) := by
  obtain ⟨g₀, g₁, rest, hmem⟩ := h.bytes
  have hset : s.mem.set (2 + i) b = g₀ :: g₁ :: (w.set i b ++ rest) := by
    rw [hmem, Nat.add_comm, set_cons_succ, set_cons_succ, set_append_left _ _ hi]
  have hw : writeAt s.mem (2 + i) [b] = some (g₀ :: g₁ :: (w.set i b ++ rest)) := by
    rw [writeAt_singleton (by rw [hmem]; simp; omega), hset]
  refine ⟨⟨g₀ :: g₁ :: (w.set i b ++ rest), s.ptr⟩,
    by rw [Hc06.store, hw], rfl, ?_, ?_, g₀, g₁, rest, rfl⟩
  · rw [← h.size]
    exact writeAt_length hw
  · rw [length_set]
    exact h.ptr

/-- A byte of the frame left as it is. -/
theorem Held.skip (hroom : 2 + w.length < M) : ∃ x, (s.skip 1).Held M (w ++ [x]) := by
  obtain ⟨g₀, g₁, rest, hmem, hsize⟩ := h.split
  cases rest with
  | nil => simp only [length_nil] at hsize; omega
  | cons x rest =>
    refine ⟨x, h.size, ?_, g₀, g₁, rest, ?_⟩
    · simp [Hc06.skip, h.ptr]; omega
    · simp [Hc06.skip, hmem]

/-- A turn that checks for room and finds it, or stops. -/
theorem Held.check (n : ℕ) : (2 + w.length + n < M ∧ s.check n = .ok ()) ∨
      (M ≤ 2 + w.length + n ∧ s.check n = .error .noSpace) := by
  rw [Hc06.check, h.size, h.ptr]
  by_cases hn : M ≤ 2 + w.length + n
  · exact .inr ⟨hn, if_pos hn⟩
  · exact .inl ⟨by omega, if_neg hn⟩

end Hc06

/-! ### The next headers -/

section NextHdrs

/-- The packetbuf holds `w` then, if it has more than `n` bytes; else the answer is that there is no
space. -/
def Fits (M n : ℕ) (w : List UInt8) (r : Except Stop Hc06) : Prop :=
  (n < M ∧ ∃ s', r = .ok s' ∧ s'.Held M w) ∨ (M ≤ n ∧ r = .error .noSpace)

/-- An extension header, copied with room for it; `i` is where its NHC byte goes. -/
theorem copyExt_held (h : s.Held M w) (hM : M ≤ 257) {i : ℕ} (hi : i ≤ w.length) (nhc : UInt8)
    (pay : List UInt8) :
    Fits M (2 + w.length + extLen pay) ((w ++ extHdr pay).set i nhc)
      (copyExt nhc pay s (2 + i)) := by
  have h8 := le_extLen pay
  rcases h.check (extLen pay) with ⟨hroom, hck⟩ | ⟨hroom, hck⟩
  · refine .inl ⟨hroom, ?_⟩
    obtain ⟨s₁, he, h₁⟩ := h.emit (pay.takeD (extLen pay) 0) (by simp; omega)
    have hbyte : assignByte (extLen pay - 2) = .ok (UInt8.ofNat (extLen pay - 2)) := by
      rw [assignByte, if_pos (by omega)]
    obtain ⟨s₂, hl, -, h₂⟩ := h₁.store (i := w.length + 1) (by simp; omega)
      (UInt8.ofNat (extLen pay - 2))
    have hset : (w ++ pay.takeD (extLen pay) 0).set (w.length + 1) (UInt8.ofNat (extLen pay - 2)) =
        w ++ extHdr pay := by
      rw [set_append_right _ _ (by omega), Nat.add_sub_cancel_left]
      rfl
    rw [hset] at h₂
    obtain ⟨s₃, hn, -, h₃⟩ := h₂.store (i := i) (by simp; omega) nhc
    refine ⟨s₃, ?_, h₃⟩
    simp only [copyExt, hck, he, hbyte, h.ptr, bind, Except.bind]
    rw [Nat.add_assoc, hl]
    exact hn
  · refine .inr ⟨hroom, ?_⟩
    simp only [copyExt, hck, bind, Except.bind]

/-- The two levels agree from a header of `k` bytes on: both stop for lack of space, or the
packetbuf holds what the other says was emitted, which leaves a byte of the frame free unless there
was nothing more to code. -/
def Agrees (M k : ℕ) (x y : UInt8) (r : Except Stop (Hc06 × UInt8)) :
    Except (List UInt8) Compressed → Prop
  | .error _ => r = .error .noSpace
  | .ok c => ∃ s w, r = .ok (s, c.uncompHdrLen) ∧ c.out = x :: y :: w ∧ s.Held M w ∧
      c.out.length ≤ max k (M - 1)

variable {k : ℕ} {x y : UInt8}

section

variable (h : s.Held M w)

include h

/-- `CHECK_BUFFER_SPACE` at both levels. -/
theorem Agrees.check {n : ℕ} {f : Unit → Except Stop (Hc06 × UInt8)}
    {q : Except (List UInt8) Compressed} (hnext : 2 + w.length + n < M → Agrees M k x y (f ()) q) :
    Agrees M k x y (s.check n >>= f) (checkBufferSpace M n (x :: y :: w) q) := by
  have hlen : (x :: y :: w).length = 2 + w.length := by simp; omega
  rcases h.check n with ⟨hroom, hck⟩ | ⟨hroom, hck⟩
  · rw [checkBufferSpace, if_neg (by omega), hck]
    exact hnext hroom
  · rw [checkBufferSpace, if_pos (by omega), hck]
    rfl

theorem udpInto_agrees (hlt : 2 + w.length < M) (udp : List UInt8) (unc : UInt8) :
    Agrees M k x y (udpInto udp s s.ptr unc) (compressUdp M udp (x :: y :: w) unc) := by
  unfold udpInto compressUdp
  generalize compressPorts (udp.getD 0 0) (udp.getD 1 0) (udp.getD 2 0) (udp.getD 3 0) = c
  obtain ⟨z, h₁⟩ := h.skip hlt
  obtain ⟨s₂, hn, -, h₂⟩ := h₁.store (i := w.length) (by simp) c.1
  have hset : (w ++ [z]).set w.length c.1 = w ++ [c.1] := by
    rw [set_append_right _ _ le_rfl, Nat.sub_self]
    rfl
  rw [hset] at h₂
  dsimp only
  rw [h.ptr, hn]
  refine Agrees.check h₂ fun hroom => ?_
  obtain ⟨s₃, he, h₃⟩ := h₂.emit c.2 (by omega)
  rw [he]
  refine Agrees.check h₃ fun hroom => ?_
  obtain ⟨s₄, he, h₄⟩ := h₃.emit [udp.getD 6 0, udp.getD 7 0] (by simp at hroom ⊢; omega)
  rw [he]
  refine ⟨s₄, _, rfl, rfl, h₄, ?_⟩
  simp only [length_append, length_cons, length_nil] at hroom ⊢
  omega

theorem extInto_more (hM : M ≤ 257) (eid : UInt8) {pay : List UInt8}
    (hn : isCompressableProto (pay.getD 0 0) = true) :
    Fits M (2 + w.length + extLen pay)
      (w ++ (extHdr pay).set 0 (nhcExtHdr ||| nhcBit ||| (eid <<< 1)))
      (extInto eid pay s s.ptr) := by
  have hinto : extInto eid pay s s.ptr =
      copyExt (nhcExtHdr ||| nhcBit ||| (eid <<< 1)) pay s (2 + w.length) := by
    simp only [extInto, reserveNhc, if_pos hn, h.ptr, bind, Except.bind]
  have hset : ∀ b, (w ++ extHdr pay).set w.length b = w ++ (extHdr pay).set 0 b := fun b => by
    rw [set_append_right _ _ le_rfl, Nat.sub_self]
  rw [hinto, ← hset]
  exact copyExt_held h hM le_rfl _ pay

theorem extInto_last (hM : M ≤ 257) (hlt : 2 + w.length < M) (eid : UInt8) {pay : List UInt8}
    (hn : ¬isCompressableProto (pay.getD 0 0) = true) :
    Fits M (2 + w.length + 1 + extLen pay) (w ++ [nhcExtHdr ||| (eid <<< 1)] ++ extHdr pay)
      (extInto eid pay s s.ptr) := by
  rcases h.check 1 with ⟨hroom, hck⟩ | ⟨hroom, hck⟩
  · obtain ⟨z, h₁⟩ := h.skip hlt
    have hinto : extInto eid pay s s.ptr =
        copyExt (nhcExtHdr ||| (eid <<< 1)) pay (s.skip 1) (2 + w.length) := by
      simp only [extInto, reserveNhc, if_neg hn, hck, h.ptr, bind, Except.bind, UInt8.or_zero]
    have hset : ∀ b, (w ++ [z] ++ extHdr pay).set w.length b = w ++ [b] ++ extHdr pay := fun b => by
      rw [append_assoc]
      simp
    have hlen : 2 + (w ++ [z]).length = 2 + w.length + 1 := by simp; omega
    rw [hinto, ← hset, ← hlen]
    exact copyExt_held h₁ hM (by simp) _ pay
  · refine .inr ⟨by omega, ?_⟩
    simp only [extInto, reserveNhc, if_neg hn, hck, bind, Except.bind]

end

/-- **The loop.**  Where an NHC byte is stored, the copy of the header before has left a byte
free. -/
theorem nextHdrsInto_agrees (hM : M ≤ 257) :
    ∀ {fuel : ℕ} {proto : UInt8} {pay : List UInt8} {s : Hc06} {w : List UInt8} {unc : UInt8},
      s.Held M w → (isCompressableProto proto = true → 2 + w.length < M) →
      2 + w.length ≤ max k (M - 1) → M < 2 + w.length + fuel →
      Agrees M k x y (nextHdrsInto (fuel + 1) proto pay s unc)
        (compressNextHdrs M fuel proto pay (x :: y :: w) unc) := by
  intro fuel
  induction fuel with
  | zero =>
    intro _ _ s w _ h _ _ hfuel
    obtain ⟨g₀, g₁, rest, hmem, hsize⟩ := h.split
    omega
  | succ fuel ih =>
    intro proto pay s w unc h hlt hk hfuel
    cases he : nhcEtxHdr proto with
    | none =>
      rw [nextHdrsInto, compressNextHdrs, he]
      split_ifs with hu
      · exact udpInto_agrees h (hlt (by rw [hu]; decide)) pay unc
      · refine ⟨s, w, rfl, rfl, h, ?_⟩
        simp only [length_cons]
        omega
    | some eid =>
      have hlt := hlt (isCompressableProto_of_nhcEtxHdr he)
      have hturn : nextHdrsInto (fuel + 1 + 1) proto pay s unc = extInto eid pay s s.ptr >>=
        fun s =>
          nextHdrsInto (fuel + 1) (pay.getD 0 0) (pay.drop (extLen pay)) s
            (unc + UInt8.ofNat (extLen pay)) := by
        rw [nextHdrsInto, he]
      have hout : (x :: y :: w).length = 2 + w.length := by simp; omega
      rw [hturn]
      by_cases hn : isCompressableProto (pay.getD 0 0) = true
      · rw [compressNextHdrs_more he hn, checkBufferSpace, hout]
        rcases extInto_more h hM eid hn with ⟨hroom, s', hs, h'⟩ | ⟨hroom, hs⟩
        · have h8 := le_extLen pay
          rw [if_neg (by omega), hs, cons_append, cons_append]
          have hlen : ∀ b, (w ++ (extHdr pay).set 0 b).length = w.length + extLen pay := by simp
          exact ih h' (fun _ => by rw [hlen]; omega) (by rw [hlen]; omega) (by rw [hlen]; omega)
        · rw [if_pos hroom, hs]
          rfl
      · rw [compressNextHdrs_last he hn, checkBufferSpace]
        rcases extInto_last h hM hlt eid hn with ⟨hroom, s', hs, h'⟩ | ⟨hroom, hs⟩
        · rw [if_neg (by omega), checkBufferSpace, if_neg (by simp; omega), hs]
          have hdone :
            ∀ s unc, nextHdrsInto (fuel + 1) (pay.getD 0 0) (pay.drop (extLen pay)) s unc =
              .ok (s, unc) := by
            obtain ⟨hu, he⟩ := isCompressableProto_eq_false.mp (eq_false_of_ne_true hn)
            intro s unc
            rw [nextHdrsInto, he]
            exact if_neg hu
          refine ⟨s', _, hdone _ _, rfl, h', ?_⟩
          simp only [length_append, length_cons, extHdr_length, length_nil]
          omega
        · rw [hs]
          split
          · rfl
          · rw [checkBufferSpace, if_pos (by simp; omega)]
            rfl

end NextHdrs

/-! ### The base header -/

section Base

variable {ctxs : List AddrContext} {m md : Linkaddr} {h : IpHdr}

/-- The start: the third byte is cleared, and kept when there is to be a context byte. -/
theorem store_two (mem : List UInt8) (hmem : 3 ≤ mem.length) (cid : Bool) :
    ∃ s, (⟨mem, 2⟩ : Hc06).store 2 [0] = .ok s ∧
      (if cid then s.skip 1 else s).Held mem.length (if cid then [0] else []) := by
  match mem, hmem with
  | g₀ :: g₁ :: g₂ :: rest, _ =>
    refine ⟨⟨g₀ :: g₁ :: 0 :: rest, 2⟩, ?_, ?_⟩
    · rfl
    · cases cid
      · exact ⟨rfl, rfl, g₀, g₁, 0 :: rest, rfl⟩
      · exact ⟨rfl, rfl, g₀, g₁, rest, rfl⟩

/-- A context is or-ed into the context byte. -/
theorem orCtx_held {cid : Bool} {b : UInt8} (hs : s.Held M ((if cid then [b] else []) ++ w))
    {context : Option AddrContext} {ctx : UInt8} (hcid : context.isSome = true → cid = true)
    (hctx : context = none → ctx = 0) :
    ∃ s', s.orCtx context ctx = .ok s' ∧ s'.Held M ((if cid then [b ||| ctx] else []) ++ w) := by
  cases context with
  | none =>
    refine ⟨s, rfl, ?_⟩
    rw [hctx rfl, UInt8.or_zero]
    exact hs
  | some c =>
    obtain rfl := hcid rfl
    obtain ⟨g₀, g₁, rest, hmem⟩ := hs.bytes
    have hb : s.mem.getD 2 0 = b := by rw [hmem]; rfl
    obtain ⟨s', hstore, -, hs'⟩ := hs.store (i := 0) (by simp) (b ||| ctx)
    refine ⟨s', ?_, hs'⟩
    rw [Hc06.orCtx, hb]
    exact hstore

theorem srcContext_none (hn : srcContext ctxs h = none) : (compressSrc ctxs m h).ctx = 0 := by
  unfold srcContext at hn
  rcases compressSrc_cases ctxs m h with ⟨-, -, hcode⟩ | ⟨c, hu, hl, -, -⟩ | ⟨-, -, hcode⟩ |
    ⟨-, -, hcode⟩
  · rw [hcode]
  · rw [hu, hl] at hn; cases hn
  · rw [hcode]
  · rw [hcode]

theorem destContext_none (hn : destContext ctxs h = none) : (compressDest ctxs md h).ctx = 0 := by
  unfold destContext at hn
  by_cases hmc : uipIsAddrMcast h.destipaddr = true
  · exact (compressDest_mcast ctxs md h hmc).2.1
  · rw [if_neg hmc] at hn
    rcases compressDest_cases ctxs md hmc with ⟨c, hl, -⟩ | ⟨-, -, -, hcode⟩ | ⟨-, hcode⟩
    · rw [hl] at hn; cases hn
    · rw [hcode]
    · rw [hcode]

theorem cidOf_of_srcContext (hs : (srcContext ctxs h).isSome = true) : cidOf ctxs h = true := by
  unfold srcContext at hs
  split at hs
  · cases hs
  · rw [cidOf, hs, Bool.or_true]

theorem cidOf_of_destContext (hs : (destContext ctxs h).isSome = true) : cidOf ctxs h = true := by
  unfold destContext at hs
  split at hs
  · cases hs
  · rw [cidOf, hs, Bool.true_or]

/-- When the next header is elided a byte of the worst case stays free. -/
theorem hdrCode_length_compressable (hp : isCompressableProto h.proto = true) :
    (hdrCode ctxs m md h).length ≤ 40 := by
  have hlen := hdrCode_length_nh ctxs m md h
  rwa [compressNh, if_pos hp] at hlen

/-- What the base header leaves behind the two encoding bytes. -/
def hdrRest (ctxs : List AddrContext) (m md : Linkaddr) (h : IpHdr) : List UInt8 :=
  (if cidOf ctxs h then [(compressSrc ctxs m h).ctx ||| (compressDest ctxs md h).ctx] else []) ++
    (compressTf h).2 ++ (compressNh h).2 ++ (compressTtl h).2 ++ (compressSrc ctxs m h).inl ++
    (compressDest ctxs md h).inl

theorem hdrCode_eq :
    hdrCode ctxs m md h = iphc0Of h :: iphc1Of ctxs m h md :: hdrRest ctxs m md h := by
  simp [hdrCode, hdrRest]

/-- The fields of the base header, behind its two bytes of encoding. -/
theorem baseInto_held (ctxs : List AddrContext) (m md : Linkaddr) (h : IpHdr) {mem : List UInt8}
    (hmem : 40 < mem.length) :
    ∃ s, baseInto ctxs m md h ⟨mem, 2⟩ = .ok s ∧ s.Held mem.length (hdrRest ctxs m md h) := by
  have hlen := hdrCode_length ctxs m md h
  rw [hdrCode_eq, hdrRest] at hlen
  simp only [length_cons, length_append] at hlen
  have hctx : ∀ b : UInt8, (if cidOf ctxs h then [b] else []).length =
      (if cidOf ctxs h then [(compressSrc ctxs m h).ctx ||| (compressDest ctxs md h).ctx]
        else []).length := by
    intro b
    split <;> rfl
  obtain ⟨s₁, e₁, h₁⟩ := store_two mem (by omega) (cidOf ctxs h)
  obtain ⟨s₂, e₂, h₂⟩ := h₁.emit (compressTf h).2 (by rw [hctx]; omega)
  obtain ⟨s₃, e₃, h₃⟩ := h₂.emit (compressNh h).2 (by
    rw [length_append, hctx]; omega)
  obtain ⟨s₄, e₄, h₄⟩ := h₃.emit (compressTtl h).2 (by
    rw [length_append, length_append, hctx]; omega)
  rw [append_assoc, append_assoc] at h₄
  obtain ⟨s₅, e₅, h₅⟩ := orCtx_held h₄ cidOf_of_srcContext (srcContext_none (m := m))
  rw [UInt8.zero_or] at h₅
  obtain ⟨s₆, e₆, h₆⟩ := h₅.emit (compressSrc ctxs m h).inl (by
    simp only [length_append]; rw [hctx]; omega)
  rw [append_assoc] at h₆
  have hdest : destContext ctxs h = none → (compressDest ctxs md h).ctx = 0 := destContext_none
  obtain ⟨s₇, e₇, h₇⟩ := orCtx_held h₆ cidOf_of_destContext hdest
  obtain ⟨s₈, e₈, h₈⟩ := h₇.emit (compressDest ctxs md h).inl (by
    simp only [length_append]; omega)
  refine ⟨s₈, ?_, ?_⟩
  · have hck : (⟨mem, 2⟩ : Hc06).check 38 = .ok () := by
      rw [Hc06.check, if_neg (by dsimp only; omega)]
    unfold baseInto
    rw [hck]
    simp only [e₁, e₂, e₃, e₄, e₅, e₆, e₇, e₈, bind, Except.bind]
  · rw [hdrRest]
    simpa only [append_assoc] using h₈

end Base

/-! ### The whole compressor -/

/-- **The packetbuf holds what `compressHdrIphc` says.**  From any packetbuf, the compressor stops
for lack of space at both levels, or leaves in the packetbuf, up to `hc06_ptr`, the code of the
header. -/
theorem compressInto_eq (ctxs : List AddrContext) (m md : Linkaddr) (b : UipBuf) {mem : List UInt8}
    (hM : mem.length ≤ 257) :
    (∃ out, compressHdrIphc ctxs m md mem.length b = .error out ∧
      compressInto ctxs m md b mem = .error .noSpace) ∨
    (∃ c s, compressHdrIphc ctxs m md mem.length b = .ok c ∧
      compressInto ctxs m md b mem = .ok (s, c.uncompHdrLen) ∧ s.mem.length = mem.length ∧
      s.ptr = c.out.length ∧ s.mem.take s.ptr = c.out ∧
        c.out.length ≤ max 41 (mem.length - 1)) := by
  by_cases hsp : mem.length ≤ 2 + 38
  · refine .inl ⟨[], by rw [compressHdrIphc, if_pos hsp], ?_⟩
    have hck : (⟨mem, 2⟩ : Hc06).check 38 = .error .noSpace := by rw [Hc06.check, if_pos hsp]
    unfold compressInto baseInto
    rw [hck]
    rfl
  · obtain ⟨s₁, e₁, h₁⟩ := baseInto_held ctxs m md b.ip
      (show 40 < mem.length by omega)
    have hcomp : compressHdrIphc ctxs m md mem.length b = compressNextHdrs mem.length mem.length
        b.ip.proto b.pay (iphc0Of b.ip :: iphc1Of ctxs m b.ip md :: hdrRest ctxs m md b.ip) 40 := by
      rw [compressHdrIphc, if_neg hsp]
      rfl
    have h41 := hdrCode_length ctxs m md b.ip
    have h40 : isCompressableProto b.ip.proto = true → (hdrCode ctxs m md b.ip).length ≤ 40 :=
      hdrCode_length_compressable
    rw [hdrCode_eq] at h41 h40
    simp only [length_cons] at h41 h40
    have hag : Agrees mem.length 41 (iphc0Of b.ip) (iphc1Of ctxs m b.ip md)
        (nextHdrsInto (mem.length + 1) b.ip.proto b.pay s₁ 40)
        (compressHdrIphc ctxs m md mem.length b) := by
      rw [hcomp]
      exact nextHdrsInto_agrees hM h₁ (fun hp => by have := h40 hp; omega) (by omega) (by omega)
    unfold compressInto
    rw [e₁]
    cases hq : compressHdrIphc ctxs m md mem.length b with
    | error out =>
      rw [hq] at hag
      refine .inl ⟨out, rfl, ?_⟩
      change nextHdrsInto (mem.length + 1) b.ip.proto b.pay s₁ 40 = _ at hag
      simp only [hag, bind, Except.bind]
    | ok c =>
      rw [hq] at hag
      obtain ⟨s₂, w, e₂, hout, h₂, hle⟩ := hag
      obtain ⟨g₀, g₁, rest, hmem⟩ := h₂.bytes
      have e₃ : s₂.store 0 [iphc0Of b.ip] = .ok ⟨iphc0Of b.ip :: g₁ :: (w ++ rest), s₂.ptr⟩ := by
        rw [Hc06.store, hmem]
        rfl
      have e₄ : (⟨iphc0Of b.ip :: g₁ :: (w ++ rest), s₂.ptr⟩ : Hc06).store 1
          [iphc1Of ctxs m b.ip md] = .ok ⟨c.out ++ rest, s₂.ptr⟩ := by
        rw [hout]
        rfl
      have hptr : s₂.ptr = c.out.length := by
        rw [h₂.ptr, hout]
        simp only [length_cons]
        omega
      refine .inr ⟨c, ⟨c.out ++ rest, s₂.ptr⟩, rfl, ?_, ?_, hptr, ?_, hle⟩
      · simp only [e₂, e₃, e₄, bind, Except.bind]
      · rw [← h₂.size, hmem, hout]
        rfl
      · rw [hptr, take_left]

/-! ### Inside the frame -/

/-- `mac_max_payload`, as `output` computes it from `NETSTACK_FRAMER.length()`: the length of the
header of the frame `p`, in a build with the security `cfg`, or `MAC_MAX_HEADER` when framing
fails. -/
def framedMaxPayload (cfg : Mac.Llsec) (p : Option Mac.Frame) : ℕ :=
  macMaxPayload - (p.map (Mac.Frame.frame802154Hdrlen cfg)).getD macMaxHeader

section

variable (cfg : Mac.Llsec) (p : Option Mac.Frame)

theorem auxSecLen_le (a : Mac.AuxHdr) : Mac.Frame.auxSecLen cfg a ≤ 15 := by
  have hkey : Mac.getKeyIdLen a.securityControl.keyIdMode ≤ 9 := by
    unfold Mac.getKeyIdLen
    split_ifs <;> omega
  unfold Mac.Frame.auxSecLen
  split_ifs <;> omega

/-- No header leaves less than 87 bytes of the frame. -/
theorem le_framedMaxPayload : 87 ≤ framedMaxPayload cfg p := by
  cases p with
  | none =>
    change 87 ≤ macMaxPayload - macMaxHeader
    decide
  | some p =>
    have hd := Mac.addrLen_le (p.adjust.fcf.destAddrMode &&& 3)
    have hs := Mac.addrLen_le (p.adjust.fcf.srcAddrMode &&& 3)
    have ha := auxSecLen_le cfg p.adjust.auxHdr
    have hlen : Mac.Frame.frame802154Hdrlen cfg p ≤ 38 := by
      unfold Mac.Frame.frame802154Hdrlen Mac.Frame.fieldLen
      dsimp only
      split_ifs <;> omega
    change 87 ≤ 125 - Mac.Frame.frame802154Hdrlen cfg p
    omega

/-- The default build's `mac_max_payload` is one of these. -/
theorem Node.maxPayload_framed (node : Node) (dest : Linkaddr) :
    ∃ p, node.maxPayload dest = framedMaxPayload ⟨false, false⟩ p := by
  unfold Node.maxPayload framedMaxPayload Mac.hdrLength
  split_ifs with hp
  · exact ⟨none, rfl⟩
  · refine ⟨some { destAddr := dest, srcAddr := node.uipLladdr
                   fcf := { Mac.framer802154SetupParams 0 (dest == linkaddrNull) with
                     securityEnabled := 0, framePending := 0, ackRequired := 0, ieListPresent := 0 }
                   seq := 0, destPid := node.panId, srcPid := node.panId
                   auxHdr := ⟨⟨0, 0, 0, 0⟩, ⟨List.replicate 4 0, rfl⟩, linkaddrNull, 0⟩
                   payload := 0, payloadLen := 0 }, ?_⟩
    rw [Option.map_some, Mac.Frame.frame802154Hdrlen_eq _ rfl]

/-- **Compression stays inside the frame.**  Whatever `uip_buf` and the packetbuf hold,
`compress_hdr_iphc` stores nothing at or behind `PACKETBUF_PAYLOAD_END` and cuts no length of an
extension header, and when it returns 1 `packetbuf_hdr_len` is less than `mac_max_payload`. -/
theorem compress_inside_frame (ctxs : List AddrContext)
    (uipLladdr linkDestaddr : Linkaddr) (b : UipBuf)
    (packetbuf : List.Vector UInt8 (framedMaxPayload cfg p)) :
    compressInto ctxs uipLladdr linkDestaddr b packetbuf.toList ≠ .error .outside ∧
    compressInto ctxs uipLladdr linkDestaddr b packetbuf.toList ≠ .error .truncated ∧
    ∀ s unc, compressInto ctxs uipLladdr linkDestaddr b packetbuf.toList = .ok (s, unc) →
      s.ptr < framedMaxPayload cfg p := by
  have h87 := le_framedMaxPayload cfg p
  have hlen := packetbuf.toList_length
  have hM : packetbuf.toList.length ≤ 257 := by
    rw [hlen, framedMaxPayload, macMaxPayload]
    omega
  rcases compressInto_eq ctxs uipLladdr linkDestaddr b hM with
    ⟨out, -, h⟩ | ⟨c, s, -, h, -, hptr, -, hle⟩
  · rw [h]
    exact ⟨by simp, by simp, fun s unc h' => by cases h'⟩
  · rw [h]
    refine ⟨by simp, by simp, fun s' unc h' => ?_⟩
    cases h'
    omega

end

end Nespy.Sicslowpan
