import Nespy.Lib.Patch
import Nespy.Sicslowpan.Lossless
import Nespy.Sicslowpan.Output

/-!
# Sicslowpan — the fragments of a packet

A `Transmission` is a call of `output` that fragments its packet: the packet, what the compressor
made of its headers, and the checks that were passed.  The FRAGNs start at the offsets `start 0`,
`start 1`, …, each where the one before ends, and the last ends at `uip_len`; the first fragment
reaches to `start 0`.  Every start is a multiple of eight, which is the unit the offset field counts
in.

`mem_frames` says what frames a call may emit, whatever becomes of them at the MAC, and `output_ok`
which ones it emits when each is taken: as many as `fragment_count` said before the first was sent.
-/

open List

namespace Nespy.Sicslowpan

open Nespy.Lib

/-! ### Frame sizes -/

/-- A frame carries 104 bytes to one receiver, and 110 when it is broadcast. -/
theorem Node.maxPayload_eq (node : Node) (dest : Linkaddr) :
    node.maxPayload dest = 104 ∨ node.maxPayload dest = 110 := by
  unfold Node.maxPayload
  by_cases hpan : node.panId = 0xffff
  · rw [Nespy.Mac.hdrLength, if_pos hpan]
    exact .inl rfl
  · rw [Nespy.Mac.hdrLength_eq hpan]
    split_ifs
    · exact .inr rfl
    · exact .inl rfl

/-- The packet in `uip_buf`. -/
def UipBuf.packet (b : UipBuf) (uipLen : UInt16) : UipBuf := ⟨b.ip, b.pay.take (uipLen.toNat - 40)⟩

theorem UipBuf.bytes_length (b : UipBuf) : b.bytes.length = 40 + b.pay.length := by
  rw [UipBuf.bytes, length_append, IpHdr.bytes_length]

theorem UipBuf.drop_bytes (b : UipBuf) {x : ℕ} (h : 40 ≤ x) :
    b.bytes.drop x = b.pay.drop (x - 40) := by
  rw [UipBuf.bytes, drop_append, drop_of_length_le (by rw [IpHdr.bytes_length]; exact h),
    IpHdr.bytes_length, nil_append]

/-- A call of `output` that fragments the packet in `buf`, of `uipLen` bytes. -/
structure Transmission (ctxs : List AddrContext) where
  node : Node
  dest : Linkaddr
  buf : UipBuf
  uipLen : UInt16
  c : Compressed
  shared : node.ctxs = ctxs
  size : buf.bytes.length = uipBufsize
  long : 40 ≤ uipLen.toNat
  short : uipLen.toNat ≤ uipBufsize
  isPacket : (buf.packet uipLen).IsPacket
  compressed : compressHdrIphc ctxs node.uipLladdr dest (node.maxPayload dest) buf = .ok c
  needed : fragNeeded (node.maxPayload dest) uipLen.toNat c = true
  queued : (fragPlan (node.maxPayload dest) uipLen.toNat c.uncompHdrLen.toNat
    c.out.length).fragmentCount ≤ (node.numfree : ℤ) - 1
  room : 0 ≤ (fragPlan (node.maxPayload dest) uipLen.toNat c.uncompHdrLen.toNat
    c.out.length).frag1Payload

namespace Transmission

variable {ctxs : List AddrContext} (t : Transmission ctxs)

/-- The room in a frame. -/
def maxPayload : ℕ := t.node.maxPayload t.dest

/-- The length of the headers that are compressed. -/
def uncompHdrLen : ℕ := t.c.uncompHdrLen.toNat

/-- How the packet is cut. -/
def plan : FragPlan := fragPlan t.maxPayload t.uipLen.toNat t.uncompHdrLen t.c.out.length

/-- The packet that is sent. -/
def bytes : List UInt8 := t.buf.bytes.take t.uipLen.toNat

/-- The frames given to the MAC. -/
def frames : List Frame := (output t.node t.dest t.buf t.uipLen).frames

theorem maxPayload_cases : t.maxPayload = 104 ∨ t.maxPayload = 110 := t.node.maxPayload_eq t.dest

theorem maxPayload_le : t.maxPayload ≤ 110 := by
  rcases t.maxPayload_cases with h | h <;> omega

/-! ### The headers -/

theorem pay_length : t.buf.pay.length = 1240 := by
  have := t.size
  rw [UipBuf.bytes_length, uipBufsize] at this
  omega

theorem uipLen_le : t.uipLen.toNat ≤ 1280 := t.short

/-- The compressor sees the packet only, not what is left behind it. -/
theorem compressed_packet : compressHdrIphc ctxs t.node.uipLladdr t.dest t.maxPayload
    (t.buf.packet t.uipLen) = .ok t.c := by
  have h := t.compressed
  rw [show t.buf = ⟨t.buf.ip, t.buf.pay.take (t.uipLen.toNat - 40) ++
    t.buf.pay.drop (t.uipLen.toNat - 40)⟩ by rw [take_append_drop]] at h
  exact (compressHdrIphc_append t.isPacket.chain _ _ _ _ _).symm.trans h

/-- What the sizes of the headers can be. -/
theorem header_sizes : 8 ∣ t.uncompHdrLen ∧ 40 ≤ t.uncompHdrLen ∧ t.uncompHdrLen ≤ t.uipLen.toNat ∧
    t.c.out.length ≤ t.maxPayload ∧ t.uncompHdrLen ≤ t.c.out.length + 42 := by
  have hM : t.maxPayload ≤ macMaxPayload := t.maxPayload_le.trans (by decide)
  obtain ⟨code, n, hnext, hout, -, hunc, hle, -⟩ := compressHdrIphc_ok hM t.compressed_packet
  have hdvd := hnext.dvd
  have hpay := hnext.le_length t.isPacket.chain
  have hcode := hnext.le_code
  have h2 := two_le_hdrCode ctxs t.node.uipLladdr t.dest t.buf.ip
  have hlong := t.long
  simp only [UipBuf.packet, length_take] at hpay
  rw [hout, length_append] at *
  unfold uncompHdrLen
  rw [hunc]
  refine ⟨by omega, by omega, by omega, hle, ?_⟩
  change 40 + n ≤ (hdrCode ctxs t.node.uipLladdr t.dest t.buf.ip).length + code.length + 42
  omega

/-! ### Where the fragments start -/

/-- The bytes of the first fragment once its header is uncompressed. -/
def firstLen : ℕ := t.uncompHdrLen + t.plan.frag1Payload.toNat

/-- The payload of the FRAGN that starts at `x`. -/
def payloadLen (x : ℕ) : ℕ := fragnPayloadLen t.plan t.uipLen.toNat x

/-- The start of FRAGN number `m`. -/
def start (m : ℕ) : ℕ := (fun x => x + t.payloadLen x)^[m] t.firstLen

theorem start_succ (m : ℕ) : t.start (m + 1) = t.start m + t.payloadLen (t.start m) :=
  Function.iterate_succ_apply' _ _ _

theorem frag1Payload_eq : t.plan.frag1Payload = (t.maxPayload - t.c.out.length - 4) / 8 * 8 ∧
    4 + t.c.out.length ≤ t.maxPayload := by
  have h : 0 ≤ and8 (t.maxPayload - t.c.out.length - frag1HdrLen) := t.room
  refine ⟨rfl, ?_⟩
  unfold and8 frag1HdrLen at h
  omega

theorem firstLen_eq :
    t.firstLen = t.uncompHdrLen + (t.maxPayload - t.c.out.length - 4) / 8 * 8 := by
  obtain ⟨hf, hle⟩ := t.frag1Payload_eq
  rw [firstLen]
  omega

/-- The first fragment is not the whole packet, and fits the buffer the receiver has for it. -/
theorem firstLen_bounds : 8 ∣ t.firstLen ∧ 40 ≤ t.firstLen ∧ t.firstLen < t.uipLen.toNat ∧
    t.firstLen ≤ 148 := by
  obtain ⟨hd, h40, hle, hout, hgrow⟩ := t.header_sizes
  have hneeded : (t.uipLen.toNat : ℤ) - t.uncompHdrLen + t.c.out.length > t.maxPayload :=
    of_decide_eq_true t.needed
  have hfirst := t.firstLen_eq
  have hfits := t.frag1Payload_eq.2
  rcases t.maxPayload_cases with h | h <;> rw [h] at hneeded hfirst hfits hout <;> omega

theorem payloadLen_eq (x : ℕ) : t.payloadLen x =
    if t.maxPayload - 5 + x < t.uipLen.toNat then (t.maxPayload - 5) / 8 * 8
    else t.uipLen.toNat - x := by
  have hlast : t.plan.lastFragnMaxPayload = (t.maxPayload : ℤ) - 5 := rfl
  have hmax : t.plan.fragnMaxPayload = ((t.maxPayload : ℤ) - 5) / 8 * 8 := rfl
  rw [payloadLen, fragnPayloadLen]
  rcases t.maxPayload_cases with h | h <;> rw [h] <;> split_ifs <;> omega

variable {m n x : ℕ}

/-- A FRAGN has a payload, fits a frame, and stays in the packet. -/
theorem payloadLen_bounds (h : x < t.uipLen.toNat) :
    0 < t.payloadLen x ∧ t.payloadLen x ≤ t.maxPayload - 5 ∧
      x + t.payloadLen x ≤ t.uipLen.toNat := by
  rw [t.payloadLen_eq]
  rcases t.maxPayload_cases with hM | hM <;> rw [hM] <;> split_ifs <;> omega

theorem start_mono : Monotone t.start :=
  monotone_nat_of_le_succ fun m => by rw [t.start_succ]; exact Nat.le_add_right _ _

theorem firstLen_le_start (m : ℕ) : t.firstLen ≤ t.start m := t.start_mono (Nat.zero_le m)

/-- Every FRAGN starts at a multiple of eight. -/
theorem dvd_start (h : t.start m < t.uipLen.toNat) : 8 ∣ t.start m := by
  induction m with
  | zero => exact t.firstLen_bounds.1
  | succ m ih =>
    rw [t.start_succ, t.payloadLen_eq] at h ⊢
    split_ifs at h ⊢ <;> omega

/-- Two FRAGNs that start apart do not overlap. -/
theorem start_add_le (h : t.start m < t.start n) :
    t.start m + t.payloadLen (t.start m) ≤ t.start n := by
  have hmn : m < n := by
    by_contra hle
    exact absurd h (Nat.not_lt.mpr (t.start_mono (Nat.not_lt.mp hle)))
  rw [← t.start_succ]
  exact t.start_mono hmn

/-! ### How many there are -/

/-- The number of FRAGNs, by `fragment_count`. -/
def fragnCount : ℕ := t.plan.fragmentCount.toNat - 1

/-- `fragment_count` in terms of the payload `r` behind the first fragment. -/
theorem fragmentCount_eq : t.plan.fragmentCount =
    if t.maxPayload - 5 < t.uipLen.toNat - t.firstLen then
      2 + (1 + ((t.uipLen.toNat : ℤ) - t.firstLen - (t.maxPayload - 5) - 1) /
        (((t.maxPayload : ℤ) - 5) / 8 * 8))
    else 2 := by
  obtain ⟨hf1, hle⟩ := t.frag1Payload_eq
  have hfirst : (t.firstLen : ℤ) = t.uncompHdrLen + t.plan.frag1Payload := by
    rw [firstLen, Nat.cast_add, Int.toNat_of_nonneg (by rw [hf1]; omega)]
  have hmid : t.plan.middleFragnTotalPayload =
      max ((t.uipLen.toNat : ℤ) - t.firstLen - (t.maxPayload - 5)) 0 := by
    change max ((t.uipLen.toNat : ℤ) - t.uncompHdrLen - t.plan.frag1Payload -
      (t.maxPayload - 5)) 0 = _
    congr 1
    omega
  have hcount : t.plan.fragmentCount = if 0 < t.plan.middleFragnTotalPayload then
      2 + (1 + (t.plan.middleFragnTotalPayload - 1) / (((t.maxPayload : ℤ) - 5) / 8 * 8))
    else 2 := rfl
  rw [hcount]
  rcases t.maxPayload_cases with h | h <;> rw [h] <;> split_ifs <;> omega

/-- All FRAGNs but the last carry the most they can. -/
theorem start_eq (h : m ≤ t.fragnCount - 1) :
    t.start m = t.firstLen + m * ((t.maxPayload - 5) / 8 * 8) := by
  induction m with
  | zero => rw [Nat.zero_mul]; rfl
  | succ m ih =>
    have hcount := t.fragmentCount_eq
    rw [t.start_succ, ih (by omega), t.payloadLen_eq]
    unfold fragnCount at h
    rcases t.maxPayload_cases with hM | hM <;> rw [hM] at hcount ⊢ <;>
      split_ifs at hcount ⊢ <;> omega

theorem fragnCount_pos : 0 < t.fragnCount := by
  have hcount := t.fragmentCount_eq
  unfold fragnCount
  rcases t.maxPayload_cases with hM | hM <;> rw [hM] at hcount <;> split_ifs at hcount <;> omega

theorem start_last_lt : t.start (t.fragnCount - 1) < t.uipLen.toNat ∧
    t.uipLen.toNat ≤ t.maxPayload - 5 + t.start (t.fragnCount - 1) := by
  have hcount := t.fragmentCount_eq
  obtain ⟨-, -, hlt, -⟩ := t.firstLen_bounds
  rw [t.start_eq le_rfl]
  unfold fragnCount
  rcases t.maxPayload_cases with hM | hM <;> rw [hM] at hcount ⊢ <;>
    split_ifs at hcount <;> omega

/-- The last FRAGN ends where the packet does. -/
theorem start_fragnCount : t.start t.fragnCount = t.uipLen.toNat := by
  obtain ⟨hlt, hle⟩ := t.start_last_lt
  obtain ⟨n, hn⟩ := Nat.exists_eq_succ_of_ne_zero t.fragnCount_pos.ne'
  rw [hn, Nat.succ_sub_one] at hlt hle
  rw [hn, t.start_succ, t.payloadLen_eq, if_neg (by omega)]
  omega

theorem start_lt (h : m < t.fragnCount) : t.start m < t.uipLen.toNat :=
  (t.start_mono (Nat.le_sub_one_of_lt h)).trans_lt t.start_last_lt.1

/-- The queuebufs bound the number of fragments. -/
theorem fragnCount_le : t.fragnCount ≤ 6 := by
  have hq : t.plan.fragmentCount ≤ (t.node.numfree : ℤ) - 1 := t.queued
  have hn := t.node.numfree.isLt
  unfold queuebufNum at hn
  unfold fragnCount
  omega

/-! ### The frames -/

/-- The frame that carries `data`. -/
def frame (data : List UInt8) : Frame := ⟨t.node.uipLladdr, t.dest, data⟩

/-- The first fragment. -/
def frag1 : List UInt8 := Sicslowpan.frag1 t.plan t.buf t.uipLen t.node.myTag t.c

/-- FRAGN number `m`. -/
def fragn (m : ℕ) : List UInt8 := Sicslowpan.fragn t.plan t.buf t.uipLen t.node.myTag (t.start m)

theorem output_eq : output t.node t.dest t.buf t.uipLen =
    ⟨(outputFragments t.plan t.buf t.uipLen t.node.myTag t.node.sent t.c).1, t.node.myTag + 1,
      (outputFragments t.plan t.buf t.uipLen t.node.myTag t.node.sent t.c).2.map t.frame⟩ := by
  have hq := t.queued
  have hr := t.room
  unfold output
  dsimp only
  rw [t.shared, t.compressed]
  dsimp only
  rw [if_pos t.needed, if_neg (by omega), if_neg (by omega)]
  rfl

/-- The loop emits FRAGNs from the one it starts with on. -/
theorem mem_fragnLoop {sent : ℕ → Sent} {d : List UInt8} : ∀ {fuel currFrag m : ℕ},
      d ∈ (fragnLoop t.plan t.buf t.uipLen t.node.myTag sent fuel currFrag (t.start m)).2 →
      ∃ m', t.start m' < t.uipLen.toNat ∧ d = t.fragn m' := by
  intro fuel
  induction fuel with
  | zero => intro currFrag m h; cases h
  | succ fuel ih =>
    intro currFrag m h
    unfold fragnLoop at h
    split_ifs at h with hlt
    · cases hs : sent currFrag with
      | noQueuebuf => rw [hs] at h; cases h
      | txError =>
        rw [hs] at h
        exact ⟨m, hlt, mem_singleton.mp h⟩
      | ok =>
        rw [hs] at h
        rcases mem_cons.mp h with rfl | h
        · exact ⟨m, hlt, rfl⟩
        · exact ih (by rw [t.start_succ]; exact h)
    · cases h

/-- **What a call may emit**, whatever the MAC makes of it. -/
theorem mem_frames {f : Frame} (h : f ∈ t.frames) :
    f = t.frame t.frag1 ∨ ∃ m, t.start m < t.uipLen.toNat ∧ f = t.frame (t.fragn m) := by
  unfold frames at h
  rw [t.output_eq] at h
  obtain ⟨d, hd, rfl⟩ := mem_map.mp h
  unfold outputFragments at hd
  cases hs : t.node.sent 0 with
  | noQueuebuf => rw [hs] at hd; cases hd
  | txError =>
    rw [hs] at hd
    rw [mem_singleton.mp hd]
    exact .inl rfl
  | ok =>
    rw [hs] at hd
    rcases mem_cons.mp hd with rfl | hd
    · exact .inl rfl
    · obtain ⟨m, hlt, rfl⟩ := t.mem_fragnLoop (m := 0) hd
      exact .inr ⟨m, hlt, rfl⟩

/-- When the MAC takes every fragment the loop emits all FRAGNs that are left, and its turns
suffice. -/
theorem fragnLoop_ok : ∀ (fuel currFrag : ℕ) {m : ℕ}, m ≤ t.fragnCount → t.fragnCount - m < fuel →
    fragnLoop t.plan t.buf t.uipLen t.node.myTag (fun _ => .ok) fuel currFrag (t.start m) =
      (true, (range' m (t.fragnCount - m)).map t.fragn) := by
  intro fuel
  induction fuel with
  | zero => intro currFrag m _ h; omega
  | succ fuel ih =>
    intro currFrag m hm hfuel
    unfold fragnLoop
    rcases hm.lt_or_eq with hlt | rfl
    · have hcount : t.fragnCount - m = t.fragnCount - (m + 1) + 1 := by omega
      have hrest := ih (currFrag + 1) hlt (by omega)
      rw [t.start_succ] at hrest
      rw [if_pos (t.start_lt hlt), hcount]
      rw [show fragnPayloadLen t.plan t.uipLen.toNat (t.start m) =
        t.payloadLen (t.start m) from rfl, hrest]
      rfl
    · rw [t.start_fragnCount, if_neg (lt_irrefl _), Nat.sub_self]
      rfl

/-- **What a call emits** when the MAC takes every fragment. -/
theorem output_ok (hsent : t.node.sent = fun _ => .ok) :
    (output t.node t.dest t.buf t.uipLen).ok = true ∧
      t.frames = t.frame t.frag1 :: (range t.fragnCount).map (t.frame ∘ t.fragn) := by
  have hloop := t.fragnLoop_ok (t.uipLen.toNat + 1) 1 (Nat.zero_le t.fragnCount) (by
    have := t.fragnCount_le
    have := t.long
    omega)
  have hout : outputFragments t.plan t.buf t.uipLen t.node.myTag t.node.sent t.c =
      (true, t.frag1 :: (range t.fragnCount).map t.fragn) := by
    unfold outputFragments
    rw [hsent]
    rw [show t.c.uncompHdrLen.toNat + t.plan.frag1Payload.toNat = t.start 0 from rfl,
      hloop, ← range_eq_range']
    rfl
  unfold frames
  rw [t.output_eq, hout]
  refine ⟨rfl, ?_⟩
  rw [map_cons, map_map]

/-! ### The packet at the other end -/

/-- The packet as the receiver's headers have it. -/
def received : List UInt8 :=
  UipBuf.bytes ⟨t.buf.ip.received ctxs, t.buf.pay.take (t.uipLen.toNat - 40)⟩

theorem bytes_eq : t.bytes = t.buf.ip.bytes ++ t.buf.pay.take (t.uipLen.toNat - 40) := by
  have h := t.long
  rw [bytes, ← UipBuf.take_bytes, Nat.add_sub_cancel' h]

theorem received_length : t.received.length = t.uipLen.toNat := by
  have h1 := t.long
  have h2 := t.uipLen_le
  have h3 := t.pay_length
  rw [received, UipBuf.bytes_length]
  rw [length_take]
  omega

/-- Behind the header the receiver's packet is the sender's. -/
theorem slice_eq (h : 40 ≤ x) (hn : x + n ≤ t.uipLen.toNat) :
    t.buf.slice x n = (t.received.drop x).take n := by
  rw [UipBuf.slice, received, UipBuf.drop_bytes _ h, UipBuf.drop_bytes _ h, drop_take,
    take_take, Nat.min_eq_left (by omega)]

theorem slice_length (hn : x + n ≤ t.uipLen.toNat) : (t.buf.slice x n).length = n := by
  have h1 := t.short
  rw [UipBuf.slice, length_take, length_drop, t.size]
  omega

/-- FRAGN number `m`, as a part of the packet. -/
def piece (m : ℕ) : ℕ × List UInt8 :=
  (t.start m, t.buf.slice (t.start m) (t.payloadLen (t.start m)))

section Piece

variable {m n : ℕ}

theorem piece_length (h : t.start m < t.uipLen.toNat) :
    (t.piece m).2.length = t.payloadLen (t.start m) :=
  t.slice_length (t.payloadLen_bounds h).2.2

theorem isPart_piece (h : t.start m < t.uipLen.toNat) : IsPart t.received (t.piece m) := by
  have hb := (t.payloadLen_bounds h).2.2
  have h40 := t.firstLen_bounds.2.1.trans (t.firstLen_le_start m)
  refine ⟨?_, ?_⟩
  · rw [t.piece_length h, t.received_length]
    exact hb
  · rw [t.piece_length h]
    exact t.slice_eq h40 hb

theorem apart_piece (hm : t.start m < t.uipLen.toNat) (hn : t.start n < t.uipLen.toNat)
    (h : t.start m ≠ t.start n) : Apart (t.piece m) (t.piece n) := by
  unfold Apart
  rw [t.piece_length hm, t.piece_length hn]
  rcases Nat.lt_or_gt_of_ne h with hlt | hlt
  · exact .inl (t.start_add_le hlt)
  · exact .inr (t.start_add_le hlt)

end Piece

end Transmission

end Nespy.Sicslowpan
