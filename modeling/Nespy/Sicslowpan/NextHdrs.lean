import Mathlib.Data.List.GetD
import Nespy.Lib.Bits
import Nespy.Sicslowpan.Uncompress

/-!
# Sicslowpan — extension headers and UDP, back and forth

What follows the IPv6 header is coded header by header.  `NextHdrs proto pay code n` says that the
headers at the front of `pay`, the first of protocol `proto`, take `n` bytes and are coded as
`code`: one constructor for each way `compress_hdr_iphc` leaves its loop, and one for going round
again. `compressNextHdrs_ok` is the compressor's half: whatever it accepts, it codes by this
relation. `uncompressExts_nextHdrs` is the receiver's: its loop and its UDP part, run over `code`,
put the `n` bytes back.  The receiver learns the protocol of a header only when it meets the NHC
byte of that header, so on the way the byte `last_nextheader` points to is stale; `UncSt.Holds`
states what the buffer holds up to that one byte.
-/

open List

namespace Nespy.Sicslowpan

open Nespy.Lib

/-! ### Ports -/

section

variable (a b : UInt8) (x : UInt16) (s0 s1 d0 d1 : UInt8)

theorem get16_toNat : (get16 a b).toNat = a.toNat * 256 + b.toNat :=
  toNat_word a b

theorem set16_get16 : set16 (get16 a b) = [a, b] := by
  have ha := a.toNat_lt
  have hb := b.toNat_lt
  have h1 : (get16 a b >>> 8).toUInt8 = a := by
    apply UInt8.toNat_inj.mp
    simp only [UInt16.toNat_toUInt8, UInt16.toNat_shiftRight, get16_toNat]
    have h8 : (8 : UInt16).toNat % 16 = 8 := rfl
    rw [h8]
    omega
  have h2 : (get16 a b).toUInt8 = b := by
    apply UInt8.toNat_inj.mp
    simp only [UInt16.toNat_toUInt8, get16_toNat]
    omega
  rw [set16, h1, h2]

theorem toNat_and_fff0 : (x &&& 0xfff0).toNat = x.toNat / 16 * 16 := by
  rw [UInt16.and_comm]
  exact toNat_high_and x.toBitVec 4

theorem toNat_and_ff00 : (x &&& 0xff00).toNat = x.toNat / 256 * 256 := by
  rw [UInt16.and_comm]
  exact toNat_high_and x.toBitVec 8

/-- A port of the eight-bit range, from its low byte. -/
theorem port8 {v : UInt16} (h : v &&& 0xff00 = udp8BitPortMin) :
    udp8BitPortMin + (v - udp8BitPortMin).toUInt8.toUInt16 = v := by
  have hn : v.toNat / 256 * 256 = 0xf000 := by rw [← toNat_and_ff00, h]; rfl
  have hmin : udp8BitPortMin.toNat = 0xf000 := rfl
  apply UInt16.toNat_inj.mp
  simp only [UInt16.toNat_add, UInt8.toNat_toUInt16, UInt16.toNat_toUInt8, UInt16.toNat_sub]
  omega

/-- Two ports of the four-bit range, from the byte both are packed in. -/
theorem port4 {v w : UInt16} (hv : v &&& 0xfff0 = udp4BitPortMin)
    (hw : w &&& 0xfff0 = udp4BitPortMin) :
    let sd := ((v - udp4BitPortMin) <<< 4).toUInt8 + (w - udp4BitPortMin).toUInt8
    udp4BitPortMin + (sd >>> 4).toUInt16 = v ∧ udp4BitPortMin + (sd &&& 0x0F).toUInt16 = w := by
  intro sd
  have hvn : v.toNat / 16 * 16 = 0xf0b0 := by rw [← toNat_and_fff0, hv]; rfl
  have hwn : w.toNat / 16 * 16 = 0xf0b0 := by rw [← toNat_and_fff0, hw]; rfl
  have hmin : udp4BitPortMin.toNat = 0xf0b0 := rfl
  have hsd : sd.toNat = (v.toNat - 0xf0b0) * 16 + (w.toNat - 0xf0b0) := by
    simp only [sd, UInt8.toNat_add, UInt16.toNat_toUInt8, UInt16.toNat_shiftLeft,
      UInt16.toNat_sub, show (4 : UInt16).toNat % 16 = 4 from rfl]
    omega
  constructor <;> apply UInt16.toNat_inj.mp
  · rw [UInt16.toNat_add, UInt8.toNat_toUInt16, UInt8.toNat_shiftRight,
      show (4 : UInt8).toNat % 8 = 4 from rfl]
    omega
  · rw [UInt16.toNat_add, UInt8.toNat_toUInt16, UInt8.toNat_and,
      show (0x0f : UInt8).toNat = 2 ^ 4 - 1 from rfl, Nat.and_two_pow_sub_one_eq_mod]
    omega

/-- The ports read back. -/
theorem uncompressPorts_compressPorts (p : List UInt8) :
    uncompressPorts (compressPorts s0 s1 d0 d1).1 ((compressPorts s0 s1 d0 d1).2 ++ p) =
      some ([s0, s1, d0, d1], p) := by
  unfold compressPorts uncompressPorts
  by_cases h4 : get16 s0 s1 &&& 0xfff0 = udp4BitPortMin ∧ get16 d0 d1 &&& 0xfff0 = udp4BitPortMin
  · obtain ⟨hs, hd⟩ := port4 h4.1 h4.2
    simp only [if_pos h4, cons_append, hs, hd, set16_get16]
    rfl
  by_cases hd : get16 d0 d1 &&& 0xff00 = udp8BitPortMin
  · simp only [if_neg h4, if_pos hd, cons_append, port8 hd, set16_get16]
    rfl
  by_cases hs : get16 s0 s1 &&& 0xff00 = udp8BitPortMin
  · simp only [if_neg h4, if_neg hd, if_pos hs, cons_append, port8 hs,
      set16_get16]
    rfl
  · simp only [if_neg h4, if_neg hd, if_neg hs]
    rfl

/-- The NHC byte announces LOWPAN_UDP with its checksum inline, and no extension header. -/
theorem compressPorts_nhc :
    (compressPorts s0 s1 d0 d1).1 &&& 0xF8 = nhcUdpCsP00 ∧
      (compressPorts s0 s1 d0 d1).1 &&& 0x04 = 0 ∧
      (compressPorts s0 s1 d0 d1).1 &&& 0xF0 ≠ nhcExtHdr := by
  have h : (compressPorts s0 s1 d0 d1).1 = nhcUdpCsP11 ∨
      (compressPorts s0 s1 d0 d1).1 = nhcUdpCsP01 ∨
      (compressPorts s0 s1 d0 d1).1 = nhcUdpCsP10 ∨
      (compressPorts s0 s1 d0 d1).1 = nhcUdpCsP00 := by
    unfold compressPorts
    dsimp only
    split_ifs <;> simp
  rcases h with h | h | h | h <;> rw [h] <;> decide

end

/-! ### The coding of a chain of headers -/

/-- The length of the extension header at the front of `pay`. -/
def extLen (pay : List UInt8) : ℕ := (pay.getD 1 0).toNat * 8 + 8

theorem le_extLen (pay : List UInt8) : 8 ≤ extLen pay := Nat.le_add_left _ _

/-- The extension header, its length field counting the bytes that follow it. -/
def extHdr (pay : List UInt8) : List UInt8 :=
  (pay.takeD (extLen pay) 0).set 1 (UInt8.ofNat (extLen pay - 2))

/-- The LOWPAN_UDP header of the UDP header at the front of `pay`. -/
def udpCode (pay : List UInt8) : List UInt8 :=
  let c := compressPorts (pay.getD 0 0) (pay.getD 1 0) (pay.getD 2 0) (pay.getD 3 0)
  c.1 :: (c.2 ++ [pay.getD 6 0, pay.getD 7 0])

/-- The headers at the front of `pay` take `n` bytes and are coded as `code`. -/
inductive NextHdrs : UInt8 → List UInt8 → List UInt8 → ℕ → Prop where
  | done {proto : UInt8} {pay : List UInt8} :
      isCompressableProto proto = false → NextHdrs proto pay [] 0
  | udp {pay : List UInt8} : NextHdrs uipProtoUdp pay (udpCode pay) 8
  | last {proto eid : UInt8} {pay : List UInt8} :
      nhcEtxHdr proto = some eid → isCompressableProto (pay.getD 0 0) = false →
      extLen pay < 256 → NextHdrs proto pay ((nhcExtHdr ||| (eid <<< 1)) :: extHdr pay) (extLen pay)
  | more {proto eid : UInt8} {pay code : List UInt8} {n : ℕ} :
      nhcEtxHdr proto = some eid → isCompressableProto (pay.getD 0 0) = true →
      extLen pay < 256 → NextHdrs (pay.getD 0 0) (pay.drop (extLen pay)) code n →
      NextHdrs proto pay ((extHdr pay).set 0 (nhcExtHdr ||| nhcBit ||| (eid <<< 1)) ++ code)
        (extLen pay + n)

variable {c : Compressed} {ip : IpHdr} {D code data out pay stale : List UInt8}
  {e eid proto : UInt8} {s : UncSt} {M n : ℕ}

theorem checkBufferSpace_ok {w : ℕ} {k : Except (List UInt8) Compressed}
    (h : checkBufferSpace M w out k = .ok c) : out.length + w < M ∧ k = .ok c := by
  unfold checkBufferSpace at h
  split_ifs at h
  exact ⟨by omega, h⟩

@[simp] theorem extHdr_length (pay : List UInt8) : (extHdr pay).length = extLen pay := by
  simp [extHdr]

theorem compressUdp_ok {unc : UInt8} (h : compressUdp M pay out unc = .ok c) :
    c = ⟨out ++ udpCode pay, unc + 8⟩ ∧ out.length + (udpCode pay).length < M := by
  unfold compressUdp at h
  unfold udpCode
  generalize compressPorts (pay.getD 0 0) (pay.getD 1 0) (pay.getD 2 0) (pay.getD 3 0) = k at h ⊢
  obtain ⟨-, h⟩ := checkBufferSpace_ok h
  obtain ⟨hM, h⟩ := checkBufferSpace_ok h
  cases h
  constructor
  · simp
  · simp only [length_append, length_cons] at hM ⊢
    omega

theorem isCompressableProto_eq_false :
    isCompressableProto proto = false ↔ proto ≠ uipProtoUdp ∧ nhcEtxHdr proto = none := by
  simp [isCompressableProto]

section Turn

variable {M fuel : ℕ} {proto eid : UInt8} {pay out : List UInt8} {unc : UInt8}
  (he : nhcEtxHdr proto = some eid)

include he

theorem compressNextHdrs_more (hn : isCompressableProto (pay.getD 0 0) = true) :
    compressNextHdrs M (fuel + 1) proto pay out unc = checkBufferSpace M (extLen pay) out
      (compressNextHdrs M fuel (pay.getD 0 0) (pay.drop (extLen pay))
        (out ++ (extHdr pay).set 0 (nhcExtHdr ||| nhcBit ||| (eid <<< 1)))
        (unc + UInt8.ofNat (extLen pay))) := by
  rw [compressNextHdrs, he]
  exact if_pos hn

theorem compressNextHdrs_last (hn : ¬isCompressableProto (pay.getD 0 0) = true) :
    compressNextHdrs M (fuel + 1) proto pay out unc = checkBufferSpace M 1 out
      (checkBufferSpace M (extLen pay) (out ++ [nhcExtHdr ||| (eid <<< 1)])
        (.ok ⟨out ++ [nhcExtHdr ||| (eid <<< 1)] ++ extHdr pay,
          unc + UInt8.ofNat (extLen pay)⟩)) := by
  rw [compressNextHdrs, he]
  exact if_neg hn

end Turn

/-- **The compressor codes by `NextHdrs`**, inside the frame it was given. -/
theorem compressNextHdrs_ok (hM : M ≤ 255) :
    ∀ {fuel : ℕ} {proto : UInt8} {pay out : List UInt8} {unc : UInt8},
      compressNextHdrs M fuel proto pay out unc = .ok c →
      ∃ code n, NextHdrs proto pay code n ∧ c = ⟨out ++ code, unc + UInt8.ofNat n⟩ ∧
        out.length + code.length ≤ max out.length M ∧ out.length + n ≤ max out.length M + 8 := by
  intro fuel
  induction fuel with
  | zero => intro _ _ _ _ h; cases h
  | succ fuel ih =>
    intro proto pay out unc h
    cases he : nhcEtxHdr proto with
    | none =>
      rw [compressNextHdrs, he] at h
      by_cases hu : proto = uipProtoUdp
      · subst hu
        obtain ⟨rfl, hlen⟩ := compressUdp_ok (by simpa using h)
        exact ⟨udpCode pay, 8, .udp, rfl, by omega, by omega⟩
      · rw [if_neg hu] at h
        cases h
        exact ⟨[], 0, .done (isCompressableProto_eq_false.mpr ⟨hu, he⟩), by simp, by simp,
          by simp only [Nat.add_zero]; omega⟩
    | some eid =>
      by_cases hn : isCompressableProto (pay.getD 0 0) = true
      · rw [compressNextHdrs_more he hn] at h
        obtain ⟨hlt, h⟩ := checkBufferSpace_ok h
        obtain ⟨code, n, hcode, rfl, hl, hm⟩ := ih h
        simp only [length_append, length_set, extHdr_length] at hl hm
        refine ⟨_, _, .more he hn (by omega) hcode, ?_, ?_, by omega⟩
        · rw [UInt8.ofNat_add, ← UInt8.add_assoc, ← append_assoc]
        · simp only [length_append, length_set, extHdr_length]
          omega
      · rw [compressNextHdrs_last he hn] at h
        obtain ⟨-, h⟩ := checkBufferSpace_ok h
        obtain ⟨hlt, h⟩ := checkBufferSpace_ok h
        simp only [length_append] at hlt
        cases h
        refine ⟨_, _, .last he (by simpa using hn) (by omega), ?_, ?_, by omega⟩
        · rw [append_assoc]; rfl
        · simp only [length_cons, extHdr_length]; omega

/-- Every turn on an extension header stores at least eight bytes, so beyond what is left of the
frame more fuel changes nothing. -/
theorem compressNextHdrs_fuel :
    ∀ {fuel : ℕ} {proto : UInt8} {pay out : List UInt8} {unc : UInt8}, M - out.length < fuel →
      ∀ k, compressNextHdrs M (fuel + k) proto pay out unc =
        compressNextHdrs M fuel proto pay out unc := by
  intro fuel
  induction fuel with
  | zero => intro _ _ _ _ h; omega
  | succ fuel ih =>
    intro proto pay out unc h k
    rw [Nat.add_right_comm]
    cases he : nhcEtxHdr proto with
    | none => rw [compressNextHdrs, compressNextHdrs, he]
    | some eid =>
      by_cases hn : isCompressableProto (pay.getD 0 0) = true
      · rw [compressNextHdrs_more he hn, compressNextHdrs_more he hn]
        unfold checkBufferSpace
        split
        · rfl
        · refine ih ?_ k
          simp only [length_append, length_set, extHdr_length]
          unfold extLen at *
          omega
      · rw [compressNextHdrs_last he hn, compressNextHdrs_last he hn]

/-! ### The receiver -/

/-- The headers of `pay` fit it: each extension header is inside, and a UDP header has the length
the packet gives it. -/
inductive ChainOk : UInt8 → List UInt8 → Prop where
  | other {proto : UInt8} {pay : List UInt8} :
      isCompressableProto proto = false → ChainOk proto pay
  | udp {pay : List UInt8} : 8 ≤ pay.length →
      get16 (pay.getD 4 0) (pay.getD 5 0) = UInt16.ofNat pay.length → ChainOk uipProtoUdp pay
  | ext {proto : UInt8} {pay : List UInt8} : (nhcEtxHdr proto).isSome →
      extLen pay ≤ pay.length → ChainOk (pay.getD 0 0) (pay.drop (extLen pay)) → ChainOk proto pay

/-- Once the byte `last_nextheader` points to is set to `proto`, the buffer holds the header `ip`,
the bytes `D` and, behind them, `stale`; the receiver has counted the bytes of `D`. -/
structure UncSt.Holds (s : UncSt) (proto : UInt8) (ip : IpHdr) (D stale : List UInt8) : Prop where
  buf : s.setLast proto = ⟨ip, D ++ stale⟩
  ipPayload : s.ipPayload = D.length
  extHdrLen : s.extHdrLen = UInt8.ofNat D.length
  uncompHdrLen : s.uncompHdrLen = 40 + UInt8.ofNat D.length

/-- The state behind the extension header `hdr`. -/
@[simp] def UncSt.after (ip : IpHdr) (D hdr stale : List UInt8) (nhc : Bool) : UncSt :=
  ⟨⟨ip, D ++ (hdr ++ stale.drop hdr.length)⟩, some D.length, D.length + hdr.length,
    UInt8.ofNat (D.length + hdr.length), 40 + UInt8.ofNat (D.length + hdr.length), nhc⟩

/-- Behind an extension header whose next header is elided, its first byte is the stale one. -/
theorem UncSt.after_holds {next : UInt8} :
    (UncSt.after ip D (0 :: e :: data) stale true).Holds next ip (D ++ next :: e :: data)
      (stale.drop (data.length + 2)) := by
  constructor
  · simp [UncSt.setLast]
  · simp
  · simp
  · simp

theorem elen_eq {k : ℕ} (h : k + 2 = e.toNat * 8 + 8) : UInt8.ofNat ((2 + k) / 8) - 1 = e := by
  have hdiv : (2 + k) / 8 = e.toNat + 1 := by omega
  rw [hdiv, UInt8.ofNat_add, UInt8.ofNat_toNat]
  exact UInt8.add_sub_cancel e 1

/-- One turn of the receiver's loop. -/
theorem uncompressExt_holds (hs : s.Holds proto ip D stale) {b : UInt8}
    (hb : nhcProto ((b &&& 0x0e) >>> 1) = some proto)
    (hk : data.length + 2 = e.toNat * 8 + 8) (h256 : data.length + 2 < 256)
    (hroom : data.length + 2 ≤ stale.length) (p : List UInt8) :
    (b &&& 0x01 ≠ 0 → uncompressExt b s (UInt8.ofNat data.length :: (data ++ p)) =
      some (.inr (.after ip D (0 :: e :: data) stale true, p))) ∧
    (b &&& 0x01 = 0 → ∀ next, uncompressExt b s (next :: UInt8.ofNat data.length :: (data ++ p)) =
      some (.inr (.after ip D (next :: e :: data) stale false, p))) := by
  obtain ⟨buf, last, i, x, u, nhc⟩ := s
  obtain ⟨hbuf, rfl, rfl, rfl⟩ := hs
  have hset : ∀ i x u v, UncSt.setLast ⟨buf, last, i, x, u, v⟩ proto = ⟨ip, D ++ stale⟩ :=
    fun _ _ _ _ => hbuf
  have hlen : (UInt8.ofNat data.length).toNat = data.length := by rw [UInt8.toNat_ofNat']; omega
  have hw : ∀ next, writeAt (D ++ stale) D.length ([next, e] ++ data) =
      some (D ++ ([next, e] ++ data ++ stale.drop ([next, e] ++ data).length)) := fun next =>
    writeAt_room rfl (by simp; omega)
  have hcount : (e.toNat + 1) * 8 = data.length + 1 + 1 := by omega
  constructor
  · intro h1
    have hnh : (b &&& 0x01 != 0) = true := by simpa using h1
    simp only [uncompressExt, if_neg h1, hb, hlen, hset, readN_append rfl p, elen_eq hk, hw,
      Option.bind_eq_bind, Option.bind_some, hcount, UncSt.after, hnh, UInt8.ofNat_add,
      length_cons, UInt8.add_assoc]
    rfl
  · intro h0 next
    have hnh : (b &&& 0x01 != 0) = false := by simpa using h0
    simp only [uncompressExt, if_pos h0, hb, hlen, hset, readN_append rfl p, elen_eq hk, hw,
      Option.bind_eq_bind, Option.bind_some, hcount, UncSt.after, hnh, UInt8.ofNat_add,
      length_cons, UInt8.add_assoc]
    rfl

/-- An extension header, byte by byte: the next header, the length, and the rest. -/
theorem ext_split (h : extLen pay ≤ pay.length) :
    ∃ data, pay.take (extLen pay) = pay.getD 0 0 :: pay.getD 1 0 :: data ∧
      data.length + 2 = extLen pay ∧
      extHdr pay = pay.getD 0 0 :: UInt8.ofNat data.length :: data := by
  match pay, h with
  | [], h | [_], h => simp [extLen] at h
  | a :: b :: rest, h =>
    have he : extLen (a :: b :: rest) = b.toNat * 8 + 6 + 2 := by simp [extLen]
    simp only [length_cons] at h
    have hl : (rest.take (b.toNat * 8 + 6)).length = b.toNat * 8 + 6 := by
      rw [length_take]; omega
    refine ⟨rest.take (b.toNat * 8 + 6), ?_, by rw [hl, he], ?_⟩
    · rw [he]; rfl
    · rw [extHdr, takeD_eq_take _ (by simp only [length_cons]; omega), hl]
      rfl

/-- The UDP header reads back. -/
theorem uncompressUdp_holds {rest : List UInt8}
    {ipLen : UInt16} (hs : s.Holds uipProtoUdp ip D stale) (hnhc : s.nhc = true)
    (h8 : 8 ≤ pay.length) (hroom : 8 ≤ stale.length)
    (hlen : (if ipLen = 0 then UInt16.ofNat (8 + rest.length)
      else ipLen - 40 - s.extHdrLen.toUInt16) = get16 (pay.getD 4 0) (pay.getD 5 0)) :
    ∃ s', uncompressUdp ipLen s (udpCode pay ++ rest) = some (s', rest) ∧
      s'.buf = ⟨ip, D ++ (pay.take 8 ++ stale.drop 8)⟩ ∧
      s'.uncompHdrLen = 40 + UInt8.ofNat (D.length + 8) := by
  obtain ⟨c0, c1, c2⟩ := compressPorts_nhc (pay.getD 0 0) (pay.getD 1 0) (pay.getD 2 0)
    (pay.getD 3 0)
  have hports := uncompressPorts_compressPorts (pay.getD 0 0) (pay.getD 1 0) (pay.getD 2 0)
    (pay.getD 3 0) ([pay.getD 6 0, pay.getD 7 0] ++ rest)
  unfold udpCode
  generalize compressPorts (pay.getD 0 0) (pay.getD 1 0) (pay.getD 2 0) (pay.getD 3 0) = c at *
  have hw : writeAt (D ++ stale) D.length (pay.take 8) =
      some (D ++ (pay.take 8 ++ stale.drop 8)) := by
    have hl : (pay.take 8).length = 8 := by rw [length_take]; omega
    rw [writeAt_room rfl (by omega), hl]
  have htake : [pay.getD 0 0, pay.getD 1 0, pay.getD 2 0, pay.getD 3 0] ++
      set16 (get16 (pay.getD 4 0) (pay.getD 5 0)) ++ [pay.getD 6 0, pay.getD 7 0] = pay.take 8 := by
    rw [set16_get16]
    match pay, h8 with
    | a0 :: a1 :: a2 :: a3 :: a4 :: a5 :: a6 :: a7 :: rest, _ => rfl
  -- ports and checksum stay lists of their own, so that the frame splits where the receiver reads
  have hsl : [pay.getD 6 0, pay.getD 7 0].length = 2 := rfl
  generalize [pay.getD 6 0, pay.getD 7 0] = sum at *
  generalize [pay.getD 0 0, pay.getD 1 0, pay.getD 2 0, pay.getD 3 0] = ports at *
  obtain ⟨buf, last, i, x, u, nhc⟩ := s
  obtain ⟨hbuf, rfl, rfl, rfl⟩ := hs
  obtain rfl : nhc = true := hnhc
  simp only [uncompressUdp, cons_append, append_assoc, if_pos c0, if_pos c1,
    hbuf, hports, readN_append hsl rest, Option.bind_eq_bind, Option.bind_some, hlen]
  rw [← append_assoc ports, htake, hw]
  exact ⟨_, rfl, rfl, by rw [UInt8.ofNat_add, ← UInt8.add_assoc]; rfl⟩

/-- The NHC byte of an extension header: the receiver reads the protocol and the next-header bit. -/
theorem nhcProto_of_nhcEtxHdr (h : nhcEtxHdr proto = some eid) :
    (∀ b ∈ [nhcExtHdr ||| (eid <<< 1), nhcExtHdr ||| nhcBit ||| (eid <<< 1)],
      b &&& 0xF0 = nhcExtHdr ∧ nhcProto ((b &&& 0x0e) >>> 1) = some proto) ∧
    (nhcExtHdr ||| (eid <<< 1)) &&& 0x01 = 0 ∧
    (nhcExtHdr ||| nhcBit ||| (eid <<< 1)) &&& 0x01 ≠ 0 := by
  unfold nhcEtxHdr at h
  split_ifs at h with h0 h1 h2 h3
  all_goals
    cases h
    subst proto
    refine ⟨fun b hb => ?_, by decide, by decide⟩
    simp only [mem_cons, not_mem_nil, or_false] at hb
    rcases hb with rfl | rfl <;> decide

theorem isCompressableProto_of_nhcEtxHdr (h : nhcEtxHdr proto = some eid) :
    isCompressableProto proto = true := by
  simp [isCompressableProto, h]

theorem ChainOk.udp_inv (h : ChainOk uipProtoUdp pay) :
    8 ≤ pay.length ∧ get16 (pay.getD 4 0) (pay.getD 5 0) = UInt16.ofNat pay.length := by
  cases h with
  | udp h8 hget => exact ⟨h8, hget⟩
  | other h | ext h => exact absurd h (by decide)

theorem ChainOk.ext_inv (h : ChainOk proto pay) (he : nhcEtxHdr proto = some eid) :
    extLen pay ≤ pay.length ∧ ChainOk (pay.getD 0 0) (pay.drop (extLen pay)) := by
  cases h with
  | other h => rw [isCompressableProto_of_nhcEtxHdr he] at h; cases h
  | udp => rw [show nhcEtxHdr uipProtoUdp = none by decide] at he; cases he
  | ext _ h h' => exact ⟨h, h'⟩

section Behind

/-! The compressor looks at no byte behind the headers. -/

variable {pay : List UInt8} (junk : List UInt8)

theorem extLen_append (h : 8 ≤ pay.length) : extLen (pay ++ junk) = extLen pay := by
  rw [extLen, getD_append pay junk 0 _ (by omega), extLen]

theorem extHdr_append (h : extLen pay ≤ pay.length) : extHdr (pay ++ junk) = extHdr pay := by
  have h8 := le_extLen pay
  rw [extHdr, extHdr, extLen_append junk (by omega), takeD_eq_take _ (by
    rw [length_append]; omega), takeD_eq_take _ h, take_append_of_le_length h]

/-- What is behind the packet in the buffer does not matter. -/
theorem compressNextHdrs_append {M : ℕ} {proto : UInt8} (hok : ChainOk proto pay) :
    ∀ {fuel : ℕ} {out : List UInt8} {unc : UInt8},
      compressNextHdrs M fuel proto (pay ++ junk) out unc =
        compressNextHdrs M fuel proto pay out unc := by
  intro fuel
  induction fuel generalizing proto pay with
  | zero =>
    intro _ _
    rfl
  | succ fuel ih =>
    intro out unc
    cases hok with
    | other h =>
      obtain ⟨hu, he⟩ := isCompressableProto_eq_false.mp h
      rw [compressNextHdrs, compressNextHdrs, he, if_neg hu, if_neg hu]
    | udp h8 =>
      have hget : ∀ k < 8, (pay ++ junk).getD k 0 = pay.getD k 0 := fun k hk =>
        getD_append pay junk 0 k (by omega)
      rw [compressNextHdrs, compressNextHdrs, show nhcEtxHdr uipProtoUdp = none by decide,
        if_pos rfl, if_pos rfl, compressUdp, compressUdp]
      simp only [hget 0 (by decide), hget 1 (by decide), hget 2 (by decide), hget 3 (by decide),
        hget 6 (by decide), hget 7 (by decide)]
    | ext hs hext hrest =>
      obtain ⟨eid, he⟩ := Option.isSome_iff_exists.mp hs
      have h8 := le_extLen pay
      have hnext : (pay ++ junk).getD 0 0 = pay.getD 0 0 := getD_append pay junk 0 _ (by omega)
      have hlen : extLen (pay ++ junk) = extLen pay := extLen_append junk (by omega)
      by_cases hn : isCompressableProto (pay.getD 0 0) = true
      · rw [compressNextHdrs_more he (by rw [hnext]; exact hn), compressNextHdrs_more he hn, hlen,
          hnext, extHdr_append junk hext, drop_append_of_le_length hext, ih hrest]
      · rw [compressNextHdrs_last he (by rw [hnext]; exact hn), compressNextHdrs_last he hn, hlen,
          extHdr_append junk hext]

end Behind

theorem udplen_eq (d n : ℕ) : UInt16.ofNat (40 + d + n) - 40 - UInt16.ofNat d = UInt16.ofNat n := by
  apply UInt16.toNat_inj.mp
  simp only [UInt16.toNat_sub, UInt16.toNat_ofNat', show (40 : UInt16).toNat = 40 from rfl]
  omega

section Loop

variable {fuel : ℕ} {s s' : UncSt} {b : UInt8} {p q : List UInt8}

theorem uncompressExts_stop (h : s.nhc = false) : uncompressExts fuel s p = some (.inr (s, p)) := by
  cases fuel <;> simp [uncompressExts, h]

theorem uncompressUdp_stop {ipLen : UInt16} (h : s.nhc = false) :
    uncompressUdp ipLen s p = some (s, p) := by
  simp [uncompressUdp, h]

theorem uncompressExts_other (hb : b &&& 0xF0 ≠ nhcExtHdr) :
    uncompressExts (fuel + 1) s (b :: p) = some (.inr (s, b :: p)) := by
  simp [uncompressExts, hb]

theorem uncompressExts_turn (hnhc : s.nhc = true) (hb : b &&& 0xF0 = nhcExtHdr)
    (h : uncompressExt b s p = some (.inr (s', q))) :
    uncompressExts (fuel + 1) s (b :: p) = uncompressExts fuel s' q := by
  simp [uncompressExts, hnhc, hb, h]

end Loop

/-- **The receiver restores what `NextHdrs` codes.**  By induction on the coding: each turn of the
loop restores one extension header, and moves the stale byte to its next-header field. -/
theorem uncompressExts_nextHdrs (ipLen : UInt16) (rest : List UInt8)
    (h : NextHdrs proto pay code n) :
    ∀ {s : UncSt} {D stale : List UInt8} {fuel : ℕ}, ChainOk proto pay →
      s.Holds proto ip D stale → s.nhc = isCompressableProto proto →
      (s.nhc = false → s.buf = ⟨ip, D ++ stale⟩) → n ≤ stale.length → D.length + n < 256 →
      (code ++ rest).length ≤ fuel → (ipLen = 0 → rest.length + n = pay.length) →
      (ipLen ≠ 0 → ipLen = UInt16.ofNat (40 + D.length + pay.length)) →
      ∃ s₁ p₁ s₂, uncompressExts fuel s (code ++ rest) = some (.inr (s₁, p₁)) ∧
        uncompressUdp ipLen s₁ p₁ = some (s₂, rest) ∧
        s₂.buf = ⟨ip, D ++ (pay.take n ++ stale.drop n)⟩ ∧
        s₂.uncompHdrLen = 40 + UInt8.ofNat (D.length + n) := by
  induction h with
  | done hproto =>
    intro s D stale fuel _ hs hnhc hbuf _ _ _ _ _
    rw [hproto] at hnhc
    exact ⟨s, rest, s, uncompressExts_stop hnhc, uncompressUdp_stop hnhc, hbuf hnhc,
      hs.uncompHdrLen⟩
  | @udp pay =>
    intro s D stale fuel hok hs hnhc _ hroom hD hfuel hlen0 hlen1
    obtain ⟨h8, hget⟩ := hok.udp_inv
    have hlen : (if ipLen = 0 then UInt16.ofNat (8 + rest.length)
        else ipLen - 40 - s.extHdrLen.toUInt16) = UInt16.ofNat pay.length := by
      split_ifs with h0
      · rw [← hlen0 h0, Nat.add_comm]
      · have hx : s.extHdrLen.toUInt16 = UInt16.ofNat D.length := by
          rw [hs.extHdrLen]
          exact UInt16.toNat_inj.mp (by simp; omega)
        rw [hx, hlen1 h0, udplen_eq]
    obtain ⟨s₂, hudp, hbuf, hunc⟩ := uncompressUdp_holds hs hnhc h8 hroom (hlen.trans hget.symm)
    refine ⟨s, _, s₂, ?_, hudp, hbuf, hunc⟩
    obtain _ | fuel := fuel
    · simp only [udpCode, length_append, length_cons] at hfuel; omega
    exact uncompressExts_other (compressPorts_nhc _ _ _ _).2.2
  | @last proto eid pay he hn h256 =>
    intro s D stale fuel hok hs hnhc _ hroom hD hfuel hlen0 hlen1
    rw [isCompressableProto_of_nhcEtxHdr he] at hnhc
    obtain ⟨hext, -⟩ := hok.ext_inv he
    obtain ⟨data, htake, hdata, hhdr⟩ := ext_split hext
    obtain ⟨hb, hb0, -⟩ := nhcProto_of_nhcEtxHdr he
    obtain ⟨hbe, hbp⟩ := hb (nhcExtHdr ||| (eid <<< 1)) (by simp)
    have hturn := (uncompressExt_holds hs hbp (hdata.trans rfl) (by omega) (by omega) rest).2 hb0
      (pay.getD 0 0)
    obtain _ | fuel := fuel
    · simp only [length_append, length_cons] at hfuel; omega
    rw [hhdr]
    refine ⟨_, rest, _, (uncompressExts_turn hnhc hbe hturn).trans (uncompressExts_stop rfl),
      uncompressUdp_stop rfl, ?_, ?_⟩
    · rw [UncSt.after, ← htake, length_take, Nat.min_eq_left hext]
    · rw [UncSt.after, ← htake, length_take, Nat.min_eq_left hext]
  | @more proto eid pay code n he hn h256 _ ih =>
    intro s D stale fuel hok hs hnhc _ hroom hD hfuel hlen0 hlen1
    rw [isCompressableProto_of_nhcEtxHdr he] at hnhc
    obtain ⟨hext, hok'⟩ := hok.ext_inv he
    obtain ⟨data, htake, hdata, hhdr⟩ := ext_split hext
    obtain ⟨hb, -, hb1⟩ := nhcProto_of_nhcEtxHdr he
    obtain ⟨hbe, hbp⟩ := hb (nhcExtHdr ||| nhcBit ||| (eid <<< 1)) (by simp)
    have hturn := (uncompressExt_holds hs hbp (hdata.trans rfl) (by omega) (by omega)
      (code ++ rest)).1 hb1
    obtain _ | fuel := fuel
    · simp only [length_append, length_set, extHdr_length] at hfuel; omega
    have hlen : (pay.getD 0 0 :: pay.getD 1 0 :: data).length = extLen pay := hdata
    have hhold : (UncSt.after ip D (0 :: pay.getD 1 0 :: data) stale true).Holds (pay.getD 0 0) ip
        (D ++ pay.getD 0 0 :: pay.getD 1 0 :: data) (stale.drop (data.length + 2)) :=
      UncSt.after_holds
    obtain ⟨s₁, p₁, s₂, h₁, h₂, hbuf, hunc⟩ := @ih _ _ _ fuel hok' hhold hn.symm
      (fun h => by cases h) (by
        rw [length_drop]; omega) (by rw [length_append]; omega) (by
        simp only [hhdr, length_append, length_set, length_cons] at hfuel
        rw [length_append]; omega) (fun h0 => by
        rw [length_drop, ← hlen0 h0]; omega) (fun h0 => by
        rw [hlen1 h0, length_append, length_drop]; congr 1; omega)
    refine ⟨s₁, p₁, s₂, ?_, h₂, ?_, ?_⟩
    · rw [hhdr, append_assoc]
      exact (uncompressExts_turn hnhc hbe hturn).trans h₁
    · rw [hbuf, take_add, htake, ← hdata]
      simp
    · rw [hunc, length_append, hlen, Nat.add_assoc]

variable (h : NextHdrs proto pay code n)

include h

theorem NextHdrs.le_length : ChainOk proto pay → n ≤ pay.length := by
  induction h with
  | done => exact fun _ => Nat.zero_le _
  | udp => exact fun hok => hok.udp_inv.1
  | last he => exact fun hok => (hok.ext_inv he).1
  | more he _ _ _ ih =>
    intro hok
    have hext := (hok.ext_inv he).1
    have hle := ih (hok.ext_inv he).2
    rw [length_drop] at hle
    omega

/-- Next headers shrink by four bytes at most, those of the best UDP header. -/
theorem NextHdrs.le_code : n ≤ code.length + 4 := by
  induction h with
  | done => exact Nat.zero_le _
  | @udp pay =>
    have h1 : 1 ≤ (compressPorts (pay.getD 0 0) (pay.getD 1 0) (pay.getD 2 0)
        (pay.getD 3 0)).2.length := by
      unfold compressPorts
      dsimp only
      split_ifs <;> simp
    simp only [udpCode, length_cons, length_append]
    omega
  | last => simp only [length_cons, extHdr_length]; omega
  | more _ _ _ _ ih => simp only [length_append, length_set, extHdr_length]; omega

theorem NextHdrs.dvd : 8 ∣ n := by
  induction h with
  | done => exact Nat.dvd_zero 8
  | udp => exact Nat.dvd_refl 8
  | last => exact ⟨_, (by rw [extLen, Nat.mul_comm, ← Nat.mul_succ])⟩
  | more _ _ _ _ ih => exact Nat.dvd_add ⟨_, (by rw [extLen, Nat.mul_comm, ← Nat.mul_succ])⟩ ih

end Nespy.Sicslowpan
