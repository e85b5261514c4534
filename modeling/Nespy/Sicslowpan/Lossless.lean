import Nespy.Sicslowpan.Fields
import Nespy.Sicslowpan.NextHdrs

/-!
# Sicslowpan — IPHC loses nothing

The fields of the header and the headers behind it, put together: what `compress_hdr_iphc` accepts,
`uncompress_hdr_iphc` rebuilds.  `uncompress_compress` is stated for a frame with anything in front
of the compressed header and behind it, so that it serves whole packets, where the length comes from
the frame, and first fragments, where it comes from the fragment header.

The compressor elides the prefix of a link-local *source* when bytes 2 to 7 of the *destination* are
zero, and the receiver then puts zeroes there.  So what comes back is `IpHdr.received`, which is the
header sent exactly under `SrcOk` (`IpHdr.received_eq_iff`); the addresses of a well-formed packet
satisfy it.
-/

open List

namespace Nespy.Sicslowpan

open Nespy.Lib

/-! ### The encoding bytes -/

section Iphc0

variable (h : IpHdr)

/-- The first encoding byte of `h`. -/
def iphc0Of : UInt8 := dispatchIphc ||| (compressTf h).1 ||| (compressNh h).1 ||| (compressTtl h).1

theorem compressTf_bits : (compressTf h).1 &&& 0xe7 = 0 := by
  unfold compressTf
  split_ifs <;> dsimp only <;> decide

theorem compressNh_bits : (compressNh h).1 &&& 0xfb = 0 := by
  unfold compressNh
  split_ifs <;> dsimp only <;> decide

theorem compressTtl_bits : (compressTtl h).1 &&& 0xfc = 0 := by
  unfold compressTtl
  split_ifs <;> dsimp only <;> decide

theorem iphc0Of_and (m : UInt8) : iphc0Of h &&& m = (dispatchIphc &&& m) |||
    ((compressTf h).1 &&& m) ||| ((compressNh h).1 &&& m) ||| ((compressTtl h).1 &&& m) := by
  rw [iphc0Of, or_and_distrib, or_and_distrib, or_and_distrib]

theorem iphc0Of_tf {m : UInt8} (hm : 0x18 &&& m = m) :
    iphc0Of h &&& m = (compressTf h).1 &&& m := by
  have hd := and_eq_zero_of_sub (show dispatchIphc &&& 0x18 = 0 by decide) hm
  have hn := and_eq_zero_of_sub
    (and_eq_zero_of_sub (compressNh_bits h) (by decide)) hm
  have ht := and_eq_zero_of_sub
    (and_eq_zero_of_sub (compressTtl_bits h) (by decide)) hm
  rw [iphc0Of_and, hd, hn, ht, UInt8.zero_or, UInt8.or_zero, UInt8.or_zero]

theorem iphc0Of_nh : iphc0Of h &&& iphcNhC = (compressNh h).1 &&& iphcNhC := by
  have hf := and_eq_zero_of_sub (compressTf_bits h) (m := iphcNhC) (by decide)
  have ht := and_eq_zero_of_sub (compressTtl_bits h) (m := iphcNhC) (by decide)
  rw [iphc0Of_and, hf, ht, show dispatchIphc &&& iphcNhC = 0 by decide, UInt8.or_zero,
    UInt8.or_zero, UInt8.zero_or]

theorem iphc0Of_ttl : iphc0Of h &&& 0x03 = (compressTtl h).1 := by
  have hf := and_eq_zero_of_sub (compressTf_bits h) (m := 0x03) (by decide)
  have hn := and_eq_zero_of_sub (compressNh_bits h) (m := 0x03) (by decide)
  have ht : (compressTtl h).1 &&& 0x03 = (compressTtl h).1 := by
    unfold compressTtl
    split_ifs <;> dsimp only <;> decide
  rw [iphc0Of_and, hf, hn, ht, show dispatchIphc &&& 0x03 = 0 by decide, UInt8.or_zero,
    UInt8.or_zero, UInt8.zero_or]

/-- The next header is coded exactly when the headers behind are. -/
@[simp] theorem iphc0Of_nh_ne_zero :
    (iphc0Of h &&& iphcNhC ≠ 0) ↔ isCompressableProto h.proto = true := by
  rw [iphc0Of_nh, compressNh]
  split_ifs with hc
  · simp [hc, iphcNhC]
  · simp [hc]

end Iphc0

section Iphc1

variable (ctxs : List AddrContext) (m : Linkaddr) (h : IpHdr)

theorem compressAddr64_bits (bitpos : UInt8) (a : Ipaddr) :
    (compressAddr64 bitpos a m).1 = 3 <<< bitpos ∨ (compressAddr64 bitpos a m).1 = 2 <<< bitpos ∨
      (compressAddr64 bitpos a m).1 = 1 <<< bitpos := by
  unfold compressAddr64
  split_ifs <;> simp

theorem compressSrc_bits : (compressSrc ctxs m h).bits &&& 0x0f = 0 ∧
    (addrContextLookupByPrefix ctxs h.srcipaddr = none →
      (compressSrc ctxs m h).bits &&& iphcCid = 0) := by
  have hb := compressAddr64_bits m iphcSamBit h.srcipaddr
  rcases compressSrc_cases ctxs m h with ⟨-, -, hcode⟩ | ⟨c, -, hl, -, hcode⟩ | ⟨hl, -, hcode⟩ |
    ⟨-, -, hcode⟩ <;> rw [hcode]
  · exact ⟨by decide, fun _ => by decide⟩
  · refine ⟨?_, fun hn => by rw [hl] at hn; cases hn⟩
    rcases hb with hb | hb | hb <;> dsimp only <;> rw [hb] <;> decide
  · refine ⟨?_, fun _ => ?_⟩ <;> rcases hb with hb | hb | hb <;> dsimp only <;> rw [hb] <;> decide
  · exact ⟨UInt8.zero_and, fun _ => UInt8.zero_and⟩

theorem compressDest_mcast (hmc : uipIsAddrMcast h.destipaddr = true) :
    (compressDest ctxs m h).bits &&& 0xf0 = 0 ∧ (compressDest ctxs m h).ctx = 0 ∧
      (compressDest ctxs m h).bits &&& iphcM ≠ 0 := by
  unfold compressDest
  dsimp only
  split_ifs <;> exact ⟨by dsimp only; decide, rfl, by dsimp only; decide⟩

theorem compressDest_bits : (compressDest ctxs m h).bits &&& 0xf0 = 0 := by
  have hb := compressAddr64_bits m iphcDamBit h.destipaddr
  by_cases hmc : uipIsAddrMcast h.destipaddr = true
  · exact (compressDest_mcast ctxs m h hmc).1
  rcases compressDest_cases ctxs m hmc with ⟨c, -, hcode⟩ | ⟨-, -, -, hcode⟩ |
    ⟨-, hcode⟩ <;> rw [hcode]
  · rcases hb with hb | hb | hb <;> dsimp only <;> rw [hb] <;> decide
  · rcases hb with hb | hb | hb <;> dsimp only <;> rw [hb] <;> decide
  · exact UInt8.zero_and

variable {ctxs} in
/-- Each address has four bits of the context byte. -/
theorem compressSrc_ctx (hc : ContextsOk ctxs) :
    ∃ n : UInt8, n.toNat < 16 ∧ (compressSrc ctxs m h).ctx = n <<< 4 ∧
      (uipIsAddrUnspecified h.srcipaddr = false →
        ∀ c, addrContextLookupByPrefix ctxs h.srcipaddr = some c → n = c.number) := by
  rcases compressSrc_cases ctxs m h with ⟨hu, -, hcode⟩ | ⟨c, -, hl, -, hcode⟩ | ⟨hl, -, hcode⟩ |
    ⟨hl, -, hcode⟩ <;> rw [hcode]
  · exact ⟨0, by decide, rfl, fun hf => by rw [hu] at hf; cases hf⟩
  · obtain ⟨hm, hused, -⟩ := addrContextLookupByPrefix_some hl
    exact ⟨c.number, hc.number_lt c hm hused, rfl, fun _ d hd => by rw [hl] at hd; cases hd; rfl⟩
  · exact ⟨0, by decide, rfl, fun _ d hd => by rw [hl] at hd; cases hd⟩
  · exact ⟨0, by decide, rfl, fun _ d hd => by rw [hl] at hd; cases hd⟩

variable {ctxs} in
theorem compressDest_ctx (hc : ContextsOk ctxs) : (compressDest ctxs m h).ctx.toNat < 16 ∧
      (uipIsAddrMcast h.destipaddr = false → ∀ c,
        addrContextLookupByPrefix ctxs h.destipaddr = some c →
          (compressDest ctxs m h).ctx = c.number) := by
  by_cases hmc : uipIsAddrMcast h.destipaddr = true
  · rw [(compressDest_mcast ctxs m h hmc).2.1]
    exact ⟨by decide, fun hf => by rw [hmc] at hf; cases hf⟩
  rcases compressDest_cases ctxs m hmc with ⟨c, hl, hcode⟩ | ⟨hl, -, -, hcode⟩ |
    ⟨hl, hcode⟩ <;> rw [hcode]
  · obtain ⟨hm, hused, -⟩ := addrContextLookupByPrefix_some hl
    exact ⟨hc.number_lt c hm hused, fun _ d hd => by rw [hl] at hd; cases hd; rfl⟩
  · exact ⟨by dsimp only; decide, fun _ d hd => by rw [hl] at hd; cases hd⟩
  · exact ⟨by dsimp only; decide, fun _ d hd => by rw [hl] at hd; cases hd⟩

theorem ctx_nibbles {n d : UInt8} (hn : n.toNat < 16) (hd : d.toNat < 16) :
    (n <<< 4 ||| d) >>> 4 = n ∧ (n <<< 4 ||| d) &&& 0x0f = d := by
  have hsum : (n <<< 4 ||| d).toNat = n.toNat * 16 + d.toNat := by
    have h4 : (4 : UInt8).toNat % 8 = 4 := rfl
    rw [UInt8.toNat_or, UInt8.toNat_shiftLeft, h4,
      Nat.mod_eq_of_lt (by rw [Nat.shiftLeft_eq]; omega),
      ← Nat.shiftLeft_add_eq_or_of_lt (show d.toNat < 2 ^ 4 by omega), Nat.shiftLeft_eq]
  constructor <;> apply UInt8.toNat_inj.mp
  · rw [UInt8.toNat_shiftRight, show (4 : UInt8).toNat % 8 = 4 from rfl]
    omega
  · rw [UInt8.toNat_and, show (0x0f : UInt8).toNat = 2 ^ 4 - 1 from rfl,
      Nat.and_two_pow_sub_one_eq_mod]
    omega

/-- A context of either address makes the compressor send the context byte. -/
def cidOf : Bool := (addrContextLookupByPrefix ctxs h.destipaddr).isSome ||
  (addrContextLookupByPrefix ctxs h.srcipaddr).isSome

/-- The second encoding byte of `h`. -/
def iphc1Of (md : Linkaddr) : UInt8 :=
  (if cidOf ctxs h then iphcCid else 0) ||| (compressSrc ctxs m h).bits |||
    (compressDest ctxs md h).bits

variable (md : Linkaddr)

/-- The bits of the source. -/
theorem iphc1Of_src {k : UInt8} (hk : 0x70 &&& k = k) :
    iphc1Of ctxs m h md &&& k = (compressSrc ctxs m h).bits &&& k := by
  refine and_of_or_or ?_ ?_
  · refine and_eq_zero_of_sub ?_ hk
    split_ifs <;> decide
  · exact and_eq_zero_of_sub (and_eq_zero_of_sub (compressDest_bits ctxs md h) (by decide)) hk

/-- The bits of the destination. -/
theorem iphc1Of_dest : iphc1Of ctxs m h md &&& 0x0f = (compressDest ctxs md h).bits &&& 0x0f := by
  refine and_of_or_or_last ?_ (compressSrc_bits ctxs m h).1
  split_ifs <;> decide

/-- The bit of the contexts. -/
theorem iphc1Of_cid : (iphc1Of ctxs m h md &&& iphcCid ≠ 0) ↔ cidOf ctxs h = true := by
  have hd := and_eq_zero_of_sub (compressDest_bits ctxs md h) (m := iphcCid) (by decide)
  unfold iphc1Of
  rw [or_and_distrib, or_and_distrib, hd, UInt8.or_zero]
  by_cases hc : cidOf ctxs h = true
  · rw [if_pos hc]
    refine iff_of_true (fun h0 => ?_) hc
    exact absurd (UInt8.or_eq_zero_iff.mp h0).1 (by decide)
  · have hl : addrContextLookupByPrefix ctxs h.srcipaddr = none := by
      simp_all [cidOf]
    rw [if_neg hc, (compressSrc_bits ctxs m h).2 hl]
    exact iff_of_false (by decide) hc

/-- The context byte, zero when it is not sent. -/
def ctxOf : UInt8 :=
  if cidOf ctxs h then (compressSrc ctxs m h).ctx ||| (compressDest ctxs md h).ctx else 0

variable {ctxs} {m} {h} {md}

theorem uncompressCid_hdrCode (p : List UInt8) :
    uncompressCid (iphc1Of ctxs m h md) ((if cidOf ctxs h then
      [(compressSrc ctxs m h).ctx ||| (compressDest ctxs md h).ctx] else []) ++ p) =
      some (ctxOf ctxs m h md, p) := by
  unfold uncompressCid ctxOf
  by_cases hcid : cidOf ctxs h = true
  · rw [if_pos ((iphc1Of_cid ctxs m h md).mpr hcid), if_pos hcid, if_pos hcid]
    rfl
  · rw [if_neg (fun h0 => hcid ((iphc1Of_cid ctxs m h md).mp h0)), if_neg hcid, if_neg hcid]
    rfl

theorem uncompressSrc_hdrCode (hc : ContextsOk ctxs) (p : List UInt8) :
    uncompressSrc ctxs m (iphc1Of ctxs m h md) (ctxOf ctxs m h md)
      ((compressSrc ctxs m h).inl ++ p) = some (some (receivedSrc ctxs h, p)) := by
  refine uncompressSrc_compressSrc hc (iphc1Of_src ctxs m h md (by decide))
    (iphc1Of_src ctxs m h md (by decide)) (fun hu c hl => ?_) p
  have hcid : cidOf ctxs h = true := by simp [cidOf, hl]
  obtain ⟨n, hn, hctx, hnum⟩ := compressSrc_ctx m h hc
  refine ⟨(iphc1Of_cid ctxs m h md).mpr hcid, ?_⟩
  rw [ctxOf, if_pos hcid, hctx, (ctx_nibbles hn (compressDest_ctx md h hc).1).1, hnum hu c hl]

theorem uncompressDest_hdrCode (hc : ContextsOk ctxs) (old : Ipaddr) (p : List UInt8) :
    uncompressDest ctxs md (iphc1Of ctxs m h md) (ctxOf ctxs m h md) old
      ((compressDest ctxs md h).inl ++ p) = some (some (h.destipaddr, p)) := by
  refine uncompressDest_compressDest hc (iphc1Of_dest ctxs m h md) (fun hmc c hl => ?_) old p
  have hcid : cidOf ctxs h = true := by simp [cidOf, hl]
  obtain ⟨n, hn, hctx, -⟩ := compressSrc_ctx m h hc
  obtain ⟨hd, hnum⟩ := compressDest_ctx md h hc
  refine ⟨(iphc1Of_cid ctxs m h md).mpr hcid, ?_⟩
  rw [ctxOf, if_pos hcid, hctx, (ctx_nibbles hn hd).2, hnum hmc c hl]

end Iphc1

/-! ### The compressor's result -/

/-- The coded IPv6 header, up to the first next header. -/
def hdrCode (ctxs : List AddrContext) (m md : Linkaddr) (h : IpHdr) : List UInt8 :=
  [iphc0Of h, iphc1Of ctxs m h md] ++
    (if cidOf ctxs h then [(compressSrc ctxs m h).ctx ||| (compressDest ctxs md h).ctx] else []) ++
    (compressTf h).2 ++ (compressNh h).2 ++ (compressTtl h).2 ++ (compressSrc ctxs m h).inl ++
    (compressDest ctxs md h).inl

/-- The header with another length field. -/
@[simp] def IpHdr.withLen (h : IpHdr) (len0 len1 : UInt8) : IpHdr :=
  { h with len0 := len0, len1 := len1 }

/-- The header the receiver restores from the code of `h`. -/
def IpHdr.received (ctxs : List AddrContext) (h : IpHdr) : IpHdr :=
  { h with srcipaddr := receivedSrc ctxs h }

/-- The receiver's state before its loop over the next headers: of the header `h` only the length,
and the next header when it is elided, are still the buffer's. -/
def UncSt.start (h : IpHdr) (old : UipBuf) : UncSt :=
  ⟨⟨{ h.withLen old.ip.len0 old.ip.len1 with
      proto := if isCompressableProto h.proto then old.ip.proto else h.proto }, old.pay⟩,
    none, 0, 0, 40, isCompressableProto h.proto⟩

theorem UncSt.start_holds (h : IpHdr) (old : UipBuf) :
    (UncSt.start h old).Holds h.proto (h.withLen old.ip.len0 old.ip.len1) [] old.pay :=
  ⟨rfl, rfl, rfl, rfl⟩

variable {c : Compressed} {m md : Linkaddr} {ctxs : List AddrContext} {ipLen : UInt16}
  {b old : UipBuf} {M : ℕ}

theorem UncSt.start_buf {h : IpHdr} (hn : (UncSt.start h old).nhc = false) :
    (UncSt.start h old).buf = ⟨h.withLen old.ip.len0 old.ip.len1, [] ++ old.pay⟩ := by
  have hp : isCompressableProto h.proto = false := hn
  simp [UncSt.start, hp]

/-- The receiver makes of the compressed headers what was sent. -/
theorem uncompress_hdrCode (hc : ContextsOk ctxs) (hv : b.ip.vtc >>> 4 = 6)
    {code rest pre pkt : List UInt8} {n : ℕ} (hnext : NextHdrs b.ip.proto b.pay code n)
    (hok : ChainOk b.ip.proto b.pay) (hroom : n ≤ old.pay.length) (hn : n < 256) {hdrLen : UInt8}
    (hpre : pre.length = hdrLen.toNat)
    (hpkt : pkt = pre ++ (hdrCode ctxs m md b.ip ++ (code ++ rest)))
    (hlen0 : ipLen = 0 → rest.length + n = b.pay.length)
    (hlen1 : ipLen ≠ 0 → ipLen = UInt16.ofNat (40 + b.pay.length)) :
    uncompressHdrIphc ctxs m md old ipLen hdrLen pkt =
      some (uncompressLen pkt.length ipLen
        ⟨⟨(b.ip.received ctxs).withLen old.ip.len0 old.ip.len1, b.pay.take n ++ old.pay.drop n⟩,
          40 + UInt8.ofNat n,
          UInt8.ofNat (pre.length + (hdrCode ctxs m md b.ip).length + code.length)⟩) := by
  have hdrop : pkt.drop hdrLen.toNat = iphc0Of b.ip :: iphc1Of ctxs m b.ip md ::
      ((if cidOf ctxs b.ip then
          [(compressSrc ctxs m b.ip).ctx ||| (compressDest ctxs md b.ip).ctx] else []) ++
        ((compressTf b.ip).2 ++ ((compressNh b.ip).2 ++ ((compressTtl b.ip).2 ++
          ((compressSrc ctxs m b.ip).inl ++ ((compressDest ctxs md b.ip).inl ++
            (code ++ rest))))))) := by
    rw [hpkt, ← hpre, drop_left]
    simp only [hdrCode, append_assoc, cons_append, nil_append]
  have hlen : UInt8.ofNat (pkt.length - rest.length) =
      UInt8.ofNat (pre.length + (hdrCode ctxs m md b.ip).length + code.length) := by
    rw [hpkt]
    simp only [length_append]
    congr 1
    omega
  unfold uncompressHdrIphc
  rw [hdrop]
  simp only [uncompressCid_hdrCode,
    uncompressTf_compressTf hv (iphc0Of_tf b.ip (by decide)) (iphc0Of_tf b.ip (by decide)),
    uncompressNh_compressNh (iphc0Of_nh b.ip), uncompressTtl_compressTtl (iphc0Of_ttl b.ip),
    uncompressSrc_hdrCode hc, uncompressDest_hdrCode hc, Option.bind_eq_bind, Option.bind_some]
  obtain ⟨s₁, p₁, s₂, hexts, hudp, hbuf, hunc⟩ := uncompressExts_nextHdrs ipLen rest hnext hok
    (UncSt.start_holds (b.ip.received ctxs) old) rfl UncSt.start_buf hroom
      (by simpa using hn) le_rfl hlen0
    (by simpa using hlen1)
  have hnhc : decide (iphc0Of b.ip &&& iphcNhC ≠ 0) = isCompressableProto b.ip.proto := by
    simp
  rw [hnhc]
  refine (congrArg (Option.bind · _) hexts).trans ?_
  dsimp only [Option.bind_some]
  rw [hudp]
  dsimp only [Option.bind_some]
  rw [hbuf, hunc, hlen, nil_append, length_nil, Nat.zero_add]

/-- The compressor looks at no byte behind the packet. -/
theorem compressHdrIphc_append {ip : IpHdr} {pay : List UInt8} (hok : ChainOk ip.proto pay)
    (junk : List UInt8) (ctxs : List AddrContext) (m md : Linkaddr) (M : ℕ) :
    compressHdrIphc ctxs m md M ⟨ip, pay ++ junk⟩ = compressHdrIphc ctxs m md M ⟨ip, pay⟩ := by
  unfold compressHdrIphc
  dsimp only
  rw [compressNextHdrs_append junk hok]

/-! ### Lengths -/

theorem two_le_hdrCode (ctxs : List AddrContext) (m md : Linkaddr) (h : IpHdr) :
    2 ≤ (hdrCode ctxs m md h).length := by
  simp only [hdrCode, length_append, length_cons]
  omega

/-- The compressed header has at most 40 bytes and those of the next header. -/
theorem hdrCode_length_nh (ctxs : List AddrContext) (m md : Linkaddr) (h : IpHdr) :
    (hdrCode ctxs m md h).length ≤ 40 + (compressNh h).2.length := by
  have hctx : (if cidOf ctxs h then
      [(compressSrc ctxs m h).ctx ||| (compressDest ctxs md h).ctx] else []).length ≤ 1 := by
    split_ifs <;> simp
  have htf : (compressTf h).2.length ≤ 4 := by
    unfold compressTf; dsimp only; split_ifs <;> simp
  have httl : (compressTtl h).2.length ≤ 1 := by unfold compressTtl; split_ifs <;> simp
  have h64 : ∀ (pos : UInt8) (a : Ipaddr) (m : Linkaddr),
      (compressAddr64 pos a m).2.length ≤ 16 := by
    intro pos a m; unfold compressAddr64; split_ifs <;> simp
  have hsrc : (compressSrc ctxs m h).inl.length ≤ 16 := by
    rcases compressSrc_cases ctxs m h with ⟨-, -, hcode⟩ | ⟨c, -, -, -, hcode⟩ | ⟨-, -, hcode⟩ |
      ⟨-, -, hcode⟩ <;> rw [hcode]
    · simp
    · exact h64 _ _ _
    · exact h64 _ _ _
    · simp
  have hdest : (compressDest ctxs md h).inl.length ≤ 16 := by
    by_cases hmc : uipIsAddrMcast h.destipaddr = true
    · unfold compressDest
      dsimp only
      split_ifs <;> simp
    rcases compressDest_cases ctxs md hmc with ⟨c, -, hcode⟩ | ⟨-, -, -, hcode⟩ |
      ⟨-, hcode⟩ <;> rw [hcode]
    · exact h64 _ _ _
    · exact h64 _ _ _
    · simp
  simp only [hdrCode, length_append, length_cons, length_nil]
  omega

theorem hdrCode_length (ctxs : List AddrContext) (m md : Linkaddr) (h : IpHdr) :
    (hdrCode ctxs m md h).length ≤ 41 := by
  have hnh : (compressNh h).2.length ≤ 1 := by unfold compressNh; split_ifs <;> simp
  have hlen := hdrCode_length_nh ctxs m md h
  omega

/-- **What the compressor accepts.**  It has coded the header, then the next headers by `NextHdrs`,
and neither length wraps. -/
theorem compressHdrIphc_ok (hM : M ≤ macMaxPayload) (h : compressHdrIphc ctxs m md M b = .ok c) :
    ∃ code n, NextHdrs b.ip.proto b.pay code n ∧ c.out = hdrCode ctxs m md b.ip ++ code ∧
      c.uncompHdrLen = 40 + UInt8.ofNat n ∧ c.uncompHdrLen.toNat = 40 + n ∧
      c.out.length ≤ M ∧ n ≤ M + 8 := by
  have hM' : M ≤ 125 := hM
  unfold compressHdrIphc at h
  split_ifs at h
  next hlt =>
    have h41 := hdrCode_length ctxs m md b.ip
    obtain ⟨code, n, hnext, rfl, hlen, hn⟩ := compressNextHdrs_ok (by omega) h
    change (hdrCode ctxs m md b.ip).length + _ ≤ max (hdrCode ctxs m md b.ip).length M at hlen
    refine ⟨code, n, hnext, rfl, rfl, ?_, ?_, by omega⟩
    · rw [UInt8.toNat_add, UInt8.toNat_ofNat', show (40 : UInt8).toNat = 40 from rfl]
      omega
    · change (hdrCode ctxs m md b.ip ++ code).length ≤ M
      rw [length_append]
      omega

/-- The length field comes back when the length the receiver computes is the packet's. -/
theorem uncompressLen_eq {datalen : ℕ} {r : Uncompressed} (l0 l1 : UInt8)
    (h : (if ipLen = 0 then (datalen : ℤ) - r.packetbufHdrLen.toNat + r.uncompHdrLen.toNat - 40
      else (ipLen.toNat : ℤ) - 40) = (get16 l0 l1).toNat) :
    uncompressLen datalen ipLen r =
      { r with buf := { r.buf with ip := r.buf.ip.withLen l0 l1 } } := by
  have h0 := l0.toNat_lt
  have h1 := l1.toNat_lt
  obtain ⟨e0, e1⟩ : UInt8.ofInt (((get16 l0 l1).toNat : ℤ) / 256) = l0 ∧
      UInt8.ofInt ((get16 l0 l1).toNat : ℤ) = l1 := by
    constructor
    all_goals
      apply UInt8.toNat_inj.mp
      rw [get16_toNat, UInt8.ofInt, UInt8.toNat_ofNat']
      omega
  unfold uncompressLen
  dsimp only
  rw [h, e0, e1]
  rfl

/-! ### The round trip -/

/-- An IPv6 packet: version 6, the length field and the headers agree with the bytes there are. -/
structure UipBuf.IsPacket (b : UipBuf) : Prop where
  version : b.ip.vtc >>> 4 = 6
  len : (get16 b.ip.len0 b.ip.len1).toNat = b.pay.length
  chain : ChainOk b.ip.proto b.pay

/-- **What the compressor accepts, the receiver rebuilds**, from a frame with `pre` in front of the
compressed header and `rest` behind it: every field, but for the source address where its prefix was
elided without a context.  The length of the packet is the frame's when `ipLen` is zero and `ipLen`
otherwise. -/
theorem uncompress_compress (hc : ContextsOk ctxs) (hM : M ≤ macMaxPayload) (hb : b.IsPacket)
    (hok : compressHdrIphc ctxs m md M b = .ok c) (old : UipBuf)
    (hroom : c.uncompHdrLen.toNat ≤ old.bytes.length) (ipLen : UInt16) (hdrLen : UInt8)
    (pre rest : List UInt8) (hpre : pre.length = hdrLen.toNat)
    (hfit : pre.length + c.out.length < 256)
    (hlen0 : ipLen = 0 → rest.length + c.uncompHdrLen.toNat = b.bytes.length)
    (hlen1 : ipLen ≠ 0 → ipLen.toNat = b.bytes.length) :
    uncompressHdrIphc ctxs m md old ipLen hdrLen (pre ++ (c.out ++ rest)) =
      some ⟨⟨b.ip.received ctxs, b.pay.take (c.uncompHdrLen.toNat - 40) ++
          old.pay.drop (c.uncompHdrLen.toNat - 40)⟩, c.uncompHdrLen,
        UInt8.ofNat (pre.length + c.out.length)⟩ := by
  obtain ⟨code, n, hnext, hout, hunc, huncn, hlen, hn⟩ := compressHdrIphc_ok hM hok
  have hM' : M ≤ 125 := hM
  rw [huncn] at hroom hlen0 ⊢
  simp only [UipBuf.bytes, length_append, IpHdr.bytes_length] at hroom hlen0 hlen1
  have hhdr : (UInt8.ofNat (pre.length + c.out.length)).toNat = pre.length + c.out.length := by
    rw [UInt8.toNat_ofNat']; omega
  have hpkt : pre ++ (c.out ++ rest) = pre ++ (hdrCode ctxs m md b.ip ++ (code ++ rest)) := by
    rw [hout, append_assoc]
  have hout' : pre.length + (hdrCode ctxs m md b.ip).length + code.length =
      pre.length + c.out.length := by
    rw [hout, length_append, Nat.add_assoc]
  rw [uncompress_hdrCode hc hb.version hnext hb.chain (by omega) (by omega) hpre hpkt
    (fun h0 => by have := hlen0 h0; omega)
    (fun h1 => by rw [← hlen1 h1, UInt16.ofNat_toNat]), hout', ← hunc]
  rw [uncompressLen_eq b.ip.len0 b.ip.len1 ?_]
  · simp [IpHdr.received]
  · rw [hb.len, hpkt]
    simp only [length_append]
    split_ifs with h0
    · have := hlen0 h0
      omega
    · have := hlen1 h0
      omega

/-- What the elision of the source's prefix needs.  The compressor looks at bytes 2 to 7 of the
destination instead. -/
def SrcOk (ctxs : List AddrContext) (ip : IpHdr) : Prop :=
  srcPrefixElided ctxs ip = true →
    ip.srcipaddr.u16Zero 1 ∧ ip.srcipaddr.u16Zero 2 ∧ ip.srcipaddr.u16Zero 3

/-- The receiver restores the header exactly when the elided prefix was the one it puts there. -/
theorem IpHdr.received_eq_iff (ctxs : List AddrContext) (h : IpHdr) :
    h.received ctxs = h ↔ SrcOk ctxs h := by
  have hsrc : h.received ctxs = h ↔ receivedSrc ctxs h = h.srcipaddr := by
    constructor
    · exact fun he => congrArg IpHdr.srcipaddr he
    · intro he
      rw [IpHdr.received, he]
  rw [hsrc, receivedSrc]
  by_cases he : srcPrefixElided ctxs h = true
  · have hll : uipIsAddrLinklocal h.srcipaddr = true := by simp_all [srcPrefixElided]
    rw [if_pos he, llAddr_eq_iff hll]
    exact ⟨fun h3 _ => h3, fun h3 => h3 he⟩
  · rw [if_neg he]
    exact iff_of_true rfl fun h3 => absurd h3 he

/-- The members of `fe80::/10` end their prefix in zeroes. -/
def LinkLocalOk (a : Ipaddr) : Prop :=
  a.u8 0 = 0xfe → a.u8 1 &&& 0xc0 = 0x80 → a.u16Zero 1 ∧ a.u16Zero 2 ∧ a.u16Zero 3

/-- A packet whose link-local addresses have the form they are assigned in. -/
structure UipBuf.WellFormed (b : UipBuf) : Prop extends b.IsPacket where
  src : LinkLocalOk b.ip.srcipaddr
  dest : LinkLocalOk b.ip.destipaddr

theorem UipBuf.WellFormed.srcOk (hb : b.WellFormed) (ctxs : List AddrContext) :
    SrcOk ctxs b.ip := by
  intro he
  simp only [srcPrefixElided, uipIsAddrLinklocal, Bool.and_eq_true, beq_iff_eq] at he
  exact hb.src he.1.1.1.2.1 (by rw [he.1.1.1.2.2]; decide)

theorem UipBuf.take_bytes (b : UipBuf) (n : ℕ) :
    b.bytes.take (40 + n) = b.ip.bytes ++ b.pay.take n := by
  rw [UipBuf.bytes, ← b.ip.bytes_length, take_length_add_append]

/-- **IPHC header compression is lossless.**  Whatever header of a well-formed packet the node at
`sender` compresses, `uncompress_hdr_iphc` rebuilds at `receiver` in `uip_buf`, from the compressed
bytes and the rest of the packet, and both ends agree on the two header lengths. -/
theorem iphc_lossless {ctxs : List AddrContext} (hc : ContextsOk ctxs) {sender receiver : Linkaddr}
    (framerHdrlen : ℕ) {b : UipBuf} (hb : b.WellFormed) {c : Compressed}
    (hok : compressHdrIphc ctxs sender receiver (macMaxPayload - framerHdrlen) b = .ok c)
    {old : UipBuf} (hold : old.bytes.length = uipBufsize) :
    ∃ r, uncompressHdrIphc ctxs sender receiver old 0 0
        (c.out ++ b.bytes.drop c.uncompHdrLen.toNat) = some r ∧
      r.buf.bytes.take c.uncompHdrLen.toNat = b.bytes.take c.uncompHdrLen.toNat ∧
      r.uncompHdrLen = c.uncompHdrLen ∧ r.packetbufHdrLen.toNat = c.out.length := by
  have hM : macMaxPayload - framerHdrlen ≤ macMaxPayload := Nat.sub_le _ _
  obtain ⟨code, n, hnext, -, -, hunc, hlen, hn⟩ := compressHdrIphc_ok hM hok
  have hle := hnext.le_length hb.chain
  simp only [macMaxPayload] at hlen hn
  unfold uipBufsize at hold
  have h := uncompress_compress hc hM hb.toIsPacket hok old (by omega) 0 0 []
    (b.bytes.drop c.uncompHdrLen.toNat) rfl (by rw [length_nil]; omega) (fun _ => by
      simp only [length_drop, UipBuf.bytes, length_append, IpHdr.bytes_length]
      omega) (fun h => absurd rfl h)
  rw [(b.ip.received_eq_iff ctxs).mpr (hb.srcOk ctxs)] at h
  refine ⟨_, h, ?_, rfl, ?_⟩
  · rw [hunc, UipBuf.take_bytes, UipBuf.take_bytes, Nat.add_sub_cancel_left, take_append,
      take_take, Nat.min_self, length_take, Nat.min_eq_left hle, Nat.sub_self,
      take_zero, append_nil]
  · rw [length_nil, UInt8.toNat_ofNat']
    omega

/-! A packet to run the two ends on: a hop-by-hop header and a UDP datagram between two nodes of the
prefix `fd00::/64`, which is context 3 at both. -/

def nodeA : Linkaddr := ⟨[1, 2, 3, 4, 5, 6, 7, 8], rfl⟩

def nodeB : Linkaddr := ⟨[9, 2, 3, 4, 5, 6, 7, 8], rfl⟩

def context3 : AddrContext := ⟨1, 3, ⟨[0xfd, 0, 0, 0, 0, 0, 0, 0], rfl⟩⟩

def udpHdr : IpHdr where
  vtc := 0x65
  tcflow := 0x43
  flow0 := 1
  flow1 := 2
  len0 := 0
  len1 := 20
  proto := uipProtoHbho
  ttl := 63
  srcipaddr := ⟨[0xfd, 0, 0, 0, 0, 0, 0, 0, 3, 2, 3, 4, 5, 6, 7, 8], rfl⟩
  destipaddr := ⟨[0xfd, 0, 0, 0, 0, 0, 0, 0, 0, 0, 0, 0xff, 0xfe, 0, 0, 9], rfl⟩

/-- A packet with destination options and UDP. -/
def udpPacket : UipBuf where
  ip := udpHdr
  pay := [17, 0, 1, 4, 0, 0, 0, 0] ++ [0xf0, 0xb1, 0xf0, 0xb2, 0, 12, 0xab, 0xcd, 1, 2, 3, 4]

theorem contextsOk_context3 : ContextsOk [context3] := by
  constructor <;> decide

theorem wellFormed_udpPacket : udpPacket.WellFormed where
  version := by decide
  len := by decide
  chain := .ext (by decide) (by decide) (.udp (by decide) (by decide))
  src := fun h => absurd h (by decide)
  dest := fun h => absurd h (by decide)

/-- The header of `udpPacket`, as node A sends it to node B. -/
def udpPacketCode : List UInt8 :=
  [0x64, 0xf6, 0x33, 0x15, 0x43, 1, 2, 63, 0, 9, 0xe1, 6, 1, 4, 0, 0, 0, 0, 0xf3, 0x12, 0xab, 0xcd]

theorem iphc_lossless_udpPacket : ∃ r, uncompressHdrIphc [context3] nodeA nodeB
      ⟨udpHdr, List.replicate 1240 0xee⟩ 0 0 (udpPacketCode ++ [1, 2, 3, 4]) = some r ∧
    r.buf.bytes.take 56 = udpPacket.bytes.take 56 ∧ r.uncompHdrLen = 56 ∧
    r.packetbufHdrLen.toNat = 22 :=
  iphc_lossless contextsOk_context3 21 wellFormed_udpPacket (c := ⟨udpPacketCode, 56⟩) (by rfl)
    (by rw [UipBuf.bytes, length_append, length_replicate]; rfl)

end Nespy.Sicslowpan
