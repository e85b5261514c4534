import Nespy.Lib.Bits
import Nespy.Sicslowpan.Uncompress

/-!
# Sicslowpan — the fields of the IPv6 header, back and forth

One lemma for each field `compress_hdr_iphc` codes: the uncompressor, reading the bytes the
compressor inlined for the field and any bytes behind them, restores the field and stops where the
field ends. Each lemma asks of the encoding bytes only the bits of its own field, so they compose
whatever the other fields are.
-/

namespace Nespy.Sicslowpan

open Nespy.Lib

/-! ### Traffic class and flow label -/

@[simp] theorem ecnDscp_vtc (v t : UInt8) : (ecnDscp v t >>> 2) &&& 0x0f = v &&& 0x0f := by
  refine eq_of_bits fun i hi => ?_
  interval_cases i <;> simp [ecnDscp]

theorem ecnDscp_ecn (v t : UInt8) : (ecnDscp v t >>> 2) &&& 0x30 = t &&& 0x30 := by
  refine eq_of_bits fun i hi => ?_
  interval_cases i <;> simp [ecnDscp]

theorem ecnDscp_dscp (v t : UInt8) : ecnDscp v t <<< 6 = t &&& 0xc0 := by
  refine eq_of_bits fun i hi => ?_
  interval_cases i <;> simp [ecnDscp]

variable {h : IpHdr} {a : Ipaddr} {m : Linkaddr} {ctxs : List AddrContext}
  {c ctx iphc0 iphc1 t v : UInt8}

theorem ecnDscp_flow {b : UInt8} (hb : b = (ecnDscp v t &&& 0xc0) ||| (t &&& 0x0f)) :
    (b &&& (0x0f : UInt8)) ||| ((b >>> 2) &&& (0x30 : UInt8)) = (t &&& 0x30) ||| (t &&& 0x0f) := by
  subst hb
  refine eq_of_bits fun i hi => ?_
  interval_cases i <;> simp [ecnDscp]

/-- The version nibble is 6, so the low nibble is all of `vtc` there is to carry. -/
theorem version_or (h : v >>> 4 = 6) : (0x60 : UInt8) ||| (v &&& 0x0f) = v := by
  have e : ∀ i, (v >>> 4).toBitVec.getLsbD i = (6 : UInt8).toBitVec.getLsbD i := by simp [h]
  have e0 := e 0
  have e1 := e 1
  have e2 := e 2
  have e3 := e 3
  simp at e0 e1 e2 e3
  refine eq_of_bits fun i hi => ?_
  interval_cases i <;> simp [*]

theorem nibbles_or (t : UInt8) : (t &&& 0x30) ||| (t &&& 0xc0) ||| (t &&& 0x0f) = t := by
  refine eq_of_bits fun i hi => ?_
  interval_cases i <;> simp

theorem eq_of_low_zero (h : t &&& 0x0f = 0) : (t &&& 0xc0) ||| (t &&& 0x30) = t := by
  have := nibbles_or t
  rwa [h, UInt8.or_zero, UInt8.or_comm] at this

/-- The two header bytes and the flow label, restored. -/
@[simp] def IpHdr.withTf (ip h : IpHdr) : IpHdr :=
  { ip with vtc := h.vtc, tcflow := h.tcflow, flow0 := h.flow0, flow1 := h.flow1 }

/-- The traffic class and the flow label read back. -/
theorem uncompressTf_compressTf (hv : h.vtc >>> 4 = 6)
    (hfl : iphc0 &&& iphcFlC = (compressTf h).1 &&& iphcFlC)
    (htc : iphc0 &&& iphcTcC = (compressTf h).1 &&& iphcTcC) (ip : IpHdr) (p : List UInt8) :
    uncompressTf iphc0 ip ((compressTf h).2 ++ p) = some (ip.withTf h, p) := by
  have hvtc : h.vtc &&& 0x0f = 0 → h.vtc = 0x60 := fun h0 => by
    rw [← version_or hv, h0]; rfl
  unfold uncompressTf
  rw [hfl, htc]
  by_cases hf : h.tcflow &&& 0x0F = 0 ∧ h.flow0 = 0 ∧ h.flow1 = 0 <;>
    by_cases ht : h.vtc &&& 0x0F = 0 ∧ h.tcflow &&& 0xF0 = 0
  · have hc : compressTf h = (iphcFlC ||| iphcTcC, []) := by
      rw [compressTf, if_pos hf, if_pos ht]
    have ht0 : h.tcflow = 0 := by
      rw [← nibbles_or h.tcflow, hf.1, and_eq_zero_of_sub ht.2 (by decide),
        and_eq_zero_of_sub ht.2 (by decide)]; rfl
    rw [hc, if_neg (by decide), if_neg (by decide), IpHdr.withTf, hvtc ht.1,
      ht0, hf.2.1, hf.2.2, List.nil_append]
  · have hc : compressTf h = (iphcFlC, [ecnDscp h.vtc h.tcflow]) := by
      rw [compressTf, if_pos hf, if_neg ht]
    have hd : ((ecnDscp h.vtc h.tcflow <<< 6) &&& (0xC0 : UInt8)) |||
        ((ecnDscp h.vtc h.tcflow >>> 2) &&& (0x30 : UInt8)) = h.tcflow := by
      rw [ecnDscp_dscp, ecnDscp_ecn, UInt8.and_assoc, UInt8.and_self, eq_of_low_zero hf.1]
    rw [hc]
    dsimp only
    rw [if_neg (by decide), if_pos (by decide)]
    simp [version_or hv, hd, hf.2]
  · have hc : compressTf h = (iphcTcC,
        [(ecnDscp h.vtc h.tcflow &&& 0xc0) ||| (h.tcflow &&& 0x0F), h.flow0, h.flow1]) := by
      rw [compressTf, if_neg hf, if_pos ht]
    have hd := nibbles_or h.tcflow
    rw [and_eq_zero_of_sub ht.2 (m := 0xc0) (by decide), UInt8.or_zero] at hd
    rw [hc]
    dsimp only
    rw [if_pos (by decide), if_neg (by decide)]
    simp [hvtc ht.1, ecnDscp_flow rfl, hd]
  · have hc : compressTf h = (0, [ecnDscp h.vtc h.tcflow, h.tcflow, h.flow0, h.flow1]) := by
      rw [compressTf, if_neg hf, if_neg ht]
    have hd := nibbles_or h.tcflow
    rw [← ecnDscp_ecn h.vtc, ← ecnDscp_dscp h.vtc] at hd
    rw [hc]
    simp [version_or hv, hd]

/-! ### Next header and hop limit -/

/-- When the next header is elided, the byte is the loop's to restore. -/
theorem uncompressNh_compressNh
    (hnh : iphc0 &&& iphcNhC = (compressNh h).1 &&& iphcNhC) (ip : IpHdr) (p : List UInt8) :
    uncompressNh iphc0 ip ((compressNh h).2 ++ p) =
      some ({ ip with proto := if isCompressableProto h.proto then ip.proto else h.proto }, p) := by
  unfold uncompressNh
  rw [hnh]
  by_cases hc : isCompressableProto h.proto = true
  · simp [compressNh, hc, iphcNhC]
  · simp [compressNh, hc]

theorem uncompressTtl_compressTtl
    (ht : iphc0 &&& 0x03 = (compressTtl h).1) (ip : IpHdr) (p : List UInt8) :
    uncompressTtl iphc0 ip ((compressTtl h).2 ++ p) = some ({ ip with ttl := h.ttl }, p) := by
  unfold uncompressTtl
  rw [ht]
  unfold compressTtl
  split_ifs with h1 h2 h3
  all_goals simp_all [ttlValues]

/-! ### Addresses -/

/-- The bytes `uncompress_addr` assembles from `pre` bytes of the prefix and the bytes read. -/
def joinAddr (pfx : List UInt8) (pre : ℕ) (m : Linkaddr) (post : List UInt8) : List UInt8 :=
  let a := pfx.take pre ++ List.replicate (16 - (pre + post.length)) 0 ++ post
  if 0 < post.length then
    if post.length = 2 ∧ pre < 11 then (a.set 11 0xff).set 12 0xfe else a
  else if 0 < pre then uipDs6SetAddrIid a m
  else a

theorem uncompressAddr_append {n k : ℕ} (hn : (if c >>> 4 = 15 then 16 else (c >>> 4).toNat) = n)
    (hk : (if c &&& 0x0f = 15 then 16 else (c &&& 0x0f).toNat) = k) {post : List UInt8}
    (hp : post.length = k) (pfx : List UInt8) (m : Linkaddr) (p : List UInt8) :
    uncompressAddr pfx c m (post ++ p) = some (Ipaddr.ofBytes (joinAddr pfx n m post), p) := by
  subst hp
  unfold uncompressAddr
  simp only [hn, hk, readN_append rfl p]
  rfl

/-- The address with the link-local prefix and the identifier of `a`. -/
def llAddr (a : Ipaddr) : Ipaddr :=
  Ipaddr.ofBytes ([0xfe, 0x80, 0, 0, 0, 0, 0, 0] ++ a.toList.drop 8)

/-- Of the interface identifier the compressor inlines what the mode asks for.  From a context's
prefix the receiver gets the address back; from the link-local one it gets `llAddr`. -/
theorem uncompressAddr_compressAddr64 (bitpos : UInt8) (a : Ipaddr) (m : Linkaddr) :
    ∃ mode : UInt8, (mode = 1 ∨ mode = 2 ∨ mode = 3) ∧
      (compressAddr64 bitpos a m).1 = mode <<< bitpos ∧
      (∀ p, uncompressAddr (a.toList.take 8) (uncCtxconf mode) m
        ((compressAddr64 bitpos a m).2 ++ p) = some (a, p)) ∧
      (∀ p, uncompressAddr llprefix (uncLlconf mode) m
        ((compressAddr64 bitpos a m).2 ++ p) = some (llAddr a, p)) := by
  obtain ⟨b0, b1, b2, b3, b4, b5, b6, b7, b8, b9, b10, b11, b12, b13, b14, b15, rfl⟩ :=
    a.exists_bytes
  obtain ⟨m0, m1, m2, m3, m4, m5, m6, m7, rfl⟩ := m.exists_bytes
  unfold compressAddr64
  split_ifs with h1 h2
  · -- the identifier is the link address's
    have e : b8 = m0 ^^^ 2 ∧ b9 = m1 ∧ b10 = m2 ∧ b11 = m3 ∧ b12 = m4 ∧ b13 = m5 ∧ b14 = m6 ∧
        b15 = m7 := by
      simpa [uipIsAddrMacAddrBased] using h1
    obtain ⟨rfl, rfl, rfl, rfl, rfl, rfl, rfl, rfl⟩ := e
    refine ⟨3, by decide, rfl, fun p => ?_, fun p => ?_⟩
    · exact uncompressAddr_append (n := 8) (k := 0) (by decide) (by decide) rfl _ _ p
    · exact uncompressAddr_append (n := 2) (k := 0) (by decide) (by decide) rfl _ _ p
  · -- the identifier is `::ff:fe00:XXXX`
    have e : (b8 = 0 ∧ b9 = 0) ∧ b10 = 0 ∧ b11 = 0xff ∧ b12 = 0xfe ∧ b13 = 0 := by
      simpa [isIid16BitCompressable, Ipaddr.u16Zero, and_assoc] using h2
    obtain ⟨⟨rfl, rfl⟩, rfl, rfl, rfl, rfl⟩ := e
    refine ⟨2, by decide, rfl, fun p => ?_, fun p => ?_⟩
    · exact uncompressAddr_append (n := 8) (k := 2) (by decide) (by decide) rfl _ _ p
    · exact uncompressAddr_append (n := 2) (k := 2) (by decide) (by decide) rfl _ _ p
  · -- the whole identifier
    refine ⟨1, by decide, rfl, fun p => ?_, fun p => ?_⟩
    · exact uncompressAddr_append (n := 8) (k := 8) (by decide) (by decide) rfl _ _ p
    · exact uncompressAddr_append (n := 2) (k := 8) (by decide) (by decide) rfl _ _ p

/-- A whole address inline. -/
theorem uncompressAddr_whole (h4 : c >>> 4 = 0) (h0 : c &&& 0x0f = 15) (a : Ipaddr)
    (pfx : List UInt8) (m : Linkaddr) (p : List UInt8) :
    uncompressAddr pfx c m (a.toList ++ p) = some (a, p) := by
  rw [uncompressAddr_append (n := 0) (by rw [h4]; rfl) (by rw [h0]; rfl)
    a.toList_length]
  simp [joinAddr]

variable (ctxs)

/-- The source address is coded without a context and without its prefix. -/
@[simp] def srcPrefixElided (ip : IpHdr) : Bool :=
  !uipIsAddrUnspecified ip.srcipaddr && (addrContextLookupByPrefix ctxs ip.srcipaddr).isNone &&
    uipIsAddrLinklocal ip.srcipaddr && ip.destipaddr.u16Zero 1 && ip.destipaddr.u16Zero 2 &&
    ip.destipaddr.u16Zero 3

/-- A link-local address keeps its bytes exactly when bytes 2 to 7 are zero. -/
theorem llAddr_eq_iff (h : uipIsAddrLinklocal a = true) :
    llAddr a = a ↔ a.u16Zero 1 = true ∧ a.u16Zero 2 = true ∧ a.u16Zero 3 = true := by
  obtain ⟨b0, b1, b2, b3, b4, b5, b6, b7, b8, b9, b10, b11, b12, b13, b14, b15, rfl⟩ :=
    a.exists_bytes
  simp only [uipIsAddrLinklocal, Bool.and_eq_true, beq_iff_eq] at h
  obtain ⟨rfl, rfl⟩ : b0 = 0xfe ∧ b1 = 0x80 := h
  have he : llAddr ⟨[0xfe, 0x80, b2, b3, b4, b5, b6, b7, b8, b9, b10, b11, b12, b13, b14, b15],
      rfl⟩ = ⟨[0xfe, 0x80, 0, 0, 0, 0, 0, 0, b8, b9, b10, b11, b12, b13, b14, b15], rfl⟩ := rfl
  simp only [Ipaddr.u16Zero, Bool.and_eq_true, beq_iff_eq]
  constructor
  · intro h
    have hl : [0xfe, 0x80, 0, 0, 0, 0, 0, 0, b8, b9, b10, b11, b12, b13, b14, b15] =
        [0xfe, 0x80, b2, b3, b4, b5, b6, b7, b8, b9, b10, b11, b12, b13, b14, b15] :=
      congrArg List.Vector.toList (he.symm.trans h)
    obtain ⟨rfl, rfl, rfl, rfl, rfl, rfl⟩ := hl
    exact ⟨⟨rfl, rfl⟩, ⟨rfl, rfl⟩, rfl, rfl⟩
  · rintro ⟨⟨h2, h3⟩, ⟨h4, h5⟩, h6, h7⟩
    obtain rfl : b2 = 0 := h2
    obtain rfl : b3 = 0 := h3
    obtain rfl : b4 = 0 := h4
    obtain rfl : b5 = 0 := h5
    obtain rfl : b6 = 0 := h6
    obtain rfl : b7 = 0 := h7
    exact he

/-- The source address the receiver restores. -/
def receivedSrc (ip : IpHdr) : Ipaddr :=
  if srcPrefixElided ctxs ip then llAddr ip.srcipaddr else ip.srcipaddr

theorem eq_zero_of_unspecified (h : uipIsAddrUnspecified a = true) : a = Ipaddr.ofBytes [] := by
  obtain ⟨b0, b1, b2, b3, b4, b5, b6, b7, b8, b9, b10, b11, b12, b13, b14, b15, rfl⟩ :=
    a.exists_bytes
  simp only [uipIsAddrUnspecified, Ipaddr.u16Zero, Bool.and_eq_true, beq_iff_eq] at h
  obtain ⟨⟨⟨⟨⟨⟨⟨⟨rfl, rfl⟩, rfl, rfl⟩, rfl, rfl⟩, rfl, rfl⟩, rfl, rfl⟩, rfl, rfl⟩, rfl, rfl⟩,
    rfl, rfl⟩ := h
  rfl

/-- What `compress_hdr_iphc` makes of the source address. -/
theorem compressSrc_cases (m : Linkaddr) (h : IpHdr) :
    (uipIsAddrUnspecified h.srcipaddr = true ∧ srcPrefixElided ctxs h = false ∧
      compressSrc ctxs m h = ⟨iphcSac, 0, []⟩) ∨
    (∃ c, uipIsAddrUnspecified h.srcipaddr = false ∧
      addrContextLookupByPrefix ctxs h.srcipaddr = some c ∧ srcPrefixElided ctxs h = false ∧
      compressSrc ctxs m h = ⟨iphcCid ||| iphcSac ||| (compressAddr64 iphcSamBit h.srcipaddr m).1,
        c.number <<< 4, (compressAddr64 iphcSamBit h.srcipaddr m).2⟩) ∨
    (addrContextLookupByPrefix ctxs h.srcipaddr = none ∧ srcPrefixElided ctxs h = true ∧
      compressSrc ctxs m h = ⟨(compressAddr64 iphcSamBit h.srcipaddr m).1, 0,
        (compressAddr64 iphcSamBit h.srcipaddr m).2⟩) ∨
    (addrContextLookupByPrefix ctxs h.srcipaddr = none ∧ srcPrefixElided ctxs h = false ∧
      compressSrc ctxs m h = ⟨0, 0, h.srcipaddr.toList⟩) := by
  by_cases hu : uipIsAddrUnspecified h.srcipaddr = true
  · exact .inl ⟨hu, by simp [hu], by rw [compressSrc, if_pos hu]⟩
  cases hl : addrContextLookupByPrefix ctxs h.srcipaddr with
  | some c =>
    exact .inr (.inl ⟨c, by simpa using hu, rfl, by simp [hl],
      by rw [compressSrc, if_neg hu, hl]⟩)
  | none =>
    by_cases he : srcPrefixElided ctxs h = true
    · refine .inr (.inr (.inl ⟨rfl, he, ?_⟩))
      rw [compressSrc]
      simp_all [srcPrefixElided]
    · refine .inr (.inr (.inr ⟨rfl, by simpa using he, ?_⟩))
      rw [compressSrc]
      simp_all [srcPrefixElided]

variable {ctxs}

/-- The source reads back, with the prefix that the receiver gives it. -/
theorem uncompressSrc_compressSrc (hc : ContextsOk ctxs)
    (hsam : iphc1 &&& 0x30 = (compressSrc ctxs m h).bits &&& 0x30)
    (hsac : iphc1 &&& iphcSac = (compressSrc ctxs m h).bits &&& iphcSac)
    (hctx : uipIsAddrUnspecified h.srcipaddr = false →
      ∀ c, addrContextLookupByPrefix ctxs h.srcipaddr = some c →
        iphc1 &&& iphcCid ≠ 0 ∧ ctx >>> 4 = c.number) (p : List UInt8) :
    uncompressSrc ctxs m iphc1 ctx ((compressSrc ctxs m h).inl ++ p) =
      some (some (receivedSrc ctxs h, p)) := by
  unfold uncompressSrc
  rw [hsam, hsac]
  obtain ⟨mode, hmode, hbits, hctxa, hlla⟩ :=
    uncompressAddr_compressAddr64 iphcSamBit h.srcipaddr m
  unfold receivedSrc
  rcases compressSrc_cases ctxs m h with ⟨hu, he, hcode⟩ | ⟨c, hu, hl, he, hcode⟩ | ⟨-, he, hcode⟩ |
    ⟨-, he, hcode⟩ <;> rw [he, hcode]
  · rw [eq_zero_of_unspecified hu]
    rfl
  · obtain ⟨hcid, hnum⟩ := hctx hu c hl
    obtain ⟨hm, hused, hpfx⟩ := addrContextLookupByPrefix_some hl
    rw [hbits]
    dsimp only
    rw [hnum, if_pos hcid, addrContextLookupByNumber_of_mem hc hm hused]
    dsimp only
    rw [hpfx]
    rcases hmode with rfl | rfl | rfl
    all_goals
      rw [if_pos (by decide), if_pos (by decide)]
      exact congrArg _ (hctxa p)
  · rw [hbits]
    dsimp only
    rcases hmode with rfl | rfl | rfl
    all_goals
      rw [if_neg (by decide)]
      exact congrArg _ (hlla p)
  · dsimp only
    rw [if_neg (by decide), uncompressAddr_whole (by decide) (by decide)]
    rfl

/-- The bytes of a multicast address that are not sent. -/
theorem joinAddr_mcast {n : ℕ} (hmc : uipIsAddrMcast a = true)
    (hn : n = 15 ∧ isMcastAddrCompressable8 a = true ∨ n = 13 ∧ isMcastAddrCompressable32 a = true ∨
      n = 11 ∧ isMcastAddrCompressable48 a = true) :
    Ipaddr.ofBytes (joinAddr [0xff, a.u8 1] 2 linkaddrNull (a.toList.drop n)) = a := by
  obtain ⟨b0, b1, b2, b3, b4, b5, b6, b7, b8, b9, b10, b11, b12, b13, b14, b15, rfl⟩ :=
    a.exists_bytes
  simp only [uipIsAddrMcast, isMcastAddrCompressable8, isMcastAddrCompressable32,
    isMcastAddrCompressable48, Ipaddr.u16Zero, Bool.and_eq_true, beq_iff_eq] at hmc hn
  obtain rfl : b0 = 0xff := hmc
  rcases hn with ⟨rfl, ⟨⟨⟨⟨⟨⟨⟨rfl, rfl, rfl⟩, rfl, rfl⟩, rfl, rfl⟩, rfl, rfl⟩, rfl, rfl⟩, rfl, rfl⟩,
    rfl⟩⟩ |
    ⟨rfl, ⟨⟨⟨⟨⟨⟨rfl, rfl⟩, rfl, rfl⟩, rfl, rfl⟩, rfl, rfl⟩, rfl, rfl⟩, rfl⟩⟩ |
    ⟨rfl, ⟨⟨⟨⟨⟨rfl, rfl⟩, rfl, rfl⟩, rfl, rfl⟩, rfl, rfl⟩, rfl⟩⟩
  all_goals rfl

/-- The four codes of a multicast destination. -/
theorem uncompressDest_mcast (hmc : uipIsAddrMcast h.destipaddr = true)
    (hb : iphc1 &&& 0x0f = (compressDest ctxs m h).bits &&& 0x0f) (ctx : UInt8) (old : Ipaddr)
    (p : List UInt8) :
    uncompressDest ctxs m iphc1 ctx old ((compressDest ctxs m h).inl ++ p) =
      some (some (h.destipaddr, p)) := by
  have hdam := and_eq_of_sub hb (m := 0x03) (by decide)
  have hm := and_eq_of_sub hb (m := iphcM) (by decide)
  have hdac := and_eq_of_sub hb (m := iphcDac) (by decide)
  unfold uncompressDest
  rw [hdam, hm, hdac]
  by_cases h8 : isMcastAddrCompressable8 h.destipaddr = true
  · have hcode : compressDest ctxs m h = ⟨iphcM ||| 0x03, 0, h.destipaddr.toList.drop 15⟩ := by
      rw [compressDest, if_pos hmc, if_pos h8]
    have h2 : h.destipaddr.u8 1 = 2 := by grind [isMcastAddrCompressable8]
    rw [hcode]
    dsimp only
    rw [if_pos (by decide), if_neg (by decide),
      uncompressAddr_append (n := 2) (k := 1) (by decide) (by decide) (by simp)]
    rw [← h2, joinAddr_mcast hmc (.inl ⟨rfl, h8⟩)]
    rfl
  by_cases h32 : isMcastAddrCompressable32 h.destipaddr = true
  · have hcode : compressDest ctxs m h =
        ⟨iphcM ||| 0x02, 0, h.destipaddr.u8 1 :: h.destipaddr.toList.drop 13⟩ := by
      rw [compressDest, if_pos hmc, if_neg h8, if_pos h32]
    rw [hcode]
    dsimp only [List.cons_append]
    rw [if_pos (by decide), if_neg (by decide),
      uncompressAddr_append (n := 2) (k := 3) (by decide) (by decide) (by simp)]
    rw [joinAddr_mcast hmc (.inr (.inl ⟨rfl, h32⟩))]
    rfl
  by_cases h48 : isMcastAddrCompressable48 h.destipaddr = true
  · have hcode : compressDest ctxs m h =
        ⟨iphcM ||| 0x01, 0, h.destipaddr.u8 1 :: h.destipaddr.toList.drop 11⟩ := by
      rw [compressDest, if_pos hmc, if_neg h8, if_neg h32, if_pos h48]
    rw [hcode]
    dsimp only [List.cons_append]
    rw [if_pos (by decide), if_neg (by decide),
      uncompressAddr_append (n := 2) (k := 5) (by decide) (by decide) (by simp)]
    rw [joinAddr_mcast hmc (.inr (.inr ⟨rfl, h48⟩))]
    rfl
  · have hcode : compressDest ctxs m h = ⟨iphcM, 0, h.destipaddr.toList⟩ := by
      rw [compressDest, if_pos hmc, if_neg h8, if_neg h32, if_neg h48]
    rw [hcode]
    dsimp only
    rw [if_pos (by decide), if_neg (by decide),
      uncompressAddr_whole (by decide) (by decide)]
    rfl

/-- What `compress_hdr_iphc` makes of a destination that is not multicast. -/
theorem compressDest_cases (ctxs : List AddrContext) (m : Linkaddr)
    (hmc : ¬uipIsAddrMcast h.destipaddr = true) :
    (∃ c, addrContextLookupByPrefix ctxs h.destipaddr = some c ∧
      compressDest ctxs m h = ⟨iphcDac ||| (compressAddr64 iphcDamBit h.destipaddr m).1,
        c.number, (compressAddr64 iphcDamBit h.destipaddr m).2⟩) ∨
    (addrContextLookupByPrefix ctxs h.destipaddr = none ∧ uipIsAddrLinklocal h.destipaddr = true ∧
      (h.destipaddr.u16Zero 1 = true ∧ h.destipaddr.u16Zero 2 = true ∧
        h.destipaddr.u16Zero 3 = true) ∧
      compressDest ctxs m h = ⟨(compressAddr64 iphcDamBit h.destipaddr m).1, 0,
        (compressAddr64 iphcDamBit h.destipaddr m).2⟩) ∨
    (addrContextLookupByPrefix ctxs h.destipaddr = none ∧
      compressDest ctxs m h = ⟨0, 0, h.destipaddr.toList⟩) := by
  cases hl : addrContextLookupByPrefix ctxs h.destipaddr with
  | some c => exact .inl ⟨c, rfl, by rw [compressDest, if_neg hmc, hl]⟩
  | none =>
    by_cases he : (uipIsAddrLinklocal h.destipaddr && h.destipaddr.u16Zero 1 &&
        h.destipaddr.u16Zero 2 && h.destipaddr.u16Zero 3) = true
    · have he' := he
      simp only [Bool.and_eq_true] at he'
      refine .inr (.inl ⟨rfl, he'.1.1.1, ⟨he'.1.1.2, he'.1.2, he'.2⟩, ?_⟩)
      rw [compressDest, if_neg hmc, hl]
      exact if_pos he
    · refine .inr (.inr ⟨rfl, ?_⟩)
      rw [compressDest, if_neg hmc, hl]
      exact if_neg he

/-- The destination reads back. -/
theorem uncompressDest_compressDest (hc : ContextsOk ctxs)
    (hb : iphc1 &&& 0x0f = (compressDest ctxs m h).bits &&& 0x0f)
    (hctx : uipIsAddrMcast h.destipaddr = false →
      ∀ c, addrContextLookupByPrefix ctxs h.destipaddr = some c →
        iphc1 &&& iphcCid ≠ 0 ∧ ctx &&& 0x0f = c.number) (old : Ipaddr) (p : List UInt8) :
    uncompressDest ctxs m iphc1 ctx old ((compressDest ctxs m h).inl ++ p) =
      some (some (h.destipaddr, p)) := by
  by_cases hmc : uipIsAddrMcast h.destipaddr = true
  · exact uncompressDest_mcast hmc hb ctx old p
  have hdam := and_eq_of_sub hb (m := 0x03) (by decide)
  have hm := and_eq_of_sub hb (m := iphcM) (by decide)
  have hdac := and_eq_of_sub hb (m := iphcDac) (by decide)
  unfold uncompressDest
  rw [hdam, hm, hdac]
  obtain ⟨mode, hmode, hbits, hctxa, hlla⟩ :=
    uncompressAddr_compressAddr64 iphcDamBit h.destipaddr m
  rcases compressDest_cases ctxs m hmc with ⟨c, hl, hcode⟩ | ⟨-, hll, hz, hcode⟩ | ⟨-, hcode⟩
  · obtain ⟨hcid, hnum⟩ := hctx (by simpa using hmc) c hl
    obtain ⟨hmem, hused, hpfx⟩ := addrContextLookupByPrefix_some hl
    rw [hcode, hbits]
    dsimp only
    rw [hnum, if_pos hcid, addrContextLookupByNumber_of_mem hc hmem hused]
    dsimp only
    rw [hpfx]
    rcases hmode with rfl | rfl | rfl
    all_goals
      rw [if_neg (by decide), if_pos (by decide)]
      exact congrArg _ (hctxa p)
  · have hp := hlla p
    rw [(llAddr_eq_iff hll).mpr hz] at hp
    rw [hcode, hbits]
    dsimp only
    rcases hmode with rfl | rfl | rfl
    all_goals
      rw [if_neg (by decide), if_neg (by decide)]
      exact congrArg _ hp
  · rw [hcode]
    dsimp only
    rw [if_neg (by decide), if_neg (by decide), uncompressAddr_whole (by decide) (by decide)]
    rfl

end Nespy.Sicslowpan
