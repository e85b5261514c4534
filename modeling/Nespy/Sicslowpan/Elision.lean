import Nespy.Sicslowpan.Lossless

/-!
# Sicslowpan — eliding a prefix without a context

An address is sent without its first 64 bits and without a context only when it is link-local, and
the receiver then puts `fe80::/64` in front of what it gets.  That is the address sent exactly when
bytes 2 to 7 of it are zero.  `compress_hdr_iphc` tests this for the destination; for the source it
tests the same bytes of the *destination*.  So every elision is sound for the destination, and for
the source exactly under `SrcOk` (`elision_sound_iff`).

What is emitted is read off the second encoding byte, as the receiver reads it.
-/

namespace Nespy.Sicslowpan

open Nespy.Lib

/-- The second encoding byte announces a source without its prefix and without a context. -/
def srcModeElides (iphc1 : UInt8) : Prop := iphc1 &&& iphcSac = 0 ∧ iphc1 &&& 0x30 ≠ 0

/-- The same of a unicast destination. -/
def destModeElides (iphc1 : UInt8) : Prop :=
  iphc1 &&& iphcM = 0 ∧ iphc1 &&& iphcDac = 0 ∧ iphc1 &&& 0x03 ≠ 0

instance (iphc1 : UInt8) : Decidable (srcModeElides iphc1) := inferInstanceAs (Decidable (_ ∧ _))

instance (iphc1 : UInt8) : Decidable (destModeElides iphc1) := inferInstanceAs (Decidable (_ ∧ _))

/-- Bytes 2 to 7 are zero. -/
def Ipaddr.PrefixZero (a : Ipaddr) : Prop := ∀ i, 2 ≤ i → i < 8 → a.u8 i = 0

theorem Ipaddr.prefixZero_iff (a : Ipaddr) :
    a.PrefixZero ↔ a.u16Zero 1 = true ∧ a.u16Zero 2 = true ∧ a.u16Zero 3 = true := by
  simp only [u16Zero, Bool.and_eq_true, beq_iff_eq]
  constructor
  · intro h
    exact ⟨⟨h 2 (by omega) (by omega), h 3 (by omega) (by omega)⟩,
      ⟨h 4 (by omega) (by omega), h 5 (by omega) (by omega)⟩,
      h 6 (by omega) (by omega), h 7 (by omega) (by omega)⟩
  · rintro ⟨⟨h2, h3⟩, ⟨h4, h5⟩, h6, h7⟩ i hi hi'
    obtain rfl | rfl | rfl | rfl | rfl | rfl :
        i = 2 ∨ i = 3 ∨ i = 4 ∨ i = 5 ∨ i = 6 ∨ i = 7 := by omega
    · exact h2
    · exact h3
    · exact h4
    · exact h5
    · exact h6
    · exact h7

/-- **Sound elision.**  For what `compress_hdr_iphc` emitted, `c`: an address whose mode elides the
prefix without a context has zeroes in bytes 2 to 7, and the receiver's `uncompress_addr` makes the
same sixteen bytes of what was inlined for it, with any contexts and whatever follows. -/
structure ElisionSound (ctxs : List AddrContext) (uipLladdr linkDestaddr : Linkaddr) (b : UipBuf)
    (c : Compressed) : Prop where
  src : srcModeElides (c.out.getD 1 0) → b.ip.srcipaddr.PrefixZero ∧
    ∀ ctxs' ctx rest, uncompressSrc ctxs' uipLladdr (c.out.getD 1 0) ctx
      ((compressSrc ctxs uipLladdr b.ip).inl ++ rest) = some (some (b.ip.srcipaddr, rest))
  dest : destModeElides (c.out.getD 1 0) → b.ip.destipaddr.PrefixZero ∧
    ∀ ctxs' ctx old rest, uncompressDest ctxs' linkDestaddr (c.out.getD 1 0) ctx old
      ((compressDest ctxs linkDestaddr b.ip).inl ++ rest) = some (some (b.ip.destipaddr, rest))

/-! ### The modes -/

section Modes

variable {ctxs : List AddrContext} {m md : Linkaddr} {h : IpHdr}

theorem compressAddr64_mode {bitpos : UInt8} (hpos : bitpos = iphcSamBit ∨ bitpos = iphcDamBit)
    (a : Ipaddr) : (compressAddr64 bitpos a m).1 &&& 0x4c = 0 ∧
      (compressAddr64 bitpos a m).1 &&& (3 <<< bitpos) ≠ 0 := by
  rcases hpos with rfl | rfl <;>
    rcases compressAddr64_bits m _ a with hb | hb | hb <;> rw [hb] <;> decide

/-- The mode of the source says just what `compress_hdr_iphc` decided on. -/
theorem srcModeElides_iff :
    srcModeElides (iphc1Of ctxs m h md) ↔ srcPrefixElided ctxs h = true := by
  obtain ⟨hlow, hmode⟩ := compressAddr64_mode (.inl rfl) h.srcipaddr
  have hsac := and_eq_zero_of_sub hlow (m := iphcSac) (by decide)
  unfold srcModeElides
  rw [iphc1Of_src ctxs m h md (by decide), iphc1Of_src ctxs m h md (by decide)]
  rcases compressSrc_cases ctxs m h with ⟨-, he, hcode⟩ | ⟨c, -, -, he, hcode⟩ | ⟨-, he, hcode⟩ |
    ⟨-, he, hcode⟩ <;> rw [he, hcode]
  · simp [iphcSac]
  · -- SAC is set, whatever the mode is
    rw [or_and_distrib, hsac]
    exact iff_of_false (fun h0 => absurd h0.1 (by decide)) (by decide)
  · exact iff_of_true ⟨hsac, hmode⟩ rfl
  · simp

/-- A source sent without its prefix and without a context comes back as `llAddr`. -/
theorem uncompressSrc_of_elided (he : srcPrefixElided ctxs h = true) (ctxs' : List AddrContext)
    (ctx : UInt8) (rest : List UInt8) :
    uncompressSrc ctxs' m (iphc1Of ctxs m h md) ctx ((compressSrc ctxs m h).inl ++ rest) =
      some (some (llAddr h.srcipaddr, rest)) := by
  obtain ⟨mode, hmode, hbits, -, hlla⟩ := uncompressAddr_compressAddr64 iphcSamBit h.srcipaddr m
  have hm : ((mode <<< iphcSamBit &&& 0x30) >>> iphcSamBit) &&& 0x03 = mode := by
    rcases hmode with rfl | rfl | rfl <;> decide
  have hsac : iphc1Of ctxs m h md &&& iphcSac = 0 := (srcModeElides_iff.mpr he).1
  have hcode : compressSrc ctxs m h = ⟨(compressAddr64 iphcSamBit h.srcipaddr m).1, 0,
      (compressAddr64 iphcSamBit h.srcipaddr m).2⟩ := by
    rcases compressSrc_cases ctxs m h
      with ⟨-, h0, -⟩ | ⟨c, -, -, h0, -⟩ | ⟨-, -, hcode⟩ | ⟨-, h0, -⟩
    · rw [he] at h0; cases h0
    · rw [he] at h0; cases h0
    · exact hcode
    · rw [he] at h0; cases h0
  unfold uncompressSrc
  rw [if_neg (not_not.mpr hsac), iphc1Of_src ctxs m h md (by decide), hcode, hbits]
  rw [hm, hlla]
  rfl

variable (he : destModeElides (iphc1Of ctxs m h md))

include he

/-- A destination whose mode elides the prefix is unicast and was tested for the zeroes. -/
theorem compressDest_of_elides :
    uipIsAddrLinklocal h.destipaddr = true ∧ h.destipaddr.PrefixZero ∧
      compressDest ctxs md h = ⟨(compressAddr64 iphcDamBit h.destipaddr md).1, 0,
        (compressAddr64 iphcDamBit h.destipaddr md).2⟩ := by
  obtain ⟨hM, hdac, hmode⟩ := he
  have hb := iphc1Of_dest ctxs m h md
  rw [and_eq_of_sub hb (by decide)] at hM
  rw [and_eq_of_sub hb (by decide)] at hdac
  rw [and_eq_of_sub hb (by decide)] at hmode
  have hmc : ¬uipIsAddrMcast h.destipaddr = true :=
    fun hmc => (compressDest_mcast ctxs md h hmc).2.2 hM
  rcases compressDest_cases ctxs md hmc with ⟨c, -, hcode⟩ | ⟨-, hll, hz, hcode⟩ | ⟨-, hcode⟩
  · rw [hcode] at hdac
    rw [or_and_distrib] at hdac
    exact absurd (UInt8.or_eq_zero_iff.mp hdac).1 (by decide)
  · exact ⟨hll, (Ipaddr.prefixZero_iff _).mpr hz, hcode⟩
  · rw [hcode] at hmode
    exact absurd UInt8.zero_and hmode

theorem uncompressDest_of_elides (ctxs' : List AddrContext) (ctx : UInt8) (old : Ipaddr)
    (rest : List UInt8) :
    uncompressDest ctxs' md (iphc1Of ctxs m h md) ctx old ((compressDest ctxs md h).inl ++ rest) =
      some (some (h.destipaddr, rest)) := by
  obtain ⟨mode, hmode, hbits, -, hlla⟩ := uncompressAddr_compressAddr64 iphcDamBit h.destipaddr md
  have hm : ((mode <<< iphcDamBit &&& 0x03) >>> iphcDamBit) &&& 0x03 = mode := by
    rcases hmode with rfl | rfl | rfl <;> decide
  obtain ⟨hll, hz, hcode⟩ := compressDest_of_elides he
  rw [(llAddr_eq_iff hll).mpr ((Ipaddr.prefixZero_iff _).mp hz)] at hlla
  unfold uncompressDest
  rw [if_neg (not_not.mpr he.1), if_neg (not_not.mpr he.2.1),
    and_eq_of_sub (iphc1Of_dest ctxs m h md) (by decide), hcode, hbits]
  rw [hm, hlla]
  rfl

end Modes

/-! ### Soundness -/

/-- What is emitted starts with the two encoding bytes. -/
theorem compressHdrIphc_iphc1 {ctxs : List AddrContext} {m md : Linkaddr} {M : ℕ}
    (hM : M ≤ macMaxPayload) {b : UipBuf} {c : Compressed}
    (h : compressHdrIphc ctxs m md M b = .ok c) : c.out.getD 1 0 = iphc1Of ctxs m b.ip md := by
  obtain ⟨code, -, -, hout, -⟩ := compressHdrIphc_ok hM h
  rw [hout]
  rfl

/-- **Address elision.**  What `compress_hdr_iphc` emits elides prefixes soundly exactly when,
should it have elided the source's, bytes 2 to 7 of the source are zero. -/
theorem elision_sound_iff {ctxs : List AddrContext} {uipLladdr linkDestaddr : Linkaddr}
    (framerHdrlen : ℕ) {b : UipBuf} {c : Compressed}
    (hok : compressHdrIphc ctxs uipLladdr linkDestaddr (macMaxPayload - framerHdrlen) b = .ok c) :
    ElisionSound ctxs uipLladdr linkDestaddr b c ↔ SrcOk ctxs b.ip := by
  have h1 := compressHdrIphc_iphc1 (Nat.sub_le _ _) hok
  constructor
  · intro hs he
    refine (Ipaddr.prefixZero_iff _).mp (hs.src ?_).1
    rw [h1]
    exact srcModeElides_iff.mpr he
  · intro hs
    constructor
    · rw [h1]
      intro he
      have he := srcModeElides_iff.mp he
      have hll : uipIsAddrLinklocal b.ip.srcipaddr = true := by simp_all [srcPrefixElided]
      refine ⟨(Ipaddr.prefixZero_iff _).mpr (hs he), fun ctxs' ctx rest => ?_⟩
      rw [uncompressSrc_of_elided he, (llAddr_eq_iff hll).mpr (hs he)]
    · rw [h1]
      intro he
      exact ⟨(compressDest_of_elides he).2.1, uncompressDest_of_elides he⟩

/-- The link-local address of node B. -/
def linkLocalB : Ipaddr := ⟨[0xfe, 0x80, 0, 0, 0, 0, 0, 0, 11, 2, 3, 4, 5, 6, 7, 8], rfl⟩

/-- An ICMPv6 packet without data from `src`, at node A, to the link-local address of node B. -/
def pingFrom (src : Ipaddr) : UipBuf where
  ip := {
    vtc := 0x60
    tcflow := 0
    flow0 := 0
    flow1 := 0
    len0 := 0
    len1 := 0
    proto := 58
    ttl := 64
    srcipaddr := src
    destipaddr := linkLocalB }
  pay := []

/-- The link-local address of node A. -/
def linkLocalA : Ipaddr := ⟨[0xfe, 0x80, 0, 0, 0, 0, 0, 0, 3, 2, 3, 4, 5, 6, 7, 8], rfl⟩

/-- The same identifier in the subnet `fe80:0:0:1::/64`. -/
def subnetA : Ipaddr := ⟨[0xfe, 0x80, 0, 0, 0, 0, 0, 1, 3, 2, 3, 4, 5, 6, 7, 8], rfl⟩

theorem elision_sound_iff_linkLocalA :
    compressHdrIphc [] nodeA nodeB (macMaxPayload - 21) (pingFrom linkLocalA) =
      .ok ⟨[0x7a, 0x33, 58], 40⟩ ∧
    (ElisionSound [] nodeA nodeB (pingFrom linkLocalA) ⟨[0x7a, 0x33, 58], 40⟩ ↔
      SrcOk [] (pingFrom linkLocalA).ip) :=
  ⟨by decide +kernel, elision_sound_iff 21 (by decide +kernel)⟩

/-- The destination's zeroes let the source's prefix go, and both sources get the same code. -/
theorem source_elided_for_destination :
    compressHdrIphc [] nodeA nodeB (macMaxPayload - 21) (pingFrom subnetA) =
      .ok ⟨[0x7a, 0x33, 58], 40⟩ ∧
    srcModeElides 0x33 ∧ ¬subnetA.PrefixZero ∧
    uncompressSrc [] nodeA 0x33 0 [] = some (some (linkLocalA, [])) ∧ linkLocalA ≠ subnetA ∧
    ¬ElisionSound [] nodeA nodeB (pingFrom subnetA) ⟨[0x7a, 0x33, 58], 40⟩ := by
  have hz : ¬subnetA.PrefixZero := fun h => absurd (h 7 (by decide) (by decide)) (by decide)
  refine ⟨by decide +kernel, by decide, hz, by decide +kernel, by decide, fun h => ?_⟩
  exact hz (h.src (by decide)).1

end Nespy.Sicslowpan
