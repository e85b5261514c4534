import Nespy.Lib.Memory

/-!
# Sicslowpan — addresses and contexts

The addresses `net/ipv6/sicslowpan.c` compresses, with the tests `net/ipv6/uip.h` and
`net/ipv6/sicslowpan.h` make on them, and the table of address contexts.  An IPv6 address is its
sixteen bytes `u8`, a link address its eight (`LINKADDR_SIZE`, the default build), so a value of
either type has the right width by construction.  A test on `u16[k]` being zero is a test on the two
bytes it overlays, in either byte order.
-/

namespace Nespy.Sicslowpan

/-- `uip_ipaddr_t`. -/
abbrev Ipaddr := List.Vector UInt8 16

/-- `linkaddr_t` and `uip_lladdr_t`, which `sicslowpan.c` casts into each other. -/
abbrev Linkaddr := List.Vector UInt8 8

namespace Ipaddr

variable (a : Ipaddr)

/-- `a->u8[i]`. -/
@[simp] def u8 (i : ℕ) : UInt8 := a.toList.getD i 0

/-- `a->u16[i] == 0`. -/
def u16Zero (i : ℕ) : Bool := a.u8 (2 * i) == 0 && a.u8 (2 * i + 1) == 0

/-- The address whose bytes are the first sixteen of `l`. -/
def ofBytes (l : List UInt8) : Ipaddr := ⟨(List.range 16).map (l.getD · 0), by simp⟩

/-- An address is its sixteen bytes, by name. -/
theorem exists_bytes : ∃ b0 b1 b2 b3 b4 b5 b6 b7 b8 b9 b10 b11 b12 b13 b14 b15, a =
      ⟨[b0, b1, b2, b3, b4, b5, b6, b7, b8, b9, b10, b11, b12, b13, b14, b15], rfl⟩ := by
  obtain ⟨l, h⟩ := a
  match l, h with
  | [b0, b1, b2, b3, b4, b5, b6, b7, b8, b9, b10, b11, b12, b13, b14, b15], _ =>
    exact ⟨b0, b1, b2, b3, b4, b5, b6, b7, b8, b9, b10, b11, b12, b13, b14, b15, rfl⟩

theorem ofBytes_append (l : List UInt8) : ofBytes (a.toList ++ l) = a := by
  obtain ⟨b0, b1, b2, b3, b4, b5, b6, b7, b8, b9, b10, b11, b12, b13, b14, b15, rfl⟩ :=
    a.exists_bytes
  rfl

@[simp] theorem ofBytes_toList : ofBytes a.toList = a := by
  simpa using a.ofBytes_append []

end Ipaddr

/-- A link address is its eight bytes, by name. -/
theorem Linkaddr.exists_bytes (m : Linkaddr) :
    ∃ m0 m1 m2 m3 m4 m5 m6 m7, m = ⟨[m0, m1, m2, m3, m4, m5, m6, m7], rfl⟩ := by
  obtain ⟨l, h⟩ := m
  match l, h with
  | [m0, m1, m2, m3, m4, m5, m6, m7], _ => exact ⟨m0, m1, m2, m3, m4, m5, m6, m7, rfl⟩

/-- `linkaddr_null`. -/
def linkaddrNull : Linkaddr := ⟨List.replicate 8 0, rfl⟩

/-! ### Tests on addresses -/

variable (a : Ipaddr)

/-- `::`. -/
def uipIsAddrUnspecified : Bool :=
  a.u16Zero 0 && a.u16Zero 1 && a.u16Zero 2 && a.u16Zero 3 && a.u16Zero 4 && a.u16Zero 5 &&
    a.u16Zero 6 && a.u16Zero 7

/-- `fe80::/16`. -/
def uipIsAddrLinklocal : Bool := a.u8 0 == 0xfe && a.u8 1 == 0x80

/-- `ff00::/8`. -/
def uipIsAddrMcast : Bool := a.u8 0 == 0xff

/-- `uip_is_addr_mac_addr_based`, for 802.15.4 long addresses. -/
def uipIsAddrMacAddrBased (m : Linkaddr) : Bool :=
  a.toList.drop 8 == (m.toList.headD 0 ^^^ 0x02) :: m.toList.tail

/-- `uip_ds6_set_addr_iid`: the interface identifier of `m` written over the last eight bytes. -/
def uipDs6SetAddrIid (a : List UInt8) (m : Linkaddr) : List UInt8 :=
  a.take 8 ++ (m.toList.headD 0 ^^^ 0x02) :: m.toList.tail

/-- `sicslowpan_is_iid_16_bit_compressable`. -/
def isIid16BitCompressable : Bool :=
  a.u16Zero 4 && a.u8 10 == 0 && a.u8 11 == 0xff && a.u8 12 == 0xfe && a.u8 13 == 0

/-- `sicslowpan_is_mcast_addr_compressable48`: `FFXX::00XX:XXXX:XXXX`. -/
def isMcastAddrCompressable48 : Bool :=
  a.u16Zero 1 && a.u16Zero 2 && a.u16Zero 3 && a.u16Zero 4 && a.u8 10 == 0

/-- `sicslowpan_is_mcast_addr_compressable32`: `FFXX::00XX:XXXX`. -/
def isMcastAddrCompressable32 : Bool :=
  a.u16Zero 1 && a.u16Zero 2 && a.u16Zero 3 && a.u16Zero 4 && a.u16Zero 5 && a.u8 12 == 0

/-- `sicslowpan_is_mcast_addr_compressable8`: `FF02::00XX`. -/
def isMcastAddrCompressable8 : Bool :=
  a.u8 1 == 2 && a.u16Zero 1 && a.u16Zero 2 && a.u16Zero 3 && a.u16Zero 4 && a.u16Zero 5 &&
    a.u16Zero 6 && a.u8 14 == 0

/-! ### Address contexts -/

/-- `struct sicslowpan_addr_context`. -/
structure AddrContext where
  used : UInt8
  number : UInt8
  pfx : List.Vector UInt8 8
  deriving DecidableEq

variable (ctxs : List AddrContext)

/-- `addr_context_lookup_by_prefix`: the first used context of the address's first 64 bits. -/
def addrContextLookupByPrefix (a : Ipaddr) : Option AddrContext :=
  ctxs.find? fun c => c.used == 1 && c.pfx.toList == a.toList.take 8

/-- The context with this number. -/
def addrContextLookupByNumber (n : UInt8) : Option AddrContext :=
  ctxs.find? fun c => c.used == 1 && c.number == n

/-- A table both ends can share: the used contexts have distinct numbers, and four bits hold
each. -/
structure ContextsOk : Prop where
  number_lt : ∀ c ∈ ctxs, c.used = 1 → c.number < 16
  number_inj : ∀ c ∈ ctxs, ∀ d ∈ ctxs, c.used = 1 → d.used = 1 → c.number = d.number → c = d
  prefix_inj : ∀ c ∈ ctxs, ∀ d ∈ ctxs, c.used = 1 → d.used = 1 → c.pfx = d.pfx → c = d

variable {c : AddrContext} {ctxs : List AddrContext}

theorem addrContextLookupByPrefix_some {a : Ipaddr}
    (h : addrContextLookupByPrefix ctxs a = some c) :
    c ∈ ctxs ∧ c.used = 1 ∧ c.pfx.toList = a.toList.take 8 := by
  have hp := List.find?_some h
  simp only [Bool.and_eq_true, beq_iff_eq] at hp
  exact ⟨List.mem_of_find?_eq_some h, hp.1, hp.2⟩

/-- A used context is what its number looks up. -/
theorem addrContextLookupByNumber_of_mem (hc : ContextsOk ctxs) (hm : c ∈ ctxs) (hu : c.used = 1) :
    addrContextLookupByNumber ctxs c.number = some c := by
  cases h : addrContextLookupByNumber ctxs c.number with
  | none =>
    have := List.find?_eq_none.mp h c hm
    simp [hu] at this
  | some d =>
    have hp := List.find?_some h
    simp only [Bool.and_eq_true, beq_iff_eq] at hp
    rw [hc.number_inj d (List.mem_of_find?_eq_some h) c hm hp.1 hu hp.2]

end Nespy.Sicslowpan
