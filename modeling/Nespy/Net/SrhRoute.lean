import Nespy.Net.SrhPath

/-!
# Net — the root's source route

What `insert_srh_header` leaves in the buffer, and where a packet with that header goes.  The header
is written at `uip_ext_len` behind the IPv6 header.  When that is 0, or when the destination is a
child of the root and gets no header, the packet visits the nodes of the path in order, with its
payload unchanged.  When options stay in front of the header, the IPv6 header announces a routing
header where the options are, and the packet gets no further than the first node.
-/

open List Option

namespace Nespy.Net

open Nespy.Lib
open Nespy.Sicslowpan (Ipaddr)

namespace Packet

/-- What is behind the addresses of a new header: the padding, what was moved, and the rest. -/
def shifted (p : Packet) (m c : ℕ) : List UInt8 :=
  replicate (srhPadding m c) 0 ++ ((p.buf.drop p.uipExtLen).take (p.uipLen - uipIphLen) ++
    p.buf.drop (p.uipExtLen + srhExtLen m c + (p.uipLen - uipIphLen)))

/-- The new header, with the addresses still to be written. -/
def blankSrh (p : Packet) (m c : ℕ) : List UInt8 :=
  p.buf.take p.uipExtLen ++ srhBytes p.proto m c m ++
    (replicate (m * (16 - c)) 0 ++ p.shifted m c)

variable {buf : List UInt8} {base e n : ℕ}

theorem memmove_eq (h : base + e + n ≤ buf.length) : memmove buf (base + e) base n =
      some (buf.take base ++ ((buf.drop base).take e ++
        ((buf.drop base).take n ++ buf.drop (base + e + n)))) := by
  have hlen : ((buf.drop base).take n).length = n := by
    rw [length_take, length_drop]
    omega
  have htake : buf.take (base + e) = buf.take base ++ (buf.drop base).take e := take_add
  rw [memmove, readAt, if_pos (by omega), bind_eq_bind, bind_some, writeAt,
    if_pos (by rw [hlen]; omega), hlen, htake]
  simp only [append_assoc]

theorem memmove_eq_none (h : ¬base + e + n ≤ buf.length) :
    memmove buf (base + e) base n = none := by
  rw [memmove, readAt]
  split_ifs with hread
  · have hlen : ((buf.drop base).take n).length = n := by
      rw [length_take, length_drop]
      omega
    rw [bind_eq_bind, bind_some, writeAt, if_neg (by rw [hlen]; exact h)]
  · rfl

/-- A routing header of another type is not updated. -/
theorem update_ne_true {p : Packet} (h : p.proto = uipProtoRouting)
    (htype : p.buf[2]? ≠ some rplRhTypeSrh)
    (q : Packet) : p.rplExtHeaderSrhUpdate ≠ some (q, true) := by
  rw [rplExtHeaderSrhUpdate, findRouting_of_proto h]
  cases hbyte : p.buf[0 + 2]? with
  | none => simp [hbyte]
  | some t =>
    have hne : t ≠ rplRhTypeSrh := fun ht => htype (hbyte.trans (congrArg some ht))
    simp [hbyte, hne]

end Packet

namespace SrNodes

variable {G : Type} {s : SrNodes G} {env : Protocol G} {root n : SrIndex} {l : List SrIndex}
  {p : Packet} {m c : ℕ}

/-- What `insert_srh_header` does to the packet once the addresses are written. -/
def withSrh (p : Packet) (m c : ℕ) (r : List UInt8 × Ipaddr) : Packet :=
  { p.addLen (srhExtLen m c) with
      buf := r.1, proto := uipProtoRouting, dest := r.2,
        uipExtLen := (p.uipExtLen + srhExtLen m c) % 256
      uipLen := p.uipLen + srhExtLen m c }

/-- The bytes that are written. -/
theorem writeSrh_eq (hfits : SrhFits m c)
    (hroom : p.uipExtLen + srhExtLen m c + (p.uipLen - uipIphLen) ≤ p.buf.length) :
    s.writeSrh env root n m c p = (s.hopLoop env root c (uipSrLinkNum + 1) (some n)
      (p.uipExtLen + 8 + m * (16 - c)) p.dest (p.blankSrh m c)).map (withSrh p m c) := by
  have hext := hfits.srhExtLen
  have hbase : (p.buf.take p.uipExtLen).length = p.uipExtLen := by
    rw [length_take]
    omega
  have hold : ((p.buf.drop p.uipExtLen).take (srhExtLen m c)).length =
      (replicate (srhExtLen m c) (0 : UInt8)).length := by
    rw [length_take, length_drop, length_replicate]
    omega
  have hzeros : replicate (srhExtLen m c) (0 : UInt8) = replicate 6 0 ++ ([0, 0] ++
      (replicate (m * (16 - c)) 0 ++ replicate (srhPadding m c) 0)) := by
    rw [hext, replicate_add, replicate_add]
    rfl
  have hhop : p.uipExtLen + srhExtLen m c - srhPadding m c = p.uipExtLen + 8 + m * (16 - c) := by
    omega
  rw [writeSrh, Packet.memmove_eq hroom, bind_eq_bind, bind_some, writeAt_append hbase hold,
    bind_some, hzeros, append_assoc, writeAt_append hbase (by rfl), hhop]
  rw [Packet.blankSrh]
  simp only [append_assoc]
  rw [map_eq_bind]
  rfl

/-- The header that the root writes for a path of at least two nodes. -/
theorem Climbs.writeSrh (h : Climbs s root n (n :: l)) {first : Ipaddr} {ahead : List Ipaddr}
    (hroute : (n :: l).reverse.map (s.getSrNodeIpaddr env) = first :: ahead)
    (hfits : SrhFits l.length c)
    (hroom : p.uipExtLen + srhExtLen l.length c + (p.uipLen - uipIphLen) ≤ p.buf.length) :
    s.writeSrh env root n l.length c p = some (withSrh p l.length c
      (p.buf.take p.uipExtLen ++ (srhBytes p.proto l.length c l.length ++
        (chunks c ahead ++ p.shifted l.length c)), first)) := by
  have hpre : (p.buf.take p.uipExtLen ++ srhBytes p.proto l.length c l.length).length =
      p.uipExtLen + 8 := by
    rw [length_append, length_take, Nat.min_eq_left (by omega)]
    rfl
  have hlen := h.length_lt
  rw [length_cons] at hlen
  rw [writeSrh_eq hfits hroom, Packet.blankSrh,
    h.hopLoop hroute rfl (by rw [hpre, length_replicate])
    length_replicate (by omega), map_some, append_assoc]

variable {dest : Ipaddr} {q : Packet} {d : SrIndex}

/-- The header is written behind what is in front, under the next header of a routing header. -/
theorem front_writeSrh (h : Climbs s root n (n :: l)) (hfits : SrhFits l.length c)
    (hbase : 8 ≤ p.uipExtLen) (hwrite : s.writeSrh env root n l.length c p = some q) :
    q.proto = uipProtoRouting ∧ q.buf[2]? = p.buf[2]? := by
  obtain ⟨first, ahead, hroute⟩ :=
    exists_cons_of_ne_nil (l := (n :: l).reverse.map (s.getSrNodeIpaddr env)) (by simp)
  by_cases hroom : p.uipExtLen + srhExtLen l.length c + (p.uipLen - uipIphLen) ≤ p.buf.length
  · rw [h.writeSrh hroute hfits hroom] at hwrite
    cases hwrite
    refine ⟨rfl, ?_⟩
    change (p.buf.take p.uipExtLen ++ _)[2]? = _
    rw [getElem?_append_left (by rw [length_take]; omega), getElem?_take_of_lt (by omega)]
  · rw [SrNodes.writeSrh, Packet.memmove_eq_none hroom] at hwrite
    cases hwrite

/-! ### What the loops find -/

theorem commonBytes_cons {c : ℕ} : s.commonBytes env dest c (n :: l) =
    s.commonBytes env dest (min c (countMatchingBytes (s.getSrNodeIpaddr env n) dest)) l :=
  rfl

theorem commonBytes_le {c : ℕ} : s.commonBytes env dest c l ≤ c := by
  induction l generalizing c with
  | nil => exact le_rfl
  | cons n l ih =>
    exact ih.trans (Nat.min_le_left _ _)

theorem commonBytes_le_of_mem {c : ℕ} (h : n ∈ l) :
    s.commonBytes env dest c l ≤ countMatchingBytes (s.getSrNodeIpaddr env n) dest := by
  induction l generalizing c with
  | nil => cases h
  | cons k l ih =>
    rw [commonBytes_cons]
    rcases mem_cons.mp h with rfl | h
    · exact commonBytes_le.trans (Nat.min_le_right _ _)
    · exact ih h

/-- The header of a path in the table has its sizes in range. -/
theorem Climbs.srhFits (h : Climbs s root d (d :: l)) :
    SrhFits l.length (s.commonBytes env dest 15 l) := by
  have hlen := h.length_lt
  rw [length_cons, uipSrLinkNum] at hlen
  refine ⟨commonBytes_le, ?_⟩
  calc l.length * (16 - s.commonBytes env dest 15 l) ≤ 14 * 16 :=
    Nat.mul_le_mul (by omega) (Nat.sub_le _ _)
    _ = 224 := rfl

theorem Climbs.parent_of_singleton (h : Climbs s root d [d]) : (s.node d).parent = some root := by
  cases h with
  | up _ hp hc =>
    cases hc
    exact hp

variable [DecidableEq G] {dag : G}

theorem getSrNodeIpaddr_of_get {a : Ipaddr} (h : s.uipSrGetNode env dag (some a) = some n) :
    s.getSrNodeIpaddr env n = a := by
  have hmatch := find?_some h
  exact (of_decide_eq_true hmatch).2

/-! ### Packets of the root -/

/-- A packet at the root, with a destination in the tree and room for the header. -/
structure Sendable (s : SrNodes G) (env : Protocol G) (dag : G) (p : Packet) : Prop where
  rootIpaddr : env.rootIpaddr = env.dagId dag
  rootParent : ∀ root, s.uipSrGetNode env dag (some (env.dagId dag)) = some root →
    (s.node root).parent = none
  reachable : s.uipSrIsAddrReachable env dag p.dest = true
  bufLen : p.buf.length = uipBufsize - uipIphLen
  uipLen : uipIphLen ≤ p.uipLen ∧ p.uipLen ≤ uipBufsize
  ipLen : p.ipLen = p.uipLen - uipIphLen
  /-- There is room for the header, if one is needed. -/
  fits : ∀ root d m c, s.uipSrGetNode env dag (some (env.dagId dag)) = some root →
    s.uipSrGetNode env dag (some p.dest) = some d → (s.node d).parent ≠ some root →
    s.pathLoop env root p.dest (uipSrLinkNum + 1) (s.node d).parent 0 15 = some (m, c) →
    p.uipLen + srhExtLen m c ≤ uipBufsize

/-- The addresses from the root down, where `l` is the path upwards. -/
def route (s : SrNodes G) (env : Protocol G) (root : SrIndex) : List SrIndex → List Ipaddr
  | [] => [s.getSrNodeIpaddr env root]
  | n :: l => (n :: l).reverse.map (s.getSrNodeIpaddr env)

/-- The root inserts the header, and the packet then visits the path to its destination and arrives
there with its data behind what was inserted. -/
def Follows (s : SrNodes G) (env : Protocol G) (dag : G) (p : Packet) : Prop :=
  ∃ root d l q₀ q, s.uipSrGetNode env dag (some (env.dagId dag)) = some root ∧
    s.uipSrGetNode env dag (some p.dest) = some d ∧ Climbs s root d l ∧
    s.insertSrhHeader env (some dag) p = some (q₀, true) ∧ q₀.Travels (s.route env root l) q ∧
    q.segmentsLeft = some 0 ∧ q.dest = p.dest ∧ q.data.drop (q.uipLen - p.uipLen) = p.data ∧
    q.ipLen = q.uipLen - uipIphLen

/-- The length field after `insert_srh_header`. -/
theorem ipLen_withSrh {r : List UInt8 × Ipaddr} (h : p.ipLen + srhExtLen m c < 65536)
    (hext : srhExtLen m c < 256) : (withSrh p m c r).ipLen = p.ipLen + srhExtLen m c := by
  have hsum : (p.len1 + (srhExtLen m c).toUInt8).toNat = (p.len1.toNat + srhExtLen m c) % 256 := by
    rw [UInt8.toNat_add, toNat_toUInt8 hext]
  have hlen1 := p.len1.toNat_lt
  rw [Packet.ipLen] at h
  change (if p.len1 + (srhExtLen m c).toUInt8 < p.len1 then p.len0 + 1 else p.len0).toNat * 256 +
    (p.len1 + (srhExtLen m c).toUInt8).toNat = p.len0.toNat * 256 + p.len1.toNat + srhExtLen m c
  split_ifs with hlt
  · rw [UInt8.lt_iff_toNat_lt] at hlt
    have hcarry : (p.len0 + 1).toNat = p.len0.toNat + 1 := by
      rw [UInt8.toNat_add, UInt8.toNat_one]
      omega
    omega
  · rw [UInt8.lt_iff_toNat_lt] at hlt
    omega

/-- What is behind the header is the data of the packet. -/
theorem data_of_shifted {pre : List UInt8} (hbase : p.uipExtLen = 0)
    (hp : uipIphLen ≤ p.uipLen) (hroom : p.uipLen - uipIphLen ≤ p.buf.length)
    (hbuf : q.buf = pre ++ p.shifted m c) (hpre : pre.length + srhPadding m c = srhExtLen m c)
    (hlen : q.uipLen = p.uipLen + srhExtLen m c) : q.data.drop (q.uipLen - p.uipLen) = p.data := by
  have hfront : (pre ++ replicate (srhPadding m c) 0).length = srhExtLen m c := by
    rw [length_append, length_replicate, hpre]
  have hdata : (p.buf.take (p.uipLen - uipIphLen)).length = p.uipLen - uipIphLen := by
    rw [length_take]
    omega
  have hsub : q.uipLen - p.uipLen = srhExtLen m c := by omega
  have hsub' : q.uipLen - uipIphLen - srhExtLen m c = p.uipLen - uipIphLen := by omega
  rw [Packet.data, hsub, drop_take, hsub', hbuf, Packet.shifted, hbase, drop_zero,
    ← append_assoc, drop_left' hfront, take_left' hdata, Packet.data]

/-- All addresses of the path begin as the destination does. -/
theorem take_of_mem_route {k : SrIndex} (hd : s.uipSrGetNode env dag (some p.dest) = some d) :
    ∀ a ∈ (d :: k :: l).reverse.map (s.getSrNodeIpaddr env),
      a.toList.take (s.commonBytes env p.dest 15 (k :: l)) =
        p.dest.toList.take (s.commonBytes env p.dest 15 (k :: l)) := by
  intro a ha
  obtain ⟨n, hn, rfl⟩ := mem_map.mp ha
  rcases mem_cons.mp (mem_reverse.mp hn) with rfl | hn
  · rw [getSrNodeIpaddr_of_get hd]
  · exact take_eq_of_countMatchingBytes (commonBytes_le_of_mem hn)

/-- For the root itself the loop writes one byte of its address, over a reserved byte. -/
theorem hopLoop_root (hbase : p.uipExtLen = 0) (hp : (s.node root).parent = none)
    (hd : s.uipSrGetNode env dag (some p.dest) = some root) :
    s.hopLoop env root 15 (uipSrLinkNum + 1) (some root) 8 p.dest (p.blankSrh 0 15) =
      some ((srhBytes p.proto 0 15 0).take 7 ++ p.dest.toList.drop 15 ++ p.shifted 0 15,
        p.dest) := by
  have hblank : p.blankSrh 0 15 = (srhBytes p.proto 0 15 0).take 7 ++ ([0] ++ p.shifted 0 15) := by
    rw [Packet.blankSrh, hbase]
    rfl
  have hwrite : writeAt ((srhBytes p.proto 0 15 0).take 7 ++ ([0] ++ p.shifted 0 15))
      (8 - (16 - 15)) (p.dest.toList.drop 15) =
        some ((srhBytes p.proto 0 15 0).take 7 ++ (p.dest.toList.drop 15 ++ p.shifted 0 15)) :=
    writeAt_append rfl (by simp) _
  rw [SrNodes.hopLoop, getSrNodeIpaddr_of_get hd, hblank, hwrite, hp]
  rfl

section Insert

variable {d k : SrIndex} (h : Sendable s env dag p)
  (hroot : s.uipSrGetNode env dag (some (env.dagId dag)) = some root)

include hroot

section

variable (hd : s.uipSrGetNode env dag (some p.dest) = some d)
  (hreach : s.uipSrIsAddrReachable env dag p.dest = true)

include hd hreach

/-- No header for a child of the root. -/
theorem insertSrhHeader_child (hp : (s.node d).parent = some root) :
    s.insertSrhHeader env (some dag) p = some (p, true) := by
  rw [insertSrhHeader, hd]
  simp [hroot, hreach, hp]

theorem insertSrhHeader_of_pathLoop (hp : (s.node d).parent ≠ some root)
    (hloop : s.pathLoop env root p.dest (uipSrLinkNum + 1) (s.node d).parent 0 15 = some (m, c))
    (hfit : p.uipLen + srhExtLen m c ≤ uipBufsize) :
    s.insertSrhHeader env (some dag) p = (s.writeSrh env root d m c p).map fun q => (q, true) := by
  rw [insertSrhHeader, hd]
  simp only [hroot, hreach]
  rw [if_neg hp, hloop, bind_eq_bind, bind_some,
    if_neg (Nat.not_lt.mpr hfit), map_eq_bind]
  rfl

end

include h

/-- A packet for the root itself. -/
theorem follows_root (hbase : p.uipExtLen = 0)
    (hd : s.uipSrGetNode env dag (some p.dest) = some root) : s.Follows env dag p := by
  have hp := h.rootParent root hroot
  have hne : (s.node root).parent ≠ some root := by
    rw [hp]
    exact nofun
  have hloop : s.pathLoop env root p.dest (uipSrLinkNum + 1) (s.node root).parent 0 15 =
      some (0, 15) := by
    rw [hp]
    rfl
  have hfit := h.fits root root 0 15 hroot hd hne hloop
  have hlen := h.uipLen
  have hbufLen := h.bufLen
  have hipLen := h.ipLen
  have hsize : uipBufsize = 1280 := rfl
  have hinsert := insertSrhHeader_of_pathLoop hroot hd h.reachable hne hloop (by omega)
  rw [writeSrh_eq ⟨by decide, by decide⟩ (by omega), hbase, hopLoop_root hbase hp hd] at hinsert
  generalize hq : withSrh p 0 15
    ((srhBytes p.proto 0 15 0).take 7 ++ p.dest.toList.drop 15 ++ p.shifted 0 15, p.dest) = q
  have hleft : q.segmentsLeft = some 0 := by
    rw [← hq]
    rfl
  have hdest : q.dest = p.dest := by rw [← hq]; rfl
  have hqlen : q.uipLen = p.uipLen + srhExtLen 0 15 := by rw [← hq]; rfl
  refine ⟨root, root, [], q, q, hroot, hd, .root,
    by rw [hinsert, ← hq]; rfl, ?_, hleft, hdest, ?_, ?_⟩
  · rw [route, getSrNodeIpaddr_of_get hd, ← hdest]
    exact .arrived hleft
  · exact data_of_shifted hbase hlen.1 (by omega) (by rw [← hq]; rfl)
      (by simp [srhBytes]; decide) hqlen
  · have hip : q.ipLen = p.ipLen + srhExtLen 0 15 := by
      rw [← hq]
      exact ipLen_withSrh (by omega) (by decide)
    omega

variable (hd : s.uipSrGetNode env dag (some p.dest) = some d)

include hd

/-- No header is needed for a child of the root. -/
theorem follows_child (hleft : p.segmentsLeft = some 0) (hclimbs : Climbs s root d [d]) :
    s.Follows env dag p := by
  refine ⟨root, d, [d], p, p, hroot, hd, hclimbs,
    insertSrhHeader_child hroot hd h.reachable hclimbs.parent_of_singleton, ?_, hleft, rfl,
    by rw [Nat.sub_self, drop_zero], h.ipLen⟩
  rw [route, reverse_singleton, map_singleton, getSrNodeIpaddr_of_get hd]
  exact .arrived hleft

variable (hclimbs : Climbs s root d (d :: k :: l))

include hclimbs

/-- With nodes in between, the header is written with all their addresses. -/
theorem insertSrhHeader_path : s.insertSrhHeader env (some dag) p =
        (s.writeSrh env root d (k :: l).length (s.commonBytes env p.dest 15 (k :: l)) p).map
          (fun q => (q, true)) ∧
      p.uipLen + srhExtLen (k :: l).length (s.commonBytes env p.dest 15 (k :: l)) ≤ uipBufsize := by
  have hlen := hclimbs.length_lt
  cases hclimbs with
  | @up _ q _ _ hp hc =>
    obtain ⟨rfl, hk⟩ : q = k ∧ q ≠ root := by
      cases hc with
      | up hne _ _ => exact ⟨rfl, hne⟩
    rw [length_cons, uipSrLinkNum] at hlen
    have hne : (s.node d).parent ≠ some root := by
      rw [hp]
      exact fun heq => hk (some.inj heq)
    have hloop : s.pathLoop env root p.dest (uipSrLinkNum + 1) (s.node d).parent 0 15 =
        some ((q :: l).length, s.commonBytes env p.dest 15 (q :: l)) := by
      rw [hp, hc.pathLoop (by rw [uipSrLinkNum]; omega) (by omega), Nat.zero_add]
    have hfit := h.fits root d _ _ hroot hd hne hloop
    exact ⟨insertSrhHeader_of_pathLoop hroot hd h.reachable hne hloop hfit, hfit⟩

/-- A packet for a node with others between it and the root. -/
theorem follows_path (hbase : p.uipExtLen = 0) : s.Follows env dag p := by
  obtain ⟨hinsert, hfit⟩ := insertSrhHeader_path h hroot hd hclimbs
  have hcommon := take_of_mem_route (k := k) (l := l) hd
  have hfits : SrhFits (k :: l).length (s.commonBytes env p.dest 15 (k :: l)) := hclimbs.srhFits
  generalize hc : s.commonBytes env p.dest 15 (k :: l) = c
  rw [hc] at hinsert hfit hcommon hfits
  have hlen := h.uipLen
  have hbufLen := h.bufLen
  have hipLen := h.ipLen
  have hext := hfits.srhExtLen_le
  have hsize : uipBufsize = 1280 := rfl
  obtain ⟨first, ahead, hroute⟩ :=
    exists_cons_of_ne_nil (l := (d :: k :: l).reverse.map (s.getSrNodeIpaddr env)) (by simp)
  have hahead : ahead.length = (k :: l).length := by
    have heq := congrArg length hroute
    simpa using heq.symm
  rw [hclimbs.writeSrh hroute hfits (by omega), hbase] at hinsert
  rw [hroute] at hcommon
  generalize hq₀ : withSrh p (k :: l).length c (srhBytes p.proto (k :: l).length c
    (k :: l).length ++ (chunks c ahead ++ p.shifted (k :: l).length c), first) = q₀
  have hat : Packet.At p.proto c [] first ahead (p.shifted (k :: l).length c) q₀ := by
    refine ⟨by rw [← hq₀]; rfl, by rw [← hq₀]; rfl, ?_⟩
    rw [← hq₀, nil_append, hahead]
    rfl
  obtain ⟨q, visited, last, htravels, hat', hvisited, hq⟩ :=
    hat.travels (by rwa [nil_append, hahead])
    fun a ha => (hcommon a (mem_cons_of_mem _ ha)).trans (hcommon first mem_cons_self).symm
  rw [nil_append, ← hroute, reverse_cons, map_append] at hvisited
  obtain ⟨hvisited', hlast⟩ := append_inj' hvisited rfl
  have hlast' : last = p.dest := by
    rw [← getSrNodeIpaddr_of_get hd]
    exact head_eq_of_cons_eq hlast
  have hqlen : q.uipLen = p.uipLen + srhExtLen (k :: l).length c := by
    rw [hq, ← hq₀]
    rfl
  refine ⟨root, d, d :: k :: l, q₀, q, hroot, hd, hclimbs,
    by rw [hinsert, ← hq₀]; rfl, ?_, hat'.segmentsLeft, hat'.dest.trans hlast', ?_, ?_⟩
  · rw [route, hroute]
    exact htravels
  · have hpre : visited.length = (k :: l).length := by rw [hvisited', length_map, length_reverse]
    have hbuf := hat'.buf
    rw [append_nil, ← append_assoc] at hbuf
    refine data_of_shifted hbase hlen.1 (by omega) hbuf ?_ hqlen
    rw [length_append, length_chunks, hpre, hfits.srhExtLen]
    rfl
  · have hip₀ : q₀.ipLen = p.ipLen + srhExtLen (k :: l).length c := by
      rw [← hq₀]
      exact ipLen_withSrh (by omega) (by omega)
    have hip : q.ipLen = q₀.ipLen := (congrArg Packet.ipLen hq).trans rfl
    omega

/-- Behind options the header is not found. -/
theorem not_follows_path (hbase : 8 ≤ p.uipExtLen) (htype : p.buf[2]? ≠ some rplRhTypeSrh) :
    ¬s.Follows env dag p := by
  rintro ⟨root', d', l', q₀, q, hroot', hd', hclimbs', hinsert', htravels, -⟩
  obtain rfl := some.inj (hroot.symm.trans hroot')
  obtain rfl := some.inj (hd.symm.trans hd')
  obtain rfl := hclimbs.unique hclimbs'
  obtain ⟨hinsert, hfit⟩ := insertSrhHeader_path h hroot hd hclimbs
  rw [hinsert] at hinsert'
  obtain ⟨q₁, hwrite, hq₁⟩ := map_eq_some_iff.mp hinsert'
  obtain rfl := congrArg Prod.fst hq₁
  have hq := front_writeSrh hclimbs hclimbs.srhFits hbase hwrite
  cases hr : s.route env root (d :: k :: l) with
  | nil => simp [route] at hr
  | cons a as =>
    have hlen := congrArg length hr
    rw [hr] at htravels
    cases htravels with
    | arrived _ => simp [route] at hlen
    | hop _ hupdate _ => exact Packet.update_ne_true hq.1 (hq.2 ▸ htype) _ hupdate

end Insert

/-- The node with this address is a child of the root. -/
def IsChild (s : SrNodes G) (env : Protocol G) (dag : G) (dest : Ipaddr) : Prop :=
  ∃ root d, s.uipSrGetNode env dag (some (env.dagId dag)) = some root ∧
    s.uipSrGetNode env dag (some dest) = some d ∧ (s.node d).parent = some root

/-- **Source routes.**  A packet for a node of the tree, with nothing between its IPv6 header and
the place of the routing header or for a child of the root, visits the nodes of the path in order
and arrives with its payload unchanged.  With options in front, the first of a type other than that
of the header, no packet for another node below the root does. -/
theorem source_route_follows_tree (h : Sendable s env dag p) (hleft : p.segmentsLeft = some 0) :
    (p.uipExtLen = 0 ∨ s.IsChild env dag p.dest → s.Follows env dag p) ∧
    (8 ≤ p.uipExtLen → p.buf[2]? ≠ some rplRhTypeSrh → p.dest ≠ env.dagId dag →
      s.Follows env dag p → s.IsChild env dag p.dest) := by
  refine ⟨?_, fun hbase htype hne hfollows => ?_⟩
  · rintro (hbase | ⟨root, d, hroot, hd, hp⟩)
    · obtain ⟨root, d, l, hroot, hd, hclimbs⟩ := uipSrIsAddrReachable_iff.mp h.reachable
      rw [h.rootIpaddr] at hroot
      cases id hclimbs with
      | root => exact follows_root h hroot hbase hd
      | @up _ _ l =>
        cases l with
        | nil => exact follows_child h hroot hd hleft hclimbs
        | cons k l => exact follows_path h hroot hd hclimbs hbase
    · -- the root has no parent, so the node is not the root
      have hne : d ≠ root := by
        rintro rfl
        rw [h.rootParent d hroot] at hp
        cases hp
      exact follows_child h hroot hd hleft (.up hne hp .root)
  · obtain ⟨root, d, l, -, -, hroot, hd, hclimbs, -⟩ := id hfollows
    cases id hclimbs with
    | root =>
      exact absurd ((getSrNodeIpaddr_of_get hd).symm.trans (getSrNodeIpaddr_of_get hroot)) hne
    | @up _ _ l =>
      cases l with
      | nil => exact ⟨root, d, hroot, hd, hclimbs.parent_of_singleton⟩
      | cons k l => exact absurd hfollows (not_follows_path h hroot hd hclimbs hbase htype)

/-! ### A tree of three nodes -/

/-- The address of the node with the given last byte. -/
def hostAddr (i : UInt8) : Ipaddr := ⟨[0xfd, 0, 0, 0, 0, 0, 0, 0, 0, 0, 0, 0, 0, 0, 0, i], rfl⟩

def lineEnv : Protocol Unit := ⟨fun _ => hostAddr 0, hostAddr 0⟩

/-- The root, a node below it, and one below that. -/
def line : SrNodes Unit where
  count := fun _ => 1
  node := fun i => ⟨60, (), linkIdentifierOf (hostAddr i.val.toUInt8),
    if i = 1 then some 0 else if i = 2 then some 1 else none⟩
  nodelist := [0, 1, 2]
  numNodes := 3

/-- A packet for the last node, with the given next header and bytes behind the IPv6 header. -/
def linePacket (proto : UInt8) (bytes : List UInt8) : Packet where
  len0 := 0
  len1 := bytes.length.toUInt8
  proto := proto
  dest := hostAddr 2
  buf := bytes ++ replicate (uipBufsize - uipIphLen - bytes.length) 0
  uipLen := uipIphLen + bytes.length
  uipExtLen := 0

theorem length_linePacket (proto : UInt8) {bytes : List UInt8}
    (h : bytes.length ≤ uipBufsize - uipIphLen) :
    (linePacket proto bytes).buf.length = uipBufsize - uipIphLen := by
  rw [linePacket, length_append, length_replicate]
  omega

theorem line_sendable {p : Packet} (hdest : p.dest = hostAddr 2)
    (hbuf : p.buf.length = uipBufsize - uipIphLen)
    (hlen : uipIphLen ≤ p.uipLen ∧ p.uipLen + 16 ≤ uipBufsize)
    (hip : p.ipLen = p.uipLen - uipIphLen) :
    line.Sendable lineEnv () p := by
  have hroot : line.uipSrGetNode lineEnv () (some (lineEnv.dagId ())) = some 0 := by decide
  have hd : line.uipSrGetNode lineEnv () (some (hostAddr 2)) = some 2 := by decide
  refine ⟨rfl, ?_, by rw [hdest]; decide, hbuf, by omega, hip, ?_⟩
  · intro root hr
    obtain rfl := some.inj (hroot.symm.trans hr)
    rfl
  · intro root d m c hr hd' _ hloop
    obtain rfl := some.inj (hroot.symm.trans hr)
    rw [hdest] at hd' hloop
    obtain rfl := some.inj (hd.symm.trans hd')
    have hsome : line.pathLoop lineEnv 0 (hostAddr 2) (uipSrLinkNum + 1) (line.node 2).parent 0 15 =
        some (1, 15) := by
      decide
    obtain ⟨rfl, rfl⟩ := Prod.mk.inj (some.inj (hsome.symm.trans hloop))
    have hext : srhExtLen 1 15 = 16 := by decide
    omega

theorem line_climbs : Climbs line 0 2 [2, 1] := .up (by decide) rfl (.up (by decide) rfl .root)

theorem source_route_follows_tree_line :
    line.Sendable lineEnv () (linePacket 17 (replicate 8 0)) ∧
      (linePacket 17 (replicate 8 0)).segmentsLeft = some 0 ∧
      line.Follows lineEnv () (linePacket 17 (replicate 8 0)) := by
  have h : line.Sendable lineEnv () (linePacket 17 (replicate 8 0)) :=
    line_sendable rfl (length_linePacket _ (by decide)) (by decide) (by decide)
  have hleft : (linePacket 17 (replicate 8 0)).segmentsLeft = some 0 := by decide
  exact ⟨h, hleft, (source_route_follows_tree h hleft).1 (.inl rfl)⟩

/-- A destination options header stays in front of the routing header, which is then not found. -/
theorem source_route_lost : ∃ p : Packet,
      (linePacket uipProtoDesto ([17, 0, 1, 4, 0, 0, 0, 0] ++ replicate 8 0)).rplExtHeaderRemove =
        some p ∧
      line.Sendable lineEnv () p ∧ ¬line.Follows lineEnv () p := by
  obtain ⟨p, hp⟩ : ∃ p, p = linePacket uipProtoDesto ([17, 0, 1, 4, 0, 0, 0, 0] ++ replicate 8 0) :=
    ⟨_, rfl⟩
  have hsend : line.Sendable lineEnv () { p with uipExtLen := 8 } := by
    have hlen : p.buf.length = uipBufsize - uipIphLen := by
      rw [hp]
      exact length_linePacket _ (by decide)
    refine line_sendable ?_ hlen ?_ ?_ <;> rw [hp]
    · rfl
    · decide
    · decide
  refine ⟨{ p with uipExtLen := 8 }, ?_, hsend, ?_⟩
  · rw [hp]
    decide +kernel
  · have hroot : line.uipSrGetNode lineEnv () (some (lineEnv.dagId ())) = some 0 := by decide
    have hd : line.uipSrGetNode lineEnv () (some p.dest) = some 2 := by
      rw [hp]
      decide
    refine not_follows_path hsend hroot hd line_climbs le_rfl ?_
    rw [hp]
    decide

end SrNodes

end Nespy.Net
