import Mathlib.Tactic.Ring
import Nespy.Net.SrhHeader

/-!
# Net — source routes follow the tree

The path from the root to a destination is found from below, by climbing from parent to parent
(`Climbs`).  The root's header holds the addresses of the path behind its first node, which is the
destination in the IPv6 header.  At every hop the nodes visited so far are in the header in front of
the nodes ahead, and the node in between is the IPv6 destination (`At`): one update moves that place
by one, so the packet visits the path in order.

All this is so when the header is put right behind the IPv6 header.  Behind other options it is not
found, since the IPv6 header then announces a routing header where the options are.
-/

open List Option

namespace Nespy.Net

open Nespy.Lib
open Nespy.Sicslowpan (Ipaddr)

/-! ### The bytes of the header -/

/-- The addresses in the header. -/
@[simp] def chunks (c : ℕ) (as : List Ipaddr) : List UInt8 := as.flatMap fun a => a.toList.drop c

variable {as : List Ipaddr} {c : ℕ}

theorem length_chunks : (chunks c as).length = as.length * (16 - c) := by
  induction as with
  | nil => simp
  | cons a as ih =>
    rw [chunks, flatMap_cons, length_append, ← chunks, ih]
    simp [Nat.add_mul, Nat.add_comm]

theorem chunks_append {bs : List Ipaddr} : chunks c (as ++ bs) = chunks c as ++ chunks c bs :=
  flatMap_append

theorem chunks_cons {a : Ipaddr} : chunks c (a :: as) = a.toList.drop c ++ chunks c as :=
  flatMap_cons

theorem toNat_toUInt8 {n : ℕ} (h : n < 256) : n.toUInt8.toNat = n := UInt8.toNat_ofNat_of_lt' h

/-- The fixed part of a header with `m` addresses and the given number of segments left. -/
def srhBytes (next : UInt8) (m c segLeft : ℕ) : List UInt8 :=
  [next, ((srhExtLen m c - 8) / 8).toUInt8, rplRhTypeSrh, segLeft.toUInt8, (c * 16 + c).toUInt8,
    (srhPadding m c * 16).toUInt8, 0, 0]

/-- The sizes of a header with so few addresses that they fit into a byte. -/
structure SrhFits (m c : ℕ) : Prop where
  cmpr : c ≤ 15
  room : m * (16 - c) ≤ 224

namespace SrhFits

variable {m c : ℕ}

theorem srhPadding_lt : srhPadding m c < 8 := by
  rw [srhPadding]
  split <;> omega

/-- The padding from its field. -/
theorem pad_field : (srhPadding m c * 16).toUInt8.toNat / 16 = srhPadding m c := by
  have hlt := srhPadding_lt (m := m) (c := c)
  rw [toNat_toUInt8 (by omega)]
  omega

variable (h : SrhFits m c)

include h

theorem srhLen : Net.srhLen m c = 8 + m * (16 - c) := by
  obtain ⟨hc, hroom⟩ := h
  generalize hw : 16 - c = w at *
  have hcast : (16 : ℤ) - (c : ℤ) = (w : ℤ) := by omega
  have hmul : ((m : ℤ) - 1) * w + w = ((m * w : ℕ) : ℤ) := by
    push_cast
    ring
  rw [Net.srhLen, hcast, rplSrhFixedLen]
  omega

theorem srhExtLen : Net.srhExtLen m c = 8 + m * (16 - c) + srhPadding m c := by
  have hlt := srhPadding_lt (m := m) (c := c)
  have hroom := h.room
  rw [Net.srhExtLen, h.srhLen, Nat.mod_eq_of_lt (by omega)]

theorem srhExtLen_mod : Net.srhExtLen m c % 8 = 0 := by
  have hlen := h.srhLen
  rw [h.srhExtLen, srhPadding]
  split <;> omega

theorem srhExtLen_le : Net.srhExtLen m c ≤ 232 := by
  have hlt := srhPadding_lt (m := m) (c := c)
  have hmod := h.srhExtLen_mod
  have hroom := h.room
  have hlen := h.srhExtLen
  omega

theorem length_le : m ≤ 224 :=
  (Nat.le_mul_of_pos_right _ (Nat.sub_pos_of_lt (Nat.lt_succ_of_le h.cmpr))).trans h.room

/-- A node on the path reads the number of addresses that the root has written. -/
theorem readPathLen (hm : 0 < m) :
    Packet.readPathLen (Net.srhExtLen m c) (srhPadding m c) c c = m := by
  generalize hw : 16 - c = w
  obtain ⟨k, rfl⟩ : ∃ k, m = k + 1 := ⟨m - 1, by omega⟩
  have hc := h.cmpr
  have hroom := h.room
  have hcast : (16 : ℤ) - (c : ℤ) = (w : ℤ) := by omega
  have hw0 : (w : ℤ) ≠ 0 := by omega
  have hk : k + 1 ≤ (k + 1) * (16 - c) := Nat.le_mul_of_pos_right _ (by omega)
  have hsub : ((Net.srhExtLen (k + 1) c : ℕ) : ℤ) - srhPadding (k + 1) c - rplSrhFixedLen - w =
      k * w := by
    rw [h.srhExtLen, hw, rplSrhFixedLen]
    push_cast
    ring
  rw [Packet.readPathLen, hcast, hsub, Int.mul_tdiv_cancel _ hw0]
  omega

/-- The size of the header from its length field. -/
theorem len_field :
    (((Net.srhExtLen m c - 8) / 8).toUInt8.toNat * 8 + 8) % 256 = Net.srhExtLen m c := by
  have hmod := h.srhExtLen_mod
  have hle := h.srhExtLen_le
  have hge : 8 ≤ Net.srhExtLen m c := by
    rw [h.srhExtLen]
    omega
  rw [toNat_toUInt8 (by omega)]
  omega

/-- The numbers of bytes left out, from their field. -/
theorem cmpr_field : (c * 16 + c).toUInt8.toNat / 16 = c ∧ (c * 16 + c).toUInt8.toNat % 16 = c := by
  have hc := h.cmpr
  rw [toNat_toUInt8 (by omega)]
  omega

end SrhFits

/-- Addresses with that many bytes in common. -/
theorem take_eq_of_countMatchingBytes {a b : Ipaddr} (h : c ≤ countMatchingBytes a b) :
    a.toList.take c = b.toList.take c := by
  rw [countMatchingBytes] at h
  generalize a.toList = as, b.toList = bs at h
  induction c generalizing as bs with
  | zero => rfl
  | succ c ih =>
    cases as with
    | nil => simp at h
    | cons x as =>
      cases bs with
      | nil => simp at h
      | cons y bs =>
        rw [zip_cons_cons, takeWhile_cons] at h
        by_cases hxy : x = y
        · rw [if_pos (by simpa using hxy), length_cons] at h
          rw [take_succ_cons, take_succ_cons, hxy, ih as bs (by omega)]
        · rw [if_neg (by simpa using hxy)] at h
          simp at h

/-! ### Climbing the tree -/

namespace SrNodes

variable {G : Type} {s : SrNodes G} {root n p : SrIndex} {l : List SrIndex}

/-- The nodes from a node up to the root, which is left out. -/
inductive Climbs (s : SrNodes G) (root : SrIndex) : SrIndex → List SrIndex → Prop where
  | root : Climbs s root root []
  | up {n p : SrIndex} {l : List SrIndex} :
      n ≠ root → (s.node n).parent = some p → Climbs s root p l → Climbs s root n (n :: l)

namespace Climbs

section

variable (h : Climbs s root n l)

include h

/-- There is one way up. -/
theorem unique {l' : List SrIndex} (h' : Climbs s root n l') : l = l' := by
  induction h generalizing l' with
  | root =>
    cases h' with
    | root => rfl
    | up hne => exact absurd rfl hne
  | up hne hp _ ih =>
    cases h' with
    | root => exact absurd rfl hne
    | up _ hp' hc' =>
      obtain rfl := some.inj (hp.symm.trans hp')
      rw [ih hc']

theorem root_not_mem : root ∉ l := by
  induction h with
  | root => exact not_mem_nil
  | up hne _ _ ih =>
    rw [mem_cons]
    rintro (rfl | hmem)
    · exact hne rfl
    · exact ih hmem

/-- From a node on the way the rest of the way is shorter. -/
theorem of_mem : ∀ m ∈ l, ∃ l', Climbs s root m l' ∧ l'.length ≤ l.length := by
  induction h with
  | root => exact nofun
  | @up n p l hne hp hc ih =>
    intro m hm
    rcases mem_cons.mp hm with rfl | hm
    · exact ⟨_, .up hne hp hc, le_rfl⟩
    · obtain ⟨l', hl', hlen⟩ := ih m hm
      exact ⟨l', hl', hlen.trans (Nat.le_succ _)⟩

theorem nodup : l.Nodup := by
  induction h with
  | root => exact nodup_nil
  | @up n p l hne hp hc ih =>
    refine nodup_cons.mpr ⟨fun hmem => ?_, ih⟩
    obtain ⟨l', hl', hlen⟩ := hc.of_mem n hmem
    rw [hl'.unique (.up hne hp hc)] at hlen
    exact Nat.not_succ_le_self _ hlen

theorem length_lt : l.length < uipSrLinkNum := by
  have hnodup : (root :: l).Nodup := nodup_cons.mpr ⟨h.root_not_mem, h.nodup⟩
  have hsub : root :: l ⊆ finRange uipSrLinkNum := fun i _ => mem_finRange i
  have hlen := (subperm_of_subset hnodup hsub).length_le
  rwa [length_cons, length_finRange] at hlen

end

end Climbs

/-- The loop of `uip_sr_is_addr_reachable` finds the root only along the parents. -/
theorem climbs_of_climb {depth : ℕ} {node : Option SrIndex}
    (h : s.climb (some root) depth node = some root) :
    ∃ n, node = some n ∧ ∃ l, Climbs s root n l := by
  induction depth generalizing node with
  | zero => exact ⟨root, h, [], .root⟩
  | succ depth ih =>
    cases node with
    | none => cases h
    | some n =>
      rw [climb] at h
      split_ifs at h with hne
      · obtain rfl := some.inj h
        exact ⟨n, rfl, [], .root⟩
      · obtain ⟨p, hp, l, hl⟩ := ih h
        exact ⟨n, rfl, n :: l, .up (fun hn => hne (congrArg some hn)) hp hl⟩

theorem Climbs.climb (h : Climbs s root n l) {depth : ℕ} (hdepth : l.length ≤ depth) :
    s.climb (some root) depth (some n) = some root := by
  induction h generalizing depth with
  | root => cases depth <;> simp [SrNodes.climb]
  | up hne hp _ ih =>
    obtain ⟨depth, rfl⟩ := Nat.exists_eq_add_of_le' (Nat.zero_lt_of_lt hdepth)
    rw [SrNodes.climb, if_neg fun heq => hne (some.inj heq), hp]
    exact ih (Nat.le_of_succ_le_succ hdepth)

variable {env : Protocol G}

theorem uipSrIsAddrReachable_iff [DecidableEq G] {graph : G} {addr : Ipaddr} :
    s.uipSrIsAddrReachable env graph addr ↔
      ∃ root n l, s.uipSrGetNode env graph (some env.rootIpaddr) = some root ∧
        s.uipSrGetNode env graph (some addr) = some n ∧ Climbs s root n l := by
  rw [uipSrIsAddrReachable, Bool.and_eq_true, isSome_iff_exists, beq_iff_eq]
  constructor
  · rintro ⟨⟨root, hclimb⟩, hroot⟩
    rw [hclimb] at hroot
    rw [← hroot] at hclimb
    obtain ⟨n, hn, l, hl⟩ := climbs_of_climb hclimb
    exact ⟨root, n, l, hroot.symm, hn, hl⟩
  · rintro ⟨root, n, l, hroot, hn, hl⟩
    rw [hroot, hn, hl.climb hl.length_lt.le]
    exact ⟨⟨root, rfl⟩, rfl⟩

/-- The bytes that the nodes have in common with the destination. -/
def commonBytes (s : SrNodes G) (env : Protocol G) (dest : Ipaddr) (c : ℕ) (l : List SrIndex) : ℕ :=
  l.foldl (fun c n => min c (countMatchingBytes (s.getSrNodeIpaddr env n) dest)) c

/-- The loop over the path, from a node on. -/
theorem Climbs.pathLoop (h : Climbs s root n l) {dest : Ipaddr} {fuel k c : ℕ}
    (hfuel : l.length < fuel) (hk : k + l.length < 256) :
    s.pathLoop env root dest fuel (some n) k c =
      some (k + l.length, s.commonBytes env dest c l) := by
  induction h generalizing fuel k c with
  | root =>
    obtain ⟨fuel, rfl⟩ := Nat.exists_eq_add_of_lt hfuel
    simp [SrNodes.pathLoop, commonBytes]
  | @up n p l hne hp _ ih =>
    obtain _ | fuel := fuel
    · omega
    rw [length_cons] at hfuel hk ⊢
    have hmod : (k + 1) % 256 = k + 1 := Nat.mod_eq_of_lt (by omega)
    rw [SrNodes.pathLoop, if_neg hne, hp, hmod, ih (by omega) (by omega)]
    simp [commonBytes, Nat.add_comm, Nat.add_left_comm]

/-- The loop that writes the addresses fills the room left for them, from its end to its start. -/
theorem Climbs.hopLoop {n : SrIndex} {l : List SrIndex} (h : Climbs s root n (n :: l))
    {first a₀ : Ipaddr}
    {ahead : List Ipaddr} (hroute : (n :: l).reverse.map (s.getSrNodeIpaddr env) = first :: ahead)
    {c fuel hop : ℕ} {buf pre room post : List UInt8} (hbuf : buf = pre ++ (room ++ post))
    (hhop : hop = pre.length + room.length) (hroom : room.length = l.length * (16 - c))
    (hfuel : l.length < fuel) :
    s.hopLoop env root c fuel (some n) hop a₀ buf =
      some (pre ++ (chunks c ahead ++ post), first) := by
  induction l generalizing n first a₀ ahead fuel hop buf room post with
  | nil =>
    obtain ⟨fuel, rfl⟩ := Nat.exists_eq_add_of_lt hfuel
    cases h with
    | up _ hp hc =>
      cases hc
      obtain ⟨rfl, rfl⟩ := cons.inj hroute
      obtain rfl : room = [] := eq_nil_of_length_eq_zero (by simpa using hroom)
      simp [SrNodes.hopLoop, hp, hbuf]
  | cons q l ih =>
    obtain _ | fuel := fuel
    · omega
    cases h with
    | @up _ p _ _ hp hc =>
      obtain ⟨rfl, hq⟩ : p = q ∧ p ≠ root := by
        cases hc with
        | up hne _ _ => exact ⟨rfl, hne⟩
      -- the first node of the path is still ahead of the loop
      obtain ⟨ahead', hahead, hroute'⟩ : ∃ ahead', ahead = ahead' ++ [s.getSrNodeIpaddr env n] ∧
          (p :: l).reverse.map (s.getSrNodeIpaddr env) = first :: ahead' := by
        rw [reverse_cons, map_append] at hroute
        cases hr : (p :: l).reverse.map (s.getSrNodeIpaddr env) with
        | nil => simp at hr
        | cons a as =>
          rw [hr] at hroute
          obtain ⟨rfl, rfl⟩ := cons.inj hroute
          exact ⟨as, rfl, rfl⟩
      rw [length_cons, Nat.add_mul] at hroom
      have hlast : (room.drop (l.length * (16 - c))).length =
          ((s.getSrNodeIpaddr env n).toList.drop c).length := by
        simp [hroom]
      have hfirst : (room.take (l.length * (16 - c))).length = l.length * (16 - c) := by
        simp [hroom]
      have hsplit : buf = (pre ++ room.take (l.length * (16 - c))) ++
          (room.drop (l.length * (16 - c)) ++ post) := by
        rw [hbuf, append_assoc, ← append_assoc (take ..), take_append_drop]
      have hwrite : writeAt buf (hop - (16 - c)) ((s.getSrNodeIpaddr env n).toList.drop c) =
          some (pre ++ (room.take (l.length * (16 - c)) ++
            ((s.getSrNodeIpaddr env n).toList.drop c ++ post))) := by
        rw [hsplit, writeAt_append (by rw [length_append]; omega) hlast, append_assoc]
      have hpr : (s.node n).parent ≠ some root := by
        rw [hp]
        exact fun heq => hq (some.inj heq)
      rw [SrNodes.hopLoop, if_neg hpr, if_neg (by omega), hwrite, hp]
      change s.hopLoop env root c fuel (some p) _ _ _ = _
      rw [ih hc hroute' rfl (by omega) hfirst (by simpa using hfuel), hahead]
      simp

end SrNodes

/-! ### Following the header -/

namespace Packet

variable (p : Packet)

/-- The bytes of the packet behind the IPv6 header. -/
def data : List UInt8 := p.buf.take (p.uipLen - uipIphLen)

/-- The length field of the IPv6 header. -/
def ipLen : ℕ := p.len0.toNat * 256 + p.len1.toNat

/-- The segments left of the routing header, 0 if there is none. -/
def segmentsLeft : Option UInt8 := do
  match ← p.findRouting uipBufsize p.proto 0 with
  | none => some 0
  | some ext => p.buf[ext + 3]?

/-- The IPv6 destinations of a packet, each of which updates the header, up to the one that finds no
segments left. -/
inductive Travels : Packet → List Ipaddr → Packet → Prop where
  | arrived {q : Packet} : q.segmentsLeft = some 0 → Travels q [q.dest] q
  | hop {q q' r : Packet} {as : List Ipaddr} : q.segmentsLeft ≠ some 0 →
      q.rplExtHeaderSrhUpdate = some (q', true) → Travels q' as r → Travels q (q.dest :: as) r

theorem findRouting_of_proto {p : Packet} (h : p.proto = uipProtoRouting) :
    p.findRouting uipBufsize p.proto 0 = some (some 0) := by
  rw [h]
  rfl

/-- The packet at `cur`, with the nodes visited and the nodes ahead in the header. -/
structure At (next : UInt8) (c : ℕ) (visited : List Ipaddr) (cur : Ipaddr) (ahead : List Ipaddr)
    (tail : List UInt8) (q : Packet) : Prop where
  proto : q.proto = uipProtoRouting
  dest : q.dest = cur
  buf : q.buf = srhBytes next (visited ++ ahead).length c ahead.length ++
    (chunks c (visited ++ ahead) ++ tail)

namespace At

variable {next : UInt8} {c : ℕ} {visited ahead : List Ipaddr} {cur b : Ipaddr} {tail : List UInt8}
  {q : Packet}

theorem segmentsLeft (h : At next c visited cur ahead tail q) :
    q.segmentsLeft = some ahead.length.toUInt8 := by
  rw [Packet.segmentsLeft, findRouting_of_proto h.proto, h.buf]
  rfl

section

variable {m : ℕ} (h : At next c visited cur (b :: ahead) tail q)
  (hm : (visited ++ b :: ahead).length = m)
  (hfits : SrhFits m c) (hcur : cur.toList.take c = b.toList.take c)

include hm hfits

theorem segLeft_ne_zero : (b :: ahead).length.toUInt8 ≠ 0 := by
  have hle := hfits.length_le
  rw [← hm, length_append] at hle
  intro hzero
  have hnat : (b :: ahead).length.toUInt8.toNat = (b :: ahead).length := toNat_toUInt8 (by omega)
  rw [hzero] at hnat
  cases hnat

include h hcur

/-- The update exchanges `cur` and the next address. -/
theorem swapNext : ∃ q', q.swapNext 0 (b :: ahead).length.toUInt8 ((srhExtLen m c - 8) / 8).toUInt8
        (c * 16 + c).toUInt8 (srhPadding m c * 16).toUInt8 = some q' ∧
      At next c (visited ++ [cur]) b ahead tail q' ∧
      q' = { q with buf := q'.buf, dest := q'.dest } := by
  have hsum : m = visited.length + (ahead.length + 1) := by simp [← hm]
  have hle := hfits.length_le
  have hi : (m + 256 - (b :: ahead).length.toUInt8.toNat) % 256 = visited.length := by
    rw [length_cons, toNat_toUInt8 (by omega)]
    omega
  have hseg : (b :: ahead).length.toUInt8 - 1 = ahead.length.toUInt8 := by
    simp
  have hpre : (srhBytes next m c (b :: ahead).length ++ chunks c visited).length =
      0 + rplSrhFixedLen + visited.length * (16 - c) := by
    rw [length_append, length_chunks]
    rfl
  have hbuf : q.buf = (srhBytes next m c (b :: ahead).length ++ chunks c visited) ++
      (b.toList.drop c ++ (chunks c ahead ++ tail)) := by
    rw [h.buf, hm, chunks_append, chunks_cons]
    simp only [append_assoc]
  have hread : readAt q.buf (0 + rplSrhFixedLen + visited.length * (16 - c)) (16 - c) =
      some (b.toList.drop c) := by
    have hdrop : (b.toList.drop c).length = 16 - c := by simp
    rw [readAt, hbuf, if_pos (by rw [length_append, hpre, length_append]; omega), ← hpre,
      drop_left, take_left' hdrop]
  have hwrite : writeAt q.buf (0 + rplSrhFixedLen + visited.length * (16 - c)) (cur.toList.drop c) =
      some (srhBytes next m c (b :: ahead).length ++ chunks c visited ++
        (cur.toList.drop c ++ (chunks c ahead ++ tail))) := by
    rw [hbuf]
    exact writeAt_append hpre (by simp) _
  have hdest : Ipaddr.ofBytes (q.dest.toList.take c ++ b.toList.drop c) = b := by
    rw [h.dest, hcur, take_append_drop, Ipaddr.ofBytes_toList]
  refine ⟨{ q with
      buf := srhBytes next m c ahead.length ++ (chunks c visited ++
        (cur.toList.drop c ++ (chunks c ahead ++ tail))), dest := b }, ?_, ⟨h.proto, rfl, ?_⟩, rfl⟩
  · rw [Packet.swapNext, hfits.len_field, hfits.cmpr_field.1, hfits.cmpr_field.2, SrhFits.pad_field,
      hfits.readPathLen (by omega), hi, ite_self, hread, bind_eq_bind, bind_some, hdest, h.dest,
      hwrite, hseg]
    rfl
  · have hlen : (visited ++ [cur] ++ ahead).length = m := by simp [← hm]
    rw [hlen]
    simp

/-- **Hop.**  A node with segments left sends the packet on to the next address. -/
theorem hop :
    ∃ q', q.rplExtHeaderSrhUpdate = some (q', true) ∧ At next c (visited ++ [cur]) b ahead tail q' ∧
      q' = { q with buf := q'.buf, dest := q'.dest } := by
  obtain ⟨q', hswap, hat, hq'⟩ := h.swapNext hm hfits hcur
  refine ⟨q', ?_, hat, hq'⟩
  have hseg := segLeft_ne_zero hm hfits
  have hbyte : ∀ i, (hi : i < 8) → q.buf[i]? = (srhBytes next m c (b :: ahead).length)[i]? := by
    intro i hi
    rw [h.buf, hm, getElem?_append_left hi]
  rw [rplExtHeaderSrhUpdate, findRouting_of_proto h.proto]
  simp only [bind_eq_bind, bind_some, hbyte 1 (by decide), hbyte 2 (by decide),
    hbyte 3 (by decide), hbyte 4 (by decide), hbyte 5 (by decide)]
  simp only [srhBytes, getElem?_cons_succ, getElem?_cons_zero, bind_some, if_true, hseg, if_false,
    hswap]

end

/-- **Following the header.**  The packet visits the nodes ahead in their order. -/
theorem travels (h : At next c visited cur ahead tail q)
    (hfits : SrhFits (visited ++ ahead).length c)
    (hcommon : ∀ a ∈ ahead, a.toList.take c = cur.toList.take c) :
    ∃ q' visited' last, Travels q (cur :: ahead) q' ∧ At next c visited' last [] tail q' ∧
      visited' ++ [last] = visited ++ cur :: ahead ∧
        q' = { q with buf := q'.buf, dest := q'.dest } := by
  induction ahead generalizing visited cur q with
  | nil =>
    refine ⟨q, visited, cur, ?_, h, rfl, rfl⟩
    rw [← h.dest]
    exact .arrived h.segmentsLeft
  | cons b ahead ih =>
    have hb : b.toList.take c = cur.toList.take c := hcommon b mem_cons_self
    obtain ⟨q₁, hupdate, hat, hq₁⟩ := h.hop rfl hfits hb.symm
    have hlen : (visited ++ [cur] ++ ahead).length = (visited ++ b :: ahead).length := by simp
    obtain ⟨q', visited', last, htravels, hat', hroute, hq'⟩ := ih hat (hlen ▸ hfits) fun a ha =>
      (hcommon a (mem_cons_of_mem _ ha)).trans hb.symm
    refine ⟨q', visited', last, ?_, hat', by rw [hroute, append_assoc]; rfl, ?_⟩
    · rw [← h.dest]
      refine .hop ?_ hupdate htravels
      rw [h.segmentsLeft]
      exact fun hzero => segLeft_ne_zero rfl hfits (some.inj hzero)
    · rw [hq₁] at hq'
      exact hq'

end At

end Packet

end Nespy.Net
