import Nespy.Mac.Csma

/-!
# Mac — the queues of CSMA

The state of CSMA against an outbox (`Lib/Outbox.lean`) with a queue for each address.  `PoolsFor`
says that the pools hold the packets of a list and nothing else, `Queues` that the queues of the
neighbours are those of the outbox, and `Steady` that the counters of a neighbour bound the attempts
at its first packet, whose timer is set. Each function keeps them while the outbox accepts, refuses,
makes an attempt or finishes a job.
-/

open List Option Function

namespace Nespy.Mac

open Nespy.Lib Nespy.Sys
open Nespy.Sicslowpan (Linkaddr)

/-- The outbox of the layer. -/
abbrev Jobs := Outbox.State Linkaddr Job

/-- The attempts that a packet may have. -/
def Job.budget (j : Job) : ℕ := j.maxTransmissions.toNat * (csmaMaxBackoff.toNat + 1)

/-- The attempts that the counters stand for, at most. -/
@[simp] def NeighborQueue.attempts (x : NeighborQueue) : ℕ :=
  x.transmissions.toNat * (csmaMaxBackoff.toNat + 1) + x.collisions.toNat

namespace Csma

variable {s s' : Csma} {o : Jobs} {n : Neighbor} {p q : Packet} {l l' : List Packet} {rand : UInt16}
  {a : Linkaddr}

/-! ### The pools -/

/-- The packets that wait in queues. -/
def queued (s : Csma) : List Packet :=
  s.neighborList.flatMap (NeighborQueue.packetQueue ∘ s.neighbor)

/-- Where the data of a packet is. -/
@[simp] def dataOf (s : Csma) (p : Packet) : Option QueuebufData := s.ramOf (s.packet p).buf

/-- The pools hold these packets, and nothing else. -/
structure PoolsFor (s : Csma) (l : List Packet) : Prop where
  packets : Holds s.packetCount l
  metadata : Owned (fun p => (s.packet p).ptr) l s.metadataCount
  bufs : Owned (fun p => (s.packet p).buf) l s.bufCount
  rams : Owned s.dataOf l s.ramCount

theorem PoolsFor.perm (h : s.PoolsFor l) (hp : l.Perm l') : s.PoolsFor l' :=
  ⟨h.packets.perm hp, h.metadata.perm hp, h.bufs.perm hp, h.rams.perm hp⟩

/-- What a packet is, for a receiver. -/
def jobOf (s : Csma) (addr : Linkaddr) (p : Packet) : Option Job :=
  (s.packet p).ptr.bind fun m => (s.dataOf p).map fun r =>
    { id := (s.metadata m).id
      addr
      sent := (s.metadata m).sent
      cptr := (s.metadata m).cptr
      data := (s.ram r).data
      maxTransmissions := (s.metadata m).maxTransmissions }

theorem mem_queued (hn : n ∈ s.neighborList) (hp : p ∈ (s.neighbor n).packetQueue) : p ∈ s.queued :=
  mem_flatMap.mpr ⟨n, hn, hp⟩

/-- A packet of the pools has all its parts. -/
theorem PoolsFor.parts (h : s.PoolsFor l) (hp : p ∈ l) :
    ∃ m b r, s.packet p = ⟨some b, some m⟩ ∧ s.ramPtr b = some r ∧ s.dataOf p = some r := by
  obtain ⟨m, hm⟩ := h.metadata.refers p hp
  obtain ⟨b, hb⟩ := h.bufs.refers p hp
  obtain ⟨r, hr⟩ := h.rams.refers p hp
  refine ⟨m, b, r, PacketQueue.ext hb hm, ?_, hr⟩
  simpa [hb] using hr

/-- A state that differs from `s` in no part of these packets. -/
structure SameFor (s s' : Csma) (l : List Packet) : Prop where
  packet : ∀ p ∈ l, s'.packet p = s.packet p
  data : ∀ p ∈ l, s'.dataOf p = s.dataOf p
  job : ∀ p ∈ l, ∀ addr, s'.jobOf addr p = s.jobOf addr p

/-- The parts of a packet, one by one. -/
theorem SameFor.of_parts (hpacket : ∀ p ∈ l, s'.packet p = s.packet p)
    (hmeta : ∀ p ∈ l, ∀ m, (s.packet p).ptr = some m → s'.metadata m = s.metadata m)
    (hdata : ∀ p ∈ l, s'.dataOf p = s.dataOf p)
    (hram : ∀ p ∈ l, ∀ r, s.dataOf p = some r → (s'.ram r).data = (s.ram r).data) :
    SameFor s s' l := by
  refine ⟨hpacket, hdata, fun p hp addr => ?_⟩
  rw [jobOf, jobOf, hpacket p hp, hdata p hp]
  cases hm : (s.packet p).ptr with
  | none => rfl
  | some m =>
    cases hr : s.dataOf p with
    | none => rfl
    | some r => simp only [bind_some, map_some, hmeta p hp m hm, hram p hp r hr]

theorem SameFor.of_eq (hpacket : ∀ p ∈ l, s'.packet p = s.packet p)
    (hmetadata : s'.metadata = s.metadata)
    (hramPtr : s'.ramPtr = s.ramPtr) (hram : s'.ram = s.ram) : SameFor s s' l := by
  refine .of_parts hpacket (fun _ _ _ _ => by rw [hmetadata]) (fun p hp => ?_) fun _ _ _ _ => by
    rw [hram]
  simp only [dataOf, ramOf, hpacket p hp, hramPtr]

/-- Only what the packets refer to matters. -/
theorem PoolsFor.congr (h : s.PoolsFor l) (hsame : SameFor s s' l)
    (hpacket : s'.packetCount = s.packetCount)
    (hmetadata : s'.metadataCount = s.metadataCount) (hbuf : s'.bufCount = s.bufCount)
    (hram : s'.ramCount = s.ramCount) : s'.PoolsFor l where
  packets := hpacket ▸ h.packets
  metadata := hmetadata ▸ h.metadata.congr fun p hp => by rw [hsame.packet p hp]
  bufs := hbuf ▸ h.bufs.congr fun p hp => by rw [hsame.packet p hp]
  rams := hram ▸ h.rams.congr fun p hp => (hsame.data p hp).symm

/-- A pointer that was allocated now is not that of a packet. -/
theorem ne_of_alloc {k : ℕ} {f : Packet → Option (Fin k)} {count count' : Memb k} {i j : Fin k}
    (h : Owned f l count) (ha : membAlloc count = some (i, count')) (hp : p ∈ l)
    (hj : f p = some j) : j ≠ i := by
  rintro rfl
  exact (h.holds.alloc ha).1 (mem_filterMap.mpr ⟨p, hp, hj⟩)

variable {jm : Job × ℕ} {o' : Jobs} {jobs : List (Job × ℕ)} {rest : List Packet} {x : NeighborQueue}
  {sent : Option ℕ} {cptr id : ℕ} {m : Metadata}

/-- Without room for a packet nothing changes but memory that is free. -/
theorem newPacket_none (h : s.PoolsFor l) (hnew : s.newPacket sent cptr id = (s', none)) :
    ∃ packet ramPtr, s' = { s with packet, ramPtr } ∧ SameFor s s' l := by
  rw [newPacket] at hnew
  cases hq : membAlloc s.packetCount with
  | none =>
    rw [hq] at hnew
    obtain ⟨rfl, -⟩ := Prod.mk.inj hnew
    exact ⟨s.packet, s.ramPtr, rfl, .of_eq (fun _ _ => rfl) rfl rfl rfl⟩
  | some qc =>
    obtain ⟨q, packetCount⟩ := qc
    have hne : ∀ p ∈ l, p ≠ q := fun p hp hpq => (h.packets.alloc hq).1 (hpq ▸ hp)
    cases hm : membAlloc s.metadataCount with
    | none =>
      simp only [hq, hm] at hnew
      obtain ⟨rfl, -⟩ := Prod.mk.inj hnew
      have hpacket : ∀ p ∈ l, update s.packet q ⟨(s.packet q).buf, none⟩ p = s.packet p :=
        fun p hp => update_of_ne (hne p hp) ..
      rw [membFree_of_membAlloc hq]
      exact ⟨_, s.ramPtr, rfl, .of_eq hpacket rfl rfl rfl⟩
    | some mc =>
      obtain ⟨m, metadataCount⟩ := mc
      have hpacket : ∀ p ∈ l, update s.packet q ⟨none, some m⟩ p = s.packet p :=
        fun p hp => update_of_ne (hne p hp) ..
      simp only [hq, hm, queuebufNewFromPacketbuf] at hnew
      cases hb : membAlloc s.bufCount with
      | none =>
        simp only [hb] at hnew
        obtain ⟨rfl, -⟩ := Prod.mk.inj hnew
        rw [membFree_of_membAlloc hq, membFree_of_membAlloc hm]
        exact ⟨_, s.ramPtr, rfl, .of_eq hpacket rfl rfl rfl⟩
      | some bc =>
        cases hr : membAlloc s.ramCount with
        | some rc => simp [hb, hr] at hnew
        | none =>
          simp only [hb, hr] at hnew
          obtain ⟨rfl, -⟩ := Prod.mk.inj hnew
          rw [membFree_of_membAlloc hq, membFree_of_membAlloc hm, membFree_of_membAlloc hb]
          refine ⟨_, _, rfl, .of_parts hpacket (fun _ _ _ _ => rfl) (fun p hp => ?_) fun _ _ _ _ =>
            rfl⟩
          obtain ⟨b', hb'⟩ := h.bufs.refers p hp
          simp only [dataOf, hpacket p hp, hb']
          exact update_of_ne (ne_of_alloc h.bufs hb hp hb') ..

/-- A new packet has parts of its own. -/
theorem newPacket_some (h : s.PoolsFor l) (hnew : s.newPacket sent cptr id = (s', some q)) :
    ∃ packetCount metadataCount bufCount ramCount packet metadata ramPtr ram,
      s' =
        { s with packetCount, metadataCount, bufCount, ramCount, packet, metadata, ramPtr, ram } ∧
      q ∉ l ∧ SameFor s s' l ∧ s'.PoolsFor (q :: l) ∧
      ∀ addr, s'.jobOf addr q = some ⟨id, addr, sent, cptr, s.packetbuf.data,
        s.packetbuf.maxTransmissions⟩ := by
  rw [newPacket] at hnew
  cases hq : membAlloc s.packetCount with
  | none => simp [hq] at hnew
  | some qc =>
    obtain ⟨q', packetCount⟩ := qc
    cases hm : membAlloc s.metadataCount with
    | none => simp [hq, hm] at hnew
    | some mc =>
      obtain ⟨m, metadataCount⟩ := mc
      simp only [hq, hm, queuebufNewFromPacketbuf] at hnew
      cases hb : membAlloc s.bufCount with
      | none => simp [hb] at hnew
      | some bc =>
        obtain ⟨b, bufCount⟩ := bc
        cases hr : membAlloc s.ramCount with
        | none => simp [hb, hr] at hnew
        | some rc =>
          obtain ⟨r, ramCount⟩ := rc
          simp only [hb, hr] at hnew
          obtain ⟨rfl, hqq⟩ := Prod.mk.inj hnew
          obtain rfl := some.inj hqq
          obtain ⟨hql, hpackets⟩ := h.packets.alloc hq
          have hpacket : ∀ p ∈ l, update s.packet q' ⟨some b, some m⟩ p = s.packet p :=
            fun p hp => update_of_ne (fun hpq : p = q' => hql (hpq ▸ hp)) ..
          refine ⟨_, _, _, _, _, _, _, _, rfl, hql, ?_⟩
          have hsame : SameFor s { s with
              packetCount, metadataCount, bufCount, ramCount
              packet := update s.packet q' ⟨some b, some m⟩
              metadata := update s.metadata m ⟨sent, cptr, s.packetbuf.maxTransmissions, id⟩
              ramPtr := update s.ramPtr b (some r)
              ram := update s.ram r s.packetbuf } l := by
            refine .of_parts hpacket (fun p hp m' hm' => ?_) (fun p hp => ?_) fun p hp r' hr' => ?_
            · exact update_of_ne (ne_of_alloc h.metadata hm hp hm') ..
            · obtain ⟨b', hb'⟩ := h.bufs.refers p hp
              simp only [dataOf, hpacket p hp, hb']
              exact update_of_ne (ne_of_alloc h.bufs hb hp hb') ..
            · simp only [update_of_ne (ne_of_alloc h.rams hr hp hr')]
          refine ⟨hsame, ⟨hpackets, ?_, ?_, ?_⟩, fun addr => ?_⟩
          · refine Owned.add (h.metadata.congr fun p hp => ?_) hm (by simp)
            simp only [hpacket p hp]
          · refine Owned.add (h.bufs.congr fun p hp => ?_) hb (by simp)
            simp only [hpacket p hp]
          · exact Owned.add (h.rams.congr fun p hp => (hsame.data p hp).symm) hr (by simp)
          · simp [jobOf]

/-- The blocks of a packet go back to their pools. -/
def release (s : Csma) (p : Packet) (m : Metadata) (b : Queuebuf) (r : QueuebufData) : Csma :=
  { s with
      packetCount := membFree s.packetCount p
      metadataCount := membFree s.metadataCount m
      bufCount := membFree s.bufCount b
      ramCount := membFree s.ramCount r }

/-- The packet at the head of the list gives back what it has. -/
theorem PoolsFor.remove (h : s.PoolsFor (p :: l)) {b : Queuebuf} {r : QueuebufData}
    (hpacket : s.packet p = ⟨some b, some m⟩) (hdata : s.dataOf p = some r) :
    (s.release p m b r).PoolsFor l where
  packets := h.packets.free
  metadata := h.metadata.remove (by rw [hpacket])
  bufs := h.bufs.remove (by rw [hpacket])
  rams := h.rams.remove hdata

/-! ### The queues -/

/-- The neighbours on the list are those in use, the packets in their queues those of the pools, and
their queues those of the outbox. -/
structure Queues (s : Csma) (o : Jobs) : Prop where
  neighbors : Holds s.neighborCount s.neighborList
  pools : s.PoolsFor s.queued
  calls : o.calls = s.calls
  addrs : ∀ n ∈ s.neighborList, ∀ n' ∈ s.neighborList, (s.neighbor n).addr =
    (s.neighbor n').addr → n = n'
  idle : ∀ n ∉ s.neighborList, (s.neighbor n).packetQueue = [] ∧ (s.neighbor n).transmitTimer = none
  unknown : ∀ a, (∀ n ∈ s.neighborList, (s.neighbor n).addr ≠ a) → o.queue a = []
  jobs : ∀ n ∈ s.neighborList, (s.neighbor n).packetQueue.map (s.jobOf (s.neighbor n).addr) =
    (o.queue (s.neighbor n).addr).map fun jm => some jm.1

theorem Queues.addr_ne {n' : Neighbor} (h : s.Queues o) (hn' : n' ∈ s.neighborList)
    (hn : n ∈ s.neighborList) (hnn : n' ≠ n) :
    (s.neighbor n').addr ≠ (s.neighbor n).addr := fun ha => hnn (h.addrs n' hn' n hn ha)

section

variable (h : s.Queues o) (hn : n ∈ s.neighborList)
  (hneighbor : s'.neighbor = Function.update s.neighbor n x)

include h hn hneighbor

/-- The queue of one neighbour changes. -/
theorem Queues.update
    (hlist : s'.neighborList = s.neighborList) (hcount : s'.neighborCount = s.neighborCount)
    (hpools : s'.PoolsFor s'.queued) (hcalls : o'.calls = s'.calls)
    (haddr : x.addr = (s.neighbor n).addr)
    (hsame : SameFor s s' s.queued) (hqueue : o'.queue = update o.queue x.addr jobs)
    (hjobs : x.packetQueue.map (s'.jobOf x.addr) = jobs.map fun jm => some jm.1) :
    s'.Queues o' := by
  have haddrs : ∀ n', (s'.neighbor n').addr = (s.neighbor n').addr := by
    intro n'
    by_cases hnn : n' = n
    · simp [hneighbor, hnn, haddr]
    · simp [hneighbor, hnn]
  refine ⟨by rw [hcount, hlist]; exact h.neighbors, hpools, hcalls, ?_, ?_, ?_, ?_⟩
  · simpa only [hlist, haddrs] using h.addrs
  · intro n' hn'
    rw [hlist] at hn'
    have hnn : n' ≠ n := fun hnn => hn' (hnn ▸ hn)
    simpa [hneighbor, hnn] using h.idle n' hn'
  · intro a ha
    simp only [hlist, haddrs] at ha
    rw [hqueue, haddr, update_of_ne (ha n hn).symm]
    exact h.unknown a ha
  · intro n' hn'
    rw [hlist] at hn'
    by_cases hnn : n' = n
    · subst hnn
      simp only [hneighbor, update_self, hqueue]
      exact hjobs
    · have hne : (s.neighbor n').addr ≠ x.addr := haddr ▸ h.addr_ne hn' hn hnn
      simp only [hneighbor, update_of_ne hnn, hqueue, update_of_ne hne]
      rw [← h.jobs n' hn']
      exact map_congr_left fun p hp => hsame.job p (mem_queued hn' hp) _

/-- A neighbour leaves the list when its queue is empty. -/
theorem Queues.drop
    (hlist : s'.neighborList = listRemove s.neighborList n)
    (hcount : s'.neighborCount = membFree s.neighborCount n)
    (hpools : s'.PoolsFor s'.queued) (hcalls : o'.calls = s'.calls) (hempty : x.packetQueue = [])
    (htimer : x.transmitTimer = none) (hsame : SameFor s s' s.queued)
    (hqueue : o'.queue = Function.update o.queue (s.neighbor n).addr []) : s'.Queues o' := by
  have hmem : ∀ n', n' ∈ s'.neighborList ↔ n' ≠ n ∧ n' ∈ s.neighborList := fun n' => by
    rw [hlist, mem_listRemove h.neighbors.nodup]
  have hother : ∀ n' ∈ s'.neighborList, s'.neighbor n' = s.neighbor n' := fun n' hn' => by
    rw [hneighbor, update_of_ne ((hmem n').mp hn').1]
  refine ⟨?_, hpools, hcalls, ?_, ?_, ?_, ?_⟩
  · rw [hcount, hlist]
    exact (h.neighbors.perm (perm_cons_erase hn)).free
  · intro n₁ hn₁ n₂ hn₂ ha
    rw [hother n₁ hn₁, hother n₂ hn₂] at ha
    exact h.addrs n₁ ((hmem n₁).mp hn₁).2 n₂ ((hmem n₂).mp hn₂).2 ha
  · intro n' hn'
    by_cases hnn : n' = n
    · simp [hneighbor, hnn, hempty, htimer]
    · have hidle := h.idle n' fun hl => hn' ((hmem n').mpr ⟨hnn, hl⟩)
      simpa [hneighbor, hnn] using hidle
  · intro a ha
    rw [hqueue]
    by_cases haa : a = (s.neighbor n).addr
    · rw [haa, update_self]
    · rw [update_of_ne haa]
      refine h.unknown a fun n' hn' => ?_
      by_cases hnn : n' = n
      · exact hnn ▸ Ne.symm haa
      · have hn'' := (hmem n').mpr ⟨hnn, hn'⟩
        exact hother n' hn'' ▸ ha n' hn''
  · intro n' hn'
    obtain ⟨hnn, hn''⟩ := (hmem n').mp hn'
    rw [hother n' hn', hqueue, update_of_ne (h.addr_ne hn'' hn hnn), ← h.jobs n' hn'']
    exact map_congr_left fun p hp => hsame.job p (mem_queued hn'' hp) _

end

/-- A new neighbour, with an empty queue. -/
theorem Queues.add (h : s.Queues o) {neighborCount : Memb csmaMaxNeighborQueues}
    (halloc : membAlloc s.neighborCount = some (n, neighborCount))
    (haddr : ∀ n' ∈ s.neighborList, (s.neighbor n').addr ≠ x.addr) (hempty : x.packetQueue = []) :
    ({ s.setNeighbor n x with neighborCount, neighborList := listAdd s.neighborList n } :
      Csma).Queues o ∧ n ∉ s.neighborList := by
  obtain ⟨hnot, hholds⟩ := h.neighbors.alloc halloc
  have hlist : listAdd s.neighborList n = s.neighborList ++ [n] := by
    rw [listAdd, listRemove, erase_of_not_mem hnot]
  have hother : ∀ n' ∈ s.neighborList, Function.update s.neighbor n x n' = s.neighbor n' :=
    fun n' hn' => update_of_ne (fun hnn : n' = n => hnot (hnn ▸ hn')) ..
  have hqueued :
      ({ s.setNeighbor n x with neighborCount, neighborList := s.neighborList ++ [n] } :
        Csma).queued = s.queued := by
    simp only [queued, setNeighbor, flatMap_append, flatMap_singleton, Function.comp_apply,
      update_self, hempty, append_nil]
    exact flatMap_congr fun n' hn' => by
      rw [Function.comp_apply, hother n' hn', Function.comp_apply]
  rw [hlist]
  refine ⟨⟨?_, ?_, h.calls, ?_, ?_, ?_, ?_⟩, hnot⟩
  · exact hholds.perm (perm_append_singleton n s.neighborList).symm
  · rw [hqueued]
    exact ⟨h.pools.packets, h.pools.metadata, h.pools.bufs, h.pools.rams⟩
  · intro n₁ hn₁ n₂ hn₂ ha
    rcases mem_append.mp hn₁ with h₁ | h₁ <;> rcases mem_append.mp hn₂ with h₂ | h₂
    · simp only [setNeighbor, hother n₁ h₁, hother n₂ h₂] at ha
      exact h.addrs n₁ h₁ n₂ h₂ ha
    · obtain rfl := mem_singleton.mp h₂
      simp only [setNeighbor, hother n₁ h₁, update_self] at ha
      exact absurd ha (haddr n₁ h₁)
    · obtain rfl := mem_singleton.mp h₁
      simp only [setNeighbor, hother n₂ h₂, update_self] at ha
      exact absurd ha.symm (haddr n₂ h₂)
    · exact (mem_singleton.mp h₁).trans (mem_singleton.mp h₂).symm
  · intro n' hn'
    obtain ⟨hn', hnn⟩ := not_or.mp (mem_append.not.mp hn')
    simp only [setNeighbor, update_of_ne (mem_singleton.not.mp hnn)]
    exact h.idle n' hn'
  · intro a ha
    refine h.unknown a fun n' hn' => ?_
    have hne := ha n' (mem_append_left _ hn')
    simp only [setNeighbor, hother n' hn'] at hne
    exact hne
  · intro n' hn'
    rcases mem_append.mp hn' with hn' | hn'
    · simp only [setNeighbor, hother n' hn']
      exact h.jobs n' hn'
    · obtain rfl := mem_singleton.mp hn'
      simp only [setNeighbor, update_self, hempty, map_nil, h.unknown x.addr haddr]

/-! ### Packets that leave -/

theorem setNeighbor_setNeighbor (x y : NeighborQueue) :
    (s.setNeighbor n x).setNeighbor n y = s.setNeighbor n y := by
  simp only [setNeighbor, update_idem]

theorem setNeighbor_self : s.setNeighbor n (s.neighbor n) = s := by
  simp only [setNeighbor, update_eq_self]

theorem queued_setNeighbor_perm (hl : s.neighborList.Nodup) (hn : n ∈ s.neighborList)
    (hx : x.packetQueue.Perm (p :: (s.neighbor n).packetQueue)) :
    (s.setNeighbor n x).queued.Perm (p :: s.queued) := by
  simp only [queued, setNeighbor, comp_update]
  exact flatMap_update_perm hl hn hx

section Free

variable {b : Queuebuf} {r : QueuebufData} (hqueue : (s.neighbor n).packetQueue = p :: rest)
  (hpacket : s.packet p = ⟨some b, some m⟩) (hram : s.ramPtr b = some r)

include hqueue hpacket hram

theorem freePacket_more (hrest : rest ≠ []) :
    s.freePacket n p rand = (s.release p m b r).setNeighbor n
      { s.neighbor n with
          packetQueue := rest, transmissions := 0, collisions := 0
          transmitTimer := some (backoffDelay 0 rand) } := by
  simp only [freePacket, hqueue, listRemove, erase_cons_head, if_pos hrest, hpacket,
    queuebufFree, setNeighbor,
    hram, elim_some, scheduleTransmission, update_self, update_idem, release]

theorem freePacket_last (hrest : rest = []) : s.freePacket n p rand =
      { (s.release p m b r).setNeighbor n { s.neighbor n with
        packetQueue := [], transmitTimer := none } with
          neighborList := listRemove s.neighborList n
          neighborCount := membFree s.neighborCount n } := by
  subst hrest
  simp only [freePacket, hqueue, listRemove, erase_cons_head, ne_eq,
    not_true_eq_false, if_false, hpacket,
    queuebufFree, setNeighbor, hram, elim_some, update_self, update_idem, release]

end Free

theorem queued_congr (hlist : s'.neighborList = s.neighborList)
    (hneighbor : s'.neighbor = update s.neighbor n x)
    (hqueue : x.packetQueue = (s.neighbor n).packetQueue) : s'.queued = s.queued := by
  simp only [queued, hlist, hneighbor, comp_update, hqueue]
  congr 1
  exact update_eq_self ..

theorem PoolsFor.setNeighbor (h : s.PoolsFor l) (x : NeighborQueue) :
    (s.setNeighbor n x).PoolsFor l :=
  { h with }

/-- The first packet of a queue is freed. -/
theorem Queues.freePacket (h : s.Queues o) (hn : n ∈ s.neighborList)
    (hqueue : (s.neighbor n).packetQueue = p :: rest)
    (hjobs : o.queue (s.neighbor n).addr = jm :: jobs) :
    (s.freePacket n p rand).Queues (o.finish (s.neighbor n).addr jobs) := by
  have hp : p ∈ s.queued := mem_queued hn (hqueue ▸ mem_cons_self)
  obtain ⟨m, b, r, hpacket, hram, hdata⟩ := h.pools.parts hp
  have hmap : rest.map (s.jobOf (s.neighbor n).addr) = jobs.map fun jm => some jm.1 := by
    have hall := h.jobs n hn
    rw [hqueue, hjobs] at hall
    exact (List.cons.inj hall).2
  have hperm (x : NeighborQueue) (hx : x.packetQueue = rest) :
      s.queued.Perm (p :: (s.setNeighbor n x).queued) := by
    have hback := queued_setNeighbor_perm (s := s.setNeighbor n x) (x := s.neighbor n) (p := p)
      h.neighbors.nodup hn (by simp [hqueue, hx])
    rwa [setNeighbor_setNeighbor, setNeighbor_self] at hback
  by_cases hrest : rest = []
  · subst hrest
    rw [freePacket_last hqueue hpacket hram rfl]
    obtain rfl : jobs = [] := by simpa using hmap.symm
    refine h.drop hn rfl rfl rfl ?_ h.calls rfl rfl (.of_eq (fun _ _ => rfl) rfl rfl rfl) rfl
    -- without its neighbour, the queues are those of the others
    have herase : (s.neighborList.erase n).flatMap (NeighborQueue.packetQueue ∘
        Function.update s.neighbor n { s.neighbor n with
          packetQueue := [], transmitTimer := none }) =
        (s.neighborList.erase n).flatMap (NeighborQueue.packetQueue ∘ s.neighbor) :=
      flatMap_congr fun n' hn' => by
        rw [Function.comp_apply, update_of_ne (h.neighbors.nodup.mem_erase_iff.mp hn').1,
          Function.comp_apply]
    have hcons :
        s.queued.Perm ((n :: s.neighborList.erase n).flatMap
          (NeighborQueue.packetQueue ∘ s.neighbor)) :=
      (perm_cons_erase hn).flatMap_right _
    rw [flatMap_cons, Function.comp_apply, hqueue, ← herase] at hcons
    have hpools := (h.pools.perm hcons).remove hpacket hdata
    exact { hpools with }
  · rw [freePacket_more hqueue hpacket hram hrest]
    refine h.update hn rfl rfl rfl ?_ h.calls rfl (.of_eq (fun _ _ => rfl) rfl rfl rfl) rfl hmap
    exact ((h.pools.perm (hperm _ rfl)).remove hpacket hdata).setNeighbor _

/-! ### The counters -/

/-- The timer is set, the counters bound the attempts at the first job, which may have more, and
there were none at the others. -/
def Counted (x : NeighborQueue) : List (Job × ℕ) → Prop
  | [] => False
  | (j, m) :: jobs =>
    x.transmitTimer ≠ none ∧ m ≤ x.attempts ∧ x.collisions ≤ csmaMaxBackoff ∧
      x.transmissions < j.maxTransmissions ∧ ∀ jm ∈ jobs, jm.2 = 0 ∧ 0 < jm.1.maxTransmissions

/-- Every neighbour but this one is counted. -/
def SteadyBut (s : Csma) (o : Jobs) (n : Neighbor) : Prop :=
  ∀ n' ∈ s.neighborList, n' ≠ n → Counted (s.neighbor n') (o.queue (s.neighbor n').addr)

/-- Every queue agrees with its counters. -/
def Steady (s : Csma) (o : Jobs) : Prop :=
  ∀ n ∈ s.neighborList, Counted (s.neighbor n) (o.queue (s.neighbor n).addr)

section

variable (h : s.SteadyBut o n) (hq : s.Queues o) (hn : n ∈ s.neighborList)

include h hq hn

/-- What is steady but for one neighbour is steady again when that one is counted. -/
theorem SteadyBut.update (hneighbor : s'.neighbor = update s.neighbor n x)
    (hlist : s'.neighborList = s.neighborList) (haddr : x.addr = (s.neighbor n).addr)
    (hqueue : o'.queue = update o.queue x.addr jobs) (hcounted : Counted x jobs) :
    s'.Steady o' := by
  intro n' hn'
  rw [hlist] at hn'
  by_cases hnn : n' = n
  · subst hnn
    rw [hneighbor, update_self, hqueue, update_self]
    exact hcounted
  · have hne : (s.neighbor n').addr ≠ x.addr := haddr ▸ hq.addr_ne hn' hn hnn
    rw [hneighbor, update_of_ne hnn, hqueue, update_of_ne hne]
    exact h n' hn' hnn

/-- The counters start again for the next packet. -/
theorem SteadyBut.freePacket (hqueue : (s.neighbor n).packetQueue = p :: rest)
    (hjobs : o.queue (s.neighbor n).addr = jm :: jobs)
    (hfresh : ∀ jm ∈ jobs, jm.2 = 0 ∧ 0 < jm.1.maxTransmissions) :
    (s.freePacket n p rand).Steady (o.finish (s.neighbor n).addr jobs) := by
  obtain ⟨m, b, r, hpacket, hram, -⟩ := hq.pools.parts (mem_queued hn (hqueue ▸ mem_cons_self))
  have hlength : rest.length = jobs.length := by
    have hall := congrArg length (hq.jobs n hn)
    simpa [hqueue, hjobs] using hall
  by_cases hrest : rest = []
  · rw [freePacket_last hqueue hpacket hram hrest]
    intro n' hn'
    obtain ⟨hnn, hn''⟩ := (mem_listRemove hq.neighbors.nodup).mp hn'
    simp only [setNeighbor, release, Outbox.State.finish, update_of_ne hnn,
      update_of_ne (hq.addr_ne hn'' hn hnn)]
    exact h n' hn'' hnn
  · rw [freePacket_more hqueue hpacket hram hrest]
    refine h.update hq hn rfl rfl rfl rfl ?_
    cases jobs with
    | nil => exact absurd (eq_nil_of_length_eq_zero hlength) hrest
    | cons jm' jobs =>
      obtain ⟨hzero, hmax⟩ := hfresh jm' mem_cons_self
      refine ⟨some_ne_none _, ?_, show 0 ≤ csmaMaxBackoff by decide, hmax,
        fun x hx => hfresh x (mem_cons_of_mem _ hx)⟩
      rw [hzero]
      exact Nat.zero_le _

/-! ### An attempt -/

end

/-- Every packet that was submitted was served. -/
abbrev Served := Outbox.Served Job.addr Job.id Job.budget (MacTx.err, 1)

/-- A neighbour whose packet is sent now: the state, the job at the head of its queue, and what is
behind it. -/
structure Sending (s : Csma) (o : Jobs) (n : Neighbor) (q : Packet) (m : Metadata) (j : Job)
    (count : ℕ) (jobs : List (Job × ℕ)) : Prop where
  queues : s.Queues o
  others : s.SteadyBut o n
  mem : n ∈ s.neighborList
  head : ∃ rest, (s.neighbor n).packetQueue = q :: rest
  ptr : (s.packet q).ptr = some m
  job : s.job n m = j
  queue : o.queue (s.neighbor n).addr = (j, count) :: jobs
  fresh : ∀ jm ∈ jobs, jm.2 = 0 ∧ 0 < jm.1.maxTransmissions
  budget : count < j.budget

section Sending

variable {j : Job} {count : ℕ} {es : List CsmaEvent} {status : MacTx}

/-- The counters and the timer do not matter for it. -/
theorem Sending.setNeighbor (h : s.Sending o n q m j count jobs)
    (haddr : x.addr = (s.neighbor n).addr) (hqueue : x.packetQueue = (s.neighbor n).packetQueue) :
    (s.setNeighbor n x).Sending o n q m j count jobs where
  queues := by
    refine h.queues.update h.mem rfl rfl rfl ?_ h.queues.calls haddr
      (.of_eq (fun _ _ => rfl) rfl rfl rfl)
      (by rw [update_eq_self]) ?_
    · rw [show (s.setNeighbor n x).queued = s.queued from queued_congr rfl rfl hqueue]
      exact h.queues.pools.setNeighbor x
    · rw [hqueue, haddr]
      exact h.queues.jobs n h.mem
  others n' hn' hnn := by
    simp only [Csma.setNeighbor, update_of_ne hnn]
    exact h.others n' hn' hnn
  mem := h.mem
  head := by
    obtain ⟨rest, hrest⟩ := h.head
    exact ⟨rest, by simp only [Csma.setNeighbor, update_self, hqueue, hrest]⟩
  ptr := h.ptr
  job := by
    rw [← h.job]
    simp only [Csma.job, Csma.setNeighbor, update_self, haddr]
  queue := by
    simp only [Csma.setNeighbor, update_self, haddr]
    exact h.queue
  fresh := h.fresh
  budget := h.budget

/-- The packet is done. -/
theorem Sending.txDone (h : s.Sending o n q m j count jobs) (hserved : Served o es) :
    ∃ o', (s.txDone status q m n rand).1.Queues o' ∧ (s.txDone status q m n rand).1.Steady o' ∧
      Served o' (es ++ .attempt j :: (s.txDone status q m n rand).2) := by
  obtain ⟨rest, hrest⟩ := h.head
  refine ⟨o.finish (s.neighbor n).addr jobs, h.queues.freePacket h.mem hrest h.queue,
    h.others.freePacket h.queues h.mem hrest h.queue h.fresh, ?_⟩
  have hattempt := hserved.attempt h.queue h.budget
  have hdone := hattempt.finish (update_self ..)
    (status, (s.neighbor n).transmissions.toNat)
  rw [Csma.txDone, h.job]
  simpa [Outbox.State.attempt, Outbox.State.finish] using hdone

section

variable (h : s.Sending o n q m j count jobs) (hserved : Served o es)
  (hcount : count + 1 ≤ (s.neighbor n).attempts)
    (hcoll : (s.neighbor n).collisions ≤ csmaMaxBackoff)

include h hserved hcount hcoll

/-- The packet stays for another attempt. -/
theorem Sending.rexmit
    (htrans : (s.neighbor n).transmissions < j.maxTransmissions) :
    ∃ o', (s.rexmit q n rand).Queues o' ∧ (s.rexmit q n rand).Steady o' ∧
      Served o' (es ++ [.attempt j]) := by
  obtain ⟨rest, hrest⟩ := h.head
  have hmem : q ∈ s.queued := mem_queued h.mem (hrest ▸ mem_cons_self)
  obtain ⟨m', b, r, hpacket, hram, hdata⟩ := h.queues.pools.parts hmem
  obtain ⟨s', hs', heq⟩ : ∃ s', s' = ({ s with
      neighbor := update s.neighbor n { s.neighbor n with
        transmitTimer := some (backoffDelay (s.neighbor n).collisions rand) }
      ram := update s.ram r { s.packetbuf with data := (s.ram r).data } } : Csma) ∧
      s.rexmit q n rand = s' := by
    refine ⟨_, rfl, ?_⟩
    simp only [Csma.rexmit, scheduleTransmission, Csma.setNeighbor,
      queuebufUpdateAttrFromPacketbuf, ramOf, hpacket, bind_some, hram]
  have hsame : SameFor s s' s.queued := by
    subst hs'
    refine .of_parts (fun _ _ => rfl) (fun _ _ _ _ => rfl) (fun _ _ => rfl) fun p _ r' _ => ?_
    by_cases hr : r' = r
    · subst hr
      simp
    · simp [hr]
  have hpools : s'.PoolsFor s'.queued := by
    rw [queued_congr (by rw [hs']) (congrArg Csma.neighbor hs') rfl]
    exact h.queues.pools.congr hsame (by rw [hs']) (by rw [hs']) (by rw [hs']) (by rw [hs'])
  have hjobs : (s.neighbor n).packetQueue.map (s'.jobOf (s.neighbor n).addr) =
      ((j, count + 1) :: jobs).map fun jm => some jm.1 := by
    have hold := h.queues.jobs n h.mem
    rw [h.queue] at hold
    exact (map_congr_left fun p hp => hsame.job p (mem_queued h.mem hp) _).trans hold
  rw [heq]
  refine ⟨o.attempt (s.neighbor n).addr j count jobs, ?_, ?_, hserved.attempt h.queue h.budget⟩
  · exact h.queues.update h.mem (congrArg Csma.neighbor hs') (by rw [hs']) (by rw [hs']) hpools
      (by rw [hs']; exact h.queues.calls) rfl hsame rfl hjobs
  · exact h.others.update h.queues h.mem (congrArg Csma.neighbor hs') (by rw [hs']) rfl rfl
      ⟨nofun, hcount, hcoll, htrans, h.fresh⟩

/-- The common end of `collision` and `noack`. -/
theorem Sending.retryOrDone :
    ∃ o', (s.retryOrDone status q m n rand).1.Queues o' ∧
      (s.retryOrDone status q m n rand).1.Steady o' ∧
      Served o' (es ++ .attempt j :: (s.retryOrDone status q m n rand).2) := by
  rw [Csma.retryOrDone]
  split_ifs with hmax
  · exact h.txDone hserved
  · refine h.rexmit hserved hcount hcoll ?_
    rw [← h.job]
    exact UInt8.not_le.mp hmax

end

end Sending

end Csma

end Nespy.Mac
