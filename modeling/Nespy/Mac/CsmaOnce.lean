import Nespy.Mac.CsmaQueues

/-!
# Mac — CSMA completes every packet once

Runs of CSMA from `csma_output_init` on, with any calls of `csma_output_packet`, any expiries of the
timers that are set, and any answers of the framer and the radio.  `csma_completes_once`: every
packet that was accepted waits in the queue of its receiver, or was done once, in the order of
submission and after at most `max_transmissions * (CSMA_MAX_BACKOFF + 1)` attempts; a refused packet
was done once with `MAC_TX_ERR`; and the pools hold the packets that wait, and nothing else.
-/

open List

namespace Nespy.Mac

open Nespy.Lib Nespy.Sys
open Nespy.Sicslowpan (Linkaddr linkaddrNull)

namespace Csma

variable {s s' : Csma} {o : Jobs} {n : Neighbor} {p q : Packet} {rand : UInt16} {m : Metadata}
  {j : Job}
  {count : ℕ} {jobs : List (Job × ℕ)} {es : List CsmaEvent} {status : MacTx} {outcome : Outcome}

/-! ### The timer expires -/

theorem toNat_add_one {a b : UInt8} (h : a < b) : (a + 1).toNat = a.toNat + 1 := by
  have hb := b.toNat_lt
  have hab := UInt8.lt_iff_toNat_lt.mp h
  have hone : (1 : UInt8).toNat = 1 := rfl
  rw [UInt8.toNat_add, hone, Nat.mod_eq_of_lt (by omega)]

variable {r : Csma × List CsmaEvent} {o' : Jobs} {addr : Linkaddr} {sent : Option ℕ} {cptr id : ℕ}

/-- The counters are set, and the packet is done or stays for another attempt. -/
theorem Sending.recount (h : s.Sending o n q m j count jobs) (hserved : Served o es)
    {transmissions collisions : UInt8}
    (hcount : count + 1 ≤ transmissions.toNat * (csmaMaxBackoff.toNat + 1) + collisions.toNat)
    (hcoll : collisions ≤ csmaMaxBackoff)
    (hr : r = (s.setNeighbor n { s.neighbor n with transmissions, collisions }).retryOrDone status q
      m n rand) :
    ∃ o', r.1.Queues o' ∧ r.1.Steady o' ∧ Served o' (es ++ .attempt j :: r.2) := by
  subst hr
  have hset :
      (s.setNeighbor n { s.neighbor n with transmissions, collisions }).Sending o n q m j
        count jobs :=
    h.setNeighbor rfl rfl
  refine hset.retryOrDone hserved ?_ ?_
  · simpa using hcount
  · simpa using hcoll

/-- The `switch` of `packet_sent` with one more transmission. -/
theorem Sending.packetResult (h : s.Sending o n q m j count jobs) (rand : UInt16)
    (hserved : Served o es)
    (hcount : count ≤ (s.neighbor n).attempts) (hcoll : (s.neighbor n).collisions ≤ csmaMaxBackoff)
    (htrans : (s.neighbor n).transmissions < j.maxTransmissions) (hstatus : status ≠ .deferred) :
    ∃ o', (s.packetResult status q m n 1 rand).1.Queues o' ∧
      (s.packetResult status q m n 1 rand).1.Steady o' ∧
      Served o' (es ++ .attempt j :: (s.packetResult status q m n 1 rand).2) := by
  have hnext := toNat_add_one htrans
  have hmax : csmaMaxBackoff.toNat = 5 := rfl
  have hcoll' : (s.neighbor n).collisions.toNat ≤ 5 := UInt8.le_iff_toNat_le.mp hcoll
  rw [NeighborQueue.attempts, hmax] at hcount
  cases status with
  | deferred => exact absurd rfl hstatus
  | err | errFatal => exact h.txDone hserved
  | ok =>
    have hdone : (s.setNeighbor n { s.neighbor n with
        transmissions := (s.neighbor n).transmissions + 1, collisions := 0 }).Sending o n q m j
          count jobs :=
      h.setNeighbor rfl rfl
    exact hdone.txDone hserved
  | noack => exact h.recount hserved (by rw [hmax]; omega) (by decide) rfl
  | collision =>
    rw [Csma.packetResult, Csma.collision]
    split_ifs with hover
    · exact h.recount hserved (by rw [hmax]; omega) (by decide) rfl
    · have hadd : ((s.neighbor n).collisions + 1).toNat = (s.neighbor n).collisions.toNat + 1 := by
        rw [UInt8.toNat_add, UInt8.toNat_one, Nat.mod_eq_of_lt (by omega)]
      exact h.recount hserved (by rw [hmax]; omega) (UInt8.not_lt.mp hover) rfl

theorem macTx_ne_deferred (outcome : Outcome) (isBroadcast : Bool) :
    outcome.macTx isBroadcast ≠ .deferred := by
  rw [Outcome.macTx]
  split_ifs <;> cases outcome.transmit <;> simp

/-- A counted job has attempts left. -/
theorem Counted.lt_budget {x : NeighborQueue} (h : Counted x jobs) :
    ∀ jm ∈ jobs, jm.2 < jm.1.budget := by
  have hmax : csmaMaxBackoff.toNat = 5 := rfl
  cases jobs with
  | nil => nofun
  | cons jm jobs =>
    obtain ⟨-, hcount, hcoll, htrans, hfresh⟩ := h
    refine forall_mem_cons.mpr ⟨?_, fun jm' hjm' => ?_⟩
    · have hcoll' : x.collisions.toNat ≤ 5 := UInt8.le_iff_toNat_le.mp hcoll
      have htrans' := UInt8.lt_iff_toNat_lt.mp htrans
      rw [NeighborQueue.attempts, hmax] at hcount
      rw [Job.budget, hmax]
      omega
    · obtain ⟨hzero, hpos⟩ := hfresh jm' hjm'
      have hpos' := UInt8.lt_iff_toNat_lt.mp hpos
      rw [Job.budget, hmax]
      omega

theorem Counted.exists_cons {x : NeighborQueue} (h : Counted x jobs) :
    ∃ j count jobs', jobs = (j, count) :: jobs' := by
  cases jobs with
  | nil => exact h.elim
  | cons jm jobs => exact ⟨jm.1, jm.2, jobs, rfl⟩

theorem Queues.packetQueue_eq_nil (h : s.Queues o) (hn : n ∈ s.neighborList) :
    (s.neighbor n).packetQueue = [] ↔ o.queue (s.neighbor n).addr = [] := by
  rw [← map_eq_nil_iff, h.jobs n hn, map_eq_nil_iff]

/-- The timer of a neighbour expires. -/
theorem Queues.expire (h : s.Queues o) (hsteady : s.Steady o) (hserved : Served o es)
    (hn : n ∈ s.neighborList)
    (hr : r = (s.setNeighbor n { s.neighbor n with transmitTimer := none }).transmitFromQueue n
      outcome rand) :
    ∃ o', r.1.Queues o' ∧ r.1.Steady o' ∧ Served o' (es ++ r.2) := by
  have hcounted := hsteady n hn
  obtain ⟨j, count, jobs, hjobs⟩ := hcounted.exists_cons
  have hbudget : count < j.budget := hcounted.lt_budget (j, count) (hjobs ▸ mem_cons_self)
  rw [hjobs] at hcounted
  obtain ⟨-, hcount, hcoll, htrans, hfresh⟩ := hcounted
  have hne : (s.neighbor n).packetQueue ≠ [] := mt (h.packetQueue_eq_nil hn).mp (by simp [hjobs])
  obtain ⟨q, rest, hqueue⟩ := exists_cons_of_ne_nil hne
  have hmap := h.jobs n hn
  rw [hjobs, hqueue] at hmap
  have hjob := (cons.inj hmap).1
  obtain ⟨m, b, d, hpacket, hram, hdata⟩ := h.pools.parts (mem_queued hn (hqueue ▸ mem_cons_self))
  -- the packet is put into the packetbuf
  have hloaded : ({ s with packetbuf := s.ram d } : Csma).Sending o n q m j count jobs := by
    refine ⟨⟨h.neighbors, ⟨h.pools.packets, h.pools.metadata, h.pools.bufs, h.pools.rams⟩, h.calls,
      h.addrs,
      h.idle, h.unknown, h.jobs⟩, fun n' hn' _ => hsteady n' hn', hn,
        ⟨rest, hqueue⟩, by rw [hpacket], ?_,
      hjobs, hfresh, hbudget⟩
    simp only [jobOf, hpacket, hdata, Option.bind_some, Option.map_some, Option.some.injEq] at hjob
    exact hjob
  have hsending : (({ s with packetbuf := s.ram d } : Csma).setNeighbor n
      { s.neighbor n with transmitTimer := none }).Sending o n q m j count jobs :=
        hloaded.setNeighbor rfl rfl
  have hresult := hsending.packetResult rand hserved
    (by simpa using hcount)
    (by simpa using hcoll) (by simpa using htrans)
    (macTx_ne_deferred outcome ((s.ram d).receiver = linkaddrNull))
  -- the packet found by its sequence number is the one that was sent
  generalize hs' : (({ s with packetbuf := s.ram d } : Csma).setNeighbor n
      { s.neighbor n with transmitTimer := none }).packetResult
        (outcome.macTx ((s.ram d).receiver = linkaddrNull)) q m n 1 rand = s'
  have heq : r = (s'.1, .attempt j :: s'.2) := by
    rw [hr, ← hs', ← hsending.job]
    simp [transmitFromQueue, hqueue, queuebufToPacketbuf, hpacket, hram, sendOnePacket,
      packetSent, queuebufSeqno]
  rw [heq]
  rwa [hs'] at hresult

/-! ### A packet is submitted -/

/-- A neighbour that a packet can be put behind the others of: counted, or new. -/
def Ready (x : NeighborQueue) (jobs : List (Job × ℕ)) : Prop :=
  Counted x jobs ∨ jobs = [] ∧ x.transmitTimer = none ∧ x.transmissions = 0 ∧ x.collisions = 0

theorem neighborQueueFromAddr_eq_some (h : s.neighborQueueFromAddr addr = some n) :
    n ∈ s.neighborList ∧ (s.neighbor n).addr = addr :=
  ⟨mem_of_find?_eq_some h, by simpa using find?_some h⟩

theorem neighborQueueFromAddr_eq_none (h : s.neighborQueueFromAddr addr = none) :
    ∀ n ∈ s.neighborList, (s.neighbor n).addr ≠ addr := fun n hn => by
  simpa using find?_eq_none.mp h n hn

/-- The entry for an address is found or new; without room for it nothing changes. -/
theorem Queues.neighborFor (h : s.Queues o) (hsteady : s.Steady o) (addr : Linkaddr) :
    s.neighborFor addr = (s, none) ∨
      ∃ n neighbor neighborCount neighborList, s.neighborFor addr =
        ({ s with neighbor, neighborCount, neighborList }, some n) ∧
        ({ s with neighbor, neighborCount, neighborList } : Csma).Queues o ∧
        ({ s with neighbor, neighborCount, neighborList } : Csma).SteadyBut o n ∧
        n ∈ neighborList ∧ (neighbor n).addr = addr ∧ Ready (neighbor n) (o.queue addr) := by
  rw [Csma.neighborFor]
  cases hfind : s.neighborQueueFromAddr addr with
  | some n =>
    obtain ⟨hn, haddr⟩ := neighborQueueFromAddr_eq_some hfind
    exact .inr ⟨n, _, _, _, rfl, h, fun n' hn' _ => hsteady n' hn', hn, haddr,
      .inl (haddr ▸ hsteady n hn)⟩
  | none =>
    have hnone := neighborQueueFromAddr_eq_none hfind
    cases halloc : membAlloc s.neighborCount with
    | none => exact .inl rfl
    | some nc =>
      obtain ⟨n, neighborCount⟩ := nc
      obtain ⟨hadd, hn⟩ := h.add (x := { s.neighbor n with
        addr, transmissions := 0, collisions := 0, packetQueue := [] }) halloc hnone rfl
      refine .inr ⟨n, _, _, _, rfl, hadd, fun n' hn' hnn => ?_,
        (mem_listAdd h.neighbors.nodup).mpr (.inl rfl), by simp, .inr ⟨h.unknown addr hnone, ?_⟩⟩
      · have hmem := ((mem_listAdd h.neighbors.nodup).mp hn').resolve_left hnn
        simpa [Function.update_of_ne hnn] using hsteady n' hmem
      · simp [h.idle n hn]

theorem enqueue_eq (hq : q ∉ (s.neighbor n).packetQueue) :
    s.enqueue n q rand = s.setNeighbor n { s.neighbor n with
      packetQueue := (s.neighbor n).packetQueue ++ [q]
      transmitTimer := if (s.neighbor n).packetQueue = []
        then some (backoffDelay (s.neighbor n).collisions rand)
        else (s.neighbor n).transmitTimer } := by
  have hadd : listAdd (s.neighbor n).packetQueue q = (s.neighbor n).packetQueue ++ [q] := by
    rw [listAdd, listRemove, erase_of_not_mem hq]
  rw [Csma.enqueue, hadd]
  cases hqueue : (s.neighbor n).packetQueue with
  | nil => simp [scheduleTransmission]
  | cons p rest =>
    have hpq : p ≠ q := fun hpq => hq (hqueue ▸ hpq ▸ mem_cons_self)
    simp [hpq]

/-- The packet is put at the end of the queue. -/
theorem Queues.enqueue (h : s.Queues o) (hsteady : s.SteadyBut o n) (hn : n ∈ s.neighborList)
    (hready : Ready (s.neighbor n) (o.queue (s.neighbor n).addr))
    (hnew : s.newPacket sent cptr id = (s', some q)) (hcalls : o'.calls = o.calls)
    (hqueue : o'.queue = Function.update o.queue (s.neighbor n).addr (o.queue (s.neighbor n).addr ++
      [(⟨id, (s.neighbor n).addr, sent, cptr, s.packetbuf.data, s.packetbuf.maxTransmissions⟩, 0)]))
    (hmax : 0 < s.packetbuf.maxTransmissions) :
    (s'.enqueue n q rand).Queues o' ∧ (s'.enqueue n q rand).Steady o' := by
  obtain ⟨packetCount, metadataCount, bufCount, ramCount, packet, metadata, ramPtr,
    ram, rfl, hq, hsame, hpools, hjob⟩ := newPacket_some h.pools hnew
  have hqn : q ∉ (s.neighbor n).packetQueue := fun hmem => hq (mem_queued hn hmem)
  have hjobs := h.jobs n hn
  rw [enqueue_eq (by exact hqn)]
  constructor
  · refine h.update hn rfl rfl rfl ?_ (hcalls.trans h.calls) rfl
      ⟨hsame.packet, hsame.data, hsame.job⟩ hqueue ?_
    · exact (hpools.setNeighbor _).perm (queued_setNeighbor_perm h.neighbors.nodup hn
        (perm_append_singleton q (s.neighbor n).packetQueue)).symm
    · rw [map_append, map_append, ← hjobs]
      refine congrArg₂ _ (map_congr_left fun p hp => hsame.job p (mem_queued hn hp) _) ?_
      exact congrArg (fun j => [j]) (hjob (s.neighbor n).addr)
  · refine hsteady.update h hn rfl rfl rfl hqueue ?_
    rcases hready with hcounted | ⟨hnone, htimer, htrans, hcoll⟩
    · obtain ⟨j, count, jobs, hold⟩ := hcounted.exists_cons
      have hne : (s.neighbor n).packetQueue ≠ [] := mt (h.packetQueue_eq_nil hn).mp (by simp [hold])
      rw [hold] at hcounted ⊢
      obtain ⟨htimer, hcount, hcoll, htrans, hfresh⟩ := hcounted
      refine ⟨?_, hcount, hcoll, htrans, fun x hx => ?_⟩
      · simpa only [if_neg hne] using htimer
      · rcases mem_append.mp hx with hx | hx
        · exact hfresh x hx
        · obtain rfl := mem_singleton.mp hx
          exact ⟨rfl, hmax⟩
    · have hnil := (h.packetQueue_eq_nil hn).mpr hnone
      rw [hnone]
      refine ⟨?_, Nat.zero_le _, ?_, ?_, nofun⟩
      · simp [hnil]
      · rw [hcoll]
        decide
      · rw [htrans]
        exact hmax

/-- A change of memory that no packet refers to. -/
theorem Queues.congr (h : s.Queues o) {packet : Packet → PacketQueue}
    {ramPtr : Queuebuf → Option QueuebufData}
    (hsame : SameFor s { s with packet, ramPtr } s.queued) :
    ({ s with packet, ramPtr } : Csma).Queues o :=
  { h with
    pools := h.pools.congr hsame rfl rfl rfl rfl
    jobs := fun n hn =>
      (map_congr_left fun p hp => hsame.job p (mem_queued hn hp) _).trans (h.jobs n hn) }

theorem SteadyBut.steady (h : s.SteadyBut o n)
    (hn : Counted (s.neighbor n) (o.queue (s.neighbor n).addr)) :
    s.Steady o := by
  intro n' hn'
  by_cases hnn : n' = n
  · exact hnn ▸ hn
  · exact h n' hn' hnn

section

variable (h : s.Queues o) (hn : n ∈ s.neighborList)
  (hready : Ready (s.neighbor n) (o.queue (s.neighbor n).addr))

include h hn hready

/-- A neighbour that something waits for is not new. -/
theorem Ready.counted
    (hne : (s.neighbor n).packetQueue ≠ []) :
    Counted (s.neighbor n) (o.queue (s.neighbor n).addr) := by
  exact hready.resolve_right fun hnew => hne ((h.packetQueue_eq_nil hn).mpr hnew.1)

/-- A new neighbour that no packet could be put in goes away. -/
theorem Queues.dropIfEmpty (hsteady : s.SteadyBut o n) :
    (s.dropIfEmpty n).Queues o ∧ (s.dropIfEmpty n).Steady o := by
  rw [Csma.dropIfEmpty]
  split_ifs with hlength
  · have hempty := eq_nil_of_length_eq_zero hlength
    have hnone := (h.packetQueue_eq_nil hn).mp hempty
    rw [hnone] at hready
    obtain ⟨-, htimer, -, -⟩ := hready.resolve_left id
    have hperm :
        s.queued.Perm ((listRemove s.neighborList n).flatMap
          (NeighborQueue.packetQueue ∘ s.neighbor)) := by
      have hcons :
          s.queued.Perm ((n :: s.neighborList.erase n).flatMap
            (NeighborQueue.packetQueue ∘ s.neighbor)) :=
        (perm_cons_erase hn).flatMap_right _
      rwa [flatMap_cons, Function.comp_apply, hempty, nil_append] at hcons
    have hpools := h.pools.perm hperm
    refine ⟨h.drop hn (Function.update_eq_self ..).symm rfl rfl
      { hpools with } h.calls hempty htimer (.of_eq (fun _ _ => rfl) rfl rfl rfl)
      (by rw [← hnone, Function.update_eq_self]), fun n' hn' => ?_⟩
    obtain ⟨hnn, hn''⟩ := (mem_listRemove h.neighbors.nodup).mp hn'
    exact hsteady n' hn'' hnn
  · exact ⟨h, hsteady.steady (hready.counted h hn fun hnil => hlength (by rw [hnil]; rfl))⟩

end

theorem maxTransmissions_pos (b : Packetbuf) : 0 < b.maxTransmissions := by
  rw [Packetbuf.maxTransmissions]
  split_ifs with hne
  · decide
  · exact UInt8.pos_iff_ne_zero.mpr hne

/-- The packet is queued, or nothing has changed for the packets that are. -/
theorem Queues.queuePacket (h : s.Queues o) (hsteady : s.Steady o) (rand : UInt16)
    (hcalls : o'.calls = o.calls)
    (hqueue : o'.queue = Function.update o.queue s.packetbuf.receiver
      (o.queue s.packetbuf.receiver ++
      [(⟨id, s.packetbuf.receiver, sent, cptr, s.packetbuf.data, s.packetbuf.maxTransmissions⟩,
        0)])) :
    (∃ s', s.queuePacket sent cptr id rand = (s', false) ∧ s'.Queues o ∧ s'.Steady o) ∨
      ∃ s', s.queuePacket sent cptr id rand = (s', true) ∧ s'.Queues o' ∧ s'.Steady o' := by
  rw [Csma.queuePacket]
  rcases h.neighborFor hsteady s.packetbuf.receiver with hfull | ⟨n, neighbor, neighborCount,
    neighborList, hfor, hq, hbut, hn, haddr, hready⟩
  · rw [hfull]
    exact .inl ⟨s, rfl, h, hsteady⟩
  · rw [hfor]
    rw [← haddr] at hready
    split
    · rename_i s₁ heq
      cases heq
    · rename_i s₁ n₁ heq
      obtain ⟨hs₁, hn₁⟩ := Prod.mk.inj heq
      cases hn₁
      subst hs₁
      split_ifs with hlength
      · split
        · rename_i s₂ q hnew
          refine .inr ⟨_, rfl, hq.enqueue hbut hn hready hnew hcalls ?_ (maxTransmissions_pos _)⟩
          rw [hqueue]
          simp only [haddr]
        · rename_i s₂ hnew
          obtain ⟨packet, ramPtr, rfl, hsame⟩ := newPacket_none hq.pools hnew
          exact .inl ⟨_, rfl, (hq.congr hsame).dropIfEmpty hn hready hbut⟩
      · have hne : (neighbor n).packetQueue ≠ [] := fun hnil => hlength (by
          rw [hnil]
          decide)
        exact .inl ⟨_, rfl, hq, hbut.steady (hready.counted hq hn hne)⟩

/-- What holds between the state and the events so far. -/
def Inv (s : Csma) (es : List CsmaEvent) : Prop := ∃ o, s.Queues o ∧ s.Steady o ∧ Served o es

/-- A packet is submitted. -/
theorem Inv.output (h : s.Inv es) {packet : Packetbuf} {randSeqno : UInt16} {o' : List CsmaEvent}
    (hout : ({ s with packetbuf := packet } : Csma).csmaOutputPacket sent cptr randSeqno rand =
      (s', o')) :
    s'.Inv (es ++ o') := by
  obtain ⟨o, hq, hsteady, hserved⟩ := h
  generalize hs₁ : ({ s with packetbuf := packet } : Csma).setSeqno randSeqno = s₁
  generalize hs₂ : ({ s₁ with calls := s₁.calls + 1 } : Csma) = s₂
  obtain ⟨job, hjob⟩ : ∃ job : Job, job =
      ⟨s₁.calls, s₁.packetbuf.receiver, sent, cptr, s₁.packetbuf.data,
        s₁.packetbuf.maxTransmissions⟩ := ⟨_, rfl⟩
  have hid : job.id = o.calls := by
    rw [hjob, hq.calls, ← hs₁]
    rfl
  have hq₂ : s₂.Queues o.refuse := by
    subst hs₂ hs₁
    exact { hq with pools := { hq.pools with }, calls := congrArg (· + 1) hq.calls }
  have hsteady₂ : s₂.Steady o.refuse := by
    subst hs₂ hs₁
    exact hsteady
  have hout' : (let r := s₂.queuePacket sent cptr s₁.calls rand
      (r.1, if r.2 then [.accepted job] else [.refused job, .done job (.err, 1)])) = (s', o') := by
    rw [← hout, Csma.csmaOutputPacket, ← hs₂, hjob, ← hs₁]
  have hqueue : (o.accept job.addr job).queue = Function.update o.refuse.queue s₂.packetbuf.receiver
      (o.refuse.queue s₂.packetbuf.receiver ++
        [(⟨s₁.calls, s₂.packetbuf.receiver, sent, cptr, s₂.packetbuf.data,
        s₂.packetbuf.maxTransmissions⟩, 0)]) := by
    subst hs₂ hjob
    rfl
  have hcalls : (o.accept job.addr job).calls = o.refuse.calls := rfl
  rcases hq₂.queuePacket hsteady₂ rand hcalls hqueue
    with ⟨s₃, hfalse, hq₃, hsteady₃⟩ | ⟨s₃, htrue, hq₃, hsteady₃⟩
  · rw [hfalse] at hout'
    obtain ⟨rfl, rfl⟩ := Prod.mk.inj hout'
    exact ⟨o.refuse, hq₃, hsteady₃, hserved.refuse hid⟩
  · rw [htrue] at hout'
    obtain ⟨rfl, rfl⟩ := Prod.mk.inj hout'
    exact ⟨o.accept job.addr job, hq₃, hsteady₃, hserved.accept hid⟩

/-- **One step.** -/
theorem Inv.step (h : s.Inv es) {input : CsmaInput} {o' : List CsmaEvent}
    (hstep : s.step input = some (s', o')) :
    s'.Inv (es ++ o') := by
  cases input with
  | output sent cptr packet randSeqno rand => exact h.output (Option.some.inj hstep)
  | expire n outcome rand =>
    obtain ⟨htimer, hs⟩ := Option.ite_none_right_eq_some.mp hstep
    obtain ⟨o, hq, hsteady, hserved⟩ := h
    have hn : n ∈ s.neighborList := by
      by_contra hn
      exact htimer (hq.idle n hn).2
    exact hq.expire hsteady hserved hn (Option.some.inj hs).symm

theorem initial_inv : initial.Inv [] :=
  ⟨.initial, ⟨.nil, ⟨.nil, .nil, .nil, .nil⟩, rfl, nofun, fun _ _ => ⟨rfl, rfl⟩,
    fun _ _ => rfl, nofun⟩, nofun, .initial⟩

/-! ### Every packet is done once -/

/-- The packets that wait for an address, in the order of the queue. -/
def queueOf (s : Csma) (a : Linkaddr) : List Job :=
  match s.neighborQueueFromAddr a with
  | some n => (s.neighbor n).packetQueue.filterMap (s.jobOf a)
  | none => []

theorem Queues.queueOf (h : s.Queues o) (a : Linkaddr) :
    s.queueOf a = (o.queue a).map Prod.fst := by
  rw [Csma.queueOf]
  split
  · rename_i n hfind
    obtain ⟨hn, rfl⟩ := neighborQueueFromAddr_eq_some hfind
    have hjobs := congrArg (filterMap id) (h.jobs n hn)
    simpa [filterMap_map] using hjobs
  · rename_i hfind
    rw [h.unknown a (neighborQueueFromAddr_eq_none hfind), map_nil]

/-- What the calls and callbacks so far were. -/
structure CompletesOnce (s : Csma) (es : List CsmaEvent) : Prop where
  /-- Every call of `csma_output_packet` submits a packet, which is accepted or refused. -/
  numbered : (Outbox.submitted es).map Job.id = range s.calls
  /-- A callback is that of a packet, with its own argument. -/
  own : ∀ jr ∈ Outbox.dones es, jr.1 ∈ Outbox.submitted es
  /-- The packets accepted for an address are those done, in that order, and those that wait. -/
  inOrder : ∀ a, (Outbox.accepted es).filter (·.addr = a) =
    ((Outbox.dones es).map Prod.fst).filter (fun j => j.addr = a ∧ j ∈ Outbox.accepted es) ++
      s.queueOf a
  /-- An accepted packet waits and has had no callback, or does not wait and has had one. -/
  once : ∀ j ∈ Outbox.accepted es,
    (j ∈ s.queueOf j.addr ∧ (Outbox.dones es).filter (·.1 = j) = []) ∨
    (j ∉ s.queueOf j.addr ∧ ∃ r, (Outbox.dones es).filter (·.1 = j) = [(j, r)])
  /-- The attempts are bounded, and a packet that waits may have more. -/
  attempts : ∀ j ∈ Outbox.accepted es,
    (Outbox.attempts es).count j ≤ j.maxTransmissions.toNat * (csmaMaxBackoff.toNat + 1) ∧
      (j ∈ s.queueOf j.addr →
        (Outbox.attempts es).count j < j.maxTransmissions.toNat * (csmaMaxBackoff.toNat + 1))
  /-- There is no attempt after the callback. -/
  last : es.Pairwise fun e e' => ∀ j r, e = .done j r → e' ≠ .attempt j
  /-- A refused packet has had one callback, with `MAC_TX_ERR`. -/
  refused : ∀ j ∈ Outbox.refused es, (Outbox.dones es).filter (·.1 = j) = [(j, (.err, 1))]

/-- The pools hold the packets that wait, and the list the neighbours they wait for, whose timers
are set. -/
structure Exact (s : Csma) : Prop where
  pools : s.PoolsFor s.queued
  neighbors : Holds s.neighborCount s.neighborList
  busy : ∀ n, n ∈ s.neighborList ↔ (s.neighbor n).packetQueue ≠ []
  timers : ∀ n ∈ s.neighborList, (s.neighbor n).transmitTimer ≠ none

/-- What the invariant says in the end. -/
theorem Inv.completesOnce (h : s.Inv es) : s.CompletesOnce es := by
  obtain ⟨o, hq, hsteady, hserved⟩ := h
  refine ⟨hq.calls ▸ hserved.submitted,
    fun jr hjr => hserved.known jr.1 (.inr (mem_map_of_mem hjr)),
    fun a => hq.queueOf a ▸ hserved.fifo a, fun j hj => ?_,
      fun j hj => ⟨hserved.bound j hj, fun hwait => ?_⟩,
    hserved.last, hserved.refused⟩
  · rw [hq.queueOf]
    exact hserved.once hj
  · rw [hq.queueOf] at hwait
    obtain ⟨jm, hjm, rfl⟩ := mem_map.mp hwait
    rw [hserved.queued _ jm hjm]
    obtain ⟨n, hn, haddr⟩ : ∃ n ∈ s.neighborList, (s.neighbor n).addr = jm.1.addr := by
      by_contra hnone
      push Not at hnone
      rw [hq.unknown _ hnone] at hjm
      cases hjm
    exact (hsteady n hn).lt_budget jm (haddr ▸ hjm)

theorem Inv.exact (h : s.Inv es) : s.Exact := by
  obtain ⟨o, hq, hsteady, hserved⟩ := h
  have hne : ∀ n ∈ s.neighborList, (s.neighbor n).packetQueue ≠ [] ∧
      (s.neighbor n).transmitTimer ≠ none := by
    intro n hn
    have hcounted := hsteady n hn
    obtain ⟨j, count, jobs, hqueue⟩ := hcounted.exists_cons
    rw [hqueue] at hcounted
    exact ⟨mt (hq.packetQueue_eq_nil hn).mp (by simp [hqueue]), hcounted.1⟩
  refine ⟨hq.pools, hq.neighbors, fun n => ⟨fun hn => (hne n hn).1, fun hqueue => ?_⟩,
    fun n hn => (hne n hn).2⟩
  by_contra hn
  exact hqueue (hq.idle n hn).1

/-- **CSMA completes every packet once**, in every run. -/
theorem csma_completes_once {tr : List (CsmaInput × List CsmaEvent)}
    (hrun : Runs step (fun _ _ => True) initial tr s) : s.CompletesOnce (events tr) ∧ s.Exact := by
  have hinv : s.Inv ([] ++ events tr) := hrun.trace Inv (fun h _ hstep => h.step hstep) initial_inv
  exact ⟨hinv.completesOnce, hinv.exact⟩

/-- A packet of one byte for the node whose address is made of that byte. -/
def packetTo (a : UInt8) : Packetbuf := ⟨[a], 0, 2, ⟨replicate 8 a, rfl⟩⟩

def jobTo (id : ℕ) (a : UInt8) : Job := ⟨id, (packetTo a).receiver, some 1, id, [a], 2⟩

/-- The radio sends the frame, and an acknowledgement comes or not. -/
def sentFrame (acked : Bool) : Outcome :=
  ⟨false, false, false, .ok, false, acked, true, acked, 3, 7, 7⟩

/-- Packets for three nodes, of which there is room for two; the first is acknowledged at the second
attempt. -/
theorem csma_completes_once_retried : ∃ tr s, Runs step (fun _ _ => True) initial tr s ∧
    events tr = [.accepted (jobTo 0 1), .accepted (jobTo 1 2), .refused (jobTo 2 3),
      .done (jobTo 2 3) (.err, 1),
      .attempt (jobTo 0 1), .attempt (jobTo 0 1), .done (jobTo 0 1) (.ok, 2)] ∧
    s.CompletesOnce (events tr) ∧ s.Exact := by
  have hrun : (execute step (fun _ _ => True) initial
      [.output (some 1) 0 (packetTo 1) 9 0, .output (some 1) 1 (packetTo 2) 0 0,
        .output (some 1) 2 (packetTo 3) 0 0,
        .expire 0 (sentFrame false) 0, .expire 0 (sentFrame true) 0]).map (fun r => events r.2) =
      some [.accepted (jobTo 0 1), .accepted (jobTo 1 2), .refused (jobTo 2 3),
        .done (jobTo 2 3) (.err, 1),
        .attempt (jobTo 0 1), .attempt (jobTo 0 1), .done (jobTo 0 1) (.ok, 2)] := by
    decide +kernel
  obtain ⟨tr, s, hruns, hevents⟩ := exists_run_of_events hrun
  exact ⟨tr, s, hruns, hevents, csma_completes_once hruns⟩

end Csma

end Nespy.Mac
