import Nespy.Coap.Life

/-!
# Coap — what happens to a transaction

The life of a block since it was last allocated, read off the events: whom it was allocated for,
what callback was stored, with which intervals it was transmitted and how often a callback was
called.  A result is a relation between the phase of one block and its life, kept by every move of
that block (`keeps_of_run`).

**Pool and retransmission** (`transactions_bounded`).  The list, the counts and the timers agree in
every state that is reached undisturbed; a transaction is transmitted at most five times, each
interval twice the one before, and its callback is called at most once.  Disturbed, a creator sends
a transaction that was freed behind its back, and the timer of a free block runs (`timer_of_freed`).
-/

open List

namespace Nespy.Coap

open Nespy.Lib

/-! ### Lives -/

/-- What a block has been used for since its last allocation. -/
structure Life where
  created : Option (UInt16 × CoapEndpoint)
  stored : Option (ℕ × ℕ)
  intervals : List UInt32
  invocations : ℕ

variable {t : Block} {l : Life} {es : List Event} {e : Event} {x : CoapTransaction} {p q : Phase}

namespace Life

/-- A block that was never allocated. -/
def unborn : Life := ⟨none, none, [], 0⟩

/-- The life of `t` after one more event. -/
def update (t : Block) (l : Life) : Event → Life
  | .allocated u mid endpoint => if u = t then ⟨some (mid, endpoint), none, [], 0⟩ else l
  | .registered u callback data => if u = t then { l with stored := some (callback, data) } else l
  | .sent u _ _ (some interval) =>
    if u = t then { l with intervals := l.intervals ++ [interval] } else l
  | .invoked u _ _ _ => if u = t then { l with invocations := l.invocations + 1 } else l
  | .sent _ _ _ none | .freed _ => l
  | .replied _ | .observersRemovedByClient _ | .observersRemovedByMid _ _ | .timerExpired _ => l

theorem update_of_ne (he : e.block ≠ some t) : l.update t e = l := by
  have hne {u : Block} (hu : (some u : Option Block) ≠ some t) : u ≠ t := fun h => hu (h ▸ rfl)
  cases e with
  | sent u endpoint data interval =>
    cases interval with
    | none => rfl
    | some interval => exact if_neg (hne he)
  | allocated | registered | invoked => exact if_neg (hne he)
  | freed | replied | observersRemovedByClient | observersRemovedByMid | timerExpired => rfl

theorem foldl_of_ne (hes : ∀ e ∈ es, e.block ≠ some t) : es.foldl (update t) l = l :=
  es.foldlRecOn (update t) (motive := (· = l)) rfl fun _ hl e he =>
    (update_of_ne (hes e he)).trans hl

end Life

/-- The life of `t` after the events. -/
def life (t : Block) (es : List Event) : Life := es.foldl (Life.update t) .unborn

variable {c : Call} {Good : Life → Event → Prop} {R : Phase → Life → Prop} {rand : ℕ}

theorem block_of_mem_invoke {response : Bool} (he : e ∈ x.invoke t response) :
    e.block = some t := by
  rw [CoapTransaction.invoke] at he
  split at he
  · obtain rfl := mem_singleton.mp he
    rfl
  · cases he

/-- The events of a move are the block's own, apart from neutral ones. -/
theorem Move.block (h : Move t c p es q) : ∀ e ∈ es, e.block = some t ∨ e.Neutral := by
  intro e he
  cases h with
  | allocate | register | transmit | retransmit | clear =>
    obtain rfl := mem_singleton.mp he
    exact .inl rfl
  | serialize => cases he
  | sendOnce =>
    rcases mem_cons.mp he with rfl | he
    · exact .inl rfl
    · obtain rfl := mem_singleton.mp he
      exact .inl rfl
  | timeout =>
    rcases mem_cons.mp he with rfl | he
    · exact .inr rfl
    · rcases mem_cons.mp he with rfl | he
      · exact .inl rfl
      · exact .inl (block_of_mem_invoke he)
  | reply _ hpre hpost =>
    rcases mem_append.mp he with he | he
    · rcases mem_append.mp he with he | he
      · exact .inr (hpre e he)
      · rcases mem_cons.mp he with rfl | he
        · exact .inl rfl
        · exact .inl (block_of_mem_invoke he)
    · exact .inr (hpost e he)

/-- A condition that only events of `t` have to meet. -/
theorem allGood_of_ne
    (hother : ∀ l e, e.block ≠ some t → Good l e) : ∀ {es : List Event} {l : Life},
      (∀ e ∈ es, e.block ≠ some t) → AllGood (Life.update t) Good l es := by
  intro es
  induction es with
  | nil => exact fun _ => trivial
  | cons e es ih =>
    exact fun hes => ⟨hother _ e (hes e mem_cons_self),
      ih fun e' he' => hes e' (mem_cons_of_mem _ he')⟩

/-- **Block by block.**  What every move of `t` keeps between the phase and the life of `t`, a call
keeps. -/
theorem System.Moves.keep {s s' : System} (hother : ∀ l e, e.block ≠ some t → Good l e)
    (hmove : ∀ {q}, Move t c (s.phase t) es q → R (s.phase t) l → R q (es.foldl (Life.update t) l) ∧
      AllGood (Life.update t) Good l es)
    (h : s.Moves c s' es) (hl : R (s.phase t) l) :
    R (s'.phase t) (es.foldl (Life.update t) l) ∧ AllGood (Life.update t) Good l es := by
  have hrest (hes : ∀ e ∈ es, e.block ≠ some t) (hphase : s'.phase t = s.phase t) :
      R (s'.phase t) (es.foldl (Life.update t) l) ∧ AllGood (Life.update t) Good l es := by
    rw [Life.foldl_of_ne hes, hphase]
    exact ⟨hl, allGood_of_ne hother hes⟩
  rcases h with ⟨hphase, hneutral⟩ | ⟨u, p, hphase, hu⟩
  · refine hrest (fun e he hb => ?_) (congrFun hphase t)
    exact Option.some_ne_none t (hb.symm.trans (hneutral e he))
  · by_cases hut : u = t
    · subst hut
      rw [hphase, Function.update_self]
      exact hmove hu hl
    · refine hrest (fun e he hb => ?_) ?_
      · rcases hu.block e he with hb' | hb'
        · exact hut (Option.some.inj (hb'.symm.trans hb))
        · exact Option.some_ne_none t (hb.symm.trans hb')
      · rw [hphase, Function.update_of_ne fun h => hut h.symm]

namespace Life

/-! ### Single events of the block -/

@[simp] theorem update_allocated (mid : UInt16) (endpoint : CoapEndpoint) :
    l.update t (.allocated t mid endpoint) = ⟨some (mid, endpoint), none, [], 0⟩ := if_pos rfl

@[simp] theorem update_registered (callback data : ℕ) :
    l.update t (.registered t callback data) = { l with stored := some (callback, data) } :=
      if_pos rfl

variable (x)

@[simp] theorem update_sendto (interval : UInt32) :
    l.update t (x.sendto t (some interval)) = { l with intervals := l.intervals ++ [interval] } :=
  if_pos rfl

/-- A callback is called at most once at the end, and nothing else changes. -/
theorem foldl_invoke (response : Bool) :
    (x.invoke t response).foldl (update t) l =
      { l with invocations := l.invocations + x.callback.toList.length } := by
  rw [CoapTransaction.invoke]
  cases x.callback with
  | none => rfl
  | some callback => exact if_pos rfl

theorem foldl_timeout :
    (.observersRemovedByClient x.endpoint :: .freed t :: x.invoke t false).foldl (update t) l =
      { l with invocations := l.invocations + x.callback.toList.length } :=
  foldl_invoke x false

theorem foldl_reply {pre post : List Event} (hpre : ∀ e ∈ pre, e.Neutral)
    (hpost : ∀ e ∈ post, e.Neutral) :
    (pre ++ .freed t :: x.invoke t true ++ post).foldl (update t) l =
      { l with invocations := l.invocations + x.callback.toList.length } := by
  have hne {es : List Event} (hes : ∀ e ∈ es, e.Neutral) (e : Event) (he : e ∈ es) :
      e.block ≠ some t := fun hb => Option.some_ne_none t (hb.symm.trans (hes e he))
  rw [foldl_append, foldl_append, foldl_of_ne (hne hpre), foldl_of_ne (hne hpost)]
  exact foldl_invoke x true

variable {x}

/-! ### Retransmission -/

/-- The intervals are `n` in number, the first below `first`, each twice the one before. -/
def Doubling (l : Life) (n first : ℕ) : Prop :=
  ∃ i < first, l.intervals.map UInt32.toNat = (range n).map fun k => i * 2 ^ k

/-- The upper end of the first interval. -/
def firstInterval : ℕ := coapResponseTimeoutTicks + coapResponseTimeoutBackoffMask

/-- How the transmissions and calls agree with the phase. -/
def Retransmits : Phase → Life → Prop
  | .free, l => (∃ n ≤ coapMaxRetransmit.toNat + 1, l.Doubling n firstInterval) ∧ l.invocations ≤ 1
  | .held _ _, l => l.intervals = [] ∧ l.invocations = 0
  | .opened x, l => l.Doubling (x.retransCounter.toNat + 1) firstInterval ∧
      l.intervals.getLast? = some x.retransInterval ∧ l.invocations = 0

theorem doubling_nil (h : l.intervals = []) : l.Doubling 0 firstInterval :=
  ⟨0, by decide, by rw [h]; rfl⟩

variable {interval : UInt32}

/-- One more transmission, at twice the interval. -/
theorem Doubling.step {n : ℕ} (h : l.Doubling (n + 1) firstInterval) (hn : n < 4)
    (hlast : l.intervals.getLast? = some interval) (inv : ℕ) :
    Doubling { l with intervals := l.intervals ++ [interval <<< 1], invocations := inv } (n + 2)
      firstInterval := by
  obtain ⟨i, hi, hmap⟩ := h
  refine ⟨i, hi, ?_⟩
  have hlast' := congrArg getLast? hmap
  rw [getLast?_map, hlast, range_succ, map_append,
    getLast?_append] at hlast'
  have hval : interval.toNat = i * 2 ^ n := Option.some.inj hlast'
  have hpow : 2 ^ n ≤ 2 ^ 3 := Nat.pow_le_pow_right (by decide) (by omega)
  have hbound : i * 2 ^ n ≤ 4501 * 2 ^ 3 := Nat.mul_le_mul (le_of_lt hi) hpow
  have hdouble : (interval <<< 1).toNat = i * 2 ^ (n + 1) := by
    rw [UInt32.toNat_shiftLeft, Nat.shiftLeft_eq, hval, show (1 : UInt32).toNat % 32 = 1 from rfl,
      pow_succ 2 n, ← mul_assoc]
    exact Nat.mod_eq_of_lt (by omega)
  rw [map_append, hmap, map_singleton, hdouble, range_succ (n := n + 1),
    map_append, map_singleton]

theorem Doubling.first (hl : l.intervals = [])
    (hi : interval.toNat = coapResponseTimeoutTicks + rand % coapResponseTimeoutBackoffMask) :
    Doubling { l with intervals := l.intervals ++ [interval] } 1 firstInterval := by
  refine ⟨interval.toNat, ?_, ?_⟩
  · rw [hi]
    exact Nat.add_lt_add_left (Nat.mod_lt _ (by decide)) _
  · rw [hl]
    simp

/-- The end of an opened transaction, with or without a call of its callback. -/
theorem Retransmits.finish (h : Retransmits (.opened x) l)
    (hle : x.retransCounter ≤ coapMaxRetransmit) :
    Retransmits .free { l with invocations := l.invocations + x.callback.toList.length } := by
  obtain ⟨hdouble, -, hzero⟩ := h
  refine ⟨⟨_, Nat.succ_le_succ (UInt8.le_iff_toNat_le.mp hle), hdouble⟩, ?_⟩
  rw [hzero, zero_add]
  exact x.callback.length_toList_le

theorem Retransmits.bounded {p : Phase} (h : Retransmits p l) (hok : p.Ok t) :
    (∃ n ≤ coapMaxRetransmit.toNat + 1, l.Doubling n firstInterval) ∧ l.invocations ≤ 1 := by
  cases p with
  | free => exact h
  | held holder x => exact ⟨⟨0, Nat.zero_le _, doubling_nil h.1⟩, h.2 ▸ Nat.zero_le 1⟩
  | opened x =>
    exact ⟨⟨_, Nat.succ_le_succ (UInt8.le_iff_toNat_le.mp hok.2.1), h.1⟩, h.2.2 ▸ Nat.zero_le 1⟩

/-- **Move.**  The intervals double with every move. -/
theorem Retransmits.move {c : Call} (hm : Move t c p es q) (hok : p.Ok t) (h : Retransmits p l) :
    Retransmits q (es.foldl (update t) l) := by
  cases hm with
  | allocate =>
    rw [foldl_cons, update_allocated]
    exact ⟨rfl, rfl⟩
  | register =>
    rw [foldl_cons, update_registered]
    exact h
  | serialize => exact h
  | transmit hreg hcon hi =>
    rw [foldl_cons, update_sendto]
    obtain ⟨hnil, hzero⟩ := h
    refine ⟨?_, ?_, hzero⟩
    · have hcounter : _ = (0 : UInt8) := hok
      rw [hcounter]
      exact Doubling.first hnil hi
    · rw [foldl_nil, getLast?_append, getLast?_singleton, Option.some_or]
  | @retransmit x rand hlt =>
    rw [foldl_cons, update_sendto]
    obtain ⟨hdouble, hlast, hzero⟩ := h
    have hn : x.retransCounter.toNat < 4 := UInt8.lt_iff_toNat_lt.mp hlt
    have hsucc : (x.retransCounter + 1).toNat = x.retransCounter.toNat + 1 := by
      rw [UInt8.toNat_add, show (1 : UInt8).toNat = 1 from rfl, Nat.mod_eq_of_lt (by omega)]
    refine ⟨?_, ?_, hzero⟩
    · rw [hsucc]
      exact hdouble.step hn hlast _
    · rw [foldl_nil, getLast?_append, getLast?_singleton, Option.some_or]
  | sendOnce | clear => exact h.bounded hok
  | timeout hlast =>
    rw [foldl_timeout]
    exact h.finish hok.2.1
  | reply hmid hpre hpost =>
    rw [foldl_reply _ hpre hpost]
    exact h.finish hok.2.1

end Life

/-! ### Whole runs -/

section Runs

variable {s s' : System} {tr : List ((Call × UInt64) × List Event)}
  {G : System → Call × UInt64 → Prop}

section

variable (hG : ∀ {s i}, G s i → Undisturbed s i) (hrun : Runs System.step G .initial tr s)

include hG hrun

theorem System.pool_of_run : s.Pool :=
  (hrun.invariant System.Pool (fun _ => True)
    (fun hs hi hstep => ⟨(System.step_moves hs (hG hi) hstep).1, trivial⟩) System.initial_pool).1

/-- **Life rule.**  What the moves of `t` keep between its phase and its life holds in every state
that is reached, and every event of `t` meets the condition that the moves give it. -/
theorem System.keeps_of_run {Good : Life → Event → Prop}
    (hother : ∀ l e, e.block ≠ some t → Good l e)
    (hinit : R .free .unborn)
    (hmove : ∀ {s i es q l}, s.Pool → G s i → Move t i.1 (s.phase t) es q → R (s.phase t) l →
      R q (es.foldl (Life.update t) l) ∧ AllGood (Life.update t) Good l es) :
    R (s.phase t) (life t (events tr)) ∧ AllGood (Life.update t) Good .unborn (events tr) := by
  have hlives : (s.Pool ∧ R (s.phase t) (life t (events tr))) ∧
      AllGood (Life.update t) Good .unborn (events tr) := by
    refine hrun.history (fun s l => s.Pool ∧ R (s.phase t) l) ?_ ⟨System.initial_pool, hinit⟩
    intro s l i s' es hs hi hstep
    obtain ⟨hpool, hmoves⟩ := System.step_moves hs.1 (hG hi) hstep
    obtain ⟨hl, hgood⟩ := hmoves.keep hother (hmove hs.1 hi) hs.2
    exact ⟨⟨hpool, hl⟩, hgood⟩
  exact ⟨hlives.1.2, hlives.2⟩

theorem System.retransmits_of_run (t : Block) :
    Life.Retransmits (s.phase t) (life t (events tr)) := by
  have hinit : Life.Retransmits .free .unborn :=
    ⟨⟨0, Nat.zero_le _, Life.doubling_nil rfl⟩, Nat.zero_le 1⟩
  refine (System.keeps_of_run hG hrun (fun _ _ _ => trivial) hinit ?_).1
  intro s i es q l hs _ hm hl
  exact ⟨hl.move hm (hs.settled t).ok, allGood_of_forall _ (fun _ _ => True) fun _ _ => trivial⟩

end

variable {now : UInt64}

/-- The last expiry of the timer of `t`, and a reply to `t`, free it. -/
theorem System.step_timeout (hs : s.Pool)
    (hnext : s.engine.timers.expiredTimer now = some (.retrans t))
    (hcounter : (s.engine.block t).retransCounter = coapMaxRetransmit)
    (hstep : s.step (.timerRun rand, now) = some (s', es)) :
    .freed t ∈ es ∧ t ∉ s'.engine.transactionsList := by
  simp only [System.step] at hstep
  cases hstep
  obtain ⟨⟨ht, hh⟩, hrun⟩ := hs.coapTimerRun_retrans hnext rand
  have hblock : (s.expired t).engine.block t =
      { s.engine.block t with retransCounter := (s.engine.block t).retransCounter + 1 } :=
    Function.update_self ..
  have hcon : ((s.expired t).engine.block t).isCon := by
    rw [hblock]
    exact (hs.opened_ok ht hh).1
  have hlt : ¬((s.expired t).engine.block t).retransCounter ≤ coapMaxRetransmit := by
    rw [hblock]
    show ¬(s.engine.block t).retransCounter + 1 ≤ coapMaxRetransmit
    rw [hcounter]
    decide
  rw [hrun, Engine.coapSendTransaction_timeout hcon hlt]
  refine ⟨mem_cons_of_mem _ mem_cons_self, fun hmem => ?_⟩
  exact ((Sys.mem_listRemove hs.lists.nodup).mp hmem).1 rfl

theorem System.step_reply (hs : s.Pool) {src : CoapEndpoint} {r : ParseResult}
    (hok : r.status = .noError) (hreq : Engine.isRequest r.msg = false)
    (hmid : s.engine.coapGetTransactionByMid r.msg.mid = some t)
    (hstep : s.step (.receive src r, now) = some (s', es)) :
    .freed t ∈ es ∧ t ∉ s'.engine.transactionsList := by
  simp only [System.step, Engine.coapReceive, Engine.receiveResponse, hok, hreq, hmid] at hstep
  cases hstep
  refine ⟨?_, fun hmem => ((Sys.mem_listRemove hs.lists.nodup).mp hmem).1 rfl⟩
  exact mem_append_left _ (mem_append_right _ mem_cons_self)

/-- The pool and the lives of its blocks in a state that is reached by these events. -/
structure Bounded (s : System) (es : List Event) : Prop where
  /-- Each transaction is on the list once, -/
  nodup : s.engine.transactionsList.Nodup
  /-- and the list has just the blocks that are allocated, -/
  allocated : ∀ t, s.engine.count t = if t ∈ s.engine.transactionsList then 1 else 0
  /-- as have the timers; no timer is on its list twice. -/
  timers : s.engine.timers.timerList.Nodup ∧
    ∀ t, .retrans t ∈ s.engine.timers.timerList → t ∈ s.engine.transactionsList
  /-- A block is transmitted at most so often since it was allocated, at doubled intervals, -/
  transmissions : ∀ t, ∃ n ≤ coapMaxRetransmit.toNat + 1, (life t es).Doubling n Life.firstInterval
  /-- and its callback is called at most once. -/
  invocations : ∀ t, (life t es).invocations ≤ 1
  /-- When its timer expires after the last transmission it is freed, -/
  timeout : ∀ t rand now s' es', (life t es).intervals.length = coapMaxRetransmit.toNat + 1 →
    s.engine.timers.expiredTimer now = some (.retrans t) →
    s.step (.timerRun rand, now) = some (s', es') →
      .freed t ∈ es' ∧ t ∉ s'.engine.transactionsList
  /-- and so it is by a reply. -/
  reply : ∀ t src r now s' es', r.status = .noError → Engine.isRequest r.msg = false →
    s.engine.coapGetTransactionByMid r.msg.mid = some t →
    s.step (.receive src r, now) = some (s', es') →
      .freed t ∈ es' ∧ t ∉ s'.engine.transactionsList

/-- **Pool and retransmission.**  Every undisturbed run leads to a state in which the pool is in
order and every transaction is within its bounds. -/
theorem transactions_bounded (hrun : Runs System.step Undisturbed .initial tr s) :
    Bounded s (events tr) := by
  have hs := System.pool_of_run id hrun
  have hlife := System.retransmits_of_run id hrun
  refine ⟨hs.lists.nodup, hs.lists.count, ⟨hs.lists.timers.nodup, fun t ht => ?_⟩, fun t => ?_,
    fun t => ?_, fun t rand now s' es' hlen hnext hstep => ?_, ?_⟩
  · exact ((hs.settled t).timer.mp ht).1
  · exact ((hlife t).bounded (hs.settled t).ok).1
  · exact ((hlife t).bounded (hs.settled t).ok).2
  · -- the block is opened, so the number of its transmissions gives the counter
    refine System.step_timeout hs hnext ?_ hstep
    obtain ⟨ht, hnone⟩ := (hs.settled t).timer.mp (Timers.mem_of_expiredTimer hnext)
    have hopened := hlife t
    rw [System.phase_opened ht rfl hnone] at hopened
    obtain ⟨⟨i, -, hmap⟩, -⟩ := hopened
    have hcount := congrArg length hmap
    rw [length_map, length_map, length_range, hlen] at hcount
    exact (UInt8.toNat_inj.mp (Nat.succ.inj hcount)).symm
  · intro t src r now s' es' hok hreq hmid hstep
    exact System.step_reply hs hok hreq hmid hstep

end Runs

/-- A peer, and a confirmable request to it that is never answered. -/
def peer : CoapEndpoint := ⟨Sicslowpan.Ipaddr.ofBytes [0xfe, 0x80], 5683, 0⟩

/-- A request is sent five times and given up. -/
def unanswered : List (Call × UInt64) :=
  [(.newTransaction .blockingRequest 1 peer, 0), (.register 0 ⟨.blockingRequest, false⟩ 7 8, 0),
    (.serialize 0 ⟨.blockingRequest, true⟩ [0x40, 1, 0, 1] 4, 0),
      (.send 0 ⟨.blockingRequest, true⟩ 0, 0),
    (.timerRun 0, 3000), (.timerRun 0, 9000), (.timerRun 0, 21000), (.timerRun 0, 45000),
    (.timerRun 0, 93000)]

/-- What happens on the way. -/
def unansweredEvents : List Event :=
  [.allocated 0 1 peer, .registered 0 7 8, .sent 0 peer [0x40, 1, 0, 1] (some 3000),
    .sent 0 peer [0x40, 1, 0, 1] (some 6000), .sent 0 peer [0x40, 1, 0, 1] (some 12000),
    .sent 0 peer [0x40, 1, 0, 1] (some 24000), .sent 0 peer [0x40, 1, 0, 1] (some 48000),
    .observersRemovedByClient peer, .freed 0, .invoked 0 7 8 false]

theorem transactions_bounded_unanswered : ∃ tr s, Runs System.step Undisturbed .initial tr s ∧
    events tr = unansweredEvents ∧ Bounded s (events tr) := by
  have hexec : (execute System.step Undisturbed .initial unanswered).map
      (fun r => events r.2) = some unansweredEvents := by decide +kernel
  obtain ⟨tr, s, hrun, htr⟩ := exists_run_of_events hexec
  exact ⟨tr, s, hrun, htr, transactions_bounded hrun⟩

/-- What the parser makes of an empty message. -/
def emptyMessage (b0 mid : UInt8) : ParseResult :=
  (coapParseMessage [b0, 0, 0, mid] 4).getD ⟨.badRequest, none, .zero ℕ, []⟩

/-- A notification whose transaction is acknowledged while the handler of its resource runs. -/
def disturbed : List (Call × UInt64) :=
  [(.newTransaction .notification 2 peer, 0), (.receive peer (emptyMessage 0x60 2), 0),
    (.serialize 0 ⟨.notification, false⟩ [0x40, 69, 0, 2] 4, 0),
      (.send 0 ⟨.notification, false⟩ 0, 0)]

/-- The transaction is freed, then sent: its timer runs, and it is neither open nor allocated. -/
theorem timer_of_freed : ∃ tr s, System.Run .initial tr s ∧ .retrans 0 ∈ s.engine.timers.timerList ∧
    0 ∉ s.engine.transactionsList ∧ s.engine.count 0 = 0 ∧ ¬Bounded s (events tr) := by
  have hexec : (execute System.step (fun _ _ => True) .initial disturbed).map (fun r =>
      decide (.retrans 0 ∈ r.1.engine.timers.timerList ∧ 0 ∉ r.1.engine.transactionsList ∧
        r.1.engine.count 0 = 0)) = some true := by decide +kernel
  obtain ⟨⟨s, tr⟩, hrun, htimer, hlist, hcount⟩ := exists_run_of_decide hexec
  exact ⟨tr, s, hrun, htimer, hlist, hcount, fun h => hlist (h.timers.2 0 htimer)⟩

end Nespy.Coap
