import Nespy.Coap.Transactions

/-!
# Coap — the life of a transaction

What the engine does to one block of `transactions_memb`, with everything else of the machine out of
sight.  A block is free, or held by its creator, or opened: it was sent and waits for a reply.
`Move` says which call takes a block from one phase to another, and which events that makes.

`step_moves` ties the two: a call keeps the lists, the counts and the timers of the engine in step
with the phases (`Pool`), and it moves at most one block.  What is proved of moves then holds of the
engine.
-/

open List Function

namespace Nespy.Coap

open Nespy.Sys

/-! ### Phases and moves -/

/-- Where a transaction is. -/
inductive Phase where
  | free
  | held (holder : Holder) (x : CoapTransaction)
  | opened (x : CoapTransaction)

/-- What the code relies on in each phase; `t` is the block. -/
def Phase.Ok (t : Block) : Phase → Prop
  | free => True
  | held _ x => x.retransCounter = 0
  | opened x => x.isCon ∧ x.retransCounter ≤ coapMaxRetransmit ∧ x.timerData = some t

/-- The block that the event is about. -/
def Event.block : Event → Option Block
  | allocated t _ _ | registered t _ _ | sent t _ _ _ | freed t | invoked t _ _ _ => some t
  | replied _ | observersRemovedByClient _ | observersRemovedByMid _ _ | timerExpired _ => none

/-- The event is not one of a block. -/
def Event.Neutral (e : Event) : Prop := e.block = none

theorem neutral_singleton {e : Event} (h : e.Neutral) : ∀ e' ∈ [e], e'.Neutral := fun _ he =>
  mem_singleton.mp he ▸ h

theorem neutral_ite {c : Prop} [Decidable c] {e : Event} (h : e.Neutral) :
    ∀ e' ∈ (if c then [e] else []), e'.Neutral := by
  split
  · exact neutral_singleton h
  · nofun

/-- The moves of the block `t` in a call. -/
inductive Move (t : Block) : Call → Phase → List Event → Phase → Prop where
  | allocate {c : Call} {creator : Creator} {x : CoapTransaction} :
      x.retransCounter = 0 → Move t c .free [.allocated t x.mid x.endpoint]
        (.held ⟨creator, false⟩ x)
  | register {h : Holder} {x : CoapTransaction} {callback data : ℕ} :
      h.creator.registers → Move t (.register t h callback data) (.held h x)
        [.registered t callback data]
        (.held { h with registered := true }
          { x with callback := some callback, callbackData := data })
  | serialize {h : Holder} {x : CoapTransaction} {message : List UInt8} {messageLen : UInt16} :
      Move t (.serialize t h message messageLen) (.held h x) []
        (.held h { x with message := message, messageLen := messageLen })
  | transmit {h : Holder} {x : CoapTransaction} {rand : ℕ} {interval : UInt32} :
      (h.creator.registers → h.registered) → x.isCon →
      interval.toNat = coapResponseTimeoutTicks + rand % coapResponseTimeoutBackoffMask →
      Move t (.send t h rand) (.held h x) [x.sendto t (some interval)]
        (.opened { x with timerData := some t, retransInterval := interval })
  | retransmit {x : CoapTransaction} {rand : ℕ} :
      x.retransCounter < coapMaxRetransmit →
      Move t (.timerRun rand) (.opened x) [x.sendto t (some (x.retransInterval <<< 1))]
        (.opened { x with retransCounter := x.retransCounter + 1
                          retransInterval := x.retransInterval <<< 1 })
  | sendOnce {h : Holder} {x : CoapTransaction} {rand : ℕ} :
      x.isCon = false → Move t (.send t h rand) (.held h x) [x.sendto t none, .freed t] .free
  | clear {p : Phase} {who : Option Holder} : p ≠ .free → Move t (.clear t who) p [.freed t] .free
  | timeout {x : CoapTransaction} {rand : ℕ} :
      x.retransCounter = coapMaxRetransmit →
      Move t (.timerRun rand) (.opened x)
        (.observersRemovedByClient x.endpoint :: .freed t :: x.invoke t false) .free
  | reply {x : CoapTransaction} {src : CoapEndpoint} {r : ParseResult} {pre post : List Event} :
      x.mid = r.msg.mid → (∀ e ∈ pre, e.Neutral) → (∀ e ∈ post, e.Neutral) →
      Move t (.receive src r) (.opened x) (pre ++ .freed t :: x.invoke t true ++ post) .free

variable {s s' : System} {t u : Block} {h : Holder} {e : Engine}

namespace System

/-- The phase of a block. -/
def phase (s : System) (t : Block) : Phase :=
  if t ∈ s.engine.transactionsList then
    match s.held t with
    | h :: _ => .held h (s.engine.block t)
    | [] => .opened (s.engine.block t)
  else .free

theorem phase_free (ht : t ∉ s.engine.transactionsList) : s.phase t = .free := if_neg ht

variable {x : CoapTransaction}

section

variable (ht : t ∈ s.engine.transactionsList) (hx : s.engine.block t = x)

include ht hx

theorem phase_held (hh : s.held t = [h]) : s.phase t = .held h x := by
  rw [phase, if_pos ht, hh, hx]

theorem phase_opened (hh : s.held t = []) : s.phase t = .opened x := by
  rw [phase, if_pos ht, hh, hx]

end

/-! ### The pool -/

/-- The lists and counts agree. -/
structure Lists (s : System) : Prop where
  nodup : s.engine.transactionsList.Nodup
  count : ∀ t, s.engine.count t = if t ∈ s.engine.transactionsList then 1 else 0
  timers : s.engine.timers.Ok
  held : ∀ t, s.held t ≠ [] → (∃ h, s.held t = [h]) ∧ t ∈ s.engine.transactionsList

/-- The timer of the block runs just while the block is opened. -/
structure Settled (s : System) (t : Block) : Prop where
  timer : .retrans t ∈ s.engine.timers.timerList ↔
    t ∈ s.engine.transactionsList ∧ s.held t = []
  ok : (s.phase t).Ok t

/-- What holds between the calls. -/
structure Pool (s : System) : Prop where
  lists : s.Lists
  settled : ∀ t, s.Settled t

/-- Nothing of the block is different. -/
structure SameAt (s s' : System) (u : Block) : Prop where
  list : u ∈ s'.engine.transactionsList ↔ u ∈ s.engine.transactionsList
  held : s'.held u = s.held u
  block : s'.engine.block u = s.engine.block u
  timer : .retrans u ∈ s'.engine.timers.timerList ↔ .retrans u ∈ s.engine.timers.timerList

theorem SameAt.phase (hu : SameAt s s' u) : s'.phase u = s.phase u := by
  rw [System.phase, hu.held, hu.block]
  exact if_congr hu.list rfl rfl

theorem SameAt.settled (hu : SameAt s s' u) (h : s.Settled u) : s'.Settled u where
  timer := by rw [hu.timer, hu.list, hu.held, h.timer]
  ok := hu.phase ▸ h.ok

/-- A change at one block only: that block is what has to be looked at. -/
theorem Pool.change (hs : s.Lists) (hsame : ∀ u ≠ t, SameAt s s' u)
    (hnodup : s'.engine.transactionsList.Nodup)
    (hcount : ∀ u, s'.engine.count u = if u ∈ s'.engine.transactionsList then 1 else 0)
    (htimers : s'.engine.timers.Ok)
    (hheld : s'.held t ≠ [] → (∃ h, s'.held t = [h]) ∧ t ∈ s'.engine.transactionsList)
    (hothers : ∀ u ≠ t, s.Settled u) (ht : s'.Settled t) :
    s'.Pool ∧ s'.phase = update s.phase t (s'.phase t) := by
  refine ⟨⟨⟨hnodup, hcount, htimers, fun u hne => ?_⟩, fun u => ?_⟩, funext fun u => ?_⟩
  · by_cases hu : u = t
    · exact hu ▸ hheld (hu ▸ hne)
    · rw [(hsame u hu).held] at hne ⊢
      exact (hs.held u hne).imp_right (hsame u hu).list.mpr
  · by_cases hu : u = t
    · exact hu ▸ ht
    · exact (hsame u hu).settled (hothers u hu)
  · by_cases hu : u = t
    · rw [hu, update_self]
    · rw [update_of_ne hu, (hsame u hu).phase]

/-- A block has one creator. -/
theorem Pool.held_of_mem (hs : s.Pool) (hh : h ∈ s.held t) : s.held t = [h] := by
  obtain ⟨⟨h', hh'⟩, -⟩ := hs.lists.held t (ne_nil_of_mem hh)
  rw [hh'] at hh ⊢
  rw [mem_singleton.mp hh]

theorem Pool.mem_of_held (hs : s.Pool) (hh : s.held t = [h]) : t ∈ s.engine.transactionsList :=
  (hs.lists.held t (hh ▸ cons_ne_nil h [])).2

theorem Pool.counter_of_held (hs : s.Pool) (hh : s.held t = [h]) :
    (s.engine.block t).retransCounter = 0 := by
  have hok := (hs.settled t).ok
  rwa [phase_held (hs.mem_of_held hh) rfl hh] at hok

theorem Pool.opened_ok (hs : s.Pool) (ht : t ∈ s.engine.transactionsList) (hh : s.held t = []) :
    (Phase.opened (s.engine.block t)).Ok t :=
  phase_opened ht rfl hh ▸ (hs.settled t).ok

/-- A block that stays with its creator. -/
theorem Pool.put (hs : s.Pool) (hh : s.held t = [h]) (h' : Holder) (hx : x.retransCounter = 0)
    (hs' : s' = s.put t [h'] (s.engine.set t x)) :
    s'.Pool ∧ s'.phase = update s.phase t (.held h' x) := by
  have ht := hs.mem_of_held hh
  have hheld : s'.held t = [h'] := hs' ▸ update_self ..
  have hphase : s'.phase t = .held h' x :=
    phase_held (by rw [hs']; exact ht) (hs' ▸ update_self ..) hheld
  rw [← hphase]
  have hok : (s'.phase t).Ok t := by
    rw [hphase]
    exact hx
  subst hs'
  refine Pool.change hs.lists (fun u hu => ⟨.rfl, update_of_ne hu .., update_of_ne hu .., .rfl⟩)
    hs.lists.nodup hs.lists.count hs.lists.timers (fun _ => ⟨⟨h', hheld⟩, ht⟩)
      (fun u _ => hs.settled u) ⟨?_, hok⟩
  -- the timer does not run, neither before nor after
  refine iff_of_false (fun htimer => ?_) fun hnone => ?_
  · exact cons_ne_nil h [] (hh.symm.trans ((hs.settled t).timer.mp htimer).2)
  · exact cons_ne_nil h' [] (hheld.symm.trans hnone.2)

section

variable (hs : s.Lists) (hothers : ∀ u ≠ t, s.Settled u) (ht : t ∈ s.engine.transactionsList)

include hs hothers ht

/-- A block that is freed; its timer may or may not have run. -/
theorem Lists.release_clear (now : UInt64)
    (hs' : s' = s.put t [] (s.engine.coapClearTransaction t now)) :
    s'.Pool ∧ s'.phase = update s.phase t .free := by
  subst hs'
  have hmem {u : Block} : u ∈ listRemove s.engine.transactionsList t ↔
      u ≠ t ∧ u ∈ s.engine.transactionsList := mem_listRemove hs.nodup
  have hfree : t ∉ listRemove s.engine.transactionsList t := fun hu => (hmem.mp hu).1 rfl
  have hphase : (s.put t [] (s.engine.coapClearTransaction t now)).phase t = .free :=
    phase_free hfree
  rw [← hphase]
  refine Pool.change hs (fun u hu => ⟨hmem.trans (and_iff_right hu), update_of_ne hu .., rfl,
      (Timers.mem_coapTimerStop hs.timers).trans (and_iff_right (mt CoapTimer.retrans.inj hu))⟩)
    (nodup_listRemove hs.nodup) (fun u => ?_) (Timers.coapTimerStop_ok hs.timers _ _)
    (fun hne => absurd (update_self ..) hne) hothers ⟨?_, ?_⟩
  · show membFree s.engine.count t u = if u ∈ listRemove s.engine.transactionsList t then 1 else 0
    rw [membFree_one ((hs.count t).trans (if_pos ht))]
    by_cases hut : u = t
    · rw [hut, update_self, if_neg hfree]
    · rw [update_of_ne hut, hs.count u]
      exact (if_congr (hmem.trans (and_iff_right hut)) rfl rfl).symm
  · refine iff_of_false (fun htimer => ?_) fun hnone => hfree hnone.1
    exact ((Timers.mem_coapTimerStop hs.timers).mp htimer).1 rfl
  · rw [hphase]
    trivial

/-- A block that is opened, or kept open: its timer runs. -/
theorem Lists.release_set (hx : (Phase.opened x).Ok t) (time now : UInt64)
    (hs' : s' = s.put t [] { s.engine.set t x with
      timers := s.engine.timers.coapTimerSet (.retrans t) time now }) :
    s'.Pool ∧ s'.phase = update s.phase t (.opened x) := by
  have hphase : s'.phase t = .opened x :=
    phase_opened (by rw [hs']; exact ht) (hs' ▸ update_self ..)
      (hs' ▸ update_self ..)
  rw [← hphase]
  rw [← hphase] at hx
  subst hs'
  refine Pool.change hs (fun u hu => ⟨.rfl, update_of_ne hu .., update_of_ne hu ..,
      (Timers.mem_coapTimerSet hs.timers).trans (or_iff_right (mt CoapTimer.retrans.inj hu))⟩)
    hs.nodup hs.count (Timers.coapTimerSet_ok hs.timers _ _ _)
      (fun hne => absurd (update_self ..) hne) hothers ⟨?_, hx⟩
  exact iff_of_true ((Timers.mem_coapTimerSet hs.timers).mpr (.inl rfl)) ⟨ht, update_self ..⟩

end

/-- A block that is allocated. -/
theorem Pool.allocate (hs : s.Pool) {mid : UInt16} {endpoint : CoapEndpoint}
    (he : s.engine.coapNewTransaction mid endpoint = (e, some t)) (h : Holder)
    (hs' : s' = s.put t (h :: s.held t) e) :
    ∃ x : CoapTransaction, (x.retransCounter = 0 ∧ x.mid = mid ∧ x.endpoint = endpoint) ∧
      s.phase t = .free ∧ s'.Pool ∧ s'.phase = update s.phase t (.held h x) := by
  rw [Engine.coapNewTransaction] at he
  split at he
  · rename_i b count hcount
    obtain ⟨rfl, hb⟩ := Prod.mk.inj he
    obtain rfl := Option.some.inj hb
    obtain ⟨hzero, rfl⟩ := membAlloc_eq_some hcount
    have ht : b ∉ s.engine.transactionsList := by
      intro hb
      rw [hs.lists.count b, if_pos hb] at hzero
      cases hzero
    have hnil : s.held b = [] := by
      by_contra hne
      exact ht (hs.lists.held b hne).2
    obtain ⟨x, hx⟩ : ∃ x : CoapTransaction,
      x = { s.engine.block b with mid := mid, retransCounter := 0, endpoint := endpoint } :=
        ⟨_, rfl⟩
    rw [← hx, hnil] at hs'
    have hmem {u : Block} : u ∈ listAdd s.engine.transactionsList b ↔
        u = b ∨ u ∈ s.engine.transactionsList := mem_listAdd hs.lists.nodup
    have hheld : s'.held b = [h] := hs' ▸ update_self ..
    have hphase : s'.phase b = .held h x :=
      phase_held (by rw [hs']; exact hmem.mpr (.inl rfl)) (hs' ▸ update_self ..) hheld
    refine ⟨x, by rw [hx]; exact ⟨rfl, rfl, rfl⟩, phase_free ht, ?_⟩
    rw [← hphase]
    have hok : (s'.phase b).Ok b := by
      rw [hphase, hx]
      rfl
    subst hs'
    refine Pool.change hs.lists (fun u hu => ⟨hmem.trans (or_iff_right hu), update_of_ne hu ..,
        update_of_ne hu .., .rfl⟩)
      (nodup_listAdd hs.lists.nodup) (fun u => ?_) hs.lists.timers
        (fun _ => ⟨⟨h, hheld⟩, hmem.mpr (.inl rfl)⟩)
      (fun u _ => hs.settled u) ⟨?_, hok⟩
    · show update s.engine.count b 1 u
        = if u ∈ listAdd s.engine.transactionsList b then 1 else 0
      by_cases hub : u = b
      · rw [hub, update_self, if_pos (hmem.mpr (.inl rfl))]
      · rw [update_of_ne hub, hs.lists.count u]
        exact (if_congr (hmem.trans (or_iff_right hub)) rfl rfl).symm
    · refine iff_of_false (fun htimer => ht ((hs.settled b).timer.mp htimer).1) fun hnone => ?_
      exact cons_ne_nil h [] (hheld.symm.trans hnone.2)
  · cases he

/-- Other timers come and go. -/
theorem Pool.otherTimers (hs : s.Pool) {timers : Timers CoapTimer} (hok : timers.Ok)
    (hmem : ∀ u, .retrans u ∈ timers.timerList ↔ .retrans u ∈ s.engine.timers.timerList)
    (hs' : s' = ⟨{ s.engine with timers := timers }, s.held⟩) : s'.Pool ∧ s'.phase = s.phase := by
  subst hs'
  have hsame (u : Block) : SameAt s ⟨{ s.engine with timers := timers }, s.held⟩ u :=
    ⟨.rfl, rfl, rfl, hmem u⟩
  exact ⟨⟨⟨hs.lists.nodup, hs.lists.count, hok, hs.lists.held⟩,
    fun u => (hsame u).settled (hs.settled u)⟩, funext fun u => (hsame u).phase⟩

end System

/-! ### The branches of `coap_send_transaction` -/

namespace Engine

section

variable (hcon : (e.block t).isCon)

include hcon

/-- The first transmission sets the timer to a random interval. -/
theorem coapSendTransaction_first (hzero : (e.block t).retransCounter = 0) (rand : ℕ)
    (now : UInt64) :
    ∃ interval : UInt32,
      interval.toNat = coapResponseTimeoutTicks + rand % coapResponseTimeoutBackoffMask ∧
      e.coapSendTransaction t rand now =
        ({ e.set t { e.block t with timerData := some t, retransInterval := interval } with
            timers := e.timers.coapTimerSet (.retrans t) interval.toUInt64 now },
          [(e.block t).sendto t (some interval)]) := by
  have hmod : rand % coapResponseTimeoutBackoffMask < 1501 := Nat.mod_lt _ (by decide)
  have hsmall : coapResponseTimeoutTicks + rand % coapResponseTimeoutBackoffMask < 2 ^ 32 := by
    rw [coapResponseTimeoutTicks]
    omega
  refine ⟨_, UInt32.toNat_ofNat_of_lt' hsmall, ?_⟩
  have hle : (e.block t).retransCounter ≤ coapMaxRetransmit := hzero ▸ by decide
  simp only [coapSendTransaction, if_pos hcon, if_pos hle, if_pos hzero]
  rfl

theorem coapSendTransaction_again (hle : (e.block t).retransCounter ≤ coapMaxRetransmit)
    (hpos : (e.block t).retransCounter ≠ 0) (rand : ℕ) (now : UInt64) :
    e.coapSendTransaction t rand now =
      ({ e.set t { e.block t with retransInterval := (e.block t).retransInterval <<< 1 } with
          timers := e.timers.coapTimerSet (.retrans t)
            ((e.block t).retransInterval <<< 1).toUInt64 now },
        [(e.block t).sendto t (some ((e.block t).retransInterval <<< 1))]) := by
  simp only [coapSendTransaction, if_pos hcon, if_pos hle, if_neg hpos]
  rfl

theorem coapSendTransaction_timeout (hlt : ¬(e.block t).retransCounter ≤ coapMaxRetransmit)
    (rand : ℕ) (now : UInt64) :
    e.coapSendTransaction t rand now = (e.coapClearTransaction t now,
      .observersRemovedByClient (e.block t).endpoint :: .freed
        t :: (e.block t).invoke t false) := by
  simp only [coapSendTransaction, if_pos hcon, if_neg hlt]

end

theorem coapSendTransaction_once (hcon : (e.block t).isCon = false) (rand : ℕ) (now : UInt64) :
    e.coapSendTransaction t rand now =
      (e.coapClearTransaction t now, [(e.block t).sendto t none, .freed t]) := by
  rw [coapSendTransaction, hcon]
  rfl

end Engine

/-! ### The calls as moves -/

namespace System

/-- What one call does: it moves no block, or one. -/
def Moves (s : System) (c : Call) (s' : System) (es : List Event) : Prop :=
  (s'.phase = s.phase ∧ ∀ e ∈ es, e.Neutral) ∨
    ∃ t p, s'.phase = update s.phase t p ∧ Move t c (s.phase t) es p

variable {es : List Event} {now : UInt64}

theorem Moves.one {c : Call} {p q : Phase} (hs' : s'.phase = update s.phase t p)
    (hq : s.phase t = q) (hm : Move t c q es p) : s.Moves c s' es :=
  .inr ⟨t, p, hs', hq ▸ hm⟩

theorem put_held (hh : s.held t = []) (e : Engine) : s.put t [] e = ⟨e, s.held⟩ := by
  rw [System.put, ← hh, update_eq_self]

/-- Sending keeps the pool in order. -/
theorem Pool.send (hs : s.Pool) (hh : s.held t = [h]) (hreg : h.creator.registers → h.registered)
    (rand : ℕ) (now : UInt64) :
    (s.put t [] (s.engine.coapSendTransaction t rand now).1).Pool ∧
      s.Moves (.send t h rand) (s.put t [] (s.engine.coapSendTransaction t rand now).1)
        (s.engine.coapSendTransaction t rand now).2 := by
  have ht := hs.mem_of_held hh
  have hzero := hs.counter_of_held hh
  have hphase := phase_held ht rfl hh
  cases hcon : (s.engine.block t).isCon with
  | false =>
    rw [Engine.coapSendTransaction_once hcon]
    obtain ⟨hpool, hfree⟩ := hs.lists.release_clear (fun u _ => hs.settled u) ht now rfl
    exact ⟨hpool, .one hfree hphase (.sendOnce hcon)⟩
  | true =>
    obtain ⟨interval, hi, hsend⟩ := Engine.coapSendTransaction_first hcon hzero rand now
    rw [hsend]
    obtain ⟨x, hx⟩ : ∃ x : CoapTransaction,
      x = { s.engine.block t with timerData := some t, retransInterval := interval } := ⟨_, rfl⟩
    have hok : (Phase.opened x).Ok t := by
      rw [hx]
      exact ⟨hcon, hzero.symm ▸ by decide, rfl⟩
    obtain ⟨hpool, hopen⟩ :=
      hs.lists.release_set (fun u _ => hs.settled u) ht hok interval.toUInt64 now rfl
    rw [← hx]
    refine ⟨hpool, .inr ⟨t, _, hopen, ?_⟩⟩
    rw [hphase, hx]
    exact .transmit hreg hcon hi

/-- The system when the timer of `t` is off the list and the counter was increased. -/
def expired (s : System) (t : Block) : System :=
  ⟨Engine.set { s.engine with timers := s.engine.timers.takeTimer (.retrans t) } t
    { s.engine.block t with retransCounter := (s.engine.block t).retransCounter + 1 }, s.held⟩

theorem Pool.expired (hs : s.Pool) (t : Block) :
    (s.expired t).Lists ∧ (∀ u ≠ t, (s.expired t).Settled u) ∧
      ∀ p, update (s.expired t).phase t p = update s.phase t p := by
  have hsame (u : Block) (hu : u ≠ t) : SameAt s (s.expired t) u := by
    refine ⟨.rfl, rfl, update_of_ne hu .., ?_⟩
    exact (Timers.mem_takeTimer hs.lists.timers).trans
      (and_iff_right (mt CoapTimer.retrans.inj hu))
  refine ⟨⟨hs.lists.nodup, hs.lists.count, Timers.takeTimer_ok hs.lists.timers _, hs.lists.held⟩,
    fun u hu => (hsame u hu).settled (hs.settled u), fun p => funext fun u => ?_⟩
  by_cases hu : u = t
  · rw [hu, update_self, update_self]
  · rw [update_of_ne hu, update_of_ne hu, (hsame u hu).phase]

variable {endpoint : CoapEndpoint} {mid : UInt16}

/-- The expiry of a retransmission timer. -/
theorem Pool.retransmit (hs : s.Pool) (ht : t ∈ s.engine.transactionsList) (hh : s.held t = [])
    (rand : ℕ) (now : UInt64)
    (he : (s.expired t).engine.coapSendTransaction t rand now = (e, es)) :
    System.Pool ⟨e, s.held⟩ ∧ s.Moves (.timerRun rand) ⟨e, s.held⟩ es := by
  obtain ⟨hcon, hle, hdata⟩ := hs.opened_ok ht hh
  obtain ⟨hlists, hothers, hupdate⟩ := hs.expired t
  have hphase := phase_opened ht rfl hh
  have hrelease : ⟨e, s.held⟩ = (s.expired t).put t [] e := (put_held hh e).symm
  generalize hx : (s.engine.block t : CoapTransaction) = x
  have hblock : (s.expired t).engine.block t = { x with retransCounter := x.retransCounter + 1 } :=
    hx ▸ update_self ..
  have hcon' : ((s.expired t).engine.block t).isCon := by
    rw [hblock, ← hx]
    exact hcon
  rw [hx] at hle hdata hphase
  have hn : x.retransCounter.toNat ≤ 4 := UInt8.le_iff_toNat_le.mp hle
  have hsucc : (x.retransCounter + 1).toNat = x.retransCounter.toNat + 1 := by
    rw [UInt8.toNat_add, show (1 : UInt8).toNat = 1 from rfl, Nat.mod_eq_of_lt (by omega)]
  by_cases hlast : x.retransCounter = coapMaxRetransmit
  · have hlt : ¬((s.expired t).engine.block t).retransCounter ≤ coapMaxRetransmit := by
      rw [hblock]
      show ¬x.retransCounter + 1 ≤ coapMaxRetransmit
      rw [hlast]
      decide
    rw [Engine.coapSendTransaction_timeout hcon' hlt, hblock] at he
    cases he
    obtain ⟨hpool, hfree⟩ := hlists.release_clear hothers ht now hrelease
    exact ⟨hpool, .one (hfree.trans (hupdate _)) hphase (.timeout hlast)⟩
  · have hn' : x.retransCounter.toNat < 4 :=
      lt_of_le_of_ne hn fun he => hlast (UInt8.toNat_inj.mp he)
    have hle' : ((s.expired t).engine.block t).retransCounter ≤ coapMaxRetransmit := by
      rw [hblock, UInt8.le_iff_toNat_le, hsucc]
      exact hn'
    have hpos : ((s.expired t).engine.block t).retransCounter ≠ 0 := by
      rw [hblock]
      intro hz
      have hz' := congrArg UInt8.toNat hz
      rw [hsucc] at hz'
      cases hz'
    rw [Engine.coapSendTransaction_again hcon' hle' hpos] at he
    cases he
    generalize hy : ({ (s.expired t).engine.block t with
      retransInterval := ((s.expired t).engine.block t).retransInterval <<< 1 } : CoapTransaction) =
        y at *
    have hok : (Phase.opened y).Ok t := by
      rw [← hy]
      refine ⟨hcon', hle', ?_⟩
      rw [hblock]
      exact hdata
    obtain ⟨hpool, hopen⟩ := hlists.release_set hothers ht hok _ now hrelease
    refine ⟨hpool, .inr ⟨t, _, hopen.trans (hupdate _), ?_⟩⟩
    rw [hphase, ← hy, hblock]
    exact .retransmit (UInt8.lt_iff_toNat_lt.mpr hn')

/-- The expired timer is that of an opened transaction, which is sent again. -/
theorem Pool.coapTimerRun_retrans (hs : s.Pool)
    (hnext : s.engine.timers.expiredTimer now = some (.retrans t)) (rand : ℕ) :
    (t ∈ s.engine.transactionsList ∧ s.held t = []) ∧
      s.engine.coapTimerRun rand now = (s.expired t).engine.coapSendTransaction t rand now := by
  have ht := (hs.settled t).timer.mp (Timers.mem_of_expiredTimer hnext)
  have hdata := (hs.opened_ok ht.1 ht.2).2.2
  refine ⟨ht, ?_⟩
  rw [Engine.coapTimerRun, hnext]
  simp only [hdata]
  rfl

/-- An expiry keeps the pool in order. -/
theorem Pool.timerRun (hs : s.Pool) (rand : ℕ) (now : UInt64)
    (he : s.engine.coapTimerRun rand now = (e, es)) :
    System.Pool ⟨e, s.held⟩ ∧ s.Moves (.timerRun rand) ⟨e, s.held⟩ es := by
  cases hnext : s.engine.timers.expiredTimer now with
  | none =>
    rw [Engine.coapTimerRun, hnext] at he
    cases he
    exact ⟨hs, .inl ⟨rfl, fun _ he => by cases he⟩⟩
  | some next =>
    cases next with
    | retrans t =>
      obtain ⟨⟨ht, hh⟩, hrun⟩ := hs.coapTimerRun_retrans hnext rand
      exact hs.retransmit ht hh rand now (hrun ▸ he)
    | other n =>
      rw [Engine.coapTimerRun, hnext] at he
      cases he
      obtain ⟨hpool, hphase⟩ := hs.otherTimers (Timers.takeTimer_ok hs.lists.timers (.other n))
        (fun u => (Timers.mem_takeTimer hs.lists.timers).trans
          (and_iff_right fun he => by cases he)) rfl
      exact ⟨hpool, .inl ⟨hphase, neutral_singleton rfl⟩⟩

theorem Pool.newTransaction (hs : s.Pool)
    (he : s.engine.coapNewTransaction mid endpoint = (e, some t)) (c : Call) (creator : Creator) :
    (s.put t (⟨creator, false⟩ :: s.held t) e).Pool ∧
      s.Moves c (s.put t (⟨creator, false⟩ :: s.held t) e) [.allocated t mid endpoint] := by
  obtain ⟨x, ⟨hx, rfl, rfl⟩, hfree, hpool, hphase⟩ := hs.allocate he ⟨creator, false⟩ rfl
  exact ⟨hpool, .one hphase hfree (.allocate hx)⟩

theorem coapNewTransaction_none {e' : Engine}
    (he : e.coapNewTransaction mid endpoint = (e', none)) : e' = e := by
  rw [Engine.coapNewTransaction] at he
  split at he
  · cases he
  · exact (Prod.mk.inj he).1.symm

/-- A response keeps the pool in order. -/
theorem Pool.receiveResponse (hs : s.Pool) (src : CoapEndpoint) {r : ParseResult} (now : UInt64)
    (hfree : ∀ t ∈ s.engine.coapGetTransactionByMid r.msg.mid, s.held t = [])
    (he : s.engine.receiveResponse src r.msg now = (e, es)) :
    System.Pool ⟨e, s.held⟩ ∧ s.Moves (.receive src r) ⟨e, s.held⟩ es := by
  have hping : ∀ e ∈ (if r.msg.type = .con ∧ r.msg.code = 0 then [Event.replied src] else []),
      e.Neutral := neutral_ite rfl
  have hrst : ∀ e ∈ (if r.msg.type = .rst then [Event.observersRemovedByMid src r.msg.mid] else []),
      e.Neutral := neutral_ite rfl
  rw [Engine.receiveResponse] at he
  cases ht : s.engine.coapGetTransactionByMid r.msg.mid with
  | none =>
    rw [ht] at he
    cases he
    refine ⟨hs, .inl ⟨rfl, fun e he => ?_⟩⟩
    rcases mem_append.mp he with he | he
    · exact hrst e he
    · exact hping e he
  | some t =>
    rw [ht] at he
    cases he
    have hmem := mem_of_find?_eq_some ht
    have hmid : (s.engine.block t).mid = r.msg.mid := by
      have hfound := find?_some ht
      exact of_decide_eq_true hfound
    obtain ⟨hpool, hphase⟩ := hs.lists.release_clear (fun u _ => hs.settled u) hmem now
      (put_held (hfree t ht) _).symm
    exact ⟨hpool, .one hphase (phase_opened hmem rfl (hfree t ht)) (.reply hmid hrst hping)⟩

/-- What opening a transaction does. -/
theorem step_newTransaction_cases {creator : Creator}
    (hstep : s.step (.newTransaction creator mid endpoint, now) = some (s', es)) :
    (s' = s ∧ es = []) ∨ ∃ e t, s.engine.coapNewTransaction mid endpoint = (e, some t) ∧
      s' = s.put t (⟨creator, false⟩ :: s.held t) e ∧ es = [.allocated t mid endpoint] := by
  rw [step] at hstep
  rcases hnew : s.engine.coapNewTransaction mid endpoint with ⟨e, _ | t⟩
  · simp only [hnew] at hstep
    cases hstep
    obtain rfl := coapNewTransaction_none hnew
    exact .inl ⟨rfl, rfl⟩
  · simp only [hnew] at hstep
    cases hstep
    exact .inr ⟨e, t, rfl, rfl, rfl⟩

/-- What a datagram does: an error or a full pool is answered at once, a request opens a
transaction, and the rest are responses. -/
theorem step_receive_cases {src : CoapEndpoint} {r : ParseResult}
    (hstep : s.step (.receive src r, now) = some (s', es)) :
    (s' = s ∧ es = [.replied src] ∧ (r.status = .noError → Engine.isRequest r.msg)) ∨
    (∃ e t, s.engine.coapNewTransaction r.msg.mid src = (e, some t) ∧ Engine.isRequest r.msg ∧
      s' = s.put t (⟨.response, false⟩ :: s.held t) e ∧ es = [.allocated t r.msg.mid src]) ∨
    (r.status = .noError ∧ Engine.isRequest r.msg = false ∧
      ∃ e, s.engine.receiveResponse src r.msg now = (e, es) ∧ s' = ⟨e, s.held⟩) := by
  simp only [step, Engine.coapReceive] at hstep
  by_cases herr : r.status ≠ .noError
  · simp only [if_pos herr] at hstep
    cases hstep
    exact .inl ⟨rfl, rfl, fun h => absurd h herr⟩
  simp only [if_neg herr] at hstep
  by_cases hreq : Engine.isRequest r.msg
  · simp only [if_pos hreq] at hstep
    rcases hnew : s.engine.coapNewTransaction r.msg.mid src with ⟨e, _ | t⟩
    · simp only [hnew] at hstep
      cases hstep
      obtain rfl := coapNewTransaction_none hnew
      exact .inl ⟨rfl, rfl, fun _ => hreq⟩
    · simp only [hnew] at hstep
      cases hstep
      exact .inr (.inl ⟨e, t, rfl, hreq, rfl, rfl⟩)
  · simp only [if_neg hreq] at hstep
    cases hstep
    exact .inr (.inr ⟨not_not.mp herr, eq_false_of_ne_true hreq, _, rfl, rfl⟩)

/-- A datagram keeps the pool in order. -/
theorem Pool.receive (hs : s.Pool) {src : CoapEndpoint} {r : ParseResult}
    (hG : Undisturbed s (.receive src r, now))
    (hstep : s.step (.receive src r, now) = some (s', es)) :
    s'.Pool ∧ s.Moves (.receive src r) s' es := by
  rcases step_receive_cases hstep with ⟨rfl, rfl, -⟩ | ⟨e, t, hnew, -, rfl, rfl⟩ |
    ⟨hok, hreq, e, he, rfl⟩
  · exact ⟨hs, .inl ⟨rfl, neutral_singleton rfl⟩⟩
  · exact hs.newTransaction hnew _ .response
  · exact hs.receiveResponse src now (hG hok hreq) he

/-- **The engine moves transactions.**  Every call keeps the pool and is one move of one block, or
none. -/
theorem step_moves {i : Call × UInt64} (hs : s.Pool) (hG : Undisturbed s i)
    (hstep : s.step i = some (s', es)) : s'.Pool ∧ s.Moves i.1 s' es := by
  obtain ⟨c, now⟩ := i
  cases c with
  | newTransaction creator mid endpoint =>
    rcases step_newTransaction_cases hstep with ⟨rfl, rfl⟩ | ⟨e, t, hnew, rfl, rfl⟩
    · exact ⟨hs, .inl ⟨rfl, fun _ he => by cases he⟩⟩
    · exact hs.newTransaction hnew _ creator
  | register t h callback data =>
    simp only [step] at hstep
    split_ifs at hstep with hheld
    cases hstep
    have hh := hs.held_of_mem hheld.1
    rw [hh, erase_cons_head]
    obtain ⟨hpool, hphase⟩ := hs.put hh { h with registered := true }
      (x := { s.engine.block t with callback := some callback, callbackData := data })
      (hs.counter_of_held hh) rfl
    exact ⟨hpool, .one hphase (phase_held (hs.mem_of_held hh) rfl hh) (.register hheld.2)⟩
  | serialize t h message messageLen =>
    simp only [step] at hstep
    split_ifs at hstep with hheld
    cases hstep
    have hh := hs.held_of_mem hheld
    obtain ⟨hpool, hphase⟩ := hs.put hh h
      (x := { s.engine.block t with message := message, messageLen := messageLen })
      (hs.counter_of_held hh) (by rw [System.put, ← hh, update_eq_self])
    exact ⟨hpool, .one hphase (phase_held (hs.mem_of_held hh) rfl hh) .serialize⟩
  | send t h rand =>
    simp only [step] at hstep
    split_ifs at hstep with hheld
    cases hstep
    have hh := hs.held_of_mem hheld.1
    rw [hh, erase_cons_head]
    exact hs.send hh hheld.2 rand now
  | clear t who =>
    cases who with
    | none =>
      simp only [step] at hstep
      split_ifs at hstep with ht
      cases hstep
      obtain ⟨hpool, hfree⟩ := hs.lists.release_clear (fun u _ => hs.settled u) ht
        now (put_held hG _).symm
      exact ⟨hpool, .one hfree (phase_opened ht rfl hG) (.clear (by rintro ⟨⟩))⟩
    | some h =>
      simp only [step] at hstep
      split_ifs at hstep with hheld
      cases hstep
      have hh := hs.held_of_mem hheld
      have ht := hs.mem_of_held hh
      rw [hh, erase_cons_head]
      obtain ⟨hpool, hfree⟩ := hs.lists.release_clear (fun u _ => hs.settled u) ht now rfl
      exact ⟨hpool, .one hfree (phase_held ht rfl hh) (.clear (by rintro ⟨⟩))⟩
  | receive src r =>
    exact hs.receive hG hstep
  | timerRun rand =>
    cases hstep
    exact hs.timerRun rand now rfl
  | setTimer n time =>
    cases hstep
    obtain ⟨hpool, hphase⟩ := hs.otherTimers
      (Timers.coapTimerSet_ok hs.lists.timers (.other n) time now)
      (fun u =>
        (Timers.mem_coapTimerSet hs.lists.timers).trans (or_iff_right fun he => by cases he))
      rfl
    exact ⟨hpool, .inl ⟨hphase, fun _ he => by cases he⟩⟩
  | stopTimer n =>
    cases hstep
    obtain ⟨hpool, hphase⟩ := hs.otherTimers
      (Timers.coapTimerStop_ok hs.lists.timers (.other n) now)
      (fun u =>
        (Timers.mem_coapTimerStop hs.lists.timers).trans (and_iff_right fun he => by cases he))
      rfl
    exact ⟨hpool, .inl ⟨hphase, fun _ he => by cases he⟩⟩

theorem initial_pool : initial.Pool where
  lists := ⟨nodup_nil, fun _ => rfl, ⟨nodup_nil, fun _ => rfl⟩, fun _ h => absurd rfl h⟩
  settled _ := ⟨iff_of_false not_mem_nil fun h => not_mem_nil h.1, trivial⟩

end System

end Nespy.Coap
