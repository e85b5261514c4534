import Nespy.Coap.History

/-!
# Coap — callbacks and peers

`coap_new_transaction` writes the message id, the counter and the endpoint of a block and leaves the
callback its last owner stored.  `callbacks_are_registered`: in every undisturbed run in which no
creator that stores no callback sends a confirmable message from a block with such a leftover, the
callbacks that are called are the ones that were registered.

`coap_receive` looks a transaction up by the message id alone.  `completed_by_peer_iff`: a message
completes only transactions of the endpoint it came from just when the transaction found is one of
them.
-/

open List Option

namespace Nespy.Coap

open Nespy.Lib

/-! ### Callbacks -/

/-- The callback in a block. -/
def CoapTransaction.stored (x : CoapTransaction) : Option (ℕ × ℕ) :=
  x.callback.map fun callback => (callback, x.callbackData)

/-- A creator that has stored no callback finds none when it sends a confirmable message. -/
def NoLeftover (s : System) (i : Call × UInt64) : Prop :=
  match i.1 with
  | .send t h _ =>
    h.registered = false → (s.engine.block t).isCon → (s.engine.block t).callback = none
  | _ => True

instance (s : System) : ∀ i : Call × UInt64, Decidable (NoLeftover s i)
  | (.send t h _, _) =>
    inferInstanceAs (Decidable (h.registered = false → (s.engine.block t).isCon →
      (s.engine.block t).callback = none))
  | (.newTransaction .., _) | (.register .., _) | (.serialize .., _) | (.clear .., _)
  | (.receive .., _) | (.timerRun .., _) | (.setTimer .., _) | (.stopTimer .., _) => .isTrue trivial

/-- The event calls the callback that was stored for `t` since it was allocated. -/
def CallsStored (t : Block) (l : Life) (e : Event) : Prop :=
  ∀ callback data response, e = .invoked t callback data response → l.stored = some (callback, data)

/-- How the callback in the block agrees with what was stored. -/
def Stores : Phase → Life → Prop
  | .free, _ => True
  | .held h x, l => l.stored = if h.registered then x.stored else none
  | .opened x, l => l.stored = x.stored

variable {t : Block} {l : Life} {e : Event} {es : List Event} {s : System} {x : CoapTransaction}
  {c : Call} {p q : Phase}

section

theorem callsStored_of_ne (he : e.block ≠ some t) : CallsStored t l e := by
  intro callback data response h
  rw [h] at he
  exact absurd rfl he

theorem callsStored_freed (u : Block) : CallsStored t l (.freed u) := by
  intro callback data response h
  cases h

theorem allGood_invoke (h : l.stored = x.stored) (response : Bool) :
    AllGood (Life.update t) (CallsStored t) l (x.invoke t response) := by
  rw [CoapTransaction.invoke]
  cases hc : x.callback with
  | none => trivial
  | some callback =>
    refine ⟨?_, trivial⟩
    intro callback' data response' he
    cases he
    rw [h, CoapTransaction.stored, hc, map_some]

theorem allGood_neutral (hes : ∀ e ∈ es, e.Neutral) :
    AllGood (Life.update t) (CallsStored t) l es := by
  refine allGood_of_ne (fun _ _ => callsStored_of_ne) fun e he hb => ?_
  exact some_ne_none t (hb.symm.trans (hes e he))

/-- Events that call nothing. -/
theorem callsStored_single (he : ∀ callback data response,
    e ≠ .invoked t callback data response) : AllGood (Life.update t) (CallsStored t) l [e] :=
  ⟨fun callback data response h => absurd h (he callback data response), trivial⟩

/-- **Move.**  A callback that is called was stored. -/
theorem Stores.move (hm : Move t c p es q)
    (hguard : ∀ rand h x, c = .send t h rand → p = .held h x → h.registered = false → x.isCon →
      x.callback = none) (h : Stores p l) :
    Stores q (es.foldl (Life.update t) l) ∧ AllGood (Life.update t) (CallsStored t) l es := by
  cases hm with
  | allocate =>
    refine ⟨?_, callsStored_single (by intros; exact Event.noConfusion)⟩
    rw [foldl_cons, Life.update_allocated]
    rfl
  | register =>
    refine ⟨?_, callsStored_single (by intros; exact Event.noConfusion)⟩
    rw [foldl_cons, Life.update_registered]
    rfl
  | serialize => exact ⟨h, trivial⟩
  | @transmit holder x rand interval hreg hcon hi =>
    refine ⟨?_, callsStored_single (by intros; exact Event.noConfusion)⟩
    rw [foldl_cons, Life.update_sendto]
    -- with no callback registered, the guard says that there is none in the block
    cases hr : holder.registered with
    | true =>
      rwa [Stores, hr] at h
    | false =>
      rw [Stores, hr] at h
      have hnone := hguard rand holder x rfl rfl hr hcon
      rw [h, hnone]
      rfl
  | retransmit =>
    refine ⟨?_, callsStored_single (by intros; exact Event.noConfusion)⟩
    rw [foldl_cons, Life.update_sendto]
    exact h
  | sendOnce =>
    refine ⟨trivial, ?_, callsStored_freed t, trivial⟩
    intro callback data response he
    cases he
  | clear => exact ⟨trivial, callsStored_freed t, trivial⟩
  | timeout =>
    refine ⟨trivial, ?_, callsStored_freed t, allGood_invoke h false⟩
    intro callback data response he
    cases he
  | reply hmid hpre hpost =>
    refine ⟨trivial, ?_⟩
    rw [allGood_append, allGood_append]
    refine ⟨⟨allGood_neutral hpre, callsStored_freed t, ?_⟩, allGood_neutral hpost⟩
    rw [Life.foldl_of_ne fun e he hb => ?_]
    · exact allGood_invoke h true
    · exact some_ne_none t (hb.symm.trans (hpre e he))

end

theorem System.block_of_held {h : Holder} (hp : s.phase t = .held h x) : s.engine.block t = x := by
  rw [System.phase] at hp
  split_ifs at hp
  split at hp
  · exact (Phase.held.inj hp).2
  · cases hp

/-- **Callbacks.**  In every undisturbed run in which no leftover callback is sent along, each
callback that is called for a transaction was stored into it, with its data, since it was last
allocated. -/
theorem callbacks_are_registered {s : System} {tr : List ((Call × UInt64) × List Event)}
    (hrun : Runs System.step (fun s i => NoLeftover s i ∧ Undisturbed s i) .initial tr s)
    {before after : List Event} {t : Block} {callback data : ℕ} {response : Bool}
    (hevents : events tr = before ++ .invoked t callback data response :: after) :
    (life t before).stored = some (callback, data) := by
  have hlife := System.keeps_of_run And.right hrun (t := t) (fun _ _ => callsStored_of_ne) trivial
    fun {s i es q l} _ hG hm hl => by
      refine Stores.move hm ?_ hl
      intro rand h x hc hp hr hcon
      obtain rfl := System.block_of_held hp
      have hnone := hG.1
      rw [NoLeftover, hc] at hnone
      exact hnone hr hcon
  have hall := hlife.2
  rw [hevents] at hall
  exact hall.of_mem _ _ callback data response rfl

/-- A client's request that waits for its reply, and one that is answered. -/
def waiting : List (Call × UInt64) :=
  [(.newTransaction .callbackRequest 1 peer, 0), (.register 0 ⟨.callbackRequest, false⟩ 7 8, 0),
    (.serialize 0 ⟨.callbackRequest, true⟩ [0x40, 1, 0, 1] 4, 0),
      (.send 0 ⟨.callbackRequest, true⟩ 0, 0)]

def answered (ack : ParseResult) : List (Call × UInt64) := waiting ++ [(.receive peer ack, 1)]

/-- The callback of an answered request. -/
theorem callbacks_are_registered_answered : ∃ tr s before after,
    Runs System.step (fun s i => NoLeftover s i ∧ Undisturbed s i) .initial tr s ∧
    events tr = before ++ .invoked 0 7 8 true :: after ∧ (life 0 before).stored = some (7, 8) := by
  have hexec : (execute System.step (fun s i => NoLeftover s i ∧ Undisturbed s i) .initial
      (answered (emptyMessage 0x60 1))).map (fun r => events r.2) =
      some ([.allocated 0 1 peer, .registered 0 7 8, .sent 0 peer [0x40, 1, 0, 1] (some 3000),
        .freed 0] ++ .invoked 0 7 8 true :: []) := by
    decide +kernel
  obtain ⟨tr, s, hrun, htr⟩ := exists_run_of_events hexec
  exact ⟨tr, s, _, [], hrun, htr, callbacks_are_registered hrun htr⟩

/-- A client's request that is answered, and a confirmable notification from the block it used. -/
def answeredThenNotification (ack ack' : ParseResult) : List (Call × UInt64) :=
  answered ack ++
    [(.newTransaction .notification 2 peer, 2),
      (.serialize 0 ⟨.notification, false⟩ [0x40, 69, 0, 2] 4, 2),
      (.send 0 ⟨.notification, false⟩ 0, 2), (.receive peer ack', 3)]

/-- The acknowledgement of the notification calls the callback of the request. -/
theorem leftover_callback_called : ∃ tr s before after, System.Run .initial tr s ∧
    events tr = before ++ .invoked 0 7 8 true :: after ∧ (life 0 before).stored = none := by
  have hexec : (execute System.step (fun _ _ => True) .initial
      (answeredThenNotification (emptyMessage 0x60 1) (emptyMessage 0x60 2))).map
        (fun r => events r.2) =
      some ([.allocated 0 1 peer, .registered 0 7 8, .sent 0 peer [0x40, 1, 0, 1] (some 3000),
        .freed 0, .invoked 0 7 8 true, .allocated 0 2 peer,
        .sent 0 peer [0x40, 69, 0, 2] (some 3000), .freed 0] ++ .invoked 0 7 8 true :: []) := by
    decide +kernel
  obtain ⟨tr, s, hrun, htr⟩ := exists_run_of_events hexec
  exact ⟨tr, s, _, [], hrun, htr, rfl⟩

/-! ### Peers -/

/-- The event allocates a block. -/
def Event.Allocates : Event → Prop
  | .allocated .. => True
  | _ => False

theorem Life.created_foldl (hes : ∀ e ∈ es, ¬e.Allocates) :
    (es.foldl (update t) l).created = l.created := by
  refine es.foldlRecOn (update t) (motive := fun l' => l'.created = l.created) rfl fun l' hl e he =>
    ?_
  rw [← hl]
  cases e with
  | allocated => exact absurd trivial (hes _ he)
  | sent u endpoint data interval =>
    cases interval with
    | none => rfl
    | some interval =>
      rw [update]
      split <;> rfl
  | registered | invoked =>
    rw [update]
    split <;> rfl
  | freed | replied | observersRemovedByClient | observersRemovedByMid | timerExpired => rfl

/-- No transaction is opened, and those that stay open keep their message ids and endpoints. -/
structure Keeps (e : Engine) (r : Engine × List Event) : Prop where
  block : ∀ t ∈ r.1.transactionsList, t ∈ e.transactionsList ∧
    (r.1.block t).mid = (e.block t).mid ∧ (r.1.block t).endpoint = (e.block t).endpoint
  events : ∀ ev ∈ r.2, ¬ev.Allocates

section

variable {en en' : Engine}

theorem Keeps.timers (timers : Timers CoapTimer) (hes : ∀ ev ∈ es, ¬ev.Allocates) :
    Keeps en ({ en with timers := timers }, es) :=
  ⟨fun _ ht => ⟨ht, rfl, rfl⟩, hes⟩

theorem Keeps.trans (h : Keeps en (en', [])) {r : Engine × List Event} (h' : Keeps en' r) :
    Keeps en r where
  block u hu := by
    obtain ⟨hu, hmid, hendpoint⟩ := h'.block u hu
    obtain ⟨hu', hmid', hendpoint'⟩ := h.block u hu
    exact ⟨hu', hmid.trans hmid', hendpoint.trans hendpoint'⟩
  events := h'.events

theorem Keeps.set (hlist : en'.transactionsList = en.transactionsList)
    (hblock : en'.block = Function.update en.block t x) (hmid : x.mid = (en.block t).mid)
    (hendpoint : x.endpoint = (en.block t).endpoint) (hes : ∀ ev ∈ es, ¬ev.Allocates) :
    Keeps en (en', es) := by
  refine ⟨fun u hu => ⟨hlist ▸ hu, ?_⟩, hes⟩
  by_cases hut : u = t
  · subst hut
    simp only [hblock, Function.update_self]
    exact ⟨hmid, hendpoint⟩
  · simp only [hblock, Function.update_of_ne hut, and_self]

theorem Keeps.clear (t : Block) (now : UInt64) (hes : ∀ ev ∈ es, ¬ev.Allocates) :
    Keeps en (en.coapClearTransaction t now, es) :=
  ⟨fun _ hu => ⟨mem_of_mem_erase hu, rfl, rfl⟩, hes⟩

theorem not_allocates_invoke {response : Bool} (he : e ∈ x.invoke t response) : ¬e.Allocates := by
  rw [CoapTransaction.invoke] at he
  split at he
  · obtain rfl := mem_singleton.mp he
    exact id
  · cases he

theorem Keeps.send (t : Block) (rand : ℕ) (now : UInt64) :
    Keeps en (en.coapSendTransaction t rand now) := by
  rw [Engine.coapSendTransaction]
  dsimp only
  split_ifs
  · exact .set rfl rfl rfl rfl (forall_mem_singleton.mpr id)
  · exact .set rfl rfl rfl rfl (forall_mem_singleton.mpr id)
  · refine .clear t now (forall_mem_cons.mpr ⟨id, forall_mem_cons.mpr ⟨id, fun ev hev => ?_⟩⟩)
    exact not_allocates_invoke hev
  · exact .clear t now (forall_mem_cons.mpr ⟨id, forall_mem_singleton.mpr id⟩)

theorem Keeps.retransmit (t : Block) (rand : ℕ) (now : UInt64) :
    Keeps en (en.coapRetransmitTransaction t rand now) := by
  rw [Engine.coapRetransmitTransaction]
  refine Keeps.trans ?_ (.send t rand now)
  exact .set rfl rfl rfl rfl (forall_mem_nil _)

theorem Keeps.timerRun (rand : ℕ) (now : UInt64) : Keeps en (en.coapTimerRun rand now) := by
  rw [Engine.coapTimerRun]
  split
  · dsimp only
    split
    · split
      · exact Keeps.trans (.timers _ (forall_mem_nil _)) (.retransmit _ rand now)
      · exact .timers _ (forall_mem_nil _)
    · exact .timers _ (forall_mem_singleton.mpr id)
  · exact .timers _ (forall_mem_nil _)

theorem Keeps.receiveResponse (src : CoapEndpoint) (m : Parsed) (now : UInt64) :
    Keeps en (en.receiveResponse src m now) := by
  have hone {p : Prop} [Decidable p] {e' : Event} (he' : ¬e'.Allocates) :
      ∀ ev ∈ if p then [e'] else [], ¬ev.Allocates := by
    split
    · exact forall_mem_singleton.mpr he'
    · exact forall_mem_nil _
  rw [Engine.receiveResponse]
  split
  · refine .clear _ now (forall_mem_append.mpr ⟨forall_mem_append.mpr ⟨hone id, ?_⟩, hone id⟩)
    exact forall_mem_cons.mpr ⟨id, fun ev hev => not_allocates_invoke hev⟩
  · exact .timers _ (forall_mem_append.mpr ⟨hone id, hone id⟩)

end

/-- A call opens one transaction or none. -/
theorem System.step_keeps {s' : System} {i : Call × UInt64} (hstep : s.step i = some (s', es)) :
    Keeps s.engine (s'.engine, es) ∨ ∃ t mid endpoint,
      s.engine.coapNewTransaction mid endpoint = (s'.engine, some t) ∧
        es = [.allocated t mid endpoint] := by
  obtain ⟨c, now⟩ := i
  cases c with
  | newTransaction creator mid endpoint =>
    rcases step_newTransaction_cases hstep with ⟨rfl, rfl⟩ | ⟨e, t, hnew, rfl, rfl⟩
    · exact .inl (.timers _ (forall_mem_nil _))
    · exact .inr ⟨t, mid, endpoint, hnew, rfl⟩
  | register t h callback data =>
    simp only [step] at hstep
    split_ifs at hstep
    cases hstep
    exact .inl (.set rfl rfl rfl rfl (forall_mem_singleton.mpr id))
  | serialize t h message messageLen =>
    simp only [step] at hstep
    split_ifs at hstep
    cases hstep
    exact .inl (.set rfl rfl rfl rfl (forall_mem_nil _))
  | send t h rand =>
    simp only [step] at hstep
    split_ifs at hstep
    cases hstep
    exact .inl (.send t rand now)
  | clear t who =>
    cases who with
    | none | some =>
      simp only [step] at hstep
      split_ifs at hstep
      cases hstep
      exact .inl (.clear t now (forall_mem_singleton.mpr id))
  | receive src r =>
    rcases step_receive_cases hstep with ⟨rfl, rfl, -⟩ | ⟨e, t, hnew, -, rfl, rfl⟩ |
      ⟨-, -, e, he, rfl⟩
    · exact .inl (.timers _ (forall_mem_singleton.mpr id))
    · exact .inr ⟨t, _, src, hnew, rfl⟩
    · exact .inl (he ▸ .receiveResponse src r.msg now)
  | timerRun rand =>
    simp only [step] at hstep
    cases hstep
    exact .inl (.timerRun rand now)
  | setTimer | stopTimer =>
    cases hstep
    exact .inl (.timers _ (forall_mem_nil _))

theorem coapNewTransaction_some {en e' : Engine} {mid : UInt16} {endpoint : CoapEndpoint}
    (hnew : en.coapNewTransaction mid endpoint = (e', some t)) :
    (e'.block t).mid = mid ∧ (e'.block t).endpoint = endpoint ∧
      ∀ u ≠ t, e'.block u = en.block u ∧ (u ∈ e'.transactionsList → u ∈ en.transactionsList) := by
  rw [Engine.coapNewTransaction] at hnew
  split at hnew
  · cases hnew
    simp only [Engine.set, Function.update_self]
    refine ⟨trivial, trivial, fun u hu => ⟨Function.update_of_ne hu .., fun hmem => ?_⟩⟩
    rcases mem_append.mp hmem with hmem | hmem
    · exact mem_of_mem_erase hmem
    · exact absurd (mem_singleton.mp hmem) hu
  · cases hnew

/-- Every open transaction has the message id and the endpoint that it was allocated for. -/
theorem System.created_of_run {tr : List ((Call × UInt64) × List Event)}
    (hrun : System.Run .initial tr s) (ht : t ∈ s.engine.transactionsList) :
    (life t (events tr)).created = some ((s.engine.block t).mid, (s.engine.block t).endpoint) := by
  rw [← nil_append (events tr)]
  refine hrun.trace (fun s es => t ∈ s.engine.transactionsList →
    (life t es).created = some ((s.engine.block t).mid, (s.engine.block t).endpoint))
    (fun {s es i s' es'} hl _ hstep ht => ?_) (fun ht => absurd ht not_mem_nil) ht
  rw [life, foldl_append]
  rcases System.step_keeps hstep with hkeeps | ⟨u, mid, endpoint, hnew, rfl⟩
  · obtain ⟨ht', hmid, hendpoint⟩ := hkeeps.block t ht
    rw [Life.created_foldl hkeeps.events, ← life, hl ht', hmid, hendpoint]
  · obtain ⟨hmid, hendpoint, hothers⟩ := coapNewTransaction_some hnew
    by_cases hut : t = u
    · subst hut
      rw [foldl_cons, Life.update_allocated, hmid, hendpoint]
      rfl
    · obtain ⟨hblock, hmem⟩ := hothers t hut
      have hne : Event.block (.allocated u mid endpoint) ≠ some t :=
        fun hb => hut (some.inj hb).symm
      rw [Life.foldl_of_ne (forall_mem_singleton.mpr hne), ← life, hblock]
      exact hl (hmem ht)

/-- The transaction was completed: it was freed, or its callback was called. -/
def Completed (t : Block) (es : List Event) : Prop :=
  .freed t ∈ es ∨ ∃ callback data response, .invoked t callback data response ∈ es

theorem Completed.mem (h : Completed t es) :
    ∃ e ∈ es, e.block = some t ∧ ¬e.Allocates := by
  rcases h with h | ⟨callback, data, response, h⟩
  · exact ⟨_, h, rfl, id⟩
  · exact ⟨_, h, rfl, id⟩

theorem not_completed_replied (t : Block) (src : CoapEndpoint) : ¬Completed t [.replied src] := by
  intro h
  obtain ⟨e, he, hb, -⟩ := h.mem
  obtain rfl := mem_singleton.mp he
  cases hb

theorem not_completed_allocated (t u : Block) (mid : UInt16) (endpoint : CoapEndpoint) :
    ¬Completed t [.allocated u mid endpoint] := by
  intro h
  obtain ⟨e, he, -, hne⟩ := h.mem
  obtain rfl := mem_singleton.mp he
  exact hne trivial

/-- What the response part of `coap_receive` completes. -/
theorem completed_receiveResponse (s : Engine) (src : CoapEndpoint) (m : Parsed) (now : UInt64)
    (t : Block) : Completed t (s.receiveResponse src m now).2 ↔
      s.coapGetTransactionByMid m.mid = some t := by
  have hneutral {e : Event} {p : Prop} [Decidable p] {e' : Event} (he' : e'.block = none)
      (he : e ∈ if p then [e'] else []) : e.block ≠ some t := by
    split at he
    · obtain rfl := mem_singleton.mp he
      rw [he']
      exact (some_ne_none t).symm
    · cases he
  rw [Engine.receiveResponse]
  cases hu : s.coapGetTransactionByMid m.mid with
  | none =>
    refine iff_of_false (fun h => ?_) (some_ne_none t).symm
    obtain ⟨e, he, hb, -⟩ := h.mem
    rcases mem_append.mp he with he | he
    · exact hneutral rfl he hb
    · exact hneutral rfl he hb
  | some u =>
    constructor
    · intro h
      obtain ⟨e, he, hb, -⟩ := h.mem
      rcases mem_append.mp he with he | he
      · rcases mem_append.mp he with he | he
        · exact absurd hb (hneutral rfl he)
        · rcases mem_cons.mp he with rfl | he
          · exact hb
          · exact (block_of_mem_invoke he).symm.trans hb
      · exact absurd hb (hneutral rfl he)
    · intro h
      cases h
      exact .inl (mem_append_left _ (mem_append_right _ mem_cons_self))

/-- What a message completes: the transaction with its message id, if it is a response. -/
theorem completed_receive {s' : System} {src : CoapEndpoint} {r : ParseResult} {now : UInt64}
    (hstep : s.step (.receive src r, now) = some (s', es)) (t : Block) :
    Completed t es ↔ r.status = .noError ∧ Engine.isRequest r.msg = false ∧
      s.engine.coapGetTransactionByMid r.msg.mid = some t := by
  rcases System.step_receive_cases hstep with ⟨-, rfl, himp⟩ | ⟨e, u, -, hreq, -, rfl⟩ |
    ⟨hok, hreq, e, he, -⟩
  · refine iff_of_false (not_completed_replied t src) fun h => ?_
    cases (himp h.1).symm.trans h.2.1
  · refine iff_of_false (not_completed_allocated t u _ _) fun h => ?_
    cases hreq.symm.trans h.2.1
  · obtain rfl : (s.engine.receiveResponse src r.msg now).2 = es := congrArg Prod.snd he
    rw [completed_receiveResponse]
    exact ⟨fun h => ⟨hok, hreq, h⟩, fun h => h.2.2⟩

/-- **Peers.**  In every state that is reached, a message completes only transactions that were
allocated for the endpoint it comes from and for its message id, just when it is no valid response
or the transaction that `coap_get_transaction_by_mid` finds has that endpoint. -/
theorem completed_by_peer_iff {s s' : System} {tr : List ((Call × UInt64) × List Event)}
    (hrun : System.Run .initial tr s) {src : CoapEndpoint} {r : ParseResult} {now : UInt64}
    {es : List Event} (hstep : s.step (.receive src r, now) = some (s', es)) :
    (∀ t, Completed t es → ∃ mid endpoint, (life t (events tr)).created = some (mid, endpoint) ∧
      coapEndpointCmp src endpoint ∧ mid = r.msg.mid) ↔
    (r.status = .noError → Engine.isRequest r.msg = false →
      ∀ t, s.engine.coapGetTransactionByMid r.msg.mid = some t →
        coapEndpointCmp src (s.engine.block t).endpoint) := by
  constructor
  · intro h hok hreq t ht
    obtain ⟨mid, endpoint, hcreated, hcmp, -⟩ :=
      h t ((completed_receive hstep t).mpr ⟨hok, hreq, ht⟩)
    rw [System.created_of_run hrun (mem_of_find?_eq_some ht)] at hcreated
    cases hcreated
    exact hcmp
  · intro h t hcompleted
    obtain ⟨hok, hreq, ht⟩ := (completed_receive hstep t).mp hcompleted
    refine ⟨_, _, System.created_of_run hrun (mem_of_find?_eq_some ht), h hok hreq t ht, ?_⟩
    have hfound := find?_some ht
    exact of_decide_eq_true hfound

/-- The peer answers. -/
theorem completed_by_peer_iff_answered : ∃ tr s s' es, System.Run .initial tr s ∧
    s.step (.receive peer (emptyMessage 0x60 1), 1) = some (s', es) ∧ Completed 0 es ∧
    ((∀ t, Completed t es → ∃ mid endpoint, (life t (events tr)).created = some (mid, endpoint) ∧
      coapEndpointCmp peer endpoint ∧ mid = (emptyMessage 0x60 1).msg.mid) ↔
    ((emptyMessage 0x60 1).status = .noError → Engine.isRequest (emptyMessage 0x60 1).msg = false →
      ∀ t, s.engine.coapGetTransactionByMid (emptyMessage 0x60 1).msg.mid = some t →
        coapEndpointCmp peer (s.engine.block t).endpoint)) := by
  have hexec : ((execute System.step (fun _ _ => True) .initial waiting).bind fun r =>
      (r.1.step (.receive peer (emptyMessage 0x60 1), 1)).map fun q => (events r.2, q.2)) =
      some ([.allocated 0 1 peer, .registered 0 7 8, .sent 0 peer [0x40, 1, 0, 1] (some 3000)],
        [.freed 0, .invoked 0 7 8 true]) := by
    decide +kernel
  obtain ⟨tr, s, s', hrun, -, hstep⟩ := exists_step_of_events hexec
  exact ⟨tr, s, s', _, hrun, hstep, .inl mem_cons_self, completed_by_peer_iff hrun hstep⟩

/-- Another node. -/
def stranger : CoapEndpoint := ⟨Sicslowpan.Ipaddr.ofBytes [0xfe, 0x81], 5683, 0⟩

/-- An acknowledgement from anywhere completes the request, as long as it has its message id. -/
theorem completed_by_stranger : coapEndpointCmp stranger peer = false ∧
    ∃ tr s s' es, System.Run .initial tr s ∧ (life 0 (events tr)).created = some (1, peer) ∧
      s.step (.receive stranger (emptyMessage 0x60 1), 1) = some (s', es) ∧ Completed 0 es ∧
      .invoked 0 7 8 true ∈ es := by
  have hexec : ((execute System.step (fun _ _ => True) .initial waiting).bind fun r =>
      (r.1.step (.receive stranger (emptyMessage 0x60 1), 1)).map fun q => (events r.2, q.2)) =
      some ([.allocated 0 1 peer, .registered 0 7 8, .sent 0 peer [0x40, 1, 0, 1] (some 3000)],
        [.freed 0, .invoked 0 7 8 true]) := by
    decide +kernel
  refine ⟨by decide +kernel, ?_⟩
  obtain ⟨tr, s, s', hrun, htr, hstep⟩ := exists_step_of_events hexec
  refine ⟨tr, s, s', _, hrun, ?_, hstep, .inl mem_cons_self,
    mem_cons_of_mem _ mem_cons_self⟩
  rw [htr]
  rfl

end Nespy.Coap
