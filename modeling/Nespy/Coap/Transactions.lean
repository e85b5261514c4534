import Nespy.Lib.Runs
import Nespy.Sicslowpan.Address
import Nespy.Coap.Parse
import Nespy.Coap.Serialize
import Nespy.Coap.Timer

/-!
# Coap — transactions

`net/app-layer/coap/coap-transactions.c` and the part of `coap_receive` (`coap-engine.c`) that opens
and closes transactions.  A transaction is a block of `transactions_memb`; it is on
`transactions_list` while it is open, and the timer of one that waits for a reply is on the list of
timers.

The functions return what they do besides: the events.  A callback is the last thing that happens to
a transaction, after it was freed, so what the callback does in its turn are further calls.
-/

open Function

namespace Nespy.Coap

open Nespy.Sys
open Nespy.Sicslowpan (Ipaddr)

/-- The blocks for transactions. -/
def coapMaxOpenTransactions : ℕ := 4

/-- A message is sent once more than this. -/
def coapMaxRetransmit : UInt8 := 4

/-- The shortest first interval. -/
def coapResponseTimeoutTicks : ℕ := 3000

/-- `COAP_RESPONSE_TIMEOUT_BACKOFF_MASK`, from `COAP_RESPONSE_RANDOM_FACTOR` 1.5. -/
def coapResponseTimeoutBackoffMask : ℕ := 1501

/-- `coap_endpoint_t`. -/
structure CoapEndpoint where
  ipaddr : Ipaddr
  port : UInt16
  secure : UInt8
  deriving DecidableEq

/-- Addresses, ports and security agree. -/
def coapEndpointCmp (e1 e2 : CoapEndpoint) : Bool :=
  if e1.ipaddr ≠ e2.ipaddr then false else e1.port == e2.port && e1.secure == e2.secure

instance : NeZero coapMaxOpenTransactions := ⟨by decide⟩

/-- The blocks of `transactions_memb`. -/
abbrev Block := Fin coapMaxOpenTransactions

instance : LawfulBEq Block := inferInstance

/-- A timer of a transaction, or any other one. -/
inductive CoapTimer where
  | retrans (t : Block)
  | other (n : ℕ)
  deriving DecidableEq

/-- `coap_transaction_t`.  A callback and its data are addresses; `timerData` is the `user_data` of
`retrans_timer`, whose callback is set with it. -/
structure CoapTransaction where
  mid : UInt16
  timerData : Option Block
  retransInterval : UInt32
  retransCounter : UInt8
  endpoint : CoapEndpoint
  callback : Option ℕ
  callbackData : ℕ
  messageLen : UInt16
  message : List UInt8

/-- The transactions, the list of them and the timers. -/
structure Engine where
  count : Memb coapMaxOpenTransactions
  block : Block → CoapTransaction
  transactionsList : List Block
  timers : Timers CoapTimer

/-- What happens.  `interval` is that of the retransmission timer, when one is set; `response` is
false where the callback gets `NULL`. -/
inductive Event where
  | allocated (t : Block) (mid : UInt16) (endpoint : CoapEndpoint)
  | registered (t : Block) (callback data : ℕ)
  | sent (t : Block) (endpoint : CoapEndpoint) (data : List UInt8) (interval : Option UInt32)
  | freed (t : Block)
  | invoked (t : Block) (callback data : ℕ) (response : Bool)
  | replied (endpoint : CoapEndpoint)
  | observersRemovedByClient (endpoint : CoapEndpoint)
  | observersRemovedByMid (endpoint : CoapEndpoint) (mid : UInt16)
  | timerExpired (n : ℕ)
  deriving DecidableEq

namespace CoapTransaction

variable (x : CoapTransaction)

/-- The type in the message is `COAP_TYPE_CON`. -/
def isCon : Bool := (0x30 &&& x.message.getD 0 0) >>> 4 == 0

/-- `coap_sendto(&t->endpoint, t->message, t->message_len)`. -/
def sendto (t : Block) (interval : Option UInt32) : Event :=
  .sent t x.endpoint (x.message.take x.messageLen.toNat) interval

/-- The call of the callback, if there is one. -/
def invoke (t : Block) (response : Bool) : List Event :=
  match x.callback with
  | some callback => [.invoked t callback x.callbackData response]
  | none => []

end CoapTransaction

namespace Engine

variable (s : Engine) (t : Block)

/-- A change of one block. -/
def set (x : CoapTransaction) : Engine := { s with block := update s.block t x }

/-- The fields `callback` and `callback_data` keep what they had. -/
def coapNewTransaction (mid : UInt16) (endpoint : CoapEndpoint) : Engine × Option Block :=
  match membAlloc s.count with
  | some (t, count) =>
    let x := { s.block t with mid := mid, retransCounter := 0, endpoint := endpoint }
    ({ s.set t x with count := count, transactionsList := listAdd s.transactionsList t }, some t)
  | none => (s, none)

/-- The timer is stopped and the block freed. -/
def coapClearTransaction (now : UInt64) : Engine :=
  { s with timers := s.timers.coapTimerStop (.retrans t) now
           transactionsList := listRemove s.transactionsList t
           count := membFree s.count t }

/-- `coap_send_transaction`; `rand` is what `rand()` returns. -/
def coapSendTransaction (rand : ℕ) (now : UInt64) : Engine × List Event :=
  let x := s.block t
  if x.isCon then
    if x.retransCounter ≤ coapMaxRetransmit then
      let x := if x.retransCounter = 0 then
          { x with timerData := some t
                   retransInterval := UInt32.ofNat
                     (coapResponseTimeoutTicks + rand % coapResponseTimeoutBackoffMask) }
        else { x with retransInterval := x.retransInterval <<< 1 }
      ({ s.set t x with
          timers := s.timers.coapTimerSet (.retrans t) x.retransInterval.toUInt64 now },
        [x.sendto t (some x.retransInterval)])
    else
      (s.coapClearTransaction t now,
        .observersRemovedByClient x.endpoint :: .freed t :: x.invoke t false)
  else (s.coapClearTransaction t now, [x.sendto t none, .freed t])

/-- Only the message id is compared. -/
def coapGetTransactionByMid (mid : UInt16) : Option Block :=
  s.transactionsList.find? fun t => (s.block t).mid = mid

/-- What the timer of a transaction does. -/
def coapRetransmitTransaction (rand : ℕ) (now : UInt64) : Engine × List Event :=
  let x := s.block t
  (s.set t { x with retransCounter := x.retransCounter + 1 }).coapSendTransaction t rand now

/-- The first timer of the list, if its time has come. -/
def coapTimerRun (rand : ℕ) (now : UInt64) : Engine × List Event :=
  match s.timers.expiredTimer now with
  | some next =>
    let s := { s with timers := s.timers.takeTimer next }
    match next with
    | .retrans t =>
      match (s.block t).timerData with
      | some t => s.coapRetransmitTransaction t rand now
      | none => (s, [])
    | .other n => (s, [.timerExpired n])
  | none => (s, [])

/-- The message is a request. -/
def isRequest (m : Parsed) : Bool := 1 ≤ m.code && m.code ≤ 4

/-- The part of `coap_receive` that handles responses. -/
def receiveResponse (src : CoapEndpoint) (m : Parsed) (now : UInt64) : Engine × List Event :=
  let ping := if m.type = .con ∧ m.code = 0 then [.replied src] else []
  let rst := if m.type = .rst then [.observersRemovedByMid src m.mid] else []
  match s.coapGetTransactionByMid m.mid with
  | some t =>
    (s.coapClearTransaction t now, rst ++ .freed t :: (s.block t).invoke t true ++ ping)
  | none => (s, rst ++ ping)

/-- `coap_receive`, for a message the parser made `r` of.  A request that finds a transaction is
handed to the service: that transaction is the third component.  It is sent or cleared when the
service returns. -/
def coapReceive (src : CoapEndpoint) (r : ParseResult) (now : UInt64) :
    Engine × List Event × Option Block :=
  if r.status ≠ .noError then (s, [.replied src], none)
  else if isRequest r.msg then
    match s.coapNewTransaction r.msg.mid src with
    | (s, some t) => (s, [.allocated t r.msg.mid src], some t)
    | (s, none) => (s, [.replied src], none)
  else
    let (s, es) := s.receiveResponse src r.msg now
    (s, es, none)

end Engine

/-! ### The creators of transactions -/

/-- Who creates a transaction: `coap_receive` for the response to a request,
`coap_notify_observers_sub`, `coap_blocking_request`, `progress_request` and
`coap_obs_request_registration`. -/
inductive Creator where
  | response
  | notification
  | blockingRequest
  | callbackRequest
  | observeRegistration
  deriving DecidableEq

/-- The clients register a callback before they send. -/
def Creator.registers : Creator → Bool
  | response | notification => false
  | blockingRequest | callbackRequest | observeRegistration => true

/-- A transaction in the hands of its creator, which has got it from `coap_new_transaction` and has
neither sent nor cleared it. -/
structure Holder where
  creator : Creator
  registered : Bool
  deriving DecidableEq

/-- The engine and the creators.  A transaction may be freed while its creator has it, and then be
allocated for another one. -/
structure System where
  engine : Engine
  held : Block → List Holder

/-- The calls that are made, each at some time.  `h` is the creator that makes them; a transaction
that is cleared by `none` is cleared by anyone else. -/
inductive Call where
  | newTransaction (creator : Creator) (mid : UInt16) (endpoint : CoapEndpoint)
  | register (t : Block) (h : Holder) (callback data : ℕ)
  | serialize (t : Block) (h : Holder) (message : List UInt8) (messageLen : UInt16)
  | send (t : Block) (h : Holder) (rand : ℕ)
  | clear (t : Block) (h : Option Holder)
  | receive (src : CoapEndpoint) (r : ParseResult)
  | timerRun (rand : ℕ)
  | setTimer (n : ℕ) (time : UInt64)
  | stopTimer (n : ℕ)

namespace System

variable (s : System)

/-- The engine after a call, and a transaction with the creators that have it then. -/
def put (t : Block) (held : List Holder) (e : Engine) : System := ⟨e, update s.held t held⟩

/-- One call at the time `now`.  A creator registers, serializes, sends and clears only what it
holds, a client sends when it has registered its callback; an open transaction may be cleared by
anyone.  The handler that a creator calls may run processes, so packets and timers are handled at
any time. -/
def step (i : Call × UInt64) : Option (System × List Event) :=
  let now := i.2
  match i.1 with
  | .newTransaction creator mid endpoint =>
    match s.engine.coapNewTransaction mid endpoint with
    | (e, some t) =>
      some (s.put t (⟨creator, false⟩ :: s.held t) e, [.allocated t mid endpoint])
    | (e, none) => some (⟨e, s.held⟩, [])
  | .register t h callback data =>
    if h ∈ s.held t ∧ h.creator.registers then
      let x := { s.engine.block t with callback := some callback, callbackData := data }
      some (s.put t ({ h with registered := true } :: (s.held t).erase h) (s.engine.set t x),
        [.registered t callback data])
    else none
  | .serialize t h message messageLen =>
    if h ∈ s.held t then
      let x := { s.engine.block t with message := message, messageLen := messageLen }
      some (⟨s.engine.set t x, s.held⟩, [])
    else none
  | .send t h rand =>
    if h ∈ s.held t ∧ (h.creator.registers → h.registered) then
      let (e, es) := s.engine.coapSendTransaction t rand now
      some (s.put t ((s.held t).erase h) e, es)
    else none
  | .clear t (some h) =>
    if h ∈ s.held t then
      some (s.put t ((s.held t).erase h) (s.engine.coapClearTransaction t now), [.freed t])
    else none
  | .clear t none =>
    if t ∈ s.engine.transactionsList then
      some (⟨s.engine.coapClearTransaction t now, s.held⟩, [.freed t])
    else none
  | .receive src r =>
    match s.engine.coapReceive src r now with
    | (e, es, some t) => some (s.put t (⟨.response, false⟩ :: s.held t) e, es)
    | (e, es, none) => some (⟨e, s.held⟩, es)
  | .timerRun rand =>
    let (e, es) := s.engine.coapTimerRun rand now
    some (⟨e, s.held⟩, es)
  | .setTimer n time =>
    let timers := s.engine.timers.coapTimerSet (.other n) time now
    some (⟨{ s.engine with timers := timers }, s.held⟩, [])
  | .stopTimer n =>
    let timers := s.engine.timers.coapTimerStop (.other n) now
    some (⟨{ s.engine with timers := timers }, s.held⟩, [])

end System

/-- A block as it is before it is first used. -/
def CoapTransaction.zero : CoapTransaction :=
  ⟨0, none, 0, 0, ⟨Ipaddr.ofBytes [], 0, 0⟩, none, 0, 0, List.replicate (coapMaxPacketSize + 1) 0⟩

/-- The system at first. -/
def System.initial : System where
  engine :=
    { count := fun _ => 0
      block := fun _ => .zero
      transactionsList := []
      timers := ⟨false, [], fun _ => 0⟩ }
  held := fun _ => []

/-- While a creator has a transaction, no response with its message id comes in, and nobody else
clears it. -/
def Undisturbed (s : System) (i : Call × UInt64) : Prop :=
  match i.1 with
  | .receive _ r => r.status = .noError → Engine.isRequest r.msg = false →
      ∀ t ∈ s.engine.coapGetTransactionByMid r.msg.mid, s.held t = []
  | .clear t none => s.held t = []
  | _ => True

instance (s : System) : ∀ i : Call × UInt64, Decidable (Undisturbed s i)
  | (.receive _ r, _) => inferInstanceAs (Decidable (_ → _ →
      ∀ t ∈ s.engine.coapGetTransactionByMid r.msg.mid, s.held t = []))
  | (.clear t none, _) => inferInstanceAs (Decidable (s.held t = []))
  | (.newTransaction .., _) | (.register .., _) | (.serialize .., _) | (.send .., _)
  | (.clear _ (some _), _) | (.timerRun _, _) | (.setTimer .., _) | (.stopTimer .., _) =>
    .isTrue trivial

/-- Any sequence of calls. -/
abbrev System.Run := Lib.Runs System.step fun _ _ => True

end Nespy.Coap
