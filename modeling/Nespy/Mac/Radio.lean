import Nespy.Lib.Runs

/-!
# Mac — the radio driver of the unix port

The radio sends datagrams to the other nodes and polls a socket for theirs (`unix_radio_process`).
A frame that is not a broadcast waits for an acknowledgement, which is any datagram of
`CSMA_ACK_LEN` bytes, until `ack_timeout`; `unix_transmit` loops until the radio has left
`RADIO_STATE_TRANSMIT`.

The loop does not end from a state in which the acknowledgement is there and the deadline has passed
(`Wedged.process`): the branch for an acknowledged frame wants the deadline, the one for a lost
frame wants no acknowledgement.  `radio_wedges` reaches such a state.  `radio_never_wedges`: it is
not reached by a run in which no acknowledgement is taken from the socket after the deadline, and no
frame is sent while an acknowledgement of an earlier one has not been read (`Prompt`).
-/

open Option

namespace Nespy.Mac

open Nespy.Lib

/-! ### The driver -/

/-- An acknowledgement is told by its length. -/
def csmaAckLen : UInt8 := 3

/-- How long an acknowledgement is waited for. -/
def ackWaitTime : UInt32 := 100

/-- The longest datagram. -/
def unixRadioBufferSize : ℕ := 127

/-- What the radio is doing. -/
inductive RadioState where
  | disabled | sleep | receive | transmit
  deriving DecidableEq, Repr

/-- The results of a transmission. -/
inductive RadioTx where
  | ok | err | collision | noack
  deriving DecidableEq, Repr

/-- The variables of the driver, the datagrams that wait in the socket by their lengths, the time
since `clock_init` in milliseconds, and how many calls of `unix_transmit` are in their loop. -/
structure Radio where
  /-- `RADIO_TX_MODE_SEND_ON_CCA` in `radio_tx_mode`. -/
  sendOnCca : Bool
  txBroadcast : Bool
  rxPktCounter : Int8
  txLen : UInt8
  rxLen : UInt8
  isAckReceived : Bool
  state : RadioState
  ackWait : Bool
  ackTimeout : UInt32
  socket : List ℕ
  clock : ℕ
  calls : ℕ
  deriving DecidableEq, Repr

/-- What the radio does that others see. -/
inductive RadioEvent where
  | transmitReturns (result : RadioTx)
  | readReturns (len : UInt8)
  /-- `unix_radio_transmit` to every other node. -/
  | sendto (len : UInt8)
  /-- `process_poll` of `unix_radio_thread`. -/
  | poll
  deriving DecidableEq, Repr

namespace Radio

variable {r r' : Radio}

/-- After `unix_init`. -/
def unixInit : Radio where
  sendOnCca := true
  txBroadcast := false
  rxPktCounter := 0
  txLen := 0
  rxLen := 0
  isAckReceived := false
  state := .receive
  ackWait := false
  ackTimeout := 0
  socket := []
  clock := 0
  calls := 0

variable (r)

/-- `RTIMER_NOW()`: milliseconds in 32 bits. -/
def rtimerNow : UInt32 := UInt32.ofNat r.clock

/-- Time goes by. -/
def advance (d : ℕ) (r : Radio) : Radio := { r with clock := r.clock + d }

/-- The frame is copied; only its length matters here. -/
def unixPrepare (len : UInt16) (r : Radio) : Radio := { r with txLen := len.toUInt8 }

/-- The channel is free when the radio itself sends nothing. -/
def unixChannelClear : Bool := !(r.ackWait || r.state == .transmit)

/-- `unix_transmit` up to its loop; `holdsBroadcast` is what `packetbuf_holds_broadcast` says. -/
def unixTransmit (len : UInt16) (holdsBroadcast : Bool) (r : Radio) : Radio × List RadioEvent :=
  if r.txLen.toUInt16 ≠ len then (r, [.transmitReturns .err])
  else if r.txLen < csmaAckLen then (r, [.transmitReturns .err])
  else if r.sendOnCca ∧ csmaAckLen < r.txLen ∧ r.unixChannelClear = false then
    (r, [.transmitReturns .collision])
  else
    ({ r with
        state := .transmit
        txBroadcast := if csmaAckLen < r.txLen then holdsBroadcast else r.txBroadcast
        calls := r.calls + 1 }, [])

/-- The end of `unix_transmit`, when its loop finds that the radio does not transmit. -/
def unixTransmitReturn : Radio × List RadioEvent :=
  ({ r with txBroadcast := false, calls := r.calls - 1 }, [.transmitReturns .ok])

/-- Reading takes the frame, and an acknowledgement with it. -/
def unixRead : Radio × List RadioEvent :=
  ({ r with isAckReceived := if r.rxLen = csmaAckLen then false else r.isAckReceived, rxLen := 0 },
    [.readReturns r.rxLen])

/-- What `unix_radio_thread` does after `NETSTACK_MAC.input()`. -/
def packetHandled : Radio :=
  { r with rxPktCounter := if 0 < r.rxPktCounter then r.rxPktCounter - 1 else r.rxPktCounter }

/-- The poll of the socket, with `unix_radio_update` if a datagram waits there. -/
def unixRadioUpdate : Radio :=
  match r.socket with
  | [] => r
  | len :: socket => { r with socket, rxLen := UInt8.ofNat (min len unixRadioBufferSize) }

/-! The parts of `unix_radio_process`, in the order in which it has them. -/

/-- A frame of the length of an acknowledgement, when one is waited for. -/
def checkForAck : Radio :=
  if r.rxLen = csmaAckLen ∧ r.ackWait then { r with isAckReceived := true } else r

/-- The acknowledgement is in time. -/
def transmitDoneAcked : Radio :=
  if r.isAckReceived ∧ r.ackWait ∧ r.state = .transmit ∧ r.rtimerNow ≤ r.ackTimeout then
    { r with ackWait := false, state := .receive }
  else r

/-- The time is over without an acknowledgement. -/
def transmitDoneNoack : Radio :=
  if r.isAckReceived = false ∧ r.ackWait ∧ r.state = .transmit ∧ r.ackTimeout < r.rtimerNow then
    { r with ackWait := false, state := .receive }
  else r

/-- A frame that is no acknowledgement is handed on. -/
def callMacInput : Radio × List RadioEvent :=
  if csmaAckLen < r.rxLen ∧ r.state = .receive ∧ r.isAckReceived = false then
    ({ r with rxPktCounter := r.rxPktCounter + 1 }, [.poll])
  else (r, [])

/-- A frame that waits is sent; a broadcast needs no acknowledgement. -/
def transmitFrame : Radio × List RadioEvent :=
  if r.state = .transmit ∧ r.ackWait = false then
    if csmaAckLen < r.txLen then
      if r.txBroadcast then ({ r with state := .receive }, [.sendto r.txLen])
      else ({ r with ackWait := true, ackTimeout := r.rtimerNow + ackWaitTime }, [.sendto r.txLen])
    else ({ r with state := .receive }, [.sendto r.txLen])
  else (r, [])

/-- The state before `unix_radio_process` calls the MAC: `d₁` and `d₂` milliseconds pass before the
two readings of the clock. -/
def received (d₁ d₂ : ℕ) (r : Radio) : Radio :=
  ((r.unixRadioUpdate.checkForAck.advance d₁).transmitDoneAcked.advance d₂).transmitDoneNoack

/-- One step of `unix_radio_process`; `d₁`, `d₂` and `d₃` milliseconds pass before it reads the
clock for the first, second and third time. -/
def unixRadioProcess (d₁ d₂ d₃ : ℕ) (r : Radio) : Radio × List RadioEvent :=
  let (r, polls) := (r.received d₁ d₂).callMacInput
  let (r, sends) := (r.advance d₃).transmitFrame
  (r, polls ++ sends)

end Radio

/-- What happens to the radio. -/
inductive RadioInput where
  | prepare (len : UInt16)
  | transmit (len : UInt16) (holdsBroadcast : Bool)
  | transmitReturn
  | read
  | packetHandled
  | on
  | off
  | process (d₁ d₂ d₃ : ℕ)
  | datagram (len : ℕ)
  | advance (d : ℕ)
  deriving DecidableEq, Repr

namespace Radio

variable {r r' : Radio}

/-- Any of the driver's functions is called, a datagram arrives, or time passes.  Nothing that the
loop of `unix_transmit` runs turns the radio on or off. -/
def step (r : Radio) : RadioInput → Option (Radio × List RadioEvent)
  | .prepare len => some (r.unixPrepare len, [])
  | .transmit len holdsBroadcast => some (r.unixTransmit len holdsBroadcast)
  | .transmitReturn => if r.state ≠ .transmit ∧ 0 < r.calls then some r.unixTransmitReturn else none
  | .read => some r.unixRead
  | .packetHandled => some (r.packetHandled, [])
  | .on => if r.calls = 0 then some ({ r with state := .receive }, []) else none
  | .off => if r.calls = 0 then some ({ r with state := .disabled }, []) else none
  | .process d₁ d₂ d₃ => some (r.unixRadioProcess d₁ d₂ d₃)
  | .datagram len => some ({ r with socket := r.socket ++ [len] }, [])
  | .advance d => some (r.advance d, [])

/-! ### The wedge -/

/-- The radio waits for an acknowledgement that is there, after the deadline. -/
def Wedged (r : Radio) : Prop :=
  r.state = .transmit ∧ r.ackWait = true ∧ r.isAckReceived = true ∧ r.ackTimeout < r.rtimerNow

theorem unixRadioUpdate_frame : ∃ socket rxLen, r.unixRadioUpdate = { r with socket, rxLen } := by
  rw [unixRadioUpdate]
  split
  · exact ⟨r.socket, r.rxLen, rfl⟩
  · exact ⟨_, _, rfl⟩

/-- The calls of the MAC change a counter only. -/
theorem callMacInput_frame :
    ∃ rxPktCounter polls, r.callMacInput = ({ r with rxPktCounter }, polls) := by
  rw [callMacInput]
  split
  · exact ⟨_, _, rfl⟩
  · exact ⟨r.rxPktCounter, [], rfl⟩

variable {d₁ d₂ d₃ : ℕ}

/-- **No way out of the wedge.**  A step of `unix_radio_process` whose readings of the clock are all
after the deadline leaves the radio wedged, whatever datagram it takes, so that the loop of
`unix_transmit` goes on. -/
theorem Wedged.process (h : r.Wedged) (h₁ : r.ackTimeout < (r.advance d₁).rtimerNow)
    (h₃ : r.ackTimeout < (r.advance (d₁ + d₂ + d₃)).rtimerNow) :
    (r.unixRadioProcess d₁ d₂ d₃).1.Wedged := by
  obtain ⟨hstate, hwait, hack, -⟩ := h
  obtain ⟨socket, rxLen, hupdate⟩ := unixRadioUpdate_frame
  have hcheck : r.unixRadioUpdate.checkForAck = { r with socket, rxLen } := by
    rw [hupdate, checkForAck]
    split
    · rw [← hack]
    · rfl
  have hreceived : r.received d₁ d₂ = ({ r with socket, rxLen } : Radio).advance (d₁ + d₂) := by
    rw [received, hcheck, transmitDoneAcked, if_neg fun hc => UInt32.not_lt.mpr hc.2.2.2 h₁,
      transmitDoneNoack, if_neg fun hc => Bool.false_ne_true (hc.1.symm.trans hack)]
    simp [advance, Nat.add_assoc]
  obtain ⟨counter, polls, hmac⟩ := callMacInput_frame (r := r.received d₁ d₂)
  rw [hreceived] at hmac
  simp only [unixRadioProcess, hreceived, hmac]
  rw [transmitFrame, if_neg fun hc => Bool.false_ne_true (hc.2.symm.trans hwait)]
  exact ⟨hstate, hwait, hack, by simpa [rtimerNow, advance, Nat.add_assoc] using h₃⟩

/-! ### Runs that do not wedge -/

/-- The length that the receive buffer has after the poll of the socket. -/
def nextRxLen (r : Radio) : UInt8 := r.unixRadioUpdate.rxLen

/-- No acknowledgement is taken after the deadline, and no frame that needs one is sent while one is
there. -/
def Prompt (r : Radio) : RadioInput → Prop
  | .process d₁ _ _ => r.state = .transmit →
      (r.ackWait = true → r.nextRxLen = csmaAckLen → (r.advance d₁).rtimerNow ≤ r.ackTimeout) ∧
      (r.ackWait = false → csmaAckLen < r.txLen → r.txBroadcast = false → r.isAckReceived = false)
  | _ => True

instance : ∀ input, Decidable (r.Prompt input)
  | .process .. => inferInstanceAs (Decidable (_ → _ ∧ _))
  | .prepare _ | .transmit .. | .transmitReturn | .read | .packetHandled | .on | .off | .datagram _
  | .advance _ => .isTrue trivial

/-- The radio transmits only for a caller that waits, and waits for an acknowledgement only while it
transmits and has none. -/
structure Inv (r : Radio) : Prop where
  calls : r.state = .transmit → 0 < r.calls
  wait : r.ackWait = true → r.state = .transmit ∧ r.isAckReceived = false

theorem Inv.not_wedged (hi : r.Inv) : ¬r.Wedged := by
  rintro ⟨-, hwait, hack, -⟩
  exact Bool.false_ne_true ((hi.wait hwait).2.symm.trans hack)

theorem unixInit_inv : unixInit.Inv := ⟨nofun, nofun⟩

section

variable (hi : r.Inv)

include hi

theorem Inv.transmit (len : UInt16) (holdsBroadcast : Bool) :
    (r.unixTransmit len holdsBroadcast).1.Inv := by
  have hsent (txBroadcast : Bool) :
      ({ r with state := .transmit, txBroadcast, calls := r.calls + 1 } : Radio).Inv :=
    ⟨fun _ => Nat.succ_pos _, fun hwait => ⟨rfl, (hi.wait hwait).2⟩⟩
  rw [unixTransmit]
  split_ifs
  · exact hi
  · exact hi
  · exact hi
  · exact hsent holdsBroadcast
  · exact hsent r.txBroadcast

theorem Inv.transmitReturn (hstate : r.state ≠ .transmit) : r.unixTransmitReturn.1.Inv :=
  ⟨fun h => absurd h hstate, fun hwait => absurd (hi.wait hwait).1 hstate⟩

theorem Inv.read : r.unixRead.1.Inv := by
  refine ⟨hi.calls, fun hwait => ⟨(hi.wait hwait).1, ?_⟩⟩
  have hack := (hi.wait hwait).2
  simp [unixRead, hack]

/-- With no call of `unix_transmit` in its loop the radio can be turned on or off. -/
theorem Inv.turn (hcalls : r.calls = 0) {state : RadioState} (hstate : state ≠ .transmit) :
    ({ r with state } : Radio).Inv := by
  refine ⟨fun h => absurd h hstate, fun hwait => ?_⟩
  have hpos := hi.calls (hi.wait hwait).1
  omega

/-- An acknowledgement that is taken in time ends the wait, and so does the deadline. -/
theorem Inv.received
    (htime : r.state = .transmit → r.ackWait = true → r.nextRxLen = csmaAckLen →
      (r.advance d₁).rtimerNow ≤ r.ackTimeout) :
    (r.received d₁ d₂).Inv := by
  obtain ⟨socket, rxLen, hupdate⟩ := unixRadioUpdate_frame
  rw [nextRxLen, hupdate] at htime
  rw [Radio.received, hupdate, checkForAck]
  split_ifs with hc
  · obtain ⟨hlen, hwait⟩ := hc
    have htransmit := (hi.wait hwait).1
    rw [transmitDoneAcked, if_pos ⟨rfl, hwait, htransmit, htime htransmit hwait hlen⟩]
    exact ⟨nofun, nofun⟩
  · rw [transmitDoneAcked, if_neg ?_, transmitDoneNoack]
    · split
      · exact ⟨nofun, nofun⟩
      · exact ⟨hi.calls, hi.wait⟩
    · rintro ⟨hack, hwait, -, -⟩
      exact Bool.false_ne_true ((hi.wait hwait).2.symm.trans hack)

/-- A frame that waits for its acknowledgement has none yet. -/
theorem Inv.transmitFrame
    (hack : r.state = .transmit → r.ackWait = false → csmaAckLen < r.txLen → r.txBroadcast = false →
      r.isAckReceived = false) :
    r.transmitFrame.1.Inv := by
  rw [Radio.transmitFrame]
  split
  · rename_i hc
    have hwait : r.ackWait = true → False := fun h => Bool.false_ne_true (hc.2.symm.trans h)
    split
    · rename_i hlen
      split_ifs with hbroadcast
      · exact ⟨nofun, fun h => (hwait h).elim⟩
      · exact ⟨hi.calls, fun _ => ⟨hc.1, hack hc.1 hc.2 hlen (Bool.eq_false_iff.mpr hbroadcast)⟩⟩
    · exact ⟨nofun, fun h => (hwait h).elim⟩
  · exact hi

end

/-- What a frame that is about to be sent finds is what was there before the step. -/
theorem received_of_transmit (hstate : (r.received d₁ d₂).state = .transmit)
    (hwait : (r.received d₁ d₂).ackWait = false) :
    r.state = .transmit ∧ r.ackWait = false ∧ (r.received d₁ d₂).txLen = r.txLen ∧
      (r.received d₁ d₂).txBroadcast = r.txBroadcast ∧
      (r.received d₁ d₂).isAckReceived = r.isAckReceived := by
  obtain ⟨socket, rxLen, hupdate⟩ := unixRadioUpdate_frame (r := r)
  rw [received] at hstate hwait ⊢
  revert hstate hwait
  simp only [checkForAck, transmitDoneAcked, transmitDoneNoack, advance]
  split_ifs <;> simp_all

theorem Inv.process (hi : r.Inv) (hprompt : r.Prompt (.process d₁ d₂ d₃)) :
    (r.unixRadioProcess d₁ d₂ d₃).1.Inv := by
  have hreceived : (r.received d₁ d₂).Inv := hi.received fun hstate => (hprompt hstate).1
  obtain ⟨counter, polls, hmac⟩ := callMacInput_frame (r := r.received d₁ d₂)
  simp only [unixRadioProcess, hmac]
  refine Inv.transmitFrame ⟨hreceived.calls, hreceived.wait⟩ fun hstate hwait hlen hbroadcast => ?_
  obtain ⟨hs, hw, htx, hbr, hack⟩ := received_of_transmit hstate hwait
  exact hack.trans ((hprompt hs).2 hw (htx ▸ hlen) (hbr.symm.trans hbroadcast))

/-- **One step.** -/
theorem Inv.step (hi : r.Inv) {input : RadioInput} {o : List RadioEvent} (hprompt : r.Prompt input)
    (hstep : r.step input = some (r', o)) : r'.Inv := by
  cases input with
  | prepare len | packetHandled | datagram len | advance d =>
    cases hstep
    exact ⟨hi.calls, hi.wait⟩
  | transmit len holdsBroadcast =>
    obtain rfl := congrArg Prod.fst (some.inj hstep)
    exact hi.transmit len holdsBroadcast
  | transmitReturn =>
    obtain ⟨hc, hs⟩ := ite_none_right_eq_some.mp hstep
    obtain rfl := congrArg Prod.fst (some.inj hs)
    exact hi.transmitReturn hc.1
  | read =>
    obtain rfl := congrArg Prod.fst (some.inj hstep)
    exact hi.read
  | on | off =>
    obtain ⟨hcalls, hs⟩ := ite_none_right_eq_some.mp hstep
    cases hs
    exact hi.turn hcalls nofun
  | process d₁ d₂ d₃ =>
    obtain rfl := congrArg Prod.fst (some.inj hstep)
    exact hi.process hprompt

/-- **The radio does not wedge** in a run in which acknowledgements are taken in time and read
before the next frame is sent. -/
theorem radio_never_wedges {tr : List (RadioInput × List RadioEvent)}
    (hrun : Runs step Prompt unixInit tr r) :
    ¬r.Wedged :=
  (hrun.invariant Inv (fun _ => True) (fun hi hprompt hstep => ⟨hi.step hprompt hstep, trivial⟩)
    unixInit_inv).1.not_wedged

/-- A frame of ten bytes is sent and acknowledged. -/
theorem radio_never_wedges_acked : ∃ tr r, Runs step Prompt unixInit tr r ∧
    events tr = [.sendto 10, .transmitReturns .ok, .readReturns 3] ∧ ¬r.Wedged := by
  have hrun :
    (execute step Prompt unixInit [.prepare 10, .transmit 10 false, .process 0 0 0, .advance 5,
      .datagram 3, .process 0 0 0, .transmitReturn, .read]).map (fun q => events q.2) =
        some [.sendto 10, .transmitReturns .ok, .readReturns 3] := by
    decide +kernel
  obtain ⟨tr, r, hruns, hevents⟩ := exists_run_of_events hrun
  exact ⟨tr, r, hruns, hevents, radio_never_wedges hruns⟩

/-- The acknowledgement is in the socket when the radio is next polled, 101 ms after the frame was
sent. -/
theorem radio_wedges : ∃ tr r, Runs step (fun _ _ => True) unixInit tr r ∧ r.Wedged := by
  have hrun :
    (execute step (fun _ _ => True) unixInit [.prepare 10, .transmit 10 false, .process 0 0 0,
      .datagram 3, .advance 101, .process 0 0 0]).map
        (fun q =>
          (q.1.state, q.1.ackWait, q.1.isAckReceived, decide (q.1.ackTimeout < q.1.rtimerNow))) =
          some (.transmit, true, true, true) := by
    decide +kernel
  obtain ⟨q, hq, hwedged⟩ := exists_run_of_map hrun
  obtain ⟨hstate, hwait, hack, htime⟩ := by simpa only [Prod.mk.injEq] using hwedged
  exact ⟨q.2, q.1, hq, hstate, hwait, hack, of_decide_eq_true htime⟩

end Radio

end Nespy.Mac
