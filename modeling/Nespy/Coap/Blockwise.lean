import Nespy.Coap.Setters

/-!
# Coap — blockwise downloads

A client that downloads a resource in blocks (`coap-blocking-api.c`, `coap-callback-api.c`) and a
server that serves it (`coap_receive`, the Block2 part).  Each round is one request: it is answered,
or it times out, or no transaction can be had for it.

The two ends compute with sizes of their own.  The server sends blocks of its `COAP_MAX_BLOCK_SIZE`;
the client numbers the blocks it has got and asks for the next one with its own
`COAP_MAX_CHUNK_SIZE`, and the server takes number times *that* size as the offset.
-/

namespace Nespy.Coap

/-! ### The Block2 option -/

/-- A Block2 option that is set in a message: number, more and size. -/
abbrev Block2 := UInt32 × UInt8 × UInt16

/-- The Block2 option of a message. -/
def CoapMessage.block2 {P : Type} (m : CoapMessage P) : Option Block2 :=
  if m.has .block2 then some (m.block2Num, m.block2More, m.block2Size) else none

/-- What `coap_set_header_block2` makes of the option. -/
def setHeaderBlock2 (old : Option Block2) (num : UInt32) (more : Bool) (size : UInt16) :
    Option Block2 :=
  if size < 16 ∨ size > 2048 ∨ num > 0x0fffff then old
  else some (num, if more then 1 else 0, size)

theorem block2_coapSetHeaderBlock2 (m : Built) (num : UInt32) (more : UInt8) (size : UInt16) :
    (m.coapSetHeaderBlock2 num more size).block2 =
      setHeaderBlock2 m.block2 num (more ≠ 0) size := by
  rw [CoapMessage.coapSetHeaderBlock2, setHeaderBlock2]
  split
  · rfl
  · rw [CoapMessage.block2, has_setOption]
    simp only [decide_eq_true_eq]
    rfl

/-- The option as the other end reads it: number, more, size and offset. -/
def transmitBlock2 (block2 : Option Block2) : Option (UInt32 × UInt8 × UInt16 × UInt32) :=
  block2.map fun (num, more, size) => parseBlock (blockValue num more size)

theorem transmitBlock2_some (num : UInt32) (more : UInt8) (size : UInt16) :
    transmitBlock2 (some (num, more, size)) = some (parseBlock (blockValue num more size)) := rfl

/-! ### The server -/

/-- The sizes the two ends are built with: `COAP_MAX_CHUNK_SIZE` of the client and of the server,
and the server's `COAP_MAX_BLOCK_SIZE`. -/
structure Sizes where
  clientChunk : UInt16
  serverChunk : UInt16
  serverBlock : UInt16
  pow : ∃ k, serverBlock.toNat = 2 ^ k
  le_client : serverBlock ≤ clientChunk
  le_server : serverBlock ≤ serverChunk

/-- What a resource handler leaves: the code and the payload of the response, and the offset. -/
structure Handled where
  code : UInt8
  payload : List UInt8
  offset : ℤ

/-- A resource handler, on an offset and a preferred size. -/
abbrev Handler := ℕ → ℕ → Handled

/-- `CONTENT_2_05`, `BAD_REQUEST_4_00` and `BAD_OPTION_4_02`. -/
def content205 : UInt8 := 69

/-- 4.00. -/
def badRequest400 : UInt8 := 128

/-- 4.02. -/
def badOption402 : UInt8 := 130

/-- The characters of `BlockOutOfScope`. -/
def blockOutOfScope : List UInt8 :=
  [66, 108, 111, 99, 107, 79, 117, 116, 79, 102, 83, 99, 111, 112, 101]

/-- A resource that provides its body in blocks.  What it answers beyond the end of the body is an
error, and otherwise open. -/
structure ProvidesBlocks (body : List UInt8) (handler : Handler) : Prop where
  payload : ∀ offset size, offset = 0 ∨ offset < body.length →
    (handler offset size).code < badRequest400 ∧
      (handler offset size).payload = (body.drop offset).take size
  last : ∀ offset size, offset = 0 ∨ offset < body.length → body.length ≤ offset + size →
    (handler offset size).offset = -1
  more : ∀ offset size, 0 < size → offset + size < body.length →
    (handler offset size).offset ≠ -1 ∧ (handler offset size).offset ≠ offset
  error : ∀ offset size, offset ≠ 0 → body.length ≤ offset →
    badRequest400 ≤ (handler offset size).code

/-- A resource that is unaware of blocks: its body is the payload of every response. -/
structure ProvidesWhole (body : List UInt8) (handler : Handler) : Prop where
  payload : ∀ offset size, (handler offset size).code < badRequest400 ∧
    (handler offset size).payload = body
  offset : ∀ offset size, (handler offset size).offset = offset

/-- A response. -/
structure Reply where
  code : UInt8
  block2 : Option Block2
  payload : List UInt8

section Server

variable (z : Sizes) (handler : Handler)

/-- `coap_set_payload`. -/
def Sizes.setPayload (payload : List UInt8) : List UInt8 := payload.take z.serverChunk.toNat

/-- The response of a server to a request with no Block2 option. -/
def respondFirst : Reply :=
  let r := handler 0 z.serverBlock.toNat
  let payload := z.setPayload r.payload
  if r.offset ≠ 0 then
    ⟨r.code, setHeaderBlock2 none 0 (r.offset ≠ -1) z.serverBlock,
      z.setPayload (payload.take (min payload.length z.serverBlock.toNat))⟩
  else ⟨r.code, none, payload⟩

/-- The response to a request for a block. -/
def respondBlock (blockNum : UInt32) (blockSize : UInt16) (blockOffset : UInt32) : Reply :=
  let size := min blockSize z.serverBlock
  let offset := blockOffset.toNat
  -- `new_offset` is an `int32_t`
  if 2 ^ 31 ≤ offset then ⟨badOption402, none, z.setPayload blockOutOfScope⟩
  else
    let r := handler offset size.toNat
    let payload := z.setPayload r.payload
    if r.offset = offset then
      if payload.length ≤ offset then ⟨badOption402, none, z.setPayload blockOutOfScope⟩
      else
        ⟨r.code, setHeaderBlock2 none blockNum (size.toNat < payload.length - offset) size,
          z.setPayload ((payload.drop offset).take (min (payload.length - offset) size.toNat))⟩
    else
      ⟨r.code,
        setHeaderBlock2 none blockNum (r.offset ≠ -1 ∨ size.toNat < payload.length) size,
        if size.toNat < payload.length then z.setPayload (payload.take size.toNat) else payload⟩

/-- `coap_receive` for a request without a Block1 option. -/
def respond (block2 : Option (UInt32 × UInt8 × UInt16 × UInt32)) : Reply :=
  match block2 with
  | some (num, _, size, offset) => respondBlock z handler num size offset
  | none => respondFirst z handler

end Server

/-! ### The clients -/

/-- `coap_request_status_t`. -/
inductive RequestStatus where
  | response
  | more
  | finished
  | timeout
  | blockError
  deriving DecidableEq

/-- `coap_request_state_t`, with the Block2 option of the request.  The status is not set at
first. -/
structure RequestState where
  request : Option Block2
  blockNum : UInt32
  resBlock : UInt32
  more : UInt8
  blockError : UInt8
  status : Option RequestStatus

/-- The state a request starts from. -/
def RequestState.start : RequestState := ⟨none, 0, 0, 0, 0, none⟩

/-- How often a block is asked for. -/
def coapMaxAttempts : UInt8 := 4

/-- What becomes of a request. -/
inductive RequestOutcome where
  | answered
  | timedOut
  | noTransaction

/-- A call of the client's callback: the status and the payload of the response it finds. -/
structure Notice where
  status : RequestStatus
  payload : Option (List UInt8)

namespace RequestState

variable (z : Sizes) (handler : Handler) (s : RequestState)

/-- The request for the next block. -/
def prepare : RequestState :=
  if 0 < s.blockNum then { s with
    request := setHeaderBlock2 s.request s.blockNum false z.clientChunk }
  else s

/-- `coap_get_header_block2` of a response. -/
def readBlock2 (block2 : Option (UInt32 × UInt8 × UInt16 × UInt32)) : RequestState :=
  match block2 with
  | some (num, more, _, _) => { s with resBlock := num, more := more }
  | none => s

/-- The state when the response to the next request was read, and its payload. -/
def exchange : RequestState × List UInt8 :=
  let s := s.prepare z
  let r := respond z handler (transmitBlock2 s.request)
  (s.readBlock2 (transmitBlock2 r.block2), r.payload.take z.clientChunk.toNat)

/-- One turn of the loop of `coap_blocking_request`; the last component says that it was the
last. -/
def coapBlockingRequest : RequestOutcome → RequestState × List Notice × Bool
  | .noTransaction => (s, [], true)
  | .timedOut => ({ s.prepare z with status := some .timeout }, [], true)
  | .answered =>
    let (s, payload) := s.exchange z handler
    let status := if s.more ≠ 0 then .more else .response
    let s := { s with status := some status }
    let (s, notices) :=
      if s.resBlock = s.blockNum then
        ({ s with blockNum := s.blockNum + 1 }, [⟨status, some payload⟩])
      else ({ s with blockError := s.blockError + 1 }, [])
    if s.more ≠ 0 ∧ s.blockError < coapMaxAttempts then (s, notices, false)
    else
      ({ s with status := some (if s.blockError ≥ coapMaxAttempts then .blockError
        else .finished) }, notices, true)

/-- One call of `progress_request` with that of `coap_request_callback` which it leads to. -/
def coapRequestCallback : RequestOutcome → RequestState × List Notice × Bool
  | .noTransaction => (s, [], true)
  | .timedOut => ({ s.prepare z with status := some .timeout }, [⟨.timeout, none⟩], true)
  | .answered =>
    let (s, payload) := s.exchange z handler
    let (s, notices) :=
      if s.resBlock = s.blockNum then
        let status := if s.more ≠ 0 then .more else .response
        ({ s with status := some status, blockNum := s.blockNum + 1 }, [⟨status, some payload⟩])
      else ({ s with blockError := s.blockError + 1 }, [])
    if s.more ≠ 0 then
      if s.blockError < coapMaxAttempts then (s, notices, false)
      else
        ({ s with status := some .blockError }, notices ++ [⟨.blockError, some payload⟩], true)
    else ({ s with status := some .finished }, notices ++ [⟨.finished, none⟩], true)

end RequestState

/-- The two ways to make a request. -/
inductive Api where
  | blocking
  | callback

/-- One round of a request. -/
def Api.round (z : Sizes) (handler : Handler) : Api → RequestState → RequestOutcome →
    RequestState × List Notice × Bool
  | .blocking => RequestState.coapBlockingRequest z handler
  | .callback => RequestState.coapRequestCallback z handler

/-- The rounds of a request, as long as it goes on. -/
def Api.rounds (api : Api) (z : Sizes) (handler : Handler) : RequestState → List RequestOutcome →
    RequestState × List Notice
  | s, [] => (s, [])
  | s, o :: os =>
    match api.round z handler s o with
    | (s, notices, true) => (s, notices)
    | (s, notices, false) =>
      let (s, notices') := api.rounds z handler s os
      (s, notices ++ notices')

/-- The payloads that were passed to the callback, except with an error. -/
def delivered (notices : List Notice) : List UInt8 :=
  notices.flatMap fun n =>
    match n.status with
    | .timeout | .blockError => []
    | .response | .more | .finished => n.payload.getD []

/-- What was delivered is the beginning of the body, and all of it when the request has finished. -/
def DownloadAgrees (body : List UInt8) (r : RequestState × List Notice) : Prop :=
  delivered r.2 <+: body ∧ (r.1.status = some .finished → delivered r.2 = body)

end Nespy.Coap
