import Nespy.Coap.Message
import Nespy.Lib.Memory

/-!
# Coap — `coap_parse_message`

The parser works in place: the segments of a path or a query are moved together in the received
bytes, with a separator where the option header of the next one was, and the message points into
them.  So the bytes are part of its state.  They are the whole buffer, of which the first `data_len`
are the message; the parser writes a zero behind the payload.  `none` is an access outside the
buffer.
-/

namespace Nespy.Coap

open Nespy.Lib (readN writeAt)

/-- The values of `coap_status_t` the parser returns. -/
inductive ParseStatus where
  | noError
  | badRequest
  | badOption
  | proxyingNotSupported
  deriving DecidableEq, Repr

/-- A message that was parsed: its pointers are offsets. -/
abbrev Parsed := CoapMessage ℕ

/-- The parser at `current_option`, which is `pos`. -/
structure Parser where
  mem : List UInt8
  pos : ℕ
  optionNumber : ℕ
  msg : Parsed

/-- What the parser returns: its status, `coap_error_message` when it sets that, the message and the
bytes it points into. -/
structure ParseResult where
  status : ParseStatus
  errorMessage : Option String
  msg : Parsed
  mem : List UInt8

/-- A number in network order. -/
def coapParseIntOption (bytes : List UInt8) : UInt32 :=
  bytes.foldl (fun var b => var <<< 8 ||| b.toUInt32) 0

variable (mem : List UInt8)

/-- `length` bytes at `pos`. -/
def bytesAt (pos length : ℕ) : Option (List UInt8) :=
  (readN length (mem.drop pos)).map Prod.fst

/-- `coap_merge_multi_option`, for an option of `optionLen` bytes at `pos`: the string `dst` of
`dstLen` bytes after it, and the bytes. -/
def coapMergeMultiOption (dst : Option ℕ) (dstLen pos optionLen : ℕ) (separator : UInt8) :
    Option (List UInt8 × Option ℕ × ℕ) :=
  if 0 < dstLen then do
    let p ← dst
    let mem ← writeAt mem (p + dstLen) [separator]
    let option ← bytesAt mem pos optionLen
    let mem ← writeAt mem (p + (dstLen + 1)) option
    some (mem, some p, dstLen + 1 + optionLen)
  else some (mem, some pos, optionLen)

/-- The delta or the length of an option, from its nibble and the bytes at `pos`; and where they
end. -/
def parseNibble (nibble : UInt8) (pos : ℕ) : Option (ℕ × ℕ) :=
  if nibble = 13 then do
    let b ← mem[pos]?
    some (13 + b.toNat, pos + 1)
  else if nibble = 14 then do
    let hi ← mem[pos]?
    let lo ← mem[pos + 1]?
    some (14 + 255 + (hi.toNat <<< 8) + lo.toNat, pos + 2)
  else some (nibble.toNat, pos)

/-- The fields of a Block option: number, more, size and offset. -/
def parseBlock (value : UInt32) : UInt32 × UInt8 × UInt16 × UInt32 :=
  (value >>> 4, ((value &&& 0x08) >>> 3).toUInt8, 16 <<< (value &&& 0x07).toUInt16,
    (value &&& 0xfffffff0) <<< (value &&& 0x07))

/-- The `switch` over the option numbers, for an option whose value is the `length` bytes at `pos`.
`none` is a read outside of the memory, and `.error` the status that the parser returns with and its
error message. -/
def parseOption (s : Parser) (o : CoapOption) (length : ℕ) :
    Option (Except (ParseStatus × Option String) (Parsed × List UInt8)) := do
  let value ← bytesAt s.mem s.pos length
  let msg := s.msg
  match o with
  | .contentFormat =>
    some (.ok ({ msg with contentFormat := (coapParseIntOption value).toUInt16 }, s.mem))
  | .maxAge => some (.ok ({ msg with maxAge := coapParseIntOption value }, s.mem))
  | .etag =>
    let n := min coapEtagLen length
    some (.ok ({ msg with etagLen := UInt8.ofNat n, etag := overwrite msg.etag (value.take n) },
      s.mem))
  | .accept => some (.ok ({ msg with accept := (coapParseIntOption value).toUInt16 }, s.mem))
  | .ifMatch =>
    let n := min coapEtagLen length
    some (.ok ({ msg with
      ifMatchLen := UInt8.ofNat n, ifMatch := overwrite msg.ifMatch (value.take n) }, s.mem))
  | .ifNoneMatch => some (.ok ({ msg with ifNoneMatch := 1 }, s.mem))
  | .proxyUri | .proxyScheme =>
    some (.error (.proxyingNotSupported, some "This is a constrained server (Contiki)"))
  | .uriHost => some (.ok ({ msg with uriHost := some s.pos, uriHostLen := length }, s.mem))
  | .uriPort => some (.ok ({ msg with uriPort := (coapParseIntOption value).toUInt16 }, s.mem))
  | .uriPath => do
      let (mem, p, n) ← coapMergeMultiOption s.mem msg.uriPath msg.uriPathLen s.pos length slash
      some (.ok ({ msg with uriPath := p, uriPathLen := n }, mem))
  | .uriQuery => do
      let (mem, p, n) ←
        coapMergeMultiOption s.mem msg.uriQuery msg.uriQueryLen s.pos length ampersand
      some (.ok ({ msg with uriQuery := p, uriQueryLen := n }, mem))
  | .locationPath => do
      let (mem, p, n) ←
        coapMergeMultiOption s.mem msg.locationPath msg.locationPathLen s.pos length slash
      some (.ok ({ msg with locationPath := p, locationPathLen := n }, mem))
  | .locationQuery => do
      let (mem, p, n) ←
        coapMergeMultiOption s.mem msg.locationQuery msg.locationQueryLen s.pos length ampersand
      some (.ok ({ msg with locationQuery := p, locationQueryLen := n }, mem))
  | .observe => some (.ok ({ msg with observe := coapParseIntOption value }, s.mem))
  | .block2 =>
    let (num, more, size, offset) := parseBlock (coapParseIntOption value)
    some (.ok ({ msg with
      block2Num := num, block2More := more, block2Size := size, block2Offset := offset }, s.mem))
  | .block1 =>
    let (num, more, size, offset) := parseBlock (coapParseIntOption value)
    some (.ok ({ msg with
      block1Num := num, block1More := more, block1Size := size, block1Offset := offset }, s.mem))
  | .size2 => some (.ok ({ msg with size2 := coapParseIntOption value }, s.mem))
  | .size1 => some (.ok ({ msg with size1 := coapParseIntOption value }, s.mem))

/-- The payload marker is at `pos`. -/
def parsePayload (dataLen : ℕ) (s : Parser) : Option ParseResult := do
  let n := min (dataLen - (s.pos + 1)) coapMaxChunkSize
  let mem ← writeAt s.mem (s.pos + 1 + n) [0]
  some ⟨.noError, none, { s.msg with payload := some (s.pos + 1), payloadLen := UInt16.ofNat n },
    mem⟩

/-- One turn of the loop: the parser behind the option, or the result. -/
def parseStep (dataLen : ℕ) (s : Parser) : Option (Except ParseResult Parser) := do
  let d ← s.mem[s.pos]?
  if d &&& 0xf0 = 0xf0 then (parsePayload dataLen s).map .error
  else
    let (delta, pos) ← parseNibble s.mem (d >>> 4) (s.pos + 1)
    let (length, pos) ← parseNibble s.mem (d &&& 0x0f) pos
    if dataLen < pos + length then some (.error ⟨.badRequest, none, s.msg, s.mem⟩)
    else if 60 < s.optionNumber + delta then some (.error ⟨.badRequest, none, s.msg, s.mem⟩)
    else
      let optionNumber := s.optionNumber + delta
      let msg := { s.msg with options := coapSetOption s.msg.options optionNumber }
      let s : Parser := ⟨s.mem, pos, optionNumber, msg⟩
      match CoapOption.ofNumber optionNumber with
      | none =>
        -- an option with an odd number is critical
        if optionNumber % 2 = 1 then
          some (.error ⟨.badOption, some "Unsupported critical option", msg, s.mem⟩)
        else some (.ok { s with pos := pos + length })
      | some o =>
        match ← parseOption s o length with
        | .error (status, message) => some (.error ⟨status, message, msg, s.mem⟩)
        | .ok (msg, mem) => some (.ok ⟨mem, pos + length, optionNumber, msg⟩)

/-- The loop over the options.  Each turn moves on, so as many turns as there are bytes suffice. -/
def parseLoop (dataLen : ℕ) : ℕ → Parser → Option ParseResult
  | 0, s => some ⟨.noError, none, s.msg, s.mem⟩
  | fuel + 1, s =>
    if s.pos < dataLen then do
      match ← parseStep dataLen s with
      | .error r => some r
      | .ok s => parseLoop dataLen fuel s
    else some ⟨.noError, none, s.msg, s.mem⟩

/-- The type of two bits. -/
def CoapMessageType.ofBits (b : UInt8) : CoapMessageType :=
  if b = 0 then .con else if b = 1 then .non else if b = 2 then .ack else .rst

/-- `coap_parse_message` on a buffer of which `dataLen` bytes were received. -/
def coapParseMessage (dataLen : ℕ) : Option ParseResult :=
  match mem with
  | b0 :: b1 :: b2 :: b3 :: rest =>
    let msg : Parsed := { CoapMessage.zero ℕ with
      version := (0xc0 &&& b0) >>> 6
      type := .ofBits ((0x30 &&& b0) >>> 4)
      tokenLen := 0x0f &&& b0
      code := b1
      mid := b2.toUInt16 <<< 8 ||| b3.toUInt16 }
    if msg.version ≠ 1 then some ⟨.badRequest, some "CoAP version must be 1", msg, mem⟩
    else if msg.tokenLen > 8 then
      some ⟨.badRequest, some "Token Length must not be more than 8", msg, mem⟩
    else do
      let (token, _) ← readN msg.tokenLen.toNat rest
      let msg := { msg with token := overwrite msg.token token }
      parseLoop dataLen dataLen ⟨mem, 4 + msg.tokenLen.toNat, 0, msg⟩
  | _ => none

end Nespy.Coap
