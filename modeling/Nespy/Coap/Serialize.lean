import Nespy.Coap.Message

/-!
# Coap — `coap_serialize_message`

The bytes written into `buffer`, as a list.  Each of the macros `COAP_SERIALIZE_*` is a function on
what has been written and `current_number`.  `none` is a read behind the end of a string, which the
loop over the parts of a path makes when the path ends in a separator.
-/

namespace Nespy.Coap

/-- The room for the header and the options. -/
def coapMaxHeaderSize : ℕ := 4 + coapTokenLen + 3 + 1 + coapEtagLen + 4 + 4 + 30

/-- The longest message. -/
def coapMaxPacketSize : ℕ := coapMaxHeaderSize + coapMaxChunkSize

/-! ### Options -/

/-- `coap_log_2`; `fuel` turns shift any sixteen-bit value to zero. -/
def coapLog2Loop : ℕ → UInt16 → ℕ → ℕ
  | 0, _, result => result
  | fuel + 1, value, result =>
    if value >>> 1 ≠ 0 then coapLog2Loop fuel (value >>> 1) (result + 1) else result + 1

/-- `coap_log_2`. -/
def coapLog2 (value : UInt16) : ℕ := coapLog2Loop 16 value 0 - 1

/-- The four bits for a delta or a length. -/
def coapOptionNibble (value : ℕ) : UInt8 :=
  if value < 13 then UInt8.ofNat value else if value ≤ 0xff + 13 then 13 else 14

/-- The extension of a delta or of a length. -/
def optionExtension (value : ℕ) : List UInt8 :=
  if value > 268 then [UInt8.ofNat ((value - 269) >>> 8), UInt8.ofNat (value - 269)]
  else if value > 12 then [UInt8.ofNat (value - 13)]
  else []

/-- The header of an option, with its extensions. -/
def coapSetOptionHeader (delta length : ℕ) : List UInt8 :=
  (coapOptionNibble delta <<< 4 ||| coapOptionNibble length) ::
    (optionExtension delta ++ optionExtension length)

/-- The bytes of an integer, without leading zeroes. -/
def intBytes (value : UInt32) : List UInt8 :=
  (if 0xff000000 &&& value ≠ 0 then [(value >>> 24).toUInt8] else []) ++
    (if 0xffff0000 &&& value ≠ 0 then [(value >>> 16).toUInt8] else []) ++
    (if 0xffffff00 &&& value ≠ 0 then [(value >>> 8).toUInt8] else []) ++
    (if 0xffffffff &&& value ≠ 0 then [value.toUInt8] else [])

/-- An option with a number, without leading zero bytes. -/
def coapSerializeIntOption (number currentNumber : ℕ) (value : UInt32) : List UInt8 :=
  coapSetOptionHeader (number - currentNumber) (intBytes value).length ++ intBytes value

/-- `array[j] == split_char`, where `split_char` is a `char`, which has a sign. -/
def isSplit (ch splitChar : UInt8) : Prop := (ch.toNat : Int) = splitChar.toInt8.toInt

instance (ch splitChar : UInt8) : Decidable (isSplit ch splitChar) := Int.instDecidableEq _ _

/-- The loop of `coap_serialize_array_option` over an array that is split.  The character behind a
separator is not looked at, as `j` is incremented twice; `array` ends in a zero.  The options are
written in the order of their numbers, so `current_number` is not above `number`. -/
def splitLoop (number : ℕ) (array : List UInt8) (length : ℕ) (splitChar : UInt8) :
    ℕ → ℕ → ℕ → ℕ → Option (List UInt8)
  | 0, _, _, _ => some []
  | fuel + 1, j, partStart, currentNumber =>
    if j ≤ length + 1 then do
      let ch ← (array ++ [0])[j]?
      if isSplit ch splitChar ∨ j = length then
        let part := (array.drop partStart).take (j - partStart)
        let rest ← splitLoop number array length splitChar fuel (j + 2) (j + 1) number
        some (coapSetOptionHeader (number - currentNumber) (j - partStart) ++ part ++ rest)
      else splitLoop number array length splitChar fuel (j + 1) partStart currentNumber
    else some []

/-- An option, or one for each part of a string that is split. -/
def coapSerializeArrayOption (number currentNumber : ℕ) (array : List UInt8) (length : ℕ)
    (splitChar : UInt8) : Option (List UInt8) :=
  if splitChar ≠ 0 then splitLoop number array length splitChar (length + 2) 0 0 currentNumber
  else some (coapSetOptionHeader (number - currentNumber) length ++ array.take length)

/-! ### The message -/

/-- What has been written, and `current_number`. -/
structure Written where
  out : List UInt8
  currentNumber : ℕ

variable (m : Built)

/-- `COAP_SERIALIZE_INT_OPTION`. -/
def Written.int (o : CoapOption) (value : UInt32) (w : Written) : Written :=
  if m.has o then ⟨w.out ++ coapSerializeIntOption o.number w.currentNumber value, o.number⟩ else w

/-- `COAP_SERIALIZE_BYTE_OPTION`, and `COAP_SERIALIZE_STRING_OPTION` with its splitter. -/
def Written.array (m : Built) (o : CoapOption) (array : List UInt8) (length : ℕ)
    (splitChar : UInt8) (w : Written) : Option Written :=
  if m.has o then do
    let bytes ← coapSerializeArrayOption o.number w.currentNumber array length splitChar
    some ⟨w.out ++ bytes, o.number⟩
  else some w

/-- The value of a Block option. -/
def blockValue (num : UInt32) (more : UInt8) (size : UInt16) : UInt32 :=
  (num <<< 4 ||| if more ≠ 0 then 0x8 else 0) ||| (0xf &&& UInt32.ofNat (coapLog2 (size / 16)))

/-- The options, in the order of their numbers. -/
def serializeOptions (w : Written) : Option Written := do
  let w ← w.array m .ifMatch m.ifMatch m.ifMatchLen.toNat 0
  let w ← w.array m .uriHost (m.uriHost.getD []) m.uriHostLen 0
  let w ← w.array m .etag m.etag m.etagLen.toNat 0
  let w := w.int m .ifNoneMatch (m.contentFormat - m.contentFormat).toUInt32
  let w := w.int m .observe m.observe
  let w := w.int m .uriPort m.uriPort.toUInt32
  let w ← w.array m .locationPath (m.locationPath.getD []) m.locationPathLen slash
  let w ← w.array m .uriPath (m.uriPath.getD []) m.uriPathLen slash
  let w := w.int m .contentFormat m.contentFormat.toUInt32
  let w := w.int m .maxAge m.maxAge
  let w ← w.array m .uriQuery (m.uriQuery.getD []) m.uriQueryLen ampersand
  let w := w.int m .accept m.accept.toUInt32
  let w ← w.array m .locationQuery (m.locationQuery.getD []) m.locationQueryLen ampersand
  let w := w.int m .block2 (blockValue m.block2Num m.block2More m.block2Size)
  let w := w.int m .block1 (blockValue m.block1Num m.block1More m.block1Size)
  let w := w.int m .size2 m.size2
  let w ← w.array m .proxyUri (m.proxyUri.getD []) m.proxyUriLen 0
  let w ← w.array m .proxyScheme (m.proxyScheme.getD []) m.proxySchemeLen 0
  some (w.int m .size1 m.size1)

/-- The bits of a type. -/
def CoapMessageType.bits : CoapMessageType → UInt8
  | .con => 0
  | .non => 1
  | .ack => 2
  | .rst => 3

/-- The four bytes of the header. -/
def serializeHeader : List UInt8 :=
  [((0xc0 : UInt8) &&& (1 : UInt8) <<< 6) ||| ((0x30 : UInt8) &&& m.type.bits <<< 4) |||
      ((0x0f : UInt8) &&& m.tokenLen <<< 0), m.code,
    (m.mid >>> 8).toUInt8, m.mid.toUInt8]

/-- `coap_serialize_message`: the bytes of the message, or `coap_error_message` when it returns
0. -/
def coapSerializeMessage : Option (Except String (List UInt8)) :=
  if m.code = 0 then some (.ok (serializeHeader m))
  else do
    let w ← serializeOptions m ⟨serializeHeader m ++ m.token.take m.tokenLen.toNat, 0⟩
    if w.out.length ≤ coapMaxHeaderSize then
      some (.ok (w.out ++ (if m.payloadLen ≠ 0 then [0xff] else []) ++
        (m.payload.getD []).take m.payloadLen.toNat))
    else some (.error "Serialized header exceeds COAP_MAX_HEADER_SIZE")

end Nespy.Coap
