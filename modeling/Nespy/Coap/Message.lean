import Mathlib.Data.List.Basic

/-!
# Coap — messages

`coap_message_t` of `net/app-layer/coap/coap.h` with its setters and getters.  A pointer field is a
value of `P`, or `none` for `NULL`: in a message that is built a pointer is the C string it points
to, in one that was parsed it is an offset into the received bytes.  What a getter returns for an
option is `none` where the function returns 0 without touching its argument.
-/

namespace Nespy.Coap

/-- The longest token. -/
def coapTokenLen : ℕ := 8

/-- The longest entity tag. -/
def coapEtagLen : ℕ := 8

/-- The longest payload. -/
def coapMaxChunkSize : ℕ := 64

/-- What a message without Max-Age means, in seconds. -/
def coapDefaultMaxAge : UInt32 := 60

/-- `coap_message_type_t`. -/
inductive CoapMessageType where
  | con
  | non
  | ack
  | rst
  deriving DecidableEq, Repr

/-- `coap_option_t`. -/
inductive CoapOption where
  | ifMatch
  | uriHost
  | etag
  | ifNoneMatch
  | observe
  | uriPort
  | locationPath
  | uriPath
  | contentFormat
  | maxAge
  | uriQuery
  | accept
  | locationQuery
  | block2
  | block1
  | size2
  | proxyUri
  | proxyScheme
  | size1
  deriving DecidableEq, Repr

namespace CoapOption

/-- The number of an option. -/
def number : CoapOption → ℕ
  | ifMatch => 1
  | uriHost => 3
  | etag => 4
  | ifNoneMatch => 5
  | observe => 6
  | uriPort => 7
  | locationPath => 8
  | uriPath => 11
  | contentFormat => 12
  | maxAge => 14
  | uriQuery => 15
  | accept => 17
  | locationQuery => 20
  | block2 => 23
  | block1 => 27
  | size2 => 28
  | proxyUri => 35
  | proxyScheme => 39
  | size1 => 60

/-- The option of a number, as the `switch` of the parser finds it. -/
def ofNumber : ℕ → Option CoapOption
  | 1 => some ifMatch
  | 3 => some uriHost
  | 4 => some etag
  | 5 => some ifNoneMatch
  | 6 => some observe
  | 7 => some uriPort
  | 8 => some locationPath
  | 11 => some uriPath
  | 12 => some contentFormat
  | 14 => some maxAge
  | 15 => some uriQuery
  | 17 => some accept
  | 20 => some locationQuery
  | 23 => some block2
  | 27 => some block1
  | 28 => some size2
  | 35 => some proxyUri
  | 39 => some proxyScheme
  | 60 => some size1
  | _ => none

@[simp] theorem ofNumber_number (o : CoapOption) : ofNumber o.number = some o := by
  cases o <;> rfl

theorem eq_number {k : ℕ} {o : CoapOption} (h : ofNumber k = some o) : k = o.number := by
  unfold ofNumber at h
  split at h <;> cases h <;> rfl

theorem number_injective : Function.Injective number := by
  intro o o' h
  have := congrArg ofNumber h
  rw [ofNumber_number, ofNumber_number] at this
  exact Option.some.inj this

theorem number_le (o : CoapOption) : o.number ≤ size1.number := by
  cases o <;> decide

end CoapOption

/-! ### The bitmap of options -/

/-- `options`, the bitmap of the options that are set. -/
abbrev OptionMap := Fin 8 → UInt8

/-- Setting the bit of an option; numbers over 60 have none. -/
def coapSetOption (options : OptionMap) (opt : ℕ) : OptionMap :=
  if h : opt ≤ 60 then
    Function.update options ⟨opt / 8, by omega⟩
      (options ⟨opt / 8, by omega⟩ ||| 1 <<< UInt8.ofNat (opt % 8))
  else options

/-- Whether the bit of an option is set. -/
def coapIsOption (options : OptionMap) (opt : ℕ) : Bool :=
  if h : opt ≤ 60 then options ⟨opt / 8, by omega⟩ &&& 1 <<< UInt8.ofNat (opt % 8) != 0
  else false

/-! ### The message -/

/-- `coap_message_t`; `observe` holds the bits of an `int32_t`. -/
structure CoapMessage (P : Type) where
  version : UInt8
  type : CoapMessageType
  code : UInt8
  mid : UInt16
  tokenLen : UInt8
  token : List UInt8
  options : OptionMap
  contentFormat : UInt16
  maxAge : UInt32
  etagLen : UInt8
  etag : List UInt8
  proxyUriLen : ℕ
  proxyUri : Option P
  proxySchemeLen : ℕ
  proxyScheme : Option P
  uriHostLen : ℕ
  uriHost : Option P
  locationPathLen : ℕ
  locationPath : Option P
  uriPort : UInt16
  locationQueryLen : ℕ
  locationQuery : Option P
  uriPathLen : ℕ
  uriPath : Option P
  observe : UInt32
  accept : UInt16
  ifMatchLen : UInt8
  ifMatch : List UInt8
  block2Num : UInt32
  block2More : UInt8
  block2Size : UInt16
  block2Offset : UInt32
  block1Num : UInt32
  block1More : UInt8
  block1Size : UInt16
  block1Offset : UInt32
  size2 : UInt32
  size1 : UInt32
  uriQueryLen : ℕ
  uriQuery : Option P
  ifNoneMatch : UInt8
  payloadLen : UInt16
  payload : Option P

/-- `memset(coap_pkt, 0, sizeof(coap_message_t))`. -/
def CoapMessage.zero (P : Type) : CoapMessage P where
  version := 0
  type := .con
  code := 0
  mid := 0
  tokenLen := 0
  token := List.replicate coapTokenLen 0
  options := fun _ => 0
  contentFormat := 0
  maxAge := 0
  etagLen := 0
  etag := List.replicate coapEtagLen 0
  proxyUriLen := 0
  proxyUri := none
  proxySchemeLen := 0
  proxyScheme := none
  uriHostLen := 0
  uriHost := none
  locationPathLen := 0
  locationPath := none
  uriPort := 0
  locationQueryLen := 0
  locationQuery := none
  uriPathLen := 0
  uriPath := none
  observe := 0
  accept := 0
  ifMatchLen := 0
  ifMatch := List.replicate coapEtagLen 0
  block2Num := 0
  block2More := 0
  block2Size := 0
  block2Offset := 0
  block1Num := 0
  block1More := 0
  block1Size := 0
  block1Offset := 0
  size2 := 0
  size1 := 0
  uriQueryLen := 0
  uriQuery := none
  ifNoneMatch := 0
  payloadLen := 0
  payload := none

/-- `memcpy` over the front of an array. -/
def overwrite (old bs : List UInt8) : List UInt8 := bs ++ old.drop bs.length

namespace CoapMessage

variable {P : Type} (m : CoapMessage P)

/-- The option is set. -/
def has (o : CoapOption) : Bool := coapIsOption m.options o.number

/-- The message with the option's bit set. -/
def mark (o : CoapOption) : CoapMessage P := { m with options := coapSetOption m.options o.number }

/-! ### Getters -/

/-- The Content-Format option. -/
def coapGetHeaderContentFormat : Option UInt16 :=
  if m.has .contentFormat then some m.contentFormat else none

/-- The Accept option. -/
def coapGetHeaderAccept : Option UInt16 := if m.has .accept then some m.accept else none

/-- The Max-Age option, or its default. -/
def coapGetHeaderMaxAge : UInt32 := if m.has .maxAge then m.maxAge else coapDefaultMaxAge

/-- The ETag option. -/
def coapGetHeaderEtag : Option (List UInt8) :=
  if m.has .etag then some (m.etag.take m.etagLen.toNat) else none

/-- The If-Match option. -/
def coapGetHeaderIfMatch : Option (List UInt8) :=
  if m.has .ifMatch then some (m.ifMatch.take m.ifMatchLen.toNat) else none

/-- Whether there is an If-None-Match option. -/
def coapGetHeaderIfNoneMatch : Bool := m.has .ifNoneMatch

/-- The Uri-Host option, as a pointer and a length. -/
def coapGetHeaderUriHost : Option (Option P × ℕ) :=
  if m.has .uriHost then some (m.uriHost, m.uriHostLen) else none

/-- The Uri-Path options in one string. -/
def coapGetHeaderUriPath : Option (Option P × ℕ) :=
  if m.has .uriPath then some (m.uriPath, m.uriPathLen) else none

/-- The Uri-Query options in one string. -/
def coapGetHeaderUriQuery : Option (Option P × ℕ) :=
  if m.has .uriQuery then some (m.uriQuery, m.uriQueryLen) else none

/-- The Location-Path options in one string. -/
def coapGetHeaderLocationPath : Option (Option P × ℕ) :=
  if m.has .locationPath then some (m.locationPath, m.locationPathLen) else none

/-- The Location-Query options in one string. -/
def coapGetHeaderLocationQuery : Option (Option P × ℕ) :=
  if m.has .locationQuery then some (m.locationQuery, m.locationQueryLen) else none

/-- The Observe option. -/
def coapGetHeaderObserve : Option UInt32 := if m.has .observe then some m.observe else none

/-- `num`, `more`, `size` and `offset`. -/
def coapGetHeaderBlock2 : Option (UInt32 × UInt8 × UInt16 × UInt32) :=
  if m.has .block2 then some (m.block2Num, m.block2More, m.block2Size, m.block2Offset) else none

/-- The Block1 option: number, more, size and offset. -/
def coapGetHeaderBlock1 : Option (UInt32 × UInt8 × UInt16 × UInt32) :=
  if m.has .block1 then some (m.block1Num, m.block1More, m.block1Size, m.block1Offset) else none

/-- The Size2 option. -/
def coapGetHeaderSize2 : Option UInt32 := if m.has .size2 then some m.size2 else none

/-- The Size1 option. -/
def coapGetHeaderSize1 : Option UInt32 := if m.has .size1 then some m.size1 else none

/-- The Proxy-Uri option, as a pointer and a length. -/
def coapGetHeaderProxyUri : Option (Option P × ℕ) :=
  if m.has .proxyUri then some (m.proxyUri, m.proxyUriLen) else none

/-- The pointer and the length. -/
def coapGetPayload : Option P × UInt16 :=
  (m.payload, if m.payload.isSome then m.payloadLen else 0)

end CoapMessage

/-- `/`, between the segments of a path. -/
def slash : UInt8 := 47

/-- `?`, in front of a query. -/
def questionMark : UInt8 := 63

/-- `&`, between the variables of a query. -/
def ampersand : UInt8 := 38

/-- `=`, between a variable and its value. -/
def equalsSign : UInt8 := 61

/-- The bytes of a string, from its pointer and its length. -/
def text {P : Type} (deref : P → List UInt8) (x : Option P × ℕ) : List UInt8 :=
  (x.1.elim [] deref).take x.2

/-- `coap_get_variable`: the length of the variable's value, and where in `buffer` it starts. -/
def coapGetVariable (buffer name : List UInt8) : ℕ × Option ℕ :=
  let start? := (List.range (buffer.length - name.length)).find? fun start =>
    decide (start = 0 ∨ buffer[start - 1]? = some ampersand) &&
      buffer[start + name.length]? == some equalsSign &&
        (buffer.drop start).take name.length == name
  match start? with
  | some start =>
    let start := start + name.length + 1
    (((buffer.drop start).takeWhile (· != ampersand)).length, some start)
  | none => (0, none)

namespace CoapMessage

variable {P : Type} (m : CoapMessage P) (deref : P → List UInt8)

/-- A variable of the query. -/
def coapGetQueryVariable (name : List UInt8) : Option (ℕ × Option ℕ) :=
  if m.has .uriQuery then some (coapGetVariable (text deref (m.uriQuery, m.uriQueryLen)) name)
  else none

/-- A variable of the payload, as a form posts it. -/
def coapGetPostVariable (name : List UInt8) : Option (ℕ × Option ℕ) :=
  if m.payloadLen ≠ 0 then some (coapGetVariable (text deref (m.payload, m.payloadLen.toNat)) name)
  else none

end CoapMessage

/-! ### Setters -/

/-- A C string: its bytes, without the terminating zero. -/
structure CString where
  bytes : List UInt8
  noNul : 0 ∉ bytes

/-- A message that is built: its pointers lead to C strings. -/
abbrev Built := CoapMessage (List UInt8)

/-- A new message is zero but for these fields. -/
def coapInitMessage (type : CoapMessageType) (code : UInt8) (mid : UInt16) : Built :=
  { CoapMessage.zero (List UInt8) with type := type, code := code, mid := mid }

namespace CoapMessage

variable (m : Built)

/-- A token that is too long is cut. -/
def coapSetToken (token : List UInt8) : Built :=
  let n := min coapTokenLen token.length
  { m with tokenLen := UInt8.ofNat n, token := overwrite m.token (token.take n) }

/-- Setting the Content-Format option. -/
def coapSetHeaderContentFormat (format : UInt32) : Built :=
  { m with contentFormat := format.toUInt16 }.mark .contentFormat

/-- Setting the Accept option. -/
def coapSetHeaderAccept (accept : UInt32) : Built :=
  { m with accept := accept.toUInt16 }.mark .accept

/-- Setting the Max-Age option. -/
def coapSetHeaderMaxAge (age : UInt32) : Built := { m with maxAge := age }.mark .maxAge

/-- An entity tag that is too long is cut. -/
def coapSetHeaderEtag (etag : List UInt8) : Built :=
  let n := min coapEtagLen etag.length
  { m with etagLen := UInt8.ofNat n, etag := overwrite m.etag (etag.take n) }.mark .etag

/-- An entity tag that is too long is cut here too. -/
def coapSetHeaderIfMatch (etag : List UInt8) : Built :=
  let n := min coapEtagLen etag.length
  { m with ifMatchLen := UInt8.ofNat n, ifMatch := overwrite m.ifMatch (etag.take n) }.mark .ifMatch

/-- Setting the If-None-Match option, which has no value. -/
def coapSetHeaderIfNoneMatch : Built := m.mark .ifNoneMatch

/-- Setting the Uri-Host option. -/
def coapSetHeaderUriHost (host : List UInt8) : Built :=
  { m with uriHost := some host, uriHostLen := host.length }.mark .uriHost

/-- The path is kept without the slashes in front. -/
def coapSetHeaderUriPath (path : List UInt8) : Built :=
  let path := path.dropWhile (· == slash)
  { m with uriPath := some path, uriPathLen := path.length }.mark .uriPath

/-- The query is kept without the question marks in front. -/
def coapSetHeaderUriQuery (query : List UInt8) : Built :=
  let query := query.dropWhile (· == questionMark)
  { m with uriQuery := some query, uriQueryLen := query.length }.mark .uriQuery

/-- The query is kept without the question marks in front. -/
def coapSetHeaderLocationQuery (query : List UInt8) : Built :=
  let query := query.dropWhile (· == questionMark)
  { m with locationQuery := some query, locationQueryLen := query.length }.mark .locationQuery

/-- A query in `path` becomes the Location-Query. -/
def coapSetHeaderLocationPath (path : List UInt8) : Built :=
  let path := path.dropWhile (· == slash)
  let len := (path.takeWhile (· != questionMark)).length
  let m := if questionMark ∈ path then m.coapSetHeaderLocationQuery (path.drop (len + 1)) else m
  let m := { m with locationPathLen := len, locationPath := some path }
  if 0 < len then m.mark .locationPath else m

/-- Setting the Observe option. -/
def coapSetHeaderObserve (observe : UInt32) : Built := { m with observe := observe }.mark .observe

/-- A Block2 option that cannot be sent is refused. -/
def coapSetHeaderBlock2 (num : UInt32) (more : UInt8) (size : UInt16) : Built :=
  if size < 16 ∨ size > 2048 ∨ num > 0x0fffff then m
  else { m with block2Num := num, block2More := if more ≠ 0 then 1 else 0
                block2Size := size }.mark .block2

/-- Unlike `coap_set_header_block2`, this keeps `more` as it is given. -/
def coapSetHeaderBlock1 (num : UInt32) (more : UInt8) (size : UInt16) : Built :=
  if size < 16 ∨ size > 2048 ∨ num > 0x0fffff then m
  else { m with block1Num := num, block1More := more, block1Size := size }.mark .block1

/-- Setting the Size2 option. -/
def coapSetHeaderSize2 (size : UInt32) : Built := { m with size2 := size }.mark .size2

/-- Setting the Size1 option. -/
def coapSetHeaderSize1 (size : UInt32) : Built := { m with size1 := size }.mark .size1

/-- A payload that is too long is cut. -/
def coapSetPayload (payload : List UInt8) : Built :=
  { m with payload := some payload
           payloadLen := UInt16.ofNat (min coapMaxChunkSize payload.length) }

end CoapMessage

end Nespy.Coap
