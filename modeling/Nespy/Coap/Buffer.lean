import Nespy.Coap.Setters

/-!
# Coap — `coap_serialize_message` in the transaction's buffer

The serializer once more, now with the memory it writes to: `option` runs over the buffer, and a
store outside of it is `none`.  The payload is moved last and may itself lie in the buffer, which is
where `coap_receive` has the handlers of resources put it.

`serializeInto_eq` connects the two levels: what is left in the buffer is the header of the list
level over the buffer's old bytes, and the payload is packed behind it.  The size of the header is
compared with `COAP_MAX_HEADER_SIZE` only when all of it was stored, so the buffer is kept exactly
by the messages whose header fits into all of it (`serialize_inside_iff`).  The marker of the
payload is stored before the payload is moved, so a header of exactly `COAP_MAX_HEADER_SIZE` bytes
costs a payload in the buffer its first byte (`payload_survives_iff`).
-/

open List Option

namespace Nespy.Coap

open Nespy.Lib

/-! ### The program -/

/-- The size of `message` in `coap_transaction_t`. -/
def transactionSize : ℕ := coapMaxPacketSize + 1

/-- The buffer, `option` as an offset into it, and `current_number`. -/
structure Cursor where
  buffer : List UInt8
  option : ℕ
  currentNumber : ℕ

namespace Cursor

/-- Bytes are written behind the others. -/
def store (c : Cursor) (bytes : List UInt8) : Option Cursor :=
  (writeAt c.buffer c.option bytes).map fun buffer =>
    ⟨buffer, c.option + bytes.length, c.currentNumber⟩

/-- The bytes of an option. -/
def storeOption (c : Cursor) (o : CoapOption) (bytes : List UInt8) : Option Cursor :=
  (c.store bytes).map fun c => { c with currentNumber := o.number }

/-- `COAP_SERIALIZE_INT_OPTION`. -/
def int (m : Built) (o : CoapOption) (value : UInt32) (c : Cursor) : Option Cursor :=
  if m.has o then c.storeOption o (coapSerializeIntOption o.number c.currentNumber value)
    else some c

/-- `COAP_SERIALIZE_BYTE_OPTION`, and `COAP_SERIALIZE_STRING_OPTION` with its splitter. -/
def array (m : Built) (o : CoapOption) (array : List UInt8) (length : ℕ) (splitChar : UInt8)
    (c : Cursor) : Option Cursor :=
  if m.has o then do
    let bytes ← coapSerializeArrayOption o.number c.currentNumber array length splitChar
    c.storeOption o bytes
  else some c

/-- One of the lines of the serializer. -/
def writeOption (m : Built) (c : Cursor) (o : CoapOption) : Option Cursor :=
  match m.source o with
  | .int value => c.int m o value
  | .array arr length splitChar => c.array m o arr length splitChar

end Cursor

/-- Where the payload lies: at an offset of the buffer, or in memory of its own. -/
inductive PayloadAt where
  | buffer (offset : ℕ)
  | elsewhere

section

variable (m : Built)

/-- The bytes from the payload's pointer on. -/
def PayloadAt.bytes (buffer : List UInt8) : PayloadAt → List UInt8
  | .buffer offset => buffer.drop offset
  | .elsewhere => m.payload.getD []

/-- The marker, the `memmove`, and the length of the message. -/
def packPayload (payload : PayloadAt) (c : Cursor) : Option (ℕ × List UInt8) :=
  if c.option ≤ coapMaxHeaderSize then do
    let c ← c.store (if m.payloadLen ≠ 0 then [0xff] else [])
    let (bytes, _) ← readN m.payloadLen.toNat (payload.bytes m c.buffer)
    let c ← c.store bytes
    some (c.option, c.buffer)
  else some (0, c.buffer)

/-- `coap_serialize_message`: the number it returns, and the buffer. -/
def serializeInto (payload : PayloadAt) (buffer : List UInt8) : Option (ℕ × List UInt8) :=
  do
  let c ← Cursor.store ⟨buffer, 0, 0⟩ (serializeHeader m)
  if m.code = 0 then some (4, c.buffer)
  else
    let c ← c.store (m.token.take m.tokenLen.toNat)
    let c ← allOptions.foldlM (Cursor.writeOption m) c
    packPayload m payload c

/-! ### The messages -/

/-- Setting the Proxy-Uri option. -/
def CoapMessage.coapSetHeaderProxyUri (uri : List UInt8) : Built :=
  { m with proxyUri := some uri, proxyUriLen := uri.length }.mark .proxyUri

/-- A code that is no byte is refused. -/
def CoapMessage.coapSetStatusCode (code : UInt32) : Built :=
  if code ≤ 0xff then { m with code := code.toUInt8 } else m

/-- All setters of a message. -/
inductive AnySetter where
  | setter (s : Setter)
  | proxyUri (uri : CString)
  | statusCode (code : UInt32)

/-- What a setter does. -/
def AnySetter.apply (m : Built) : AnySetter → Built
  | setter s => s.apply m
  | proxyUri uri => m.coapSetHeaderProxyUri uri.bytes
  | statusCode code => m.coapSetStatusCode code

/-- A message as it is built with any of the setters. -/
def buildAny (type : CoapMessageType) (code : UInt8) (mid : UInt16) (setters : List AnySetter) :
    Built :=
  setters.foldl AnySetter.apply (coapInitMessage type code mid)

/-- The lengths of a message are lengths of what they are stored with. -/
structure Measured : Prop where
  token : m.tokenLen.toNat ≤ m.token.length
  etag : m.etagLen.toNat ≤ m.etag.length
  ifMatch : m.ifMatchLen.toNat ≤ m.ifMatch.length
  uriHost : m.uriHostLen ≤ (m.uriHost.getD []).length
  uriPath : m.uriPathLen ≤ (m.uriPath.getD []).length
  uriQuery : m.uriQueryLen ≤ (m.uriQuery.getD []).length
  locationPath : m.locationPathLen ≤ (m.locationPath.getD []).length
  locationQuery : m.locationQueryLen ≤ (m.locationQuery.getD []).length
  proxyUri : m.proxyUriLen ≤ (m.proxyUri.getD []).length
  proxyScheme : m.proxySchemeLen ≤ (m.proxyScheme.getD []).length
  payload : m.payloadLen.toNat ≤ (m.payload.getD []).length
  payloadMax : m.payloadLen.toNat ≤ coapMaxChunkSize

end

variable (type : CoapMessageType) (code : UInt8) (mid : UInt16) (setters : List AnySetter)
  {m : Built} {buffer bytes out marked : List UInt8}

namespace Measured

section

variable (h : Measured m)

include h

theorem setLocationQuery (query : List UInt8) : Measured (m.coapSetHeaderLocationQuery query) :=
  { h with locationQuery := le_rfl }

theorem setLocationPath (path : List UInt8) : Measured (m.coapSetHeaderLocationPath path) := by
  unfold CoapMessage.coapSetHeaderLocationPath
  dsimp only
  generalize path.dropWhile (· == slash) = path
  have hpre : (path.takeWhile (· != questionMark)).length ≤ path.length :=
    (List.takeWhile_prefix _).length_le
  generalize (path.takeWhile (· != questionMark)).length = len at hpre ⊢
  have hm : Measured (if questionMark ∈ path then
      m.coapSetHeaderLocationQuery (path.drop (len + 1)) else m) := by
    split_ifs
    · exact h.setLocationQuery _
    · exact h
  generalize (if questionMark ∈ path then
      m.coapSetHeaderLocationQuery (path.drop (len + 1)) else m) = m' at hm ⊢
  split_ifs <;> exact { hm with locationPath := hpre }

theorem setPayload (p : List UInt8) : Measured (m.coapSetPayload p) := by
  have hlen : (UInt16.ofNat (min coapMaxChunkSize p.length)).toNat =
      min coapMaxChunkSize p.length := by
    rw [UInt16.toNat_ofNat', coapMaxChunkSize]
    omega
  exact { h with
    payload := hlen.trans_le (Nat.min_le_right _ _)
    payloadMax := hlen.trans_le (Nat.min_le_left _ _) }

/-- A setter keeps the lengths. -/
theorem setter (s : Setter) : Measured (s.apply m) := by
  cases s with
  | token t => exact { h with token := (overwrite_bounds m.token t).2 }
  | etag e => exact { h with etag := (overwrite_bounds m.etag e).2 }
  | ifMatch e => exact { h with ifMatch := (overwrite_bounds m.ifMatch e).2 }
  | uriHost host => exact { h with uriHost := le_rfl }
  | uriPath path => exact { h with uriPath := le_rfl }
  | uriQuery query => exact { h with uriQuery := le_rfl }
  | locationPath path => exact h.setLocationPath path.bytes
  | locationQuery query => exact h.setLocationQuery query.bytes
  | payload p => exact h.setPayload p
  | block2 num more size =>
    simp only [Setter.apply, CoapMessage.coapSetHeaderBlock2]
    split_ifs <;> exact { h with }
  | block1 num more size =>
    simp only [Setter.apply, CoapMessage.coapSetHeaderBlock1]
    split_ifs <;> exact { h with }
  | contentFormat | accept | maxAge | ifNoneMatch | observe | size2 | size1 => exact { h with }

theorem apply (s : AnySetter) : Measured (s.apply m) := by
  cases s with
  | setter s => exact h.setter s
  | proxyUri uri => exact { h with proxyUri := le_rfl }
  | statusCode code =>
    simp only [AnySetter.apply, CoapMessage.coapSetStatusCode]
    split_ifs <;> exact { h with }

end

theorem buildAny :
    Measured (buildAny type code mid setters) := by
  have hinit : Measured (coapInitMessage type code mid) := by
    constructor <;> exact Nat.zero_le _
  exact setters.foldlRecOn AnySetter.apply hinit fun m hm s _ => hm.apply s

theorem fits (h : Measured m) (o : CoapOption) : (m.source o).Fits := by
  cases o with
  | ifMatch => exact h.ifMatch
  | uriHost => exact h.uriHost
  | etag => exact h.etag
  | locationPath => exact h.locationPath
  | uriPath => exact h.uriPath
  | uriQuery => exact h.uriQuery
  | locationQuery => exact h.locationQuery
  | proxyUri => exact h.proxyUri
  | proxyScheme => exact h.proxyScheme
  | _ => trivial

end Measured

/-! ### Strings in memory -/

namespace CoapMessage

variable (m : Built) (beyond : CoapOption → UInt8)

/-- The message with its strings as they lie in memory: each with its terminating zero, and with the
byte behind it, which the loop over the parts of a string may read. -/
def inMemory : Built :=
  let terminated (o : CoapOption) (s : List UInt8) := s ++ [0, beyond o]
  { m with
    uriHost := m.uriHost.map (terminated .uriHost)
    uriPath := m.uriPath.map (terminated .uriPath)
    uriQuery := m.uriQuery.map (terminated .uriQuery)
    locationPath := m.locationPath.map (terminated .locationPath)
    locationQuery := m.locationQuery.map (terminated .locationQuery)
    proxyUri := m.proxyUri.map (terminated .proxyUri)
    proxyScheme := m.proxyScheme.map (terminated .proxyScheme) }

/-- The options that are written. -/
def writtenOptions : List RawOption := allOptions.flatMap fun o => ((m.parts o).getD []).map (o, ·)

/-- The bytes in front of the payload. -/
def writtenHeader : List UInt8 :=
  if m.code = 0 then serializeHeader m
  else serializeHeader m ++ (m.token.take m.tokenLen.toNat ++ encode 0 m.writtenOptions)

/-- The size of the header. -/
def headerSize : ℕ :=
  if m.code = 0 then 4 else 4 + m.tokenLen.toNat + (encode 0 m.writtenOptions).length

end CoapMessage

/-- A string that is in memory with its terminating zero and another byte, or `NULL`. -/
theorem terminated_getD {s : Option (List UInt8)} {length : ℕ} (h : length ≤ (s.getD []).length)
    (b : UInt8) :
    length ≤ ((s.map (· ++ [0, b])).getD []).length ∧
      (((s.map (· ++ [0, b])).getD []).take length = [] ∨
        ((s.map (· ++ [0, b])).getD []).drop length ≠ []) := by
  cases s with
  | none => exact ⟨h, .inl (take_nil)⟩
  | some s =>
    have hlen : length ≤ s.length := h
    simp only [map_some, getD_some, length_append]
    refine ⟨by omega, .inr fun hnil => ?_⟩
    have := congrArg List.length hnil
    simp only [length_drop, length_append, length_cons] at this
    omega

/-- A message whose bytes are all there, also those the loop over the parts of a string reads. -/
structure Placed (m : Built) : Prop extends Measured m where
  readable : ∀ o, (m.parts o).isSome

theorem Measured.inMemory (h : Measured m) (beyond : CoapOption → UInt8) :
    Placed (m.inMemory beyond) where
  toMeasured := { h with
    uriHost := (terminated_getD h.uriHost _).1
    uriPath := (terminated_getD h.uriPath _).1
    uriQuery := (terminated_getD h.uriQuery _).1
    locationPath := (terminated_getD h.locationPath _).1
    locationQuery := (terminated_getD h.locationQuery _).1
    proxyUri := (terminated_getD h.proxyUri _).1
    proxyScheme := (terminated_getD h.proxyScheme _).1 }
  readable o := by
    unfold CoapMessage.parts
    split_ifs
    · cases o with
      | locationPath => exact cutParts_isSome (terminated_getD h.locationPath _).2
      | uriPath => exact cutParts_isSome (terminated_getD h.uriPath _).2
      | uriQuery => exact cutParts_isSome (terminated_getD h.uriQuery _).2
      | locationQuery => exact cutParts_isSome (terminated_getD h.locationQuery _).2
      | _ => rfl
    · rfl

namespace Placed

variable (h : Placed m)

include h

/-- The options are all written. -/
theorem serializeOptions_eq_some (hcode : m.code ≠ 0) :
    serializeOptions m ⟨serializeHeader m ++ m.token.take m.tokenLen.toNat, 0⟩ =
      some ⟨m.writtenHeader, lastNumber 0 m.writtenOptions⟩ := by
  have hparts : ∀ o, m.parts o = some ((m.parts o).getD []) := by
    intro o
    obtain ⟨vs, hvs⟩ := isSome_iff_exists.mp (h.readable o)
    rw [hvs, getD_some]
  rw [serializeOptions_parts h.fits hparts, CoapMessage.writtenHeader, if_neg hcode]
  rfl

theorem length_writtenHeader : m.writtenHeader.length = m.headerSize := by
  have hhead : (serializeHeader m).length = 4 := rfl
  unfold CoapMessage.writtenHeader CoapMessage.headerSize
  split_ifs
  · exact hhead
  · simp only [length_append, length_take, hhead, Nat.min_eq_left h.token, Nat.add_assoc]

end Placed

/-! ### The two levels -/

/-- What was written on the level of lists, over the buffer's old bytes. -/
def Written.into (buffer : List UInt8) (w : Written) : Option Cursor :=
  if w.out.length ≤ buffer.length then some ⟨overwrite buffer w.out, w.out.length, w.currentNumber⟩
  else none

section Levels

/-- Storing bytes in the buffer is appending them to what was written. -/
theorem store_into (buffer : List UInt8) (w : Written) (bytes : List UInt8) :
    (w.into buffer).bind (·.store bytes) =
      Written.into buffer ⟨w.out ++ bytes, w.currentNumber⟩ := by
  unfold Written.into
  by_cases hfits : w.out.length ≤ buffer.length
  · rw [if_pos hfits, bind_some, Cursor.store]
    dsimp only
    by_cases hroom : (w.out ++ bytes).length ≤ buffer.length
    · have hlen : w.out.length + bytes.length ≤ buffer.length := length_append ▸ hroom
      have hdrop : bytes.length ≤ (buffer.drop w.out.length).length := by
        rw [length_drop]
        omega
      rw [if_pos hroom, overwrite, writeAt_room rfl hdrop, drop_drop, map_some, overwrite,
        length_append, append_assoc]
    · rw [if_neg hroom, writeAt, if_neg, map_none]
      rw [overwrite, length_append, length_drop]
      rw [length_append] at hroom
      omega
  · have hroom : ¬ (w.out ++ bytes).length ≤ buffer.length := by
      rw [length_append]
      omega
    rw [if_neg hfits, if_neg hroom, bind_none]

theorem storeOption_into (buffer : List UInt8) (w : Written) (o : CoapOption) (bytes : List UInt8) :
    (w.into buffer).bind (·.storeOption o bytes) =
      Written.into buffer ⟨w.out ++ bytes, o.number⟩ := by
  have hstore := congrArg (Option.map fun c : Cursor => { c with currentNumber := o.number })
    (store_into buffer w bytes)
  rw [Option.map_bind] at hstore
  refine Eq.trans hstore ?_
  unfold Written.into
  split_ifs <;> rfl

variable {w w' : Written}

/-- One line of the serializer. -/
theorem writeOption_into {o : CoapOption} (h : writeOption m w o = some w') :
    (w.into buffer).bind (Cursor.writeOption m · o) = w'.into buffer := by
  have hnumber : ∀ c, w.into buffer = some c → c.currentNumber = w.currentNumber := by
    intro c hc
    unfold Written.into at hc
    split_ifs at hc
    cases hc
    rfl
  have hcongr : ∀ {f g : Cursor → Option Cursor},
    (∀ c, c.currentNumber = w.currentNumber → f c = g c) →
      (w.into buffer).bind f = (w.into buffer).bind g := by
    intro f g hfg
    cases hc : w.into buffer with
    | none => rfl
    | some c => exact hfg c (hnumber c hc)
  unfold writeOption at h
  unfold Cursor.writeOption
  by_cases hhas : m.has o
  · cases hsource : m.source o with
    | int value =>
      rw [hsource] at h
      simp only [Written.int, if_pos hhas, some.injEq] at h
      simp only [Cursor.int, if_pos hhas]
      rw [← h, ← storeOption_into]
      exact hcongr fun c hc => by rw [hc]
    | array arr length splitChar =>
      rw [hsource] at h
      simp only [Written.array, if_pos hhas] at h
      simp only [Cursor.array, if_pos hhas]
      obtain ⟨bytes, hbytes, hw⟩ := bind_eq_some_iff.mp h
      cases hw
      rw [← storeOption_into]
      refine hcongr fun c hc => ?_
      rw [hc, hbytes]
      rfl
  · have hsame : w' = w := by
      cases hsource : m.source o <;> rw [hsource] at h <;>
        simp only [Written.int, Written.array, if_neg hhas, some.injEq] at h <;> exact h.symm
    rw [hsame]
    refine (hcongr fun c _ => ?_).trans (bind_fun_some _)
    cases m.source o <;> simp only [Cursor.int, Cursor.array, if_neg hhas]

/-- All of them. -/
theorem writeOptions_into {os : List CoapOption} (h : os.foldlM (writeOption m) w = some w') :
    (w.into buffer).bind (os.foldlM (Cursor.writeOption m)) = w'.into buffer := by
  induction os generalizing w with
  | nil =>
    cases h
    exact bind_fun_some _
  | cons o os ih =>
    obtain ⟨w₁, hw₁, hrest⟩ := bind_eq_some_iff.mp h
    rw [← ih hrest, ← writeOption_into hw₁, bind_assoc]
    rfl

/-- A store behind what was written, with room for it. -/
theorem store_overwrite (h : (out ++ bytes).length ≤ buffer.length) (n : ℕ) :
    Cursor.store ⟨overwrite buffer out, out.length, n⟩ bytes =
      some ⟨overwrite buffer (out ++ bytes), (out ++ bytes).length, n⟩ := by
  have hout : out.length ≤ buffer.length := by
    rw [length_append] at h
    omega
  have hstore := store_into buffer ⟨out, n⟩ bytes
  rwa [Written.into, if_pos hout, Written.into, if_pos h] at hstore

/-- An empty message is its four bytes. -/
theorem serializeInto_empty (payload : PayloadAt) (hroom : 4 ≤ buffer.length) (hcode : m.code = 0) :
    serializeInto m payload buffer = some (4, overwrite buffer (serializeHeader m)) := by
  have hfits : ([] ++ serializeHeader m).length ≤ buffer.length := hroom
  have hstore := store_overwrite hfits 0
  change Cursor.store ⟨buffer, 0, 0⟩ (serializeHeader m) = _ at hstore
  rw [serializeInto, hstore]
  exact if_pos hcode

/-- **The header is stored over the buffer's old bytes, and the payload is packed behind it.** -/
theorem serializeInto_eq (hcode : m.code ≠ 0)
    (h : serializeOptions m ⟨serializeHeader m ++ m.token.take m.tokenLen.toNat, 0⟩ = some w)
    (payload : PayloadAt) :
    serializeInto m payload buffer = (w.into buffer).bind (packPayload m payload) := by
  have hstart : (some ⟨buffer, 0, 0⟩ : Option Cursor) = Written.into buffer ⟨[], 0⟩ := by
    rfl
  have hhead := store_into buffer ⟨[], 0⟩ (serializeHeader m)
  have htoken := store_into buffer ⟨serializeHeader m, 0⟩ (m.token.take m.tokenLen.toNat)
  rw [serializeOptions_eq_foldlM] at h
  rw [← writeOptions_into h, ← htoken, ← nil_append (serializeHeader m), ← hhead, ← hstart]
  simp only [serializeInto, if_neg hcode, bind_eq_bind, bind_some, bind_assoc]

/-- A header within the bound is followed by the marker and by the payload. -/
theorem packPayload_eq {payload : PayloadAt} {n : ℕ} (hout : out.length ≤ coapMaxHeaderSize)
    (hmarked : marked = out ++ if m.payloadLen ≠ 0 then [0xff] else []) {behind : List UInt8}
    (hread : readN m.payloadLen.toNat (payload.bytes m (overwrite buffer marked)) =
      some (bytes, behind))
    (hroom : (marked ++ bytes).length ≤ buffer.length) :
    packPayload m payload ⟨overwrite buffer out, out.length, n⟩ =
      some ((marked ++ bytes).length, overwrite buffer (marked ++ bytes)) := by
  have hmark : (out ++ if m.payloadLen ≠ 0 then [0xff] else []).length ≤ buffer.length := by
    rw [← hmarked]
    rw [length_append] at hroom
    omega
  rw [packPayload, if_pos hout, store_overwrite hmark, ← hmarked]
  dsimp only [bind_eq_bind, bind_some]
  rw [hread]
  dsimp only [bind_some]
  rw [store_overwrite hroom]
  rfl

/-- **The buffer holds what the serializer gives on the level of lists.** -/
theorem serializeInto_ok (h : coapSerializeMessage m = some (.ok bytes))
    (hpayload : m.payloadLen.toNat ≤ (m.payload.getD []).length)
    (hroom : bytes.length ≤ buffer.length) :
    serializeInto m .elsewhere buffer = some (bytes.length, overwrite buffer bytes) := by
  unfold coapSerializeMessage at h
  by_cases hcode : m.code = 0
  · rw [if_pos hcode] at h
    cases h
    exact serializeInto_empty .elsewhere hroom hcode
  · rw [if_neg hcode] at h
    obtain ⟨w, hw, hpack⟩ := bind_eq_some_iff.mp h
    by_cases hout : w.out.length ≤ coapMaxHeaderSize
    · rw [if_pos hout] at hpack
      cases hpack
      have hfits : w.out.length ≤ buffer.length := by
        rw [append_assoc, length_append] at hroom
        omega
      rw [serializeInto_eq hcode hw, Written.into, if_pos hfits]
      exact packPayload_eq hout rfl (if_pos hpayload) hroom
    · rw [if_neg hout] at hpack
      cases hpack

end Levels

/-! ### The bounds of the buffer -/

section Bounds

/-- The payload can be read: it is inside the buffer if it is in it. -/
def PayloadAt.Inside (m : Built) : PayloadAt → Prop
  | .buffer offset => offset + m.payloadLen.toNat ≤ transactionSize
  | .elsewhere => True

theorem length_overwrite (h : out.length ≤ buffer.length) :
    (overwrite buffer out).length = buffer.length := by
  rw [overwrite, length_append, length_drop]
  omega

variable {payload : PayloadAt}

/-- A payload that is there is read. -/
theorem PayloadAt.Inside.read (h : payload.Inside m) (hm : Measured m)
    (hbuffer : buffer.length = transactionSize) :
    readN m.payloadLen.toNat (payload.bytes m buffer) =
      some ((payload.bytes m buffer).take m.payloadLen.toNat,
        (payload.bytes m buffer).drop m.payloadLen.toNat) := by
  refine if_pos ?_
  cases payload with
  | buffer offset =>
    have hle : offset + m.payloadLen.toNat ≤ transactionSize := h
    rw [PayloadAt.bytes, length_drop]
    omega
  | elsewhere => exact hm.payload

/-- The result for a header within the bound. -/
theorem serializeInto_packed (h : Placed m) (hpayload : payload.Inside m)
    (hbuffer : buffer.length = transactionSize) (hcode : m.code ≠ 0)
    (hsize : m.headerSize ≤ coapMaxHeaderSize)
    (hmarked : marked = m.writtenHeader ++ if m.payloadLen ≠ 0 then [0xff] else []) :
    serializeInto m payload buffer =
      some (marked.length + m.payloadLen.toNat, overwrite buffer
        (marked ++ (payload.bytes m (overwrite buffer marked)).take m.payloadLen.toNat)) := by
  have hout : m.writtenHeader.length ≤ coapMaxHeaderSize := h.length_writtenHeader.trans_le hsize
  have hmax := h.payloadMax
  have hmarkedLen : marked.length ≤ coapMaxHeaderSize + 1 := by
    rw [hmarked, length_append]
    split_ifs
    · exact Nat.add_le_add hout le_rfl
    · exact Nat.add_le_add hout (Nat.zero_le 1)
  have hover : (overwrite buffer marked).length = transactionSize := by
    rw [length_overwrite, hbuffer]
    exact hmarkedLen.trans (hbuffer ▸ (by decide))
  have hread := hpayload.read h.toMeasured hover
  have htake := (readN_eq_some.mp hread).2
  have hroom : (marked ++ (payload.bytes m (overwrite buffer marked)).take
      m.payloadLen.toNat).length ≤ buffer.length := by
    rw [length_append, hbuffer, transactionSize, coapMaxPacketSize]
    omega
  have hfits : m.writtenHeader.length ≤ buffer.length := hout.trans (hbuffer ▸ (by decide))
  rw [serializeInto_eq hcode (h.serializeOptions_eq_some hcode), Written.into, if_pos hfits,
    bind_some, packPayload_eq hout hmarked hread hroom, length_append, htake]

/-- The result for a larger header. -/
theorem serializeInto_large (h : Placed m) (payload : PayloadAt) (hcode : m.code ≠ 0)
    (hsize : coapMaxHeaderSize < m.headerSize) :
    serializeInto m payload buffer =
      if m.headerSize ≤ buffer.length then some (0, overwrite buffer m.writtenHeader)
        else none := by
  have hlen := h.length_writtenHeader
  rw [serializeInto_eq hcode (h.serializeOptions_eq_some hcode), Written.into, hlen]
  split_ifs
  · exact if_neg (not_le.mpr hsize)
  · rfl

end Bounds

/-- **The serializer stays inside the transaction's buffer, and returns 0 exactly for a header above
`COAP_MAX_HEADER_SIZE`, if the header is not larger than the whole buffer.**  The size is only
tested when the last option has been stored. -/
theorem serialize_inside_iff
    (beyond : CoapOption → UInt8) {m : Built}
    (hm : m = (buildAny type code mid setters).inMemory beyond) (payload : PayloadAt)
    (hpayload : payload.Inside m) {buffer : List UInt8}
    (hbuffer : buffer.length = transactionSize) :
    (∃ n buffer', serializeInto m payload buffer = some (n, buffer') ∧
        (n = 0 ↔ coapMaxHeaderSize < m.headerSize)) ↔
      m.headerSize ≤ transactionSize := by
  have h : Placed m := hm ▸ (Measured.buildAny type code mid setters).inMemory beyond
  by_cases hcode : m.code = 0
  · have hsize : m.headerSize = 4 := if_pos hcode
    have hroom : 4 ≤ buffer.length := hbuffer ▸ (by decide)
    rw [serializeInto_empty payload hroom hcode, hsize]
    exact ⟨fun _ => by decide, fun _ => ⟨_, _, rfl, by decide⟩⟩
  rcases Nat.lt_or_ge coapMaxHeaderSize m.headerSize with hlarge | hsize
  · rw [serializeInto_large h payload hcode hlarge, hbuffer]
    split_ifs with hfits
    · exact ⟨fun _ => hfits, fun _ => ⟨_, _, rfl, fun _ => hlarge, fun _ => rfl⟩⟩
    · exact ⟨fun ⟨n, buffer', hnone, _⟩ => (nomatch hnone), fun hle => absurd hle hfits⟩
  · rw [serializeInto_packed h hpayload hbuffer hcode hsize rfl]
    refine ⟨fun _ => hsize.trans (by decide),
      fun _ => ⟨_, _, rfl, fun hzero => ?_, fun hlarge => ?_⟩⟩
    · -- the header is not empty
      have hlen := h.length_writtenHeader
      rw [CoapMessage.headerSize, if_neg hcode] at hlen
      rw [length_append] at hzero
      omega
    · exact absurd hlarge (not_lt.mpr hsize)

/-- A request with a path and a payload. -/
theorem serialize_inside_request :
    ∃ n buffer', serializeInto ((buildAny .con 2 7 [.setter (.uriPath ⟨[108, 101, 100], by decide⟩),
        .setter (.payload [111, 110])]).inMemory fun _ => 0) .elsewhere
          (replicate transactionSize 0) = some (n, buffer') ∧
      (n = 0 ↔ coapMaxHeaderSize < ((buildAny .con 2
        7 [.setter (.uriPath ⟨[108, 101, 100], by decide⟩),
        .setter (.payload [111, 110])]).inMemory fun _ => 0).headerSize) :=
  (serialize_inside_iff .con 2 7 _ (fun _ => 0) rfl .elsewhere trivial length_replicate).mpr
    (by decide)

/-- A path of 130 characters is stored beyond the end of the buffer. -/
theorem serialize_outside :
    serializeInto ((buildAny .con 1 7 [.setter (.uriPath ⟨replicate 130 97, by decide⟩)]).inMemory
      fun _ => 0) .elsewhere (replicate transactionSize 0) = none := by
  decide +kernel

/-! ### A payload in the buffer -/

/-- The bytes behind the marker are those the payload at `COAP_MAX_HEADER_SIZE` had before. -/
def PayloadSurvives (m : Built) (buffer : List UInt8) : Prop :=
  ∃ n out, serializeInto m (.buffer coapMaxHeaderSize) buffer = some (n, out) ∧
    (m.code ≠ 0 → m.payloadLen ≠ 0 → out[m.headerSize]? = some 0xff ∧
      (out.drop (m.headerSize + 1)).take m.payloadLen.toNat =
        (buffer.drop coapMaxHeaderSize).take m.payloadLen.toNat)

theorem drop_overwrite {k : ℕ} (h : out.length ≤ k) :
    (overwrite buffer out).drop k = buffer.drop k := by
  rw [overwrite, drop_append, drop_eq_nil_of_le h, nil_append, drop_drop]
  congr 1
  omega

/-- What follows the marker is what is read when the marker has been stored. -/
theorem payloadSurvives_iff_read (h : Placed m)
    (hbuffer : buffer.length = transactionSize) (hcode : m.code ≠ 0) (hpayload : m.payloadLen ≠ 0)
    (hsize : m.headerSize ≤ coapMaxHeaderSize) :
    PayloadSurvives m buffer ↔
      ((overwrite buffer (m.writtenHeader ++ [0xff])).drop coapMaxHeaderSize).take
        m.payloadLen.toNat =
        (buffer.drop coapMaxHeaderSize).take m.payloadLen.toNat := by
  have hlen := h.length_writtenHeader
  have hmax := h.payloadMax
  have hinside : (PayloadAt.buffer coapMaxHeaderSize).Inside m :=
    (Nat.add_le_add_left hmax _).trans (by decide)
  have hmarked : m.writtenHeader ++ [0xff] =
      m.writtenHeader ++ if m.payloadLen ≠ 0 then [0xff] else [] := by rw [if_pos hpayload]
  have hresult := serializeInto_packed h hinside hbuffer hcode hsize hmarked
  rw [PayloadSurvives, hresult]
  simp only [PayloadAt.bytes]
  have hmarkedLen : (m.writtenHeader ++ [0xff]).length = m.headerSize + 1 := by
    rw [length_append, hlen]
    rfl
  generalize hread : ((overwrite buffer (m.writtenHeader ++ [0xff])).drop
    coapMaxHeaderSize).take m.payloadLen.toNat = read
  have hreadLen : read.length = m.payloadLen.toNat := by
    rw [← hread, length_take, length_drop, length_overwrite, hbuffer]
    · exact Nat.min_eq_left ((hmax.trans (by decide)))
    · rw [hmarkedLen, hbuffer]
      exact (Nat.add_le_add_right hsize 1).trans (by decide)
  have hmarker : (overwrite buffer (m.writtenHeader ++ [0xff] ++ read))[m.headerSize]? =
      some 0xff := by
    rw [overwrite, append_assoc, append_assoc, getElem?_append_right hlen.le, hlen,
      Nat.sub_self]
    rfl
  have hmoved :
    ((overwrite buffer (m.writtenHeader ++ [0xff] ++ read)).drop (m.headerSize + 1)).take
      m.payloadLen.toNat = read := by
    rw [overwrite, append_assoc, ← hmarkedLen, drop_left, ← hreadLen, take_left]
  constructor
  · rintro ⟨n, out, hout, hkept⟩
    cases hout
    exact hmoved.symm.trans (hkept hcode hpayload).2
  · intro hsame
    exact ⟨_, _, rfl, fun _ _ => ⟨hmarker, hmoved.trans hsame⟩⟩

/-- **A payload in the buffer survives, unless the header is of exactly `COAP_MAX_HEADER_SIZE`
bytes:** the marker is then stored over its first byte before it is moved, and only a payload that
starts with the marker's value is kept. -/
theorem payload_survives_iff {m : Built} (h : Measured m) (beyond : CoapOption → UInt8)
    {buffer : List UInt8} (hbuffer : buffer.length = transactionSize)
    (hsize : (m.inMemory beyond).headerSize ≤ coapMaxHeaderSize) :
    PayloadSurvives (m.inMemory beyond) buffer ↔
      m.code = 0 ∨ m.payloadLen = 0 ∨ (m.inMemory beyond).headerSize < coapMaxHeaderSize ∨
        buffer[coapMaxHeaderSize]? = some 0xff := by
  have hplaced := h.inMemory beyond
  have hlen := hplaced.length_writtenHeader
  by_cases hcode : m.code = 0
  · have hroom : 4 ≤ buffer.length := hbuffer ▸ (by decide)
    exact iff_of_true ⟨_, _, serializeInto_empty _ hroom hcode,
      fun hne => absurd hcode hne⟩ (.inl hcode)
  by_cases hpayload : m.payloadLen = 0
  · have hinside : (PayloadAt.buffer coapMaxHeaderSize).Inside (m.inMemory beyond) :=
      (Nat.add_le_add_left h.payloadMax _).trans (by decide)
    exact iff_of_true ⟨_, _, serializeInto_packed hplaced hinside hbuffer hcode hsize rfl,
      fun _ hne => absurd hpayload hne⟩ (.inr (.inl hpayload))
  rw [payloadSurvives_iff_read hplaced hbuffer hcode hpayload hsize]
  rcases Nat.lt_or_ge (m.inMemory beyond).headerSize coapMaxHeaderSize with hless | hge
  · -- the marker is in front of the payload
    refine iff_of_true ?_ (.inr (.inr (.inl hless)))
    rw [drop_overwrite]
    rwa [length_append, hlen]
  · -- the marker is on the first byte of the payload
    have hexact : (m.inMemory beyond).writtenHeader.length = coapMaxHeaderSize := by omega
    have hbound : coapMaxHeaderSize < buffer.length := hbuffer ▸ (by decide)
    obtain ⟨k, hk⟩ : ∃ k, (m.inMemory beyond).payloadLen.toNat = k + 1 :=
      Nat.exists_eq_succ_of_ne_zero fun hzero => hpayload (UInt16.toNat_inj.mp hzero)
    rw [overwrite, append_assoc, ← hexact, drop_left, length_append, hexact,
      drop_eq_getElem_cons hbound, getElem?_eq_getElem hbound, hk]
    simp only [singleton_append, take_succ_cons, cons.injEq, some.injEq,
      hcode, hpayload, not_lt.mpr hge, false_or, length_singleton, and_true]
    exact eq_comm

/-- A response with a Location-Path and two bytes of payload. -/
def locatedResponse (path : CString) : Built :=
  buildAny .ack 65 7 [.setter (.locationPath path), .setter (.payload [1, 2])]

/-- The two bytes of payload where a handler puts them. -/
def handlerBuffer : List UInt8 :=
  replicate coapMaxHeaderSize 0 ++ [1, 2] ++ replicate (transactionSize - coapMaxHeaderSize - 2) 0

theorem length_handlerBuffer : handlerBuffer.length = transactionSize := by
  simp only [handlerBuffer, length_append, length_replicate]
  decide

theorem payload_survives_short :
    PayloadSurvives ((locatedResponse ⟨[97], by decide⟩).inMemory fun _ => 0) handlerBuffer :=
  (payload_survives_iff (Measured.buildAny _ _ _ _) _ length_handlerBuffer (by decide)).mpr
    (.inr (.inr (.inl (by decide))))

/-- With a path of 56 characters the header has exactly `COAP_MAX_HEADER_SIZE` bytes. -/
theorem payload_first_byte_lost :
    ((locatedResponse ⟨replicate 56 97, by decide⟩).inMemory fun _ => 0).headerSize =
        coapMaxHeaderSize ∧
      ¬ PayloadSurvives ((locatedResponse ⟨replicate 56 97, by decide⟩).inMemory fun _ => 0)
        handlerBuffer := by
  have hresult : (serializeInto ((locatedResponse ⟨replicate 56 97, by decide⟩).inMemory fun _ => 0)
      (.buffer coapMaxHeaderSize) handlerBuffer).map (fun r => (r.2.drop 63).take 2) =
        some [0xff, 2] := by decide +kernel
  have hsize : ((locatedResponse ⟨replicate 56 97, by decide⟩).inMemory fun _ => 0).headerSize =
      coapMaxHeaderSize := by decide
  refine ⟨hsize, ?_⟩
  rintro ⟨n, out, hout, hkept⟩
  have hkept := (hkept (by decide) (by decide)).2
  rw [hout] at hresult
  have hmoved : (out.drop 63).take 2 = [0xff, 2] := some.inj hresult
  exact absurd (hmoved.symm.trans hkept) (by decide)

end Nespy.Coap
