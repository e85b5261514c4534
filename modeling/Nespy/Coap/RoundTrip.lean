import Nespy.Coap.Scan
import Nespy.Coap.Setters

/-!
# Coap — round trip

`parse_serialize`: a message that was built with the setters, serialized and parsed has the type,
the code, the message id, the token, the payload and the options it was built with, as every getter
returns them.  The one difference is by design: a setter of a block has no offset, the parser stores
the one that the number and the size give.
-/

open List

namespace Nespy.Coap

open Nespy.Lib

/-! ### The options of a message -/

theorem rawOptions_sorted (m : Built) :
    m.rawOptions.Pairwise fun x y => x.1.number ≤ y.1.number := by
  refine pairwise_flatMap.mpr ⟨fun o _ => ?_, allOptions_sorted.imp fun hlt x hx y hy => ?_⟩
  · exact pairwise_map.mpr (pairwise_of_forall fun _ _ => le_rfl)
  · obtain ⟨v, -, rfl⟩ := mem_map.mp hx
    obtain ⟨w, -, rfl⟩ := mem_map.mp hy
    exact hlt.le

variable {m : Built} {hdr mem rest : List UInt8}

theorem isProxy_of_mem_rawOptions (h : WellBuilt m) {x : RawOption}
    (hx : x ∈ m.rawOptions) : x.1.isProxy = false := by
  obtain ⟨o, -, hx⟩ := mem_flatMap.mp hx
  obtain ⟨v, hv, rfl⟩ := mem_map.mp hx
  refine h.proxy o ?_
  by_contra hhas
  rw [CoapMessage.values, if_neg hhas] at hv
  cases hv

/-- The options of a message, read one after the other, give its contents. -/
theorem foldl_absorb_rawOptions (h : WellBuilt m) (o : CoapOption) :
    m.rawOptions.foldl absorb (fun _ => none) o = m.located.contents id o := by
  have hnodup : allOptions.Nodup := allOptions_sorted.imp fun hlt he => hlt.ne (congrArg _ he)
  rw [CoapMessage.rawOptions, foldl_absorb_flatMap m.values hnodup, if_pos (mem_allOptions o),
    CoapMessage.values]
  split_ifs with hhas
  · rw [accumulateAll_values h hhas]
    exact (if_pos hhas).symm
  · exact (if_neg hhas).symm

/-! ### The header -/

/-- What is written in front of the payload. -/
def serializedHeader (m : Built) : Option (List UInt8) :=
  (serializeOptions m ⟨serializeHeader m ++ m.token.take m.tokenLen.toNat, 0⟩).map Written.out

/-- The payload with its marker. -/
def payloadBytes (m : Built) : List UInt8 :=
  (if m.payloadLen ≠ 0 then [0xff] else []) ++ (m.payload.getD []).take m.payloadLen.toNat

theorem length_payloadBytes_le (h : WellBuilt m) :
    (payloadBytes m).length ≤ 1 + coapMaxChunkSize := by
  have hmax := h.payload.1
  rw [payloadBytes, length_append, length_take_of_le h.payload.2]
  split_ifs
  · rw [length_singleton]
    omega
  · rw [length_nil]
    omega

theorem serializedHeader_eq (h : WellBuilt m) :
    serializedHeader m = some (serializeHeader m ++ m.token.take m.tokenLen.toNat ++
      encode 0 m.rawOptions) := by
  rw [serializedHeader, serializeOptions_eq h.source]
  rfl

theorem coapSerializeMessage_eq (hcode : m.code ≠ 0)
    (hhdr : serializedHeader m = some hdr) (hlen : hdr.length ≤ coapMaxHeaderSize) :
    coapSerializeMessage m = some (.ok (hdr ++ payloadBytes m)) := by
  obtain ⟨w, hw, rfl⟩ := Option.map_eq_some_iff.mp hhdr
  rw [coapSerializeMessage, if_neg hcode, hw, Option.bind_eq_bind, Option.bind_some, if_pos hlen,
    append_assoc]
  rfl

/-- The fields of the first byte are read back. -/
theorem firstByte (type : CoapMessageType) : ∀ len : Fin 9,
    let b := ((0xc0 : UInt8) &&& (1 : UInt8) <<< 6) ||| ((0x30 : UInt8) &&& type.bits <<< 4) |||
      ((0x0f : UInt8) &&& UInt8.ofNat len <<< 0)
    (0xc0 &&& b) >>> 6 = 1 ∧ CoapMessageType.ofBits ((0x30 &&& b) >>> 4) = type ∧
      0x0f &&& b = UInt8.ofNat len ∧ ¬ UInt8.ofNat len > 8 := by
  cases type <;> decide

/-- The message as the parser has it when it comes to the options. -/
def parsedHeader (m : Built) : Parsed :=
  { CoapMessage.zero ℕ with
    version := 1, type := m.type, tokenLen := m.tokenLen, code := m.code, mid := m.mid
    token := overwrite (replicate coapTokenLen 0) (m.token.take m.tokenLen.toNat) }

theorem length_token (h : WellBuilt m) :
    (m.token.take m.tokenLen.toNat).length = m.tokenLen.toNat :=
  length_take_of_le h.token.2

theorem coapParseMessage_header (h : WellBuilt m) {tail : List UInt8}
    (hmem : mem = serializeHeader m ++ (m.token.take m.tokenLen.toNat ++ tail)) (dataLen : ℕ) :
    coapParseMessage mem dataLen =
      parseLoop dataLen dataLen ⟨mem, 4 + m.tokenLen.toNat, 0, parsedHeader m⟩ := by
  have hlen : m.tokenLen.toNat < 9 := Nat.lt_succ_of_le h.token.1
  obtain ⟨hversion, htype, htoken, hmax⟩ := firstByte m.type ⟨m.tokenLen.toNat, hlen⟩
  rw [show UInt8.ofNat ((⟨m.tokenLen.toNat, hlen⟩ : Fin 9) : ℕ) = m.tokenLen from
    UInt8.ofNat_toNat] at hversion htype htoken hmax
  subst hmem
  simp only [serializeHeader, cons_append, nil_append, coapParseMessage, hversion, htype,
    htoken, word_of_bytes]
  rw [if_neg hmax, readN_append (length_token h)]
  rfl

theorem reads_parsedHeader (hpos : 4 + m.tokenLen.toNat ≤ mem.length) :
    Reads ⟨mem, 4 + m.tokenLen.toNat, 0, parsedHeader m⟩ fun _ => none := by
  exact .start rfl (fun o => by cases o <;> rfl) hpos

/-! ### The payload -/

/-- What is known of the message that was parsed. -/
structure Says (r : ParseResult) (m : Built) : Prop where
  status : r.status = .noError
  contents : ∀ o, r.msg.contents (r.mem.drop ·) o = m.located.contents id o
  strings : ∀ o, (text (r.mem.drop ·) (r.msg.str o)).length = (r.msg.str o).2
  type : r.msg.type = m.type
  code : r.msg.code = m.code
  mid : r.msg.mid = m.mid
  tokenLen : r.msg.tokenLen = m.tokenLen
  token : r.msg.token.take m.tokenLen.toNat = m.token.take m.tokenLen.toNat
  payloadLen : r.msg.payloadLen = m.payloadLen
  payload : text (r.mem.drop ·) (r.msg.payload, m.payloadLen.toNat) =
    text id (m.payload, m.payloadLen.toNat)
  hasPayload : m.payloadLen ≠ 0 → r.msg.payload.isSome

variable {s s' : Parser} {c : CoapOption → Option Content} {opts : List (ℕ × List UInt8)}

theorem Behind.says (hb : Behind s c opts s') (h : WellBuilt m) (hs : s.msg = parsedHeader m)
    (hc : ∀ o, (knownOptions opts).foldl absorb c o = m.located.contents id o)
    (hmem : mem.take s'.pos = s'.mem.take s'.pos) {p : Option ℕ} {n : UInt16}
    (hn : n = m.payloadLen) (hp : text (mem.drop ·) (p, n.toNat) = text id (m.payload, n.toNat))
    (hsome : n ≠ 0 → p.isSome) :
    Says ⟨.noError, none, { s'.msg with payload := p, payloadLen := n }, mem⟩ m := by
  subst hn
  have hheader := hb.header
  simp only [hs, CoapMessage.header, Prod.mk.injEq] at hheader
  obtain ⟨⟨-, htype, hcode, hmid⟩, ⟨htokenLen, htoken⟩, -⟩ := hheader
  refine ⟨rfl, fun o => (hb.reads.withPayload hmem o).trans (hc o), fun o => ?_, htype, hcode, hmid,
    htokenLen, ?_, rfl, hp, hsome⟩
  · have hstr : ({ s'.msg with payload := p, payloadLen := m.payloadLen } : Parsed).str o =
        s'.msg.str o := by
      cases o <;> rfl
    rw [hstr, ← hb.reads.length_text o, ← hb.reads.text_eq hmem o]
  · show s'.msg.token.take _ = _
    rw [htoken]
    exact overwrite_take _ _ (length_token h)

/-! ### Parsing what was serialized -/

/-- The parser reads every well-built message back. -/
theorem parse_wellBuilt (h : WellBuilt m)
    (hhdr : serializedHeader m = some hdr) (hlen : hdr.length ≤ coapMaxHeaderSize)
    (hrest : rest ≠ []) :
    ∃ r, coapParseMessage (hdr ++ payloadBytes m ++ rest) (hdr ++ payloadBytes m).length = some r ∧
      Says r m := by
  rw [serializedHeader_eq h] at hhdr
  cases hhdr
  generalize hfront : serializeHeader m ++ m.token.take m.tokenLen.toNat = front
  generalize hbody : encode 0 m.rawOptions ++ payloadBytes m = body
  generalize hn : (front ++ body).length = n
  have hfrontLen : front.length = 4 + m.tokenLen.toNat := by
    rw [← hfront, length_append, length_token h]
    rfl
  have hmem : front ++ body ++ rest =
      serializeHeader m ++ (m.token.take m.tokenLen.toNat ++ (body ++ rest)) := by
    rw [← hfront]
    simp only [append_assoc]
  rw [append_assoc front, hbody, hn, coapParseMessage_header h hmem]
  rw [length_append] at hlen
  rw [length_append] at hn
  have hpayload := length_payloadBytes_le h
  have hmax : coapMaxHeaderSize + (1 + coapMaxChunkSize) < 65536 := by decide
  have hdrop : (front ++ body ++ rest).drop (4 + m.tokenLen.toNat) = body ++ rest := by
    rw [append_assoc, drop_left' hfrontLen]
  have hpos : 4 + m.tokenLen.toNat ≤ (front ++ body ++ rest).length := by
    simp only [length_append]
    omega
  have hgives := parseLoop_scan n (reads_parsedHeader hpos) hdrop
    (show n = 4 + m.tokenLen.toNat + body.length by omega) (by omega)
  have hscan {payload : Option (List UInt8)}
    (hrest : ∀ fuel number, (payloadBytes m).length ≤ fuel →
      scanOptions fuel number (payloadBytes m) = .done [] payload) :
      scanOptions n 0 body = .done (m.rawOptions.map fun x => (x.1.number, x.2)) payload := by
    rw [← hbody] at hn ⊢
    exact scanOptions_encode hrest m.rawOptions
      (fun x hx => ⟨Nat.zero_le _, isProxy_of_mem_rawOptions h hx⟩) (rawOptions_sorted m) (by omega)
      (by rw [length_append]; omega)
  have hc (o) :
    (knownOptions (m.rawOptions.map fun x => (x.1.number, x.2))).foldl absorb (fun _ => none) o =
      m.located.contents id o := by
    rw [knownOptions_numbers, foldl_absorb_rawOptions h]
  by_cases hempty : m.payloadLen = 0
  · have hnil : payloadBytes m = [] := by
      rw [payloadBytes, if_neg (fun hne => hne hempty), hempty]
      rfl
    rw [hscan fun fuel _ _ => by rw [hnil]; cases fuel <;> rfl] at hgives
    obtain ⟨s', hb, hr⟩ := hgives
    have hlen' : s'.msg.payloadLen = 0 := congrArg (·.2.2.1) hb.header
    refine ⟨_, hr, hb.says h rfl hc rfl (hlen'.trans hempty.symm) ?_ fun hne => absurd hlen' hne⟩
    rw [hlen', text_zero _ rfl, text_zero _ rfl]
  · generalize hp : (m.payload.getD []).take m.payloadLen.toNat = p
    obtain ⟨b, rest, rfl⟩ := exists_cons_of_ne_nil hrest
    have hplen : p.length = m.payloadLen.toNat := hp ▸ length_take_of_le h.payload.2
    have hbytes : payloadBytes m = 0xff :: p := by
      rw [payloadBytes, if_pos hempty, hp]
      rfl
    have hfound : ∀ fuel number, (payloadBytes m).length ≤ fuel →
        scanOptions fuel number (payloadBytes m) = .done [] (some p) := by
      intro fuel number hfuel
      rw [hbytes] at hfuel ⊢
      obtain ⟨fuel, rfl⟩ := Nat.exists_eq_add_of_le' hfuel
      rfl
    rw [hscan hfound] at hgives
    obtain ⟨s', d, hb, hmem, hdata, hr⟩ := hgives
    have hroom : s'.pos + 1 + p.length < s'.mem.length := by
      have hlen := congrArg length hmem
      simp only [length_drop, length_append, length_cons] at hlen
      omega
    have hsmall := h.payload.1
    rw [parsePayload_eq (show p.length = min (_ - (s'.pos + 1)) _ by omega) hroom] at hr
    refine ⟨_, hr, hb.says h rfl hc (take_set_of_le (by omega)) ?_ ?_ fun _ => rfl⟩
    · rw [hplen, UInt16.ofNat_toNat]
    · rw [hplen, UInt16.ofNat_toNat, text_id, hp, ← hplen]
      exact (text_payload hmem le_rfl).trans take_length

/-! ### Getters -/

/-- What a getter of a string returns: the bytes, and their number. -/
def stringOf {P : Type} (deref : P → List UInt8) (x : Option (Option P × ℕ)) :
    Option (List UInt8 × ℕ) :=
  x.map fun x => (text deref x, x.2)

/-- What `coap_get_payload` returns. -/
def payloadOf {P : Type} (deref : P → List UInt8) (x : Option P × UInt16) : List UInt8 × UInt16 :=
  (text deref (x.1, x.2.toNat), x.2)

/-- The block with the offset that its number and its size give. -/
def withOffset (x : UInt32 × UInt8 × UInt16 × UInt32) : UInt32 × UInt8 × UInt16 × UInt32 :=
  (x.1, x.2.1, x.2.2.1, x.1 * x.2.2.1.toUInt32)

/-- The parsed message agrees with the message that was built: the fields of the header, the token,
the payload and every getter.  The strings of a parsed message are in the buffer. -/
structure Agrees (r : ParseResult) (m : Built) : Prop where
  type : r.msg.type = m.type
  code : r.msg.code = m.code
  mid : r.msg.mid = m.mid
  token : (r.msg.tokenLen, r.msg.token.take r.msg.tokenLen.toNat) =
    (m.tokenLen, m.token.take m.tokenLen.toNat)
  contentFormat : r.msg.coapGetHeaderContentFormat = m.coapGetHeaderContentFormat
  accept : r.msg.coapGetHeaderAccept = m.coapGetHeaderAccept
  maxAge : r.msg.coapGetHeaderMaxAge = m.coapGetHeaderMaxAge
  etag : r.msg.coapGetHeaderEtag = m.coapGetHeaderEtag
  ifMatch : r.msg.coapGetHeaderIfMatch = m.coapGetHeaderIfMatch
  ifNoneMatch : r.msg.coapGetHeaderIfNoneMatch = m.coapGetHeaderIfNoneMatch
  proxyUri : stringOf (r.mem.drop ·) r.msg.coapGetHeaderProxyUri =
    stringOf id m.coapGetHeaderProxyUri
  uriHost : stringOf (r.mem.drop ·) r.msg.coapGetHeaderUriHost = stringOf id m.coapGetHeaderUriHost
  uriPath : stringOf (r.mem.drop ·) r.msg.coapGetHeaderUriPath = stringOf id m.coapGetHeaderUriPath
  uriQuery : stringOf (r.mem.drop ·) r.msg.coapGetHeaderUriQuery =
    stringOf id m.coapGetHeaderUriQuery
  locationPath : stringOf (r.mem.drop ·) r.msg.coapGetHeaderLocationPath =
    stringOf id m.coapGetHeaderLocationPath
  locationQuery : stringOf (r.mem.drop ·) r.msg.coapGetHeaderLocationQuery =
    stringOf id m.coapGetHeaderLocationQuery
  observe : r.msg.coapGetHeaderObserve = m.coapGetHeaderObserve
  block2 : r.msg.coapGetHeaderBlock2 = m.coapGetHeaderBlock2.map withOffset
  block1 : r.msg.coapGetHeaderBlock1 = m.coapGetHeaderBlock1.map withOffset
  size2 : r.msg.coapGetHeaderSize2 = m.coapGetHeaderSize2
  size1 : r.msg.coapGetHeaderSize1 = m.coapGetHeaderSize1
  payload : payloadOf (r.mem.drop ·) r.msg.coapGetPayload = payloadOf id m.coapGetPayload
  queryVariable : ∀ name, r.msg.coapGetQueryVariable (r.mem.drop ·) name =
    m.coapGetQueryVariable id name
  postVariable : ∀ name, r.msg.coapGetPostVariable (r.mem.drop ·) name =
    m.coapGetPostVariable id name

theorem ite_some_congr {α : Type} {b b' : Bool} {x y : α} (hb : b = b') (hx : b' → x = y) :
    (if b then some x else none) = if b' then some y else none := by
  subst hb
  exact ite_congr rfl (fun h => congrArg some (hx h)) fun _ => rfl

section Getters

variable {r : ParseResult} {m : Built}

theorem Says.has (h : Says r m) (o : CoapOption) : r.msg.has o = m.has o := by
  have hc := congrArg Option.isSome (h.contents o)
  unfold CoapMessage.contents at hc
  have hloc : m.located.has o = m.has o := rfl
  cases hr : r.msg.has o <;> cases hm : m.has o <;> simp_all

variable {o : CoapOption}

theorem Says.content (h : Says r m) (ho : m.has o) :
    r.msg.content (r.mem.drop ·) o = m.located.content id o := by
  have hc := h.contents o
  rw [CoapMessage.contents, if_pos ((h.has o).trans ho)] at hc
  exact Option.some.inj (hc.trans (if_pos ho))

section

variable (hm : WellBuilt m) (hstr : o.isString)

include hm hstr

theorem WellBuilt.length_text :
    (text id (m.str o)).length = (m.str o).2 := by
  obtain ⟨sep, hsep⟩ : ∃ sep, m.source o = .array ((m.str o).1.getD []) (m.str o).2 sep := by
    cases o <;> first | exact ⟨_, rfl⟩ | exact absurd hstr (by decide)
  have hok := hm.source o
  rw [hsep] at hok
  rw [text_id]
  exact length_take_of_le hok.1

/-- A string and its length. -/
theorem Says.string (h : Says r m) (ho : m.has o) :
    text (r.mem.drop ·) (r.msg.str o) = text id (m.str o) ∧
      (r.msg.str o).2 = (m.str o).2 := by
  have hc := h.content ho
  rw [content_of_isString hstr, content_of_isString hstr] at hc
  have htext := Content.bytes.inj hc
  have hloc : m.located.str o = m.str o := by cases o <;> rfl
  rw [hloc] at htext
  exact ⟨htext, by rw [← h.strings o, htext, hm.length_text hstr]⟩

theorem Says.stringOf_eq (h : Says r m) :
    stringOf (r.mem.drop ·) (if r.msg.has o then some (r.msg.str o) else none) =
      stringOf id (if m.has o then some (m.str o) else none) := by
  rw [h.has o]
  by_cases ho : m.has o
  · obtain ⟨htext, hlen⟩ := h.string hm hstr ho
    rw [if_pos ho, if_pos ho, stringOf, stringOf, Option.map_some, Option.map_some, htext, hlen]
  · rw [if_neg ho, if_neg ho]
    rfl

end

/-- The getters of both messages agree. -/
theorem Says.agrees (h : Says r m) (hm : WellBuilt m) : Agrees r m where
  type := h.type
  code := h.code
  mid := h.mid
  token := by rw [h.tokenLen, h.token]
  contentFormat := ite_some_congr (h.has _) fun ho =>
    UInt16.toUInt32_inj.mp (Content.int.inj (h.content ho))
  accept := ite_some_congr (h.has _) fun ho =>
    UInt16.toUInt32_inj.mp (Content.int.inj (h.content ho))
  maxAge := by
    rw [CoapMessage.coapGetHeaderMaxAge, h.has]
    exact ite_congr rfl (fun ho => Content.int.inj (h.content ho)) fun _ => rfl
  etag := ite_some_congr (h.has _) fun ho => Content.bytes.inj (h.content ho)
  ifMatch := ite_some_congr (h.has _) fun ho => Content.bytes.inj (h.content ho)
  ifNoneMatch := h.has _
  proxyUri := by
    have hno : ¬ m.has .proxyUri := fun ho => absurd (hm.proxy _ ho) (by decide)
    rw [CoapMessage.coapGetHeaderProxyUri, h.has, if_neg hno, CoapMessage.coapGetHeaderProxyUri,
      if_neg hno]
    rfl
  uriHost := h.stringOf_eq hm rfl
  uriPath := h.stringOf_eq hm rfl
  uriQuery := h.stringOf_eq hm rfl
  locationPath := h.stringOf_eq hm rfl
  locationQuery := h.stringOf_eq hm rfl
  observe := ite_some_congr (h.has _) fun ho => Content.int.inj (h.content ho)
  block2 := by
    rw [CoapMessage.coapGetHeaderBlock2, CoapMessage.coapGetHeaderBlock2, apply_ite (Option.map _)]
    refine ite_some_congr (h.has _) fun ho => ?_
    obtain ⟨hnum, hmore, hsize, hoffset⟩ := Content.block.inj (h.content ho)
    rw [hnum, hmore, hsize, hoffset]
    rfl
  block1 := by
    rw [CoapMessage.coapGetHeaderBlock1, CoapMessage.coapGetHeaderBlock1, apply_ite (Option.map _)]
    refine ite_some_congr (h.has _) fun ho => ?_
    obtain ⟨hnum, hmore, hsize, hoffset⟩ := Content.block.inj (h.content ho)
    rw [hnum, hmore, hsize, hoffset]
    rfl
  size2 := ite_some_congr (h.has _) fun ho => Content.int.inj (h.content ho)
  size1 := ite_some_congr (h.has _) fun ho => Content.int.inj (h.content ho)
  payload := by
    have hr : (if r.msg.payload.isSome then r.msg.payloadLen else 0) = m.payloadLen := by
      by_cases hempty : m.payloadLen = 0
      · rw [h.payloadLen, hempty, ite_self]
      · rw [if_pos (h.hasPayload hempty), h.payloadLen]
    have hm' : (if m.payload.isSome then m.payloadLen else 0) = m.payloadLen := by
      have hle := hm.payload.2
      cases hp : m.payload with
      | none =>
        rw [hp] at hle
        exact (UInt16.toNat_inj.mp (Nat.le_zero.mp hle)).symm
      | some p => rfl
    rw [CoapMessage.coapGetPayload, CoapMessage.coapGetPayload, hr, hm',
      payloadOf, payloadOf, h.payload]
  queryVariable name := ite_some_congr (h.has _) fun ho =>
    congrArg (coapGetVariable · name) (h.string hm rfl ho).1
  postVariable name := by
    rw [CoapMessage.coapGetPostVariable, h.payloadLen, h.payload]
    rfl

end Getters

/-! ### The round trip -/

/-- **Round trip.**  A message built with a non-zero code and any setters whose header is shorter
than `COAP_MAX_HEADER_SIZE` is serialized; and parsed in a buffer as large as that of a transaction,
which has `COAP_MAX_PACKET_SIZE + 1` bytes, it agrees with the message that was built. -/
theorem parse_serialize (type : CoapMessageType) {code : UInt8} (hcode : code ≠ 0) (mid : UInt16)
    {setters : List Setter} (hok : ∀ s ∈ setters, s.Ok)
    (hshort : ∀ hdr, serializedHeader (build type code mid setters) = some hdr →
      hdr.length < coapMaxHeaderSize) :
    ∃ bytes, coapSerializeMessage (build type code mid setters) = some (.ok bytes) ∧
      ∀ rest : List UInt8, coapMaxPacketSize + 1 ≤ (bytes ++ rest).length →
        ∃ r, coapParseMessage (bytes ++ rest) bytes.length = some r ∧ r.status = .noError ∧
          Agrees r (build type code mid setters) := by
  have hm := build_wellBuilt type code mid hok
  have hhdr := serializedHeader_eq hm
  have hlen := hshort _ hhdr
  rw [← code_build type code mid setters] at hcode
  refine ⟨_, coapSerializeMessage_eq hcode hhdr hlen.le, fun rest hrest => ?_⟩
  have hne : rest ≠ [] := by
    rintro rfl
    have hpayload := length_payloadBytes_le hm
    rw [append_nil, length_append, coapMaxPacketSize] at hrest
    omega
  obtain ⟨r, hparse, hsays⟩ := parse_wellBuilt hm hhdr hlen.le hne
  exact ⟨r, hparse, hsays.status, hsays.agrees hm⟩

theorem header_lt {n : ℕ} (h : (serializedHeader m).map length = some n)
    (hn : n < coapMaxHeaderSize) : ∀ hdr, serializedHeader m = some hdr →
      hdr.length < coapMaxHeaderSize := by
  intro hdr hhdr
  rw [hhdr] at h
  exact Option.some.inj h ▸ hn

/-- A request with a token, a path of two segments, a query, a block and a payload. -/
def sampleSetters : List Setter :=
  [.token [1, 2], .uriPath ⟨[97, 47, 98], by decide⟩, .uriQuery ⟨[63, 120, 61, 49], by decide⟩,
    .block2 3 1 32, .maxAge 300, .payload [104, 105]]

theorem sampleSetters_ok : ∀ s ∈ sampleSetters, s.Ok := by
  have hpath : Joined slash [97, 47, 98] := .inr ⟨[[97], [98]], by decide, by decide, rfl⟩
  have hquery : Joined ampersand [120, 61, 49] := .inr ⟨[[120, 61, 49]], by decide, by decide, rfl⟩
  intro s hs
  simp only [sampleSetters, mem_cons, not_mem_nil, or_false] at hs
  rcases hs with rfl | rfl | rfl | rfl | rfl | rfl
  · trivial
  · exact hpath
  · exact hquery
  · exact ⟨5, rfl⟩
  · trivial
  · trivial

theorem parse_serialize_sample : ∃ bytes,
    coapSerializeMessage (build .con 1 7 sampleSetters) = some (.ok bytes) ∧
      ∀ rest : List UInt8, coapMaxPacketSize + 1 ≤ (bytes ++ rest).length →
        ∃ r, coapParseMessage (bytes ++ rest) bytes.length = some r ∧ r.status = .noError ∧
          Agrees r (build .con 1 7 sampleSetters) :=
  parse_serialize .con (by decide) 7 sampleSetters_ok
    (header_lt (n := 19) (by decide +kernel) (by decide))

/-- The message serialized, and parsed in the buffer of a transaction. -/
def reparse (m : Built) : Option ParseResult := do
  match ← coapSerializeMessage m with
  | .ok bytes =>
    coapParseMessage (bytes ++ replicate (coapMaxPacketSize + 1 - bytes.length) 0) bytes.length
  | .error _ => none

/-- The offset of a block, which has no setter, is found by the parser; a Block1 option keeps no
more than one bit of `more`; and a query loses an empty segment that is left when its question marks
are stripped. -/
theorem getters_differ :
    ((build .con 1 7 [.block2 1 0 64]).coapGetHeaderBlock2 = some (1, 0, 64, 0) ∧
      (reparse (build .con 1 7 [.block2 1 0 64])).map
        (fun r => (r.status, r.msg.coapGetHeaderBlock2)) =
        some (.noError, some (1, 0, 64, 64))) ∧
    ((build .con 1 7 [.block1 0 2 64]).coapGetHeaderBlock1 = some (0, 2, 64, 0) ∧
      (reparse (build .con 1 7 [.block1 0 2 64])).map
        (fun r => (r.status, r.msg.coapGetHeaderBlock1)) =
        some (.noError, some (0, 1, 64, 0))) ∧
    (Segments ampersand [63, 38, 97] ∧
      stringOf id (build .con 1 7 [.uriQuery ⟨[63, 38, 97], by decide⟩]).coapGetHeaderUriQuery =
        some ([38, 97], 2) ∧
      (reparse (build .con 1 7 [.uriQuery ⟨[63, 38, 97], by decide⟩])).map
          (fun r => (r.status, stringOf (r.mem.drop ·) r.msg.coapGetHeaderUriQuery)) =
        some (.noError, some ([97], 1))) := by
  refine ⟨⟨?_, ?_⟩, ⟨?_, ?_⟩, ⟨[[63], [97]], by decide, by decide, rfl⟩, ?_, ?_⟩
  all_goals decide +kernel

end Nespy.Coap
