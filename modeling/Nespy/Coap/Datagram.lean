import Nespy.Coap.Scan
import Nespy.Coap.Values

/-!
# Coap — a datagram is parsed

`coap_parse_message` as a whole.  `referenceParse` reads a message from the bytes of a datagram and
changes none of them: the values of a path or a query are joined, any other option is read from its
last value. `parse_eq_reference`: the parser, which joins the values in the buffer it is reading
from, finds the same message.  `parse_inside_iff` says for which datagrams every access is inside of
them.
-/

open List

namespace Nespy.Coap

open Nespy.Lib

variable (b0 b1 b2 b3 : UInt8) (data : List UInt8)

/-! ### The header -/

/-- The fields of the first four bytes. -/
def headerMessage : Parsed :=
  { CoapMessage.zero ℕ with
    version := (0xc0 &&& b0) >>> 6
    type := .ofBits ((0x30 &&& b0) >>> 4)
    tokenLen := 0x0f &&& b0
    code := b1
    mid := b2.toUInt16 <<< 8 ||| b3.toUInt16 }

/-- The message in front of the first option. -/
def tokenMessage (token : List UInt8) : Parsed :=
  { headerMessage b0 b1 b2 b3 with token := overwrite (replicate coapTokenLen 0) token }

theorem coapParseMessage_cons (rest : List UInt8) (dataLen : ℕ) :
    coapParseMessage (b0 :: b1 :: b2 :: b3 :: rest) dataLen =
      if (0xc0 &&& b0) >>> 6 ≠ 1 then
        some ⟨.badRequest, some "CoAP version must be 1", headerMessage b0 b1 b2 b3,
          b0 :: b1 :: b2 :: b3 :: rest⟩
      else if 0x0f &&& b0 > 8 then
        some ⟨.badRequest, some "Token Length must not be more than 8", headerMessage b0 b1 b2 b3,
          b0 :: b1 :: b2 :: b3 :: rest⟩
      else (readN (0x0f &&& b0).toNat rest).bind fun x =>
        parseLoop dataLen dataLen ⟨b0 :: b1 :: b2 :: b3 :: rest, 4 + (0x0f &&& b0).toNat, 0,
          tokenMessage b0 b1 b2 b3 x.1⟩ :=
  rfl

theorem Reads.tokenMessage {b0 b1 b2 b3 : UInt8} {token mem : List UInt8} {pos : ℕ}
    (hpos : pos ≤ mem.length) :
    Reads ⟨mem, pos, 0, Coap.tokenMessage b0 b1 b2 b3 token⟩ fun _ => none :=
  .start rfl (fun o => by cases o <;> rfl) hpos

/-! ### The reference -/

/-- What a datagram says. -/
structure Reference where
  version : UInt8
  type : CoapMessageType
  code : UInt8
  mid : UInt16
  token : List UInt8
  options : OptionMap
  contents : CoapOption → Option Content
  payload : Option (List UInt8)

/-- The values of an option, in the order they were received. -/
def occurrences (o : CoapOption) (opts : List (ℕ × List UInt8)) : List (List UInt8) :=
  opts.filterMap fun x => if x.1 = o.number then some x.2 else none

variable {o : CoapOption} {x : ℕ × List UInt8}

theorem occurrences_cons_self (h : x.1 = o.number)
    (opts : List (ℕ × List UInt8)) : occurrences o (x :: opts) = x.2 :: occurrences o opts := by
  rw [occurrences, filterMap_cons, if_pos h]
  rfl

theorem occurrences_cons_of_ne (h : x.1 ≠ o.number)
    (opts : List (ℕ × List UInt8)) : occurrences o (x :: opts) = occurrences o opts := by
  rw [occurrences, filterMap_cons, if_neg h]
  rfl

/-- The content of an option: the values of a path or a query are joined, those in front which are
empty left out, and any other option is read from its last value. -/
def referenceContent (o : CoapOption) (values : List (List UInt8)) : Option Content :=
  match o.separator? with
  | some sep =>
    if values = [] then none
    else some (.bytes (intercalate [sep] (values.dropWhile isEmpty)))
  | none => values.getLast?.map (accumulate o none)

/-- What a message with these options says. -/
def referenceOf (token : List UInt8) (opts : List (ℕ × List UInt8))
    (payload : Option (List UInt8)) : Reference where
  version := (0xc0 &&& b0) >>> 6
  type := .ofBits ((0x30 &&& b0) >>> 4)
  code := b1
  mid := b2.toUInt16 <<< 8 ||| b3.toUInt16
  token := token
  options := (opts.map Prod.fst).foldl coapSetOption fun _ => 0
  contents := fun o => referenceContent o (occurrences o opts)
  payload := payload.map (take coapMaxChunkSize)

/-- The message of a datagram, read from its bytes as they are, or `none` if it is not accepted. -/
def referenceParse : List UInt8 → Option Reference
  | b0 :: b1 :: b2 :: b3 :: rest =>
    let tokenLen := (0x0f &&& b0).toNat
    if (0xc0 &&& b0) >>> 6 ≠ 1 ∨ 8 < tokenLen ∨ rest.length < tokenLen then none
    else
      match scanOptions (rest.length + 4) 0 (rest.drop tokenLen) with
      | .done opts payload => some (referenceOf b0 b1 b2 b3 (rest.take tokenLen) opts payload)
      | _ => none
  | _ => none

/-- What the parser's message says, whose strings are in the buffer. -/
def ParseResult.view (r : ParseResult) : Reference where
  version := r.msg.version
  type := r.msg.type
  code := r.msg.code
  mid := r.msg.mid
  token := r.msg.token.take r.msg.tokenLen.toNat
  options := r.msg.options
  contents := r.msg.contents (r.mem.drop ·)
  payload := r.msg.payload.map fun p => (r.mem.drop p).take r.msg.payloadLen.toNat

/-! ### Contents -/

/-- Each option gets its own values. -/
theorem foldl_absorb_knownOptions (o : CoapOption) (opts : List (ℕ × List UInt8))
    (c : CoapOption → Option Content) :
    (knownOptions opts).foldl absorb c o = accumulateAll o (c o) (occurrences o opts) := by
  induction opts generalizing c with
  | nil => rfl
  | cons x opts ih =>
    cases hx : CoapOption.ofNumber x.1 with
    | none =>
      have hne : x.1 ≠ o.number := by
        intro he
        rw [he, CoapOption.ofNumber_number] at hx
        cases hx
      have hknown : knownOptions (x :: opts) = knownOptions opts := by
        simp only [knownOptions, filterMap_cons, hx, Option.map_none]
      rw [hknown, ih, occurrences_cons_of_ne hne]
    | some o' =>
      have hnum := CoapOption.eq_number hx
      have hknown : knownOptions (x :: opts) = (o', x.2) :: knownOptions opts := by
        simp only [knownOptions, filterMap_cons, hx, Option.map_some]
      rw [hknown, foldl_cons, ih]
      by_cases ho : o = o'
      · subst ho
        rw [occurrences_cons_self hnum, absorb, Function.update_self]
        rfl
      · have hne : x.1 ≠ o.number := by
          rw [hnum]
          exact fun he => ho (CoapOption.number_injective he).symm
        rw [occurrences_cons_of_ne hne, absorb, Function.update_of_ne ho]

/-- Values are joined behind an empty string. -/
theorem accumulateAll_join {sep : UInt8} (hsep : o.separator? = some sep)
    (values : List (List UInt8)) :
    accumulateAll o (some (.bytes [])) values =
      some (.bytes (intercalate [sep] (values.dropWhile isEmpty))) := by
  induction values with
  | nil => rfl
  | cons v values ih =>
    have hfirst : accumulate o (some (.bytes [])) v = .bytes v := accumulate_join hsep _ _
    rw [accumulateAll, foldl_cons, hfirst]
    cases v with
    | nil => exact ih
    | cons b bs => exact accumulateAll_bytes hsep values fun _ => cons_ne_nil b bs

/-- Any other option forgets the values it had. -/
theorem accumulate_of_separator_none (hsep : o.separator? = none)
    (old : Option Content) (value : List UInt8) :
    accumulate o old value = accumulate o none value := by
  cases o <;> first | rfl | cases hsep

theorem accumulateAll_last (hsep : o.separator? = none) (values : List (List UInt8))
    (old : Option Content) :
    accumulateAll o old values = (values.getLast?.map (accumulate o none)).or old := by
  induction values generalizing old with
  | nil => rfl
  | cons v values ih =>
    rw [accumulateAll, foldl_cons, ← accumulateAll, ih, getLast?_cons,
      accumulate_of_separator_none hsep]
    cases values.getLast? <;> rfl

theorem accumulateAll_eq (o : CoapOption) (values : List (List UInt8)) :
    accumulateAll o none values = referenceContent o values := by
  unfold referenceContent
  cases hsep : o.separator? with
  | some sep =>
    dsimp only
    cases values with
    | nil => rfl
    | cons v values =>
      rw [← accumulateAll_join hsep]
      rfl
  | none =>
    rw [accumulateAll_last hsep, Option.or_none]

/-! ### The parser and the reference -/

/-- The header and the token are in the datagram. -/
def HeaderInside : Prop :=
  4 ≤ data.length ∧ 4 + (0x0f &&& data.headD 0).toNat ≤ data.length

instance (data : List UInt8) : Decidable (HeaderInside data) :=
  inferInstanceAs (Decidable (_ ∧ _))

theorem exists_header {data : List UInt8} (h : 4 ≤ data.length) :
    ∃ b0 b1 b2 b3 rest, data = b0 :: b1 :: b2 :: b3 :: rest :=
  match data, h with
  | b0 :: b1 :: b2 :: b3 :: rest, _ => ⟨b0, b1, b2, b3, rest, rfl⟩

section View

variable {b0 b1 b2 b3 : UInt8} {token mem : List UInt8} {pos : ℕ} {opts : List (ℕ × List UInt8)}
  {s' : Parser}

variable {r : ParseResult}

section

variable (h : Behind ⟨mem, pos, 0, tokenMessage b0 b1 b2 b3 token⟩ (fun _ => none) opts s')
  (htoken : token.length = (0x0f &&& b0).toNat)

include h htoken

/-- The result of the parser behind all options, if its fields are those it had read. -/
theorem Behind.view
    (hheader : (r.msg.version, r.msg.type, r.msg.code, r.msg.mid, r.msg.tokenLen, r.msg.token) =
      (s'.msg.version, s'.msg.type, s'.msg.code, s'.msg.mid, s'.msg.tokenLen, s'.msg.token))
    (hoptions : r.msg.options = s'.msg.options)
    (hcontents : ∀ o, r.msg.contents (r.mem.drop ·) o =
      (knownOptions opts).foldl absorb (fun _ => none) o) {payload : Option (List UInt8)}
    (hpayload : (r.msg.payload.map fun p => (r.mem.drop p).take r.msg.payloadLen.toNat) =
      payload.map (take coapMaxChunkSize)) :
    r.view = referenceOf b0 b1 b2 b3 token opts payload := by
  have hfields := h.header
  simp only [CoapMessage.header, Prod.mk.injEq] at hheader hfields
  obtain ⟨hversion, htype, hcode, hmid, htokenLen, htok⟩ := hheader
  obtain ⟨⟨hversion', htype', hcode', hmid'⟩, ⟨htokenLen', htok'⟩, -⟩ := hfields
  have hview : r.msg.contents (r.mem.drop ·) = fun o =>
      referenceContent o (occurrences o opts) := by
    funext o
    rw [hcontents, foldl_absorb_knownOptions, accumulateAll_eq]
  have htake : r.msg.token.take r.msg.tokenLen.toNat = token := by
    rw [htok, htok', htokenLen, htokenLen']
    exact overwrite_take _ _ htoken
  rw [ParseResult.view, hview, htake, hpayload, hoptions, h.options, hversion,
    hversion', htype, htype', hcode, hcode', hmid, hmid']
  rfl

theorem Behind.view_end :
    (ParseResult.mk .noError none s'.msg s'.mem).view =
      referenceOf b0 b1 b2 b3 token opts none := by
  refine h.view htoken rfl rfl h.reads.contents ?_
  have hnone := h.header
  simp only [CoapMessage.header, Prod.mk.injEq] at hnone
  rw [hnone.2.2.2]
  rfl

/-- The view of a message with a payload. -/
theorem Behind.view_payload {d : UInt8} {payload tail : List UInt8} {dataLen : ℕ}
    (hmem : s'.mem.drop s'.pos = d :: (payload ++ tail))
    (hdata : dataLen = s'.pos + 1 + payload.length) (hr : parsePayload dataLen s' = some r) :
    r.view = referenceOf b0 b1 b2 b3 token opts (some payload) := by
  generalize hn : min payload.length coapMaxChunkSize = n
  have hn' : n = min (dataLen - (s'.pos + 1)) coapMaxChunkSize := by omega
  rcases Nat.lt_or_ge (s'.pos + 1 + n) s'.mem.length with hroom | hroom
  · rw [parsePayload_eq hn' hroom, Option.some.injEq] at hr
    subst hr
    have hsmall : n ≤ 64 := hn ▸ Nat.min_le_right _ _
    have htake : (s'.mem.set (s'.pos + 1 + n) 0).take s'.pos = s'.mem.take s'.pos :=
      take_set_of_le (by omega)
    refine h.view htoken rfl rfl (h.reads.withPayload htake) ?_
    have hlen : (UInt16.ofNat n).toNat = n := by
      rw [UInt16.toNat_ofNat', Nat.mod_eq_of_lt (by omega)]
    refine congrArg some ?_
    change take (UInt16.ofNat n).toNat _ = _
    rw [hlen]
    refine (text_payload hmem (show n ≤ payload.length by omega)).trans ?_
    rw [← hn, Nat.min_comm]
    exact take_eq_take_min.symm
  · rw [parsePayload_outside hn' hroom] at hr
    cases hr

end

end View

section Parse

variable {b0 b1 b2 b3 : UInt8} {rest tail : List UInt8}

/-- A datagram with a valid header goes through the scan. -/
theorem coapParseMessage_scan (b1 b2 b3 : UInt8) (tail : List UInt8)
    (hversion : (0xc0 &&& b0) >>> 6 = 1) (htokenLen : ¬ 0x0f &&& b0 > 8)
    (hin : (0x0f &&& b0).toNat ≤ rest.length) :
    (scanOptions (rest.length + 4) 0 (rest.drop (0x0f &&& b0).toNat)).Gives tail (rest.length + 4)
      ⟨b0 :: b1 :: b2 :: b3 :: (rest ++ tail), 4 + (0x0f &&& b0).toNat, 0,
        tokenMessage b0 b1 b2 b3 (rest.take (0x0f &&& b0).toNat)⟩ (fun _ => none)
      (coapParseMessage (b0 :: b1 :: b2 :: b3 :: (rest ++ tail)) (rest.length + 4)) := by
  have hread : readN (0x0f &&& b0).toNat (rest ++ tail) =
      some (rest.take (0x0f &&& b0).toNat, rest.drop (0x0f &&& b0).toNat ++ tail) := by
    conv_lhs => rw [← take_append_drop (0x0f &&& b0).toNat rest, append_assoc]
    exact readN_append (length_take_of_le hin) _
  rw [coapParseMessage_cons, if_neg (not_not.mpr hversion), if_neg htokenLen, hread]
  refine parseLoop_scan _ (.tokenMessage ?_) ?_ ?_ ?_
  · simp only [length_cons, length_append]
    omega
  · rw [← drop_drop]
    exact drop_append_of_le_length hin
  · rw [length_drop]
    dsimp only
    omega
  · rw [length_drop]
    omega

variable {dataLen : ℕ}

/-- A datagram that is accepted has a valid header. -/
theorem header_of_noError {r : ParseResult}
    (h : coapParseMessage (b0 :: b1 :: b2 :: b3 :: rest) dataLen = some r)
    (hok : r.status = .noError) :
    (0xc0 &&& b0) >>> 6 = 1 ∧ ¬ 0x0f &&& b0 > 8 := by
  rw [coapParseMessage_cons] at h
  split_ifs at h with hversion htokenLen
  · cases h
    cases hok
  · cases h
    cases hok
  · exact ⟨not_not.mp hversion, htokenLen⟩

/-- **Parsing in place is parsing.**  `tail` is the buffer behind the datagram: if the header and
the token are in the datagram, a datagram that is accepted is read as the reference reads it. -/
theorem parse_eq_reference (data tail : List UInt8) {r : ParseResult} (hin : HeaderInside data)
    (hparse : coapParseMessage (data ++ tail) data.length = some r) (hok : r.status = .noError) :
    referenceParse data = some r.view := by
  obtain ⟨b0, b1, b2, b3, rest, rfl⟩ := exists_header hin.1
  replace hin : (0x0f &&& b0).toNat ≤ rest.length := by
    have hlen := hin.2
    simp only [headD_cons, length_cons] at hlen
    omega
  replace hparse : coapParseMessage (b0 :: b1 :: b2 :: b3 :: (rest ++ tail)) (rest.length + 4) =
      some r := hparse
  obtain ⟨hversion, htokenLen⟩ := header_of_noError hparse hok
  have hscan := coapParseMessage_scan b1 b2 b3 tail hversion htokenLen hin
  have htoken : (rest.take (0x0f &&& b0).toNat).length = (0x0f &&& b0).toNat :=
    length_take_of_le hin
  have hvalid : ¬ ((0xc0 &&& b0) >>> 6 ≠ 1 ∨ 8 < (0x0f &&& b0).toNat ∨
      rest.length < (0x0f &&& b0).toNat) :=
    not_or.mpr ⟨not_not.mpr hversion, not_or.mpr ⟨htokenLen, not_lt.mpr hin⟩⟩
  rw [hparse] at hscan
  unfold referenceParse
  dsimp only
  rw [if_neg hvalid]
  cases hf : scanOptions (rest.length + 4) 0 (rest.drop (0x0f &&& b0).toNat) with
  | refused =>
    rw [hf] at hscan
    obtain ⟨r', hr', hstatus⟩ := hscan
    cases hr'
    exact absurd hok hstatus
  | cut =>
    rw [hf] at hscan
    exact absurd hok (hscan.2 r rfl)
  | done opts payload =>
    rw [hf] at hscan
    refine congrArg some ?_
    cases payload with
    | none =>
      obtain ⟨s', hs', hr⟩ := hscan
      cases hr
      exact (hs'.view_end htoken).symm
    | some payload =>
      obtain ⟨s', d, hs', hmem, hdata, hr⟩ := hscan
      exact (hs'.view_payload htoken hmem hdata hr.symm).symm

/-- A path of two segments is joined where its second option header was. -/
theorem parse_eq_reference_path : ∃ r,
    coapParseMessage [0x40, 1, 0, 0, 0xb1, 97, 0x01, 98] 8 = some r ∧ r.status = .noError ∧
      r.mem = [0x40, 1, 0, 0, 0xb1, 97, 47, 98] ∧
      referenceParse [0x40, 1, 0, 0, 0xb1, 97, 0x01, 98] = some r.view :=
  ⟨_, rfl, rfl, rfl, parse_eq_reference [0x40, 1, 0, 0, 0xb1, 97, 0x01, 98] [] (by decide) rfl rfl⟩

/-! ### Accesses -/

/-- The parser stays inside of what was scanned: no option header is cut, and if there is a payload,
the zero behind it replaces a byte of it. -/
@[simp] def Scan.Inside : Scan → Prop
  | done _ none => True
  | done _ (some payload) => coapMaxChunkSize < payload.length
  | refused => True
  | cut => False

/-- The datagram has a header; and if that is valid, it has the token, and its options and its
payload end inside of it. -/
def DatagramInside : Prop :=
  4 ≤ data.length ∧ ((0xc0 &&& data.headD 0) >>> 6 = 1 → ¬ 0x0f &&& data.headD 0 > 8 →
    4 + (0x0f &&& data.headD 0).toNat ≤ data.length ∧
      (scanOptions data.length 0 (data.drop (4 + (0x0f &&& data.headD 0).toNat))).Inside)

/-- The loop on a datagram that is the whole buffer. -/
theorem Scan.Gives.inside_iff {s : Parser} {c : CoapOption → Option Content} {f : Scan}
    {res : Option ParseResult} (hlen : s.mem.length = dataLen) (h : f.Gives [] dataLen s c res) :
    res ≠ none ↔ f.Inside := by
  cases f with
  | refused =>
    obtain ⟨r, rfl, -⟩ := h
    simp
  | cut =>
    have hres := h.1 rfl
    simp [hres]
  | done opts payload =>
    cases payload with
    | none =>
      obtain ⟨s', -, rfl⟩ := h
      simp
    | some payload =>
      obtain ⟨s', d, hs', -, hdata, rfl⟩ := h
      obtain ⟨n, hn⟩ : ∃ n, n = min (dataLen - (s'.pos + 1)) coapMaxChunkSize := ⟨_, rfl⟩
      have hlen' : s'.mem.length = s'.pos + 1 + payload.length := by
        rw [hs'.length, hlen, hdata]
      rw [Scan.Inside]
      rcases Nat.lt_or_ge coapMaxChunkSize payload.length with hlt | hge
      · rw [parsePayload_eq hn (by omega)]
        simp [hlt]
      · rw [parsePayload_outside hn (by omega)]
        simp [hge]

/-- **The parser stays inside the datagram exactly if the datagram is complete.** -/
theorem parse_inside_iff :
    coapParseMessage data data.length ≠ none ↔ DatagramInside data := by
  unfold DatagramInside
  by_cases hfour : 4 ≤ data.length
  · obtain ⟨b0, b1, b2, b3, rest, rfl⟩ := exists_header hfour
    simp only [hfour, true_and, headD_cons]
    by_cases hvalid : (0xc0 &&& b0) >>> 6 = 1 ∧ ¬ 0x0f &&& b0 > 8
    · obtain ⟨hversion, htokenLen⟩ := hvalid
      simp only [hversion, htokenLen, not_false_eq_true, true_imp_iff, length_cons]
      by_cases hin : (0x0f &&& b0).toNat ≤ rest.length
      · have hscan := coapParseMessage_scan b1 b2 b3 [] hversion htokenLen hin
        rw [append_nil] at hscan
        have hdrop : (b0 :: b1 :: b2 :: b3 :: rest).drop (4 + (0x0f &&& b0).toNat) =
            rest.drop (0x0f &&& b0).toNat := by
          rw [← drop_drop]
          rfl
        rw [hdrop]
        refine (hscan.inside_iff rfl).trans ?_
        simp only [show 4 + (0x0f &&& b0).toNat ≤ rest.length + 1 + 1 + 1 + 1 by omega, true_and]
      · -- the token is cut
        rw [coapParseMessage_cons, if_neg (not_not.mpr hversion),
          if_neg htokenLen, readN, if_neg hin]
        simp only [show ¬ 4 + (0x0f &&& b0).toNat ≤ rest.length + 1 + 1 + 1 + 1 by omega, false_and,
          iff_false, not_not]
        rfl
    · -- the header is refused
      have hrefused : coapParseMessage (b0 :: b1 :: b2 :: b3 :: rest)
          (b0 :: b1 :: b2 :: b3 :: rest).length ≠ none := by
        rw [coapParseMessage_cons]
        split_ifs with hversion htokenLen
        · simp
        · simp
        · exact absurd ⟨not_not.mp hversion, htokenLen⟩ hvalid
      exact ⟨fun _ hversion htokenLen => absurd ⟨hversion, htokenLen⟩ hvalid, fun _ => hrefused⟩
  · simp only [hfour, false_and, iff_false, not_not]
    rcases data with _ | ⟨a, _ | ⟨b, _ | ⟨c, _ | ⟨d, rest⟩⟩⟩⟩
    · rfl
    · rfl
    · rfl
    · rfl
    · simp at hfour

/-- Datagrams the parser leaves: one of three bytes, one whose token is cut, one whose option header
is cut, and one with a payload of one byte, behind which the zero is written. -/
theorem parse_outside :
    coapParseMessage [0x40, 1, 0] 3 = none ∧ coapParseMessage [0x41, 1, 0, 0] 4 = none ∧
    coapParseMessage [0x40, 1, 0, 0, 0xd0] 5 = none ∧
    coapParseMessage [0x40, 1, 0, 0, 0xff, 97] 6 = none :=
  ⟨rfl, rfl, rfl, rfl⟩

end Parse

end Nespy.Coap
