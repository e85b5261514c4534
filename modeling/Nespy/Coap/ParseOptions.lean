import Nespy.Coap.Content
import Nespy.Coap.Options

/-!
# Coap — the parser reads what was encoded

The parser follows the machine that reads options (`absorb`).  `Reads s c` says that the parser in
`s` holds the contents `c`, and how the strings lie in the buffer: each behind those of smaller
numbers, and all in front of `current_option`.  So when the next value of a path is moved behind the
path, which is the last string then, nothing else that was read is touched (`Reads.step`).
-/

open List Option

namespace Nespy.Coap

open Nespy.Lib

variable (m : Parsed)

/-! ### Option headers -/

/-- The message with the bit of an option set, which may be one the parser does not know. -/
def CoapMessage.markNumber (optionNumber : ℕ) : Parsed :=
  { m with options := coapSetOption m.options optionNumber }

/-- A turn of the loop behind the header of an option, whose value is at `pos`. -/
def parseBehind (dataLen : ℕ) (s : Parser) (delta length pos : ℕ) :
    Option (Except ParseResult Parser) :=
  if dataLen < pos + length then some (.error ⟨.badRequest, none, s.msg, s.mem⟩)
  else if 60 < s.optionNumber + delta then some (.error ⟨.badRequest, none, s.msg, s.mem⟩)
  else
    match CoapOption.ofNumber (s.optionNumber + delta) with
    | none =>
      if (s.optionNumber + delta) % 2 = 1 then
        some (.error ⟨.badOption, some "Unsupported critical option",
          s.msg.markNumber (s.optionNumber + delta), s.mem⟩)
      else some (.ok ⟨s.mem, pos + length, s.optionNumber + delta,
        s.msg.markNumber (s.optionNumber + delta)⟩)
    | some o =>
      (parseOption ⟨s.mem, pos, s.optionNumber + delta, s.msg.markNumber (s.optionNumber + delta)⟩ o
        length).bind fun
        | .error (status, message) =>
          some (.error ⟨status, message, s.msg.markNumber (s.optionNumber + delta), s.mem⟩)
        | .ok (msg, mem) => some (.ok ⟨mem, pos + length, s.optionNumber + delta, msg⟩)

variable {P : Type} {o : CoapOption} {mem mem' value : List UInt8} {s : Parser} {d : UInt8}
  {dataLen delta k length n p pos : ℕ} {x : Option ℕ × ℕ}

/-- The parser reads a header as `readHeader` does, from the bytes in front of it. -/
theorem parseStep_eq (hd : s.mem[s.pos]? = some d) (hm : d &&& 0xf0 ≠ 0xf0) :
    parseStep dataLen s = (readHeader (s.mem.drop s.pos)).bind fun x =>
      parseBehind dataLen s x.1 x.2.1 (s.pos + x.2.2) := by
  have hd' : (s.mem.drop s.pos)[0]? = some d := by
    rw [getElem?_drop]
    exact hd
  unfold parseStep readHeader
  rw [hd, hd', bind_eq_bind, bind_some, if_neg hm, parseNibble_drop]
  change _ = ((parseNibble (s.mem.drop s.pos) (d >>> 4) 1).bind _).bind _
  cases parseNibble (s.mem.drop s.pos) (d >>> 4) 1 with
  | none => rfl
  | some x =>
    obtain ⟨delta, n⟩ := x
    simp only [map_some, bind_eq_bind, bind_some]
    rw [parseNibble_drop]
    cases parseNibble (s.mem.drop s.pos) (d &&& 0x0f) n with
    | none => rfl
    | some y => rfl

/-- The parser at an option it knows goes on with its value. -/
theorem parseStep_value (hd : s.mem[s.pos]? = some d) (hm : d &&& 0xf0 ≠ 0xf0)
    (hh : readHeader (s.mem.drop s.pos) = some (delta, length, n))
    (ho : s.optionNumber + delta = o.number) (hfit : s.pos + n + length ≤ dataLen) {msg : Parsed}
    (h : parseOption ⟨s.mem, s.pos + n, o.number, s.msg.mark o⟩ o length = some (.ok (msg, mem))) :
    parseStep dataLen s = some (.ok ⟨mem, s.pos + n + length, o.number, msg⟩) := by
  have hle := CoapOption.number_le o
  have hsize : CoapOption.size1.number = 60 := rfl
  rw [parseStep_eq hd hm, hh, bind_some]
  dsimp only
  rw [parseBehind, if_neg (by omega), ho, if_neg (by omega), CoapOption.ofNumber_number]
  exact congrArg (bind · _) h

/-! ### What an option changes -/

/-- The fields of a parsed message that are not options. -/
def CoapMessage.header :
    (UInt8 × CoapMessageType × UInt8 × UInt16) × (UInt8 × List UInt8) × (UInt16 × Option ℕ) :=
  ((m.version, m.type, m.code, m.mid), (m.tokenLen, m.token), (m.payloadLen, m.payload))

/-- Nothing but the fields of `o` is changed. -/
structure OnlyChanges (o : CoapOption) (m m' : Parsed) : Prop where
  options : m'.options = m.options
  header : m'.header = m.header
  str : ∀ o' ≠ o, m'.str o' = m.str o'
  content : ∀ o' ≠ o, ∀ deref, m'.content deref o' = m.content deref o'

/-- The message with the fields of `o` set, from the option's value or, if it is a string, to
`x`. -/
def CoapMessage.setField (o : CoapOption) (value : List UInt8) (x : Option ℕ × ℕ) :
    Parsed :=
  match o with
  | .ifMatch =>
    { m with ifMatchLen := UInt8.ofNat (min coapEtagLen value.length)
             ifMatch := overwrite m.ifMatch (value.take (min coapEtagLen value.length)) }
  | .etag =>
    { m with etagLen := UInt8.ofNat (min coapEtagLen value.length)
             etag := overwrite m.etag (value.take (min coapEtagLen value.length)) }
  | .ifNoneMatch => { m with ifNoneMatch := 1 }
  | .observe => { m with observe := coapParseIntOption value }
  | .uriPort => { m with uriPort := (coapParseIntOption value).toUInt16 }
  | .contentFormat => { m with contentFormat := (coapParseIntOption value).toUInt16 }
  | .maxAge => { m with maxAge := coapParseIntOption value }
  | .accept => { m with accept := (coapParseIntOption value).toUInt16 }
  | .block2 =>
    let (num, more, size, offset) := parseBlock (coapParseIntOption value)
    { m with block2Num := num, block2More := more, block2Size := size, block2Offset := offset }
  | .block1 =>
    let (num, more, size, offset) := parseBlock (coapParseIntOption value)
    { m with block1Num := num, block1More := more, block1Size := size, block1Offset := offset }
  | .size2 => { m with size2 := coapParseIntOption value }
  | .size1 => { m with size1 := coapParseIntOption value }
  | .uriHost => { m with uriHost := x.1, uriHostLen := x.2 }
  | .locationPath => { m with locationPath := x.1, locationPathLen := x.2 }
  | .uriPath => { m with uriPath := x.1, uriPathLen := x.2 }
  | .uriQuery => { m with uriQuery := x.1, uriQueryLen := x.2 }
  | .locationQuery => { m with locationQuery := x.1, locationQueryLen := x.2 }
  | .proxyUri | .proxyScheme => m

theorem setField_onlyChanges (o : CoapOption) (value : List UInt8) (x : Option ℕ × ℕ) :
    OnlyChanges o m (m.setField o value x) where
  options := by cases o <;> rfl
  header := by cases o <;> rfl
  str o' ho := by cases o <;> cases o' <;> first | rfl | exact absurd rfl ho
  content o' ho deref := by cases o <;> cases o' <;> first | rfl | exact absurd rfl ho

theorem overwrite_take (old bs : List UInt8) (h : bs.length = n) :
    (overwrite old bs).take n = bs := by
  rw [overwrite, take_append_of_le_length h.ge, take_of_length_le h.le]

theorem take_etagLen (old value : List UInt8) :
    (overwrite old (value.take (min coapEtagLen value.length))).take
      (UInt8.ofNat (min coapEtagLen value.length)).toNat = value.take coapEtagLen := by
  have hle : min coapEtagLen value.length ≤ 8 := Nat.min_le_left _ _
  rw [UInt8.toNat_ofNat', Nat.mod_eq_of_lt (by omega), overwrite_take _ _ (by simp)]
  exact take_eq_take_min.symm

/-- An option is a string, or it is a proxy option, which the parser refuses. -/
def CoapOption.isString : CoapOption → Bool
  | .uriHost | .locationPath | .uriPath | .uriQuery | .locationQuery => true
  | _ => false

/-- The parser does not support these. -/
def CoapOption.isProxy : CoapOption → Bool
  | .proxyUri | .proxyScheme => true
  | _ => false

theorem str_setField (ho : o.isString) (m : Parsed) (value : List UInt8)
    (x : Option ℕ × ℕ) : (m.setField o value x).str o = x := by
  cases o <;> first | rfl | exact absurd ho (by decide)

/-- A string's content is the string. -/
theorem content_of_isString (ho : o.isString) (m : CoapMessage P) (deref : P → List UInt8) :
    m.content deref o = .bytes (text deref (m.str o)) := by
  cases o <;> first | rfl | exact absurd ho (by decide)

theorem str_of_not_isString (ho : o.isString = false) (hproxy : o.isProxy = false)
    (m : CoapMessage P) :
    m.str o = (none, 0) := by
  cases o <;> first | rfl | exact absurd ho (by decide) | exact absurd hproxy (by decide)

/-- Any other option gets its content from the value alone. -/
theorem content_setField (ho : o.isString = false) (hproxy : o.isProxy = false)
    (m : Parsed) (value : List UInt8) (x : Option ℕ × ℕ) (deref : ℕ → List UInt8)
    (old : Option Content) : (m.setField o value x).content deref o = accumulate o old value := by
  cases o with
  | ifMatch | etag => exact congrArg Content.bytes (take_etagLen _ value)
  | _ => first | rfl | exact absurd ho (by decide) | exact absurd hproxy (by decide)

/-- Only the place of its string tells how a content depends on the buffer. -/
theorem content_congr (m : CoapMessage P) {deref deref' : P → List UInt8}
    (h : text deref (m.str o) = text deref' (m.str o)) :
    m.content deref o = m.content deref' o := by
  cases o <;> first | rfl | exact congrArg Content.bytes h

section Option

variable (hv : bytesAt s.mem s.pos value.length = some value)

include hv

theorem parseOption_scalar (hstr : o.isString = false) (hproxy : o.isProxy = false)
    (x : Option ℕ × ℕ) :
    parseOption s o value.length = some (.ok (s.msg.setField o value x, s.mem)) := by
  rw [parseOption, hv]
  cases o <;> first | rfl | exact absurd hstr (by decide) | exact absurd hproxy (by decide)

theorem parseOption_uriHost :
    parseOption s .uriHost value.length =
      some (.ok (s.msg.setField .uriHost value (some s.pos, value.length), s.mem)) := by
  rw [parseOption, hv]
  rfl

theorem parseOption_merge {sep : UInt8} (ho : o.separator? = some sep)
    (h : coapMergeMultiOption s.mem (s.msg.str o).1 (s.msg.str o).2 s.pos value.length sep =
      some (mem, x)) :
    parseOption s o value.length = some (.ok (s.msg.setField o value x, mem)) := by
  rw [parseOption, hv]
  cases o with
  | locationPath | uriPath | uriQuery | locationQuery =>
    cases ho
    exact congrArg (bind · _) h
  | _ => cases ho

end Option

/-! ### Merging -/

/-- **A value moved behind its string.**  `gap` is what lies between the two, at least the header of
the option. -/
theorem coapMergeMultiOption_append {pre old gap : List UInt8} {dstLen : ℕ}
    (hp : pre.length = p) (hold : old.length = dstLen) (hpos : p + dstLen + gap.length = pos)
    (hlen : 0 < dstLen) (hgap : gap ≠ []) (sep : UInt8) (value rest : List UInt8) :
    ∃ gap', gap'.length + 1 = gap.length ∧
      coapMergeMultiOption (pre ++ (old ++ (gap ++ (value ++ rest))))
        (some p) dstLen pos value.length
        sep = some (pre ++ (old ++ (sep :: value ++ (gap' ++ rest))), some p,
          dstLen + 1 + value.length) := by
  obtain ⟨g, gap, rfl⟩ := exists_cons_of_ne_nil hgap
  refine ⟨(gap ++ value).drop value.length, by simp, ?_⟩
  have hpre : (pre ++ old).length = p + dstLen := by rw [length_append, hp, hold]
  have hfirst : writeAt (pre ++ (old ++ (g :: gap ++ (value ++ rest)))) (p + dstLen) [sep] =
      some (pre ++ old ++ ([sep] ++ (gap ++ (value ++ rest)))) := by
    rw [← append_assoc]
    exact writeAt_append hpre (show [g].length = [sep].length from rfl) _
  have hvalue : bytesAt (pre ++ old ++ ([sep] ++ (gap ++ (value ++ rest)))) pos value.length =
      some value := by
    have hdrop : (pre ++ old ++ ([sep] ++ (gap ++ (value ++ rest)))).drop pos = value ++ rest := by
      have hpos' : pos = (pre ++ old ++ [sep] ++ gap).length := by
        rw [← hpos, length_append, length_append, length_cons,
          length_singleton]
        omega
      rw [hpos', show pre ++ old ++ ([sep] ++ (gap ++ (value ++ rest))) =
        pre ++ old ++ [sep] ++ gap ++ (value ++ rest) by simp only [append_assoc], drop_left]
    rw [bytesAt, hdrop, readN_append rfl]
    rfl
  have hsecond :
    writeAt (pre ++ old ++ ([sep] ++ (gap ++ (value ++ rest)))) (p + (dstLen + 1)) value =
      some (pre ++ old ++ [sep] ++ (value ++ (gap ++ (value ++ rest)).drop value.length)) := by
    rw [← append_assoc]
    refine writeAt_room ?_ ?_
    · rw [length_append, hpre, length_singleton, Nat.add_assoc]
    · simp only [length_append]
      omega
  have hrest : (gap ++ (value ++ rest)).drop value.length =
      (gap ++ value).drop value.length ++ rest := by
    rw [← append_assoc, drop_append_of_le_length (by simp)]
  simp only [coapMergeMultiOption, if_pos hlen, bind_eq_bind, bind_some, hfirst, hvalue,
    hsecond, hrest]
  simp only [append_assoc, cons_append, nil_append]

/-! ### The parser's state -/

/-- The strings of a message lie in `mem`. -/
theorem text_eq_of_take (hk : p + n ≤ k) (h : mem'.take k = mem.take k) :
    text (mem'.drop ·) (some p, n) = text (mem.drop ·) (some p, n) := by
  have hslice : ∀ l : List UInt8, (l.drop p).take n = ((l.take k).drop p).take n := by
    intro l
    rw [drop_take, take_take, Nat.min_eq_left (by omega)]
  exact (hslice mem').trans ((congrArg (fun l => (l.drop p).take n) h).trans (hslice mem).symm)

theorem text_zero (deref : P → List UInt8) {x : Option P × ℕ} (h : x.2 = 0) :
    text deref x = [] := by
  rw [text, h, take_zero]

/-- The parser holds the contents `c`. -/
structure Reads (s : Parser) (c : CoapOption → Option Content) : Prop where
  contents : ∀ o, s.msg.contents (s.mem.drop ·) o = c o
  strings : ∀ o, 0 < (s.msg.str o).2 → s.msg.has o ∧ o.number ≤ s.optionNumber ∧
    ∃ p, (s.msg.str o).1 = some p ∧ p + (s.msg.str o).2 ≤ s.pos
  ordered : ∀ o o' p p', o.number < o'.number → 0 < (s.msg.str o).2 → 0 < (s.msg.str o').2 →
    (s.msg.str o).1 = some p → (s.msg.str o').1 = some p' → p + (s.msg.str o).2 ≤ p'
  pos_le : s.pos ≤ s.mem.length

/-- The strings read before, seen from an option that is read next, are in front of `k`. -/
def EndBefore (o : CoapOption) (k : ℕ) : Prop :=
  ∀ o' ≠ o, 0 < (m.str o').2 → ∃ q, (m.str o').1 = some q ∧ q + (m.str o').2 ≤ k

theorem EndBefore.text_eq {m : Parsed} (h : EndBefore m o k) (hmem : mem'.take k = mem.take k)
    {o' : CoapOption} (ho : o' ≠ o) :
    text (mem'.drop ·) (m.str o') = text (mem.drop ·) (m.str o') := by
  rcases Nat.eq_zero_or_pos (m.str o').2 with hzero | hlen
  · rw [text_zero _ hzero, text_zero _ hzero]
  · obtain ⟨q, hq, hk⟩ := h o' ho hlen
    rw [show m.str o' = (some q, (m.str o').2) from Prod.ext hq rfl]
    exact text_eq_of_take hk hmem

section Step

variable {c : CoapOption → Option Content}

theorem str_mark (m : CoapMessage P) (o o' : CoapOption) : (m.mark o).str o' = m.str o' := by
  cases o' <;> rfl

theorem content_mark (m : CoapMessage P) (deref : P → List UInt8) (o o' : CoapOption) :
    (m.mark o).content deref o' = m.content deref o' := by
  cases o' <;> rfl

variable {sep : UInt8}

/-- **One option has been read.**  `htext`: the other strings are where they were; `hstr`: the
option's own string is behind them. -/
theorem Reads.update (h : Reads s c) (hnum : s.optionNumber ≤ o.number) (hproxy : o.isProxy = false)
    (hpos : s.pos ≤ pos) (hmem : pos ≤ mem.length)
    (htext : ∀ o' ≠ o, text (mem.drop ·) (s.msg.str o') = text (s.mem.drop ·) (s.msg.str o'))
    (hcontent : ((s.msg.mark o).setField o value x).content (mem.drop ·) o =
      accumulate o (c o) value)
    (hstr : o.isString → 0 < x.2 → ∃ p, x.1 = some p ∧ p + x.2 ≤ pos ∧ EndBefore s.msg o p) :
    Reads ⟨mem, pos, o.number, (s.msg.mark o).setField o value x⟩ (absorb c (o, value)) := by
  have honly := setField_onlyChanges (s.msg.mark o) o value x
  generalize hm : (s.msg.mark o).setField o value x = m at *
  have hhas : ∀ o', m.has o' = (decide (o' = o) || s.msg.has o') := by
    intro o'
    rw [← has_setOption, CoapMessage.has, honly.options]
    rfl
  have hother : ∀ o' ≠ o, m.str o' = s.msg.str o' := by
    intro o' ho
    rw [honly.str o' ho, str_mark]
  have hself : 0 < (m.str o).2 → o.isString ∧ m.str o = x := by
    intro hlen
    by_cases ho : o.isString
    · exact ⟨ho, hm ▸ str_setField ho _ _ _⟩
    · rw [str_of_not_isString (by simpa using ho) hproxy] at hlen
      exact absurd hlen (lt_irrefl 0)
  refine ⟨fun o' => ?_, fun o' hlen => ?_, fun o₁ o₂ p p' hlt hlen hlen' hp hp' => ?_, hmem⟩
  · by_cases ho : o' = o
    · subst ho
      rw [CoapMessage.contents, hhas, decide_eq_true rfl, Bool.true_or,
        if_pos rfl, hcontent, absorb, Function.update_self]
    · rw [absorb, Function.update_of_ne ho, ← h.contents o', CoapMessage.contents,
        CoapMessage.contents, hhas, decide_eq_false ho, Bool.false_or, honly.content o' ho,
        content_mark, content_congr _ (htext o' ho)]
  · by_cases ho : o' = o
    · subst ho
      obtain ⟨ho, hx⟩ := hself hlen
      rw [hx] at hlen ⊢
      obtain ⟨p, hp, hle, -⟩ := hstr ho hlen
      exact ⟨by rw [hhas, decide_eq_true rfl, Bool.true_or], le_rfl, p, hp, hle⟩
    · rw [hother o' ho] at hlen ⊢
      obtain ⟨hset, hnum', p, hp, hle⟩ := h.strings o' hlen
      exact ⟨by rw [hhas, hset, Bool.or_true], hnum'.trans hnum, p, hp, hle.trans hpos⟩
  · by_cases ho₁ : o₁ = o
    · -- a string of a larger number has not been read
      subst ho₁
      have ho₂ : o₂ ≠ o₁ := by
        rintro rfl
        exact lt_irrefl _ hlt
      rw [hother o₂ ho₂] at hlen'
      obtain ⟨-, hnum', -⟩ := h.strings o₂ hlen'
      omega
    · rw [hother o₁ ho₁] at hlen hp ⊢
      by_cases ho₂ : o₂ = o
      · subst ho₂
        obtain ⟨ho, hx⟩ := hself hlen'
        rw [hx] at hlen' hp'
        obtain ⟨q, hq, -, hbefore⟩ := hstr ho hlen'
        obtain ⟨r, hr, hle⟩ := hbefore o₁ ho₁ hlen
        rw [hp'] at hq
        rw [hp] at hr
        cases hq
        cases hr
        exact hle
      · rw [hother o₂ ho₂] at hlen' hp'
        exact h.ordered o₁ o₂ p p' hlt hlen hlen' hp hp'

/-- What is known where the value of an option starts. -/
theorem Reads.endBefore_pos (h : Reads s c) (o : CoapOption) : EndBefore s.msg o s.pos := by
  intro o' _ hlen
  obtain ⟨-, -, p, hp, hle⟩ := h.strings o' hlen
  exact ⟨p, hp, hle⟩

theorem Reads.endBefore_string (h : Reads s c) (hnum : s.optionNumber ≤ o.number)
    (hlen : 0 < (s.msg.str o).2) {p : ℕ} (hp : (s.msg.str o).1 = some p) : EndBefore s.msg o p := by
  intro o' ho hlen'
  obtain ⟨-, hnum', q, hq, -⟩ := h.strings o' hlen'
  have hne : o'.number ≠ o.number := fun he => ho (CoapOption.number_injective he)
  exact ⟨q, hq, h.ordered o' o q p (by omega) hlen' hlen hq hp⟩

theorem accumulate_join (ho : o.separator? = some sep) (old : Option Content)
    (value : List UInt8) : accumulate o old value = .bytes (join sep old value) := by
  cases o with
  | locationPath | uriPath | uriQuery | locationQuery =>
    cases ho
    rfl
  | _ => cases ho

theorem isString_of_separator (ho : o.separator? = some sep) : o.isString := by
  cases o <;> first | rfl | cases ho

theorem isString_cases (ho : o.isString) : o = .uriHost ∨ ∃ sep, o.separator? = some sep := by
  cases o <;> first | exact .inl rfl | exact .inr ⟨_, rfl⟩ | exact absurd ho (by decide)

theorem isProxy_of_isString (ho : o.isString) : o.isProxy = false := by
  cases o <;> first | rfl | exact absurd ho (by decide)

/-- The outcome of the `switch`: the message, and a buffer in which what follows is as it was. -/
def Outcome (s : Parser) (c : CoapOption → Option Content) (o : CoapOption) (pos : ℕ)
    (value rest : List UInt8) : Prop :=
  ∃ x mem, parseOption ⟨s.mem, pos, o.number, s.msg.mark o⟩ o value.length =
      some (.ok ((s.msg.mark o).setField o value x, mem)) ∧
    mem.drop (pos + value.length) = rest ∧ mem.length = s.mem.length ∧
    Reads ⟨mem, pos + value.length, o.number,
      (s.msg.mark o).setField o value x⟩ (absorb c (o, value))

variable {rest : List UInt8}

section

variable (hmem : mem.drop pos = value ++ rest)

include hmem

theorem bytesAt_of_drop :
    bytesAt mem pos value.length = some value := by
  rw [bytesAt, hmem, readN_append rfl]
  rfl

theorem length_of_drop (hpos : pos ≤ mem.length) :
    pos + value.length ≤ mem.length := by
  have := congrArg length hmem
  rw [length_drop, length_append] at this
  omega

theorem drop_value :
    mem.drop (pos + value.length) = rest := by
  rw [← drop_drop, hmem, drop_left]

end

/-- The first value of a string is taken as it is. -/
theorem Reads.accumulate_fresh (h : Reads s c) (hstr : o.isString)
    (hfresh : o = .uriHost ∨ (s.msg.str o).2 = 0) (value : List UInt8) :
    accumulate o (c o) value = .bytes value := by
  rcases isString_cases hstr with rfl | ⟨sep, hsep⟩
  · rfl
  · rcases hfresh with rfl | hzero
    · rfl
    · rw [accumulate_join hsep, ← h.contents o, CoapMessage.contents, content_of_isString hstr,
        text_zero _ hzero]
      cases s.msg.has o <;> rfl

section Outcome

variable (h : Reads s c) (hnum : s.optionNumber ≤ o.number) (hpos : s.pos < pos)
  (hpos' : pos ≤ s.mem.length) (hmem : s.mem.drop pos = value ++ rest)

include h hnum hpos hpos' hmem

theorem outcome_scalar (hstr : o.isString = false) (hproxy : o.isProxy = false) :
    Outcome s c o pos value rest := by
  refine ⟨(none, 0), s.mem, parseOption_scalar (bytesAt_of_drop hmem) hstr hproxy _,
    drop_value hmem, rfl, ?_⟩
  exact h.update hnum hproxy (by omega) (length_of_drop hmem hpos') (fun _ _ => rfl)
    (content_setField hstr hproxy _ _ _ _ _) fun ho => absurd ho (by simp [hstr])

theorem outcome_fresh (hstr : o.isString) (hfresh : o = .uriHost ∨ (s.msg.str o).2 = 0) :
    Outcome s c o pos value rest := by
  have hbytes := bytesAt_of_drop hmem
  have hparse : parseOption ⟨s.mem, pos, o.number, s.msg.mark o⟩ o value.length =
      some (.ok ((s.msg.mark o).setField o value (some pos, value.length), s.mem)) := by
    rcases hfresh with rfl | hzero
    · exact parseOption_uriHost hbytes
    · rcases isString_cases hstr with rfl | ⟨sep, hsep⟩
      · exact parseOption_uriHost hbytes
      · refine parseOption_merge hbytes hsep ?_
        rw [str_mark, hzero]
        rfl
  refine ⟨(some pos, value.length), s.mem, hparse, drop_value hmem, rfl, ?_⟩
  refine h.update hnum (isProxy_of_isString hstr) (by omega) (length_of_drop hmem hpos')
    (fun _ _ => rfl) ?_ fun _ _ => ⟨pos, rfl, le_rfl, ?_⟩
  · have htext : text (s.mem.drop ·) (some pos, value.length) = value := by
      rw [text, elim_some, hmem, take_left]
    rw [content_of_isString hstr, str_setField hstr, htext, h.accumulate_fresh hstr hfresh]
  · intro o' ho hlen
    obtain ⟨q, hq, hle⟩ := h.endBefore_pos o o' ho hlen
    exact ⟨q, hq, hle.trans hpos.le⟩

/-- A further value of a path or of a query. -/
theorem outcome_merge (hsep : o.separator? = some sep) (hlen : 0 < (s.msg.str o).2) :
    Outcome s c o pos value rest := by
  have hstr := isString_of_separator hsep
  obtain ⟨hhas, -, p, hp, hend⟩ := h.strings o hlen
  generalize hn : (s.msg.str o).2 = n
  rw [hn] at hlen hend
  -- the buffer: what is in front of the string, the string, a gap and the value
  obtain ⟨pre, old, gap, hbuf, hpre, hold, hgap⟩ : ∃ pre old gap,
      s.mem = pre ++ (old ++ (gap ++ (value ++ rest))) ∧ pre.length = p ∧ old.length = n ∧
        p + n + gap.length = pos := by
    refine ⟨s.mem.take p, (s.mem.drop p).take n, (s.mem.drop (p + n)).take (pos - (p + n)), ?_,
      ?_, ?_, ?_⟩
    · have hlast : s.mem.drop pos = (s.mem.drop (p + n)).drop (pos - (p + n)) := by
        rw [drop_drop, Nat.add_sub_cancel' (by omega)]
      rw [← hmem, hlast, take_append_drop, ← drop_drop, take_append_drop,
        take_append_drop]
    · rw [length_take]
      omega
    · rw [length_take, length_drop]
      omega
    · rw [length_take, length_drop]
      omega
  obtain ⟨gap', hgap', hmerge⟩ := coapMergeMultiOption_append hpre hold hgap hlen
    (ne_nil_of_length_pos (by omega)) sep value rest
  generalize hmem' : pre ++ (old ++ (sep :: value ++ (gap' ++ rest))) = mem'
  rw [← hbuf, hmem'] at hmerge
  have hparse : parseOption ⟨s.mem, pos, o.number, s.msg.mark o⟩ o value.length =
      some (.ok ((s.msg.mark o).setField o value (some p, n + 1 + value.length), mem')) := by
    refine parseOption_merge (bytesAt_of_drop hmem) hsep ?_
    rw [str_mark, hp, hn, hmerge]
  have hfront : mem' = pre ++ old ++ (sep :: value) ++ gap' ++ rest := by
    rw [← hmem']
    simp only [append_assoc]
  have hfrontLen : (pre ++ old ++ (sep :: value) ++ gap').length = pos + value.length := by
    simp only [length_append, length_cons]
    omega
  have hlen' : mem'.length = s.mem.length := by
    rw [hfront, hbuf, length_append, hfrontLen]
    simp only [length_append]
    omega
  have htake : mem'.take (p + n) = s.mem.take (p + n) := by
    have hpn : (pre ++ old).length = p + n := by rw [length_append, hpre, hold]
    have hcut : ∀ l : List UInt8, (pre ++ (old ++ l)).take (p + n) = pre ++ old := by
      intro l
      rw [← append_assoc, ← hpn, take_left]
    rw [← hmem', hbuf, hcut, hcut]
  refine ⟨(some p, n + 1 + value.length), mem', hparse, ?_, hlen', ?_⟩
  · rw [hfront, ← hfrontLen, drop_left]
  have hbefore : EndBefore s.msg o p := h.endBefore_string hnum (hn ▸ hlen) hp
  refine h.update hnum (isProxy_of_isString hstr) (by omega)
    (hlen' ▸ length_of_drop hmem hpos') (fun o' ho => ?_) ?_ fun _ _ => ⟨p, rfl, ?_, hbefore⟩
  · refine EndBefore.text_eq (fun o' ho hl => ?_) htake ho
    obtain ⟨q, hq, hle⟩ := hbefore o' ho hl
    exact ⟨q, hq, by omega⟩
  · -- the string and its new value
    have hold' : s.msg.contents (s.mem.drop ·) o = some (.bytes old) := by
      rw [CoapMessage.contents, if_pos hhas, content_of_isString hstr, text, hp, hn, elim_some,
        hbuf, ← hpre, drop_left, ← hold, take_left]
    have htext : text (mem'.drop ·) (some p, n + 1 + value.length) = old ++ sep :: value := by
      have hall : (old ++ sep :: value).length = n + 1 + value.length := by
        simp only [length_append, length_cons]
        omega
      rw [text, elim_some, ← hmem', ← hpre, drop_left, ← append_assoc, ← hall,
        take_left]
    rw [content_of_isString hstr, str_setField hstr, htext,
      accumulate_join hsep, ← h.contents o, hold']
    obtain ⟨b, bs, rfl⟩ := exists_cons_of_ne_nil (ne_nil_of_length_pos (hold ▸ hlen))
    rfl
  · omega

end Outcome

/-- **An option is read**, whatever its header. -/
theorem Reads.step (h : Reads s c) (hproxy : o.isProxy = false) {delta n : ℕ}
    (ho : s.optionNumber + delta = o.number) {d : UInt8} (hd : s.mem[s.pos]? = some d)
    (hm : d &&& 0xf0 ≠ 0xf0) (hh : readHeader (s.mem.drop s.pos) = some (delta, value.length, n))
    (hmem : s.mem.drop (s.pos + n) = value ++ rest) {dataLen : ℕ}
    (hfit : s.pos + n + value.length ≤ dataLen) :
    ∃ s', parseStep dataLen s = some (.ok s') ∧ Reads s' (absorb c (o, value)) ∧
      s'.pos = s.pos + n + value.length ∧ s'.optionNumber = o.number ∧
      s'.mem.drop s'.pos = rest ∧ s'.mem.length = s.mem.length ∧ s'.msg.header = s.msg.header ∧
      s'.msg.options = coapSetOption s.msg.options o.number := by
  have hnum : s.optionNumber ≤ o.number := by omega
  obtain ⟨-, hn, hin⟩ := readHeader_spec hh
  have hpos : s.pos < s.pos + n := by omega
  have hpos' : s.pos + n ≤ s.mem.length := by
    rw [length_drop] at hin
    omega
  obtain ⟨x, mem, hparse, hrest, hlen', hreads⟩ : Outcome s c o (s.pos + n) value rest := by
    by_cases hstr : o.isString
    · rcases isString_cases hstr with rfl | ⟨sep, hsep⟩
      · exact outcome_fresh h hnum hpos hpos' hmem hstr (.inl rfl)
      · rcases Nat.eq_zero_or_pos (s.msg.str o).2 with hzero | hlen
        · exact outcome_fresh h hnum hpos hpos' hmem hstr (.inr hzero)
        · exact outcome_merge h hnum hpos hpos' hmem hsep hlen
    · exact outcome_scalar h hnum hpos hpos' hmem (by simpa using hstr) hproxy
  have honly := setField_onlyChanges (s.msg.mark o) o value x
  exact ⟨_, parseStep_value hd hm hh ho hfit hparse, hreads, rfl, rfl, hrest, hlen', honly.header,
    honly.options⟩

end Step

end Nespy.Coap
