import Nespy.Coap.ParseOptions

/-!
# Coap — a datagram is scanned

What the parser makes of a datagram, read off the bytes as they were received: `scanOptions` goes
over the options with `readHeader` and changes nothing.  `parseLoop_scan`: the parser, which moves
values about in the buffer as it goes, stops where the scan stops and has the contents of the
options that were scanned.  It holds because what is in front of `current_option` is never written
before it has been read.
-/

open List

namespace Nespy.Coap

open Nespy.Lib

/-! ### The scan -/

/-- The parser stops at an option it does not know and must not skip, and at the options of a
proxy. -/
def refusedNumber (number : ℕ) : Bool :=
  match CoapOption.ofNumber number with
  | none => number % 2 = 1
  | some o => o.isProxy

/-- What a scan finds: the options with their numbers, and the payload if there is a marker; an
option that is refused; or an option header that is not complete. -/
inductive Scan where
  | done (opts : List (ℕ × List UInt8)) (payload : Option (List UInt8))
  | refused
  | cut
  deriving DecidableEq

/-- The scan with an option in front. -/
def Scan.cons (x : ℕ × List UInt8) : Scan → Scan
  | done opts payload => done (x :: opts) payload
  | refused => refused
  | cut => cut

/-- The scan of the options behind one of number `number`. -/
def scanOptions : ℕ → ℕ → List UInt8 → Scan
  | _, _, [] => .done [] none
  | 0, _, _ :: _ => .refused
  | fuel + 1, number, d :: bytes =>
    if d &&& 0xf0 = 0xf0 then .done [] (some bytes)
    else
      match readHeader (d :: bytes) with
      | none => .cut
      | some (delta, length, n) =>
        if bytes.length + 1 < n + length ∨ 60 < number + delta ∨ refusedNumber (number + delta) then
          .refused
        else
          (scanOptions fuel (number + delta) ((d :: bytes).drop (n + length))).cons
            (number + delta, ((d :: bytes).drop n).take length)

/-- The options the parser knows. -/
def knownOptions (opts : List (ℕ × List UInt8)) : List RawOption :=
  opts.filterMap fun x => (CoapOption.ofNumber x.1).map (·, x.2)

/-- The first byte of a header that was written is no payload marker. -/
theorem coapSetOptionHeader_cons (delta length : ℕ) :
    ∃ d bytes, coapSetOptionHeader delta length = d :: bytes ∧ d &&& 0xf0 ≠ 0xf0 := by
  obtain ⟨a, ha⟩ := coapOptionNibble_eq delta
  obtain ⟨b, hb⟩ := coapOptionNibble_eq length
  obtain ⟨hmark, -⟩ := nibbles a b
  rw [← ha, ← hb] at hmark
  exact ⟨_, _, rfl, hmark⟩

/-- **Encoded options are scanned**, and what is behind them. -/
theorem scanOptions_encode {rest : List UInt8} {payload : Option (List UInt8)}
    (hrest : ∀ fuel number, rest.length ≤ fuel → scanOptions fuel number rest = .done [] payload)
    (opts : List RawOption) : ∀ {fuel number : ℕ},
      (∀ x ∈ opts, number ≤ x.1.number ∧ x.1.isProxy = false) →
      (opts.Pairwise fun x y => x.1.number ≤ y.1.number) →
      (encode number opts ++ rest).length ≤ fuel → (encode number opts ++ rest).length < 65536 →
      scanOptions fuel number (encode number opts ++ rest) =
        .done (opts.map fun x => (x.1.number, x.2)) payload := by
  induction opts with
  | nil => exact fun _ _ hfuel _ => hrest _ _ hfuel
  | cons x opts ih =>
    intro fuel number hopts hsorted hfuel hdata
    obtain ⟨o, value⟩ := x
    obtain ⟨hfirst, hsorted⟩ := pairwise_cons.mp hsorted
    obtain ⟨hnum, hproxy⟩ : number ≤ o.number ∧ o.isProxy = false := hopts _ mem_cons_self
    have hle := CoapOption.number_le o
    have hsize : CoapOption.size1.number = 60 := rfl
    obtain ⟨d, bytes, hheader, hm⟩ := coapSetOptionHeader_cons (o.number - number) value.length
    have hread := readHeader_coapSetOptionHeader (o.number - number) value.length
      (value ++ (encode o.number opts ++ rest))
    simp only [encode, append_assoc, hheader, length_append, length_cons] at hfuel hdata hread ⊢
    rw [saidValue_of_lt (delta_lt o _), saidValue_of_lt (by omega), cons_append] at hread
    obtain _ | fuel := fuel
    · omega
    rw [cons_append, scanOptions, if_neg hm, hread]
    dsimp only
    have hdrop :
      (d :: (bytes ++ (value ++ (encode o.number opts ++ rest)))).drop (bytes.length + 1) =
        value ++ (encode o.number opts ++ rest) := drop_left
    rw [Nat.add_sub_cancel' hnum, drop_value hdrop, hdrop, take_left, if_neg, ih _ hsorted]
    · rfl
    · rw [length_append]
      omega
    · rw [length_append]
      omega
    · exact fun y hy => ⟨hfirst y hy, (hopts y (mem_cons_of_mem _ hy)).2⟩
    · rw [refusedNumber, CoapOption.ofNumber_number]
      simp only [hproxy, length_append, Bool.false_eq_true, or_false]
      omega

theorem knownOptions_numbers (opts : List RawOption) :
    knownOptions (opts.map fun x => (x.1.number, x.2)) = opts := by
  rw [knownOptions, filterMap_map]
  simp

/-! ### Where the parser is -/

variable {c : CoapOption → Option Content} {mem tail bytes : List UInt8} {s s₁ : Parser} {d : UInt8}
  {delta length n dataLen : ℕ} {x : ℕ × List UInt8}

/-- A message without options, as the parser has it at the first one. -/
theorem Reads.start {msg : Parsed} (hopts : msg.options = fun _ => 0)
    (hstr : ∀ o, (msg.str o).2 = 0) {pos : ℕ} (hpos : pos ≤ mem.length) :
    Reads ⟨mem, pos, 0, msg⟩ fun _ => none := by
  refine ⟨fun o => ?_, fun o ho => ?_, fun o _ _ _ _ ho => ?_, hpos⟩
  · rw [CoapMessage.contents, has_of_options_zero hopts, if_neg Bool.false_ne_true]
  · rw [hstr o] at ho
    exact absurd ho (lt_irrefl 0)
  · rw [hstr o] at ho
    exact absurd ho (lt_irrefl 0)

theorem parseLoop_end (h : dataLen ≤ s.pos) (fuel : ℕ) :
    parseLoop dataLen fuel s = some ⟨.noError, none, s.msg, s.mem⟩ := by
  cases fuel with
  | zero => rfl
  | succ fuel => rw [parseLoop, if_neg (by omega)]

theorem parseStep_marker {d : UInt8} (hd : s.mem[s.pos]? = some d)
    (hm : d &&& 0xf0 = 0xf0) (dataLen : ℕ) :
    parseStep dataLen s = (parsePayload dataLen s).map .error := by
  rw [parseStep, hd, Option.bind_eq_bind, Option.bind_some, if_pos hm]

/-- The strings are in front of `current_option`. -/
theorem Reads.text_eq (h : Reads s c) (hmem : mem.take s.pos = s.mem.take s.pos) (o : CoapOption) :
    text (mem.drop ·) (s.msg.str o) = text (s.mem.drop ·) (s.msg.str o) := by
  rcases Nat.eq_zero_or_pos (s.msg.str o).2 with hzero | hlen
  · rw [text_zero _ hzero, text_zero _ hzero]
  · obtain ⟨-, -, p, hp, hle⟩ := h.strings o hlen
    rw [show s.msg.str o = (some p, (s.msg.str o).2) from Prod.ext hp rfl]
    exact text_eq_of_take hle hmem

theorem Reads.length_text (h : Reads s c)
    (o : CoapOption) : (text (s.mem.drop ·) (s.msg.str o)).length = (s.msg.str o).2 := by
  rcases Nat.eq_zero_or_pos (s.msg.str o).2 with hzero | hlen
  · rw [text_zero _ hzero, hzero]
    rfl
  · obtain ⟨-, -, p, hp, hle⟩ := h.strings o hlen
    have hpos := h.pos_le
    rw [text, hp, Option.elim_some, length_take, length_drop]
    omega

/-- The parser in `s'` has read `opts` since it was in `s`. -/
structure Behind (s : Parser) (c : CoapOption → Option Content) (opts : List (ℕ × List UInt8))
    (s' : Parser) : Prop where
  reads : Reads s' ((knownOptions opts).foldl absorb c)
  options : s'.msg.options = (opts.map Prod.fst).foldl coapSetOption s.msg.options
  header : s'.msg.header = s.msg.header
  length : s'.mem.length = s.mem.length

theorem Behind.refl (h : Reads s c) : Behind s c [] s :=
  ⟨h, rfl, rfl, rfl⟩

/-- One option more in front. -/
theorem Behind.cons {s₂ : Parser} {opts : List (ℕ × List UInt8)} (h₁ : Behind s c [x] s₁)
    (h₂ : Behind s₁ ((knownOptions [x]).foldl absorb c) opts s₂) : Behind s c (x :: opts) s₂ where
  reads := by
    have hknown : knownOptions (x :: opts) = knownOptions [x] ++ knownOptions opts :=
      filterMap_append (l := [x])
    rw [hknown, foldl_append]
    exact h₂.reads
  options := by
    rw [h₂.options, h₁.options]
    rfl
  header := h₂.header.trans h₁.header
  length := h₂.length.trans h₁.length

/-! ### One option -/

section Step

/-- An option that is skipped sets a bit which is no known option's. -/
theorem Reads.skip (h : Reads s c) {number pos : ℕ} (hk : CoapOption.ofNumber number = none)
    (hmax : number ≤ 60) (hnum : s.optionNumber ≤ number) (hpos : s.pos ≤ pos)
    (hpos' : pos ≤ s.mem.length) : Reads ⟨s.mem, pos, number, s.msg.markNumber number⟩ c := by
  have hhas : ∀ o : CoapOption, (s.msg.markNumber number).has o = s.msg.has o := by
    intro o
    have hne : o.number ≠ number := by
      rintro rfl
      rw [CoapOption.ofNumber_number] at hk
      cases hk
    have hmem := coapIsOption_setOption s.msg.options hmax (CoapOption.number_le o)
    rwa [decide_eq_false hne] at hmem
  refine ⟨fun o => ?_, fun o hlen => ?_, fun o o' p p' hlt hlen hlen' hp hp' => ?_, hpos'⟩
  · have hcontent : (s.msg.markNumber number).content (s.mem.drop ·) o =
        s.msg.content (s.mem.drop ·) o := by
      cases o <;> rfl
    rw [← h.contents o, CoapMessage.contents, CoapMessage.contents, hhas, hcontent]
  · rw [hhas]
    obtain ⟨hset, hnum', p, hp, hle⟩ := h.strings o hlen
    exact ⟨hset, hnum'.trans hnum, p, hp, hle.trans hpos⟩
  · exact h.ordered o o' p p' hlt hlen hlen' hp hp'

theorem length_value (hfit : n + length ≤ bytes.length + 1) :
    (((d :: bytes).drop n).take length).length = length := by
  rw [length_take, length_drop, length_cons]
  omega

variable (hmem : s.mem.drop s.pos = d :: bytes ++ tail)

include hmem

/-- What lies behind the header of an option. -/
theorem drop_header (hfit : n + length ≤ bytes.length + 1) :
    s.mem.drop (s.pos + n) =
      ((d :: bytes).drop n).take length ++ ((d :: bytes).drop (n + length) ++ tail) := by
  rw [← drop_drop, hmem, drop_append_of_le_length (by rw [length_cons]; omega),
    ← append_assoc, ← drop_drop, take_append_drop]

variable (hm : d &&& 0xf0 ≠ 0xf0) (hdata : dataLen = s.pos + (bytes.length + 1))

include hm hdata

/-- A header that is not complete is read behind the datagram, and the option is refused then. -/
theorem parseStep_cut (hh : readHeader (d :: bytes) = none) :
    (tail = [] → parseStep dataLen s = none) ∧
      (parseStep dataLen s = none ∨ ∃ r, parseStep dataLen s = some (.error r) ∧
        r.status ≠ .noError) := by
  have hd : s.mem[s.pos]? = some d := getElem?_of_drop hmem 0
  rw [parseStep_eq hd hm, hmem]
  refine ⟨fun htail => ?_, ?_⟩
  · rw [htail, append_nil, hh]
    rfl
  · cases hx : readHeader (d :: bytes ++ tail) with
    | none => exact .inl rfl
    | some x =>
      obtain ⟨delta, length, n⟩ := x
      have hlt := lt_of_readHeader_append hh hx
      rw [length_cons] at hlt
      refine .inr ⟨⟨.badRequest, none, s.msg, s.mem⟩, ?_, by simp⟩
      rw [Option.bind_some, parseBehind, if_pos (by dsimp only; omega)]

variable (hh : readHeader (d :: bytes) = some (delta, length, n))

include hh

/-- **An option is read as it is scanned.** -/
theorem Reads.scan (h : Reads s c) (hfit : n + length ≤ bytes.length + 1)
    (hmax : s.optionNumber + delta ≤ 60) (href : refusedNumber (s.optionNumber + delta) = false) :
    ∃ s', parseStep dataLen s = some (.ok s') ∧
      Behind s c [(s.optionNumber + delta, ((d :: bytes).drop n).take length)] s' ∧
      s'.pos = s.pos + n + length ∧ s'.optionNumber = s.optionNumber + delta ∧
      s'.mem.drop s'.pos = (d :: bytes).drop (n + length) ++ tail := by
  have hd : s.mem[s.pos]? = some d := getElem?_of_drop hmem 0
  have hhead : readHeader (s.mem.drop s.pos) = some (delta, length, n) := by
    rw [hmem]
    exact readHeader_append hh tail
  have hvalue := drop_header hmem hfit
  have hlen := length_value (d := d) hfit
  generalize hv : ((d :: bytes).drop n).take length = value at *
  unfold refusedNumber at href
  cases ho : CoapOption.ofNumber (s.optionNumber + delta) with
  | some o =>
    rw [ho] at href
    have hnum := CoapOption.eq_number ho
    subst hlen
    obtain ⟨s', hstep, hreads, hpos, hnum', hrest, hlen', hhdr, hopts⟩ :=
      h.step href hnum hd hm hhead hvalue (show _ ≤ dataLen by omega)
    refine ⟨s', hstep, ⟨?_, ?_, hhdr, hlen'⟩, hpos, hnum'.trans hnum.symm, hrest⟩
    · simp only [knownOptions, filterMap_cons, ho]
      exact hreads
    · rw [hopts, ← hnum]
      rfl
  | none =>
    rw [ho] at href
    have hend : s.pos + n + length ≤ s.mem.length := by
      have hlen' := congrArg List.length hmem
      simp only [length_drop, length_append, length_cons] at hlen'
      omega
    refine ⟨⟨s.mem, s.pos + n + length, s.optionNumber + delta,
      s.msg.markNumber (s.optionNumber + delta)⟩, ?_, ⟨?_, rfl, rfl, rfl⟩, rfl, rfl, ?_⟩
    · rw [parseStep_eq hd hm, hhead, Option.bind_some]
      dsimp only
      rw [parseBehind, if_neg (by omega), if_neg (by omega), ho]
      exact if_neg (of_decide_eq_false href)
    · simp only [knownOptions, filterMap_cons, ho]
      exact h.skip ho hmax (by omega) (by omega) hend
    · rw [← drop_drop, hvalue, ← hlen, drop_left]

/-- An option that is refused ends the run. -/
theorem parseStep_refused
    (href : bytes.length + 1 < n + length ∨ 60 < s.optionNumber + delta ∨
      refusedNumber (s.optionNumber + delta) = true) :
    ∃ r, parseStep dataLen s = some (.error r) ∧ r.status ≠ .noError := by
  have hd : s.mem[s.pos]? = some d := getElem?_of_drop hmem 0
  have hhead : readHeader (s.mem.drop s.pos) = some (delta, length, n) := by
    rw [hmem]
    exact readHeader_append hh tail
  rw [parseStep_eq hd hm, hhead, Option.bind_some]
  unfold parseBehind
  by_cases hfit : dataLen < s.pos + n + length
  · rw [if_pos hfit]
    exact ⟨_, rfl, by simp⟩
  rw [if_neg hfit]
  by_cases hmax : 60 < s.optionNumber + delta
  · rw [if_pos hmax]
    exact ⟨_, rfl, by simp⟩
  rw [if_neg hmax]
  have href : refusedNumber (s.optionNumber + delta) = true := by
    rcases href with h | h | h
    · omega
    · exact absurd h hmax
    · exact h
  unfold refusedNumber at href
  cases ho : CoapOption.ofNumber (s.optionNumber + delta) with
  | none =>
    rw [ho] at href
    rw [if_pos (of_decide_eq_true href)]
    exact ⟨_, rfl, by simp⟩
  | some o =>
    rw [ho] at href
    dsimp only at href
    have hvalue := drop_header hmem (show n + length ≤ bytes.length + 1 by omega)
    have hlen := length_value (d := d) (show n + length ≤ bytes.length + 1 by omega)
    have hbytes := bytesAt_of_drop hvalue
    rw [hlen] at hbytes
    have hparse : ∀ (k : ℕ) (msg : Parsed), parseOption ⟨s.mem, s.pos + n, k, msg⟩ o length =
        some (.error (.proxyingNotSupported, some "This is a constrained server (Contiki)")) := by
      intro k msg
      rw [parseOption, hbytes]
      cases o <;> first | rfl | exact absurd href (by decide)
    dsimp only
    rw [hparse]
    exact ⟨_, rfl, by simp⟩

end Step

/-! ### The loop -/

/-- What the loop returns, by what the scan found.  `tail` are the bytes of the buffer behind the
datagram. -/
def Scan.Gives (tail : List UInt8) (dataLen : ℕ) (s : Parser) (c : CoapOption → Option Content) :
    Scan → Option ParseResult → Prop
  | done opts none, res => ∃ s', Behind s c opts s' ∧ res = some ⟨.noError, none, s'.msg, s'.mem⟩
  | done opts (some payload), res => ∃ s' d, Behind s c opts s' ∧
      s'.mem.drop s'.pos = d :: (payload ++ tail) ∧ dataLen = s'.pos + 1 + payload.length ∧
      res = parsePayload dataLen s'
  | refused, res => ∃ r, res = some r ∧ r.status ≠ .noError
  | cut, res => (tail = [] → res = none) ∧ ∀ r, res = some r → r.status ≠ .noError

/-- The loop from the next option on. -/
theorem Scan.Gives.cons (h : Behind s c [x] s₁) {f : Scan}
    {res : Option ParseResult} (hf : f.Gives tail dataLen s₁
      ((knownOptions [x]).foldl absorb c) res) :
    (f.cons x).Gives tail dataLen s c res := by
  cases f with
  | refused => exact hf
  | cut => exact hf
  | done opts payload =>
    cases payload with
    | none =>
      obtain ⟨s', hs', hres⟩ := hf
      exact ⟨s', h.cons hs', hres⟩
    | some payload =>
      obtain ⟨s', d, hs', hrest⟩ := hf
      exact ⟨s', d, h.cons hs', hrest⟩

/-- **The parser follows the scan.** -/
theorem parseLoop_scan (fuel : ℕ) :
    ∀ {s : Parser} {c : CoapOption → Option Content} {bytes : List UInt8}, Reads s c →
      s.mem.drop s.pos = bytes ++ tail → dataLen = s.pos + bytes.length → bytes.length ≤ fuel →
      (scanOptions fuel s.optionNumber bytes).Gives tail dataLen s c
        (parseLoop dataLen fuel s) := by
  induction fuel with
  | zero =>
    intro s c bytes h hmem hdata hfuel
    obtain rfl := eq_nil_of_length_eq_zero (Nat.le_zero.mp hfuel)
    exact ⟨s, .refl h, rfl⟩
  | succ fuel ih =>
    intro s c bytes h hmem hdata hfuel
    cases bytes with
    | nil => exact ⟨s, .refl h, parseLoop_end hdata.le _⟩
    | cons d bytes =>
      rw [length_cons] at hdata hfuel
      have hd : s.mem[s.pos]? = some d := getElem?_of_drop hmem 0
      have hlt : s.pos < dataLen := by omega
      rw [scanOptions, parseLoop, if_pos hlt]
      split_ifs with hm
      · rw [parseStep_marker hd hm]
        refine ⟨s, d, .refl h, hmem, by omega, ?_⟩
        cases parsePayload dataLen s <;> rfl
      · cases hh : readHeader (d :: bytes) with
        | none =>
          obtain ⟨hnil, hcut⟩ := parseStep_cut hmem hm hdata hh
          refine ⟨fun htail => by rw [hnil htail]; rfl, fun r hr => ?_⟩
          rcases hcut with hcut | ⟨r', hcut, hstatus⟩
          · rw [hcut] at hr
            cases hr
          · rw [hcut] at hr
            cases hr
            exact hstatus
        | some x =>
          obtain ⟨delta, length, n⟩ := x
          dsimp only
          split_ifs with href
          · obtain ⟨r, hstep, hstatus⟩ := parseStep_refused hmem hm hdata hh href
            exact ⟨r, by rw [hstep]; rfl, hstatus⟩
          · simp only [not_or, not_lt, Bool.not_eq_true] at href
            obtain ⟨hfit, hmax, href⟩ := href
            obtain ⟨-, hn, -⟩ := readHeader_spec hh
            obtain ⟨s', hstep, hbehind, hpos, hnum, hrest⟩ := h.scan hmem hm hdata hh hfit hmax href
            rw [← hnum] at hbehind ⊢
            rw [hstep]
            have hlen : ((d :: bytes).drop (n + length)).length =
                bytes.length + 1 - (n + length) := by
              rw [length_drop, length_cons]
            refine .cons hbehind (ih hbehind.reads hrest ?_ ?_)
            · omega
            · omega

/-! ### The payload -/

/-- The result with the payload behind the marker. -/
def Parser.withPayload (s : Parser) (length : ℕ) (mem : List UInt8) : ParseResult :=
  ⟨.noError, none, { s.msg with payload := some (s.pos + 1), payloadLen := UInt16.ofNat length },
    mem⟩

/-- The payload and the zero behind it are behind what was read. -/
theorem Reads.withPayload (h : Reads s c) (hmem : mem.take s.pos = s.mem.take s.pos) {p : Option ℕ}
    {n : UInt16} (o : CoapOption) :
    ({ s.msg with payload := p, payloadLen := n } : Parsed).contents (mem.drop ·) o = c o := by
  have hcontent : ({ s.msg with payload := p, payloadLen := n } : Parsed).content (mem.drop ·) o =
      s.msg.content (mem.drop ·) o := by
    cases o <;> rfl
  rw [← h.contents o, CoapMessage.contents, hcontent,
    content_congr s.msg (h.text_eq hmem o)]
  rfl

section Payload

section

variable (hn : n = min (dataLen - (s.pos + 1)) coapMaxChunkSize)

include hn

/-- The payload is cut to a chunk, and a zero is written behind it. -/
theorem parsePayload_eq (hroom : s.pos + 1 + n < s.mem.length) :
    parsePayload dataLen s = some (s.withPayload n (s.mem.set (s.pos + 1 + n) 0)) := by
  unfold parsePayload
  dsimp only
  rw [← hn, writeAt_singleton hroom]
  rfl

theorem parsePayload_outside (hroom : s.mem.length ≤ s.pos + 1 + n) :
    parsePayload dataLen s = none := by
  unfold parsePayload
  dsimp only
  rw [writeAt, if_neg (by rw [length_singleton]; omega)]
  rfl

end

/-- The zero is behind the payload. -/
theorem text_payload {payload tail : List UInt8} (hmem : s.mem.drop s.pos = d :: (payload ++ tail))
    (hn : n ≤ payload.length) :
    text ((s.mem.set (s.pos + 1 + n) 0).drop ·) (some (s.pos + 1), n) = payload.take n := by
  have hdrop : s.mem.drop (s.pos + 1) = payload ++ tail := by
    rw [← drop_drop, hmem]
    rfl
  rw [text_eq_of_take le_rfl (take_set_of_le le_rfl), text, Option.elim_some, hdrop,
    take_append_of_le_length hn]

end Payload

end Nespy.Coap
