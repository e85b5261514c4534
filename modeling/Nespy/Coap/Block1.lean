import Nespy.Coap.Blockwise
import Nespy.Coap.Scan

/-!
# Coap — Block1 assembly

`coap_block1_handler`, by which a resource assembles the blocks of a request in a buffer of its own.
The offset of a block is what the parser made of the Block1 option: the option's number times its
size, in thirty-two bits (`BlockOffset`).  The handler adds the length of the payload to it, in
thirty-two bits again, and compares the sum with the size of the buffer.  `block1_inside_iff`: it
stays in the buffer, and refuses a block that does not fit, unless the sum wraps around to something
that fits.
-/

open Option

namespace Nespy.Coap

open Nespy.Lib

/-! ### The handler -/

/-- Where a resource assembles blocks: `target` and `len`, which may be null, and `max_len`. -/
structure Assembly where
  target : Option (List UInt8)
  len : Option ℕ
  maxLen : ℕ
  size : ∀ t, target = some t → t.length = maxLen

/-- What the handler returns: -1, with `coap_status_code` and `coap_error_message`, or 0, or 1 if
more blocks follow. -/
inductive Block1Return where
  | error (code : UInt8) (message : String)
  | last
  | more
  deriving DecidableEq

/-- The handler's outcome: what it returns, the response, the buffer and the length. -/
structure Block1Result where
  ret : Block1Return
  response : Built
  target : Option (List UInt8)
  len : Option ℕ

/-- `CONTINUE_2_31` and `REQUEST_ENTITY_TOO_LARGE_4_13`. -/
def continue231 : UInt8 := 95
def requestEntityTooLarge413 : UInt8 := 141

/-- The payload is copied into the buffer and the length is set, if there are both. -/
def copyBlock1 (offset : UInt32) (payload : List UInt8) (payLen : UInt16) (a : Assembly) :
    Option (Option (List UInt8) × Option ℕ) :=
  match a.target, a.len with
  | some t, some _ =>
    (writeAt t offset.toNat payload).map fun t => (some t, some (offset + payLen.toUInt32).toNat)
  | target, len => some (target, len)

/-- The response to a block that was taken. -/
def answerBlock1 (request : Parsed) (response : Built) (x : Option (List UInt8) × Option ℕ) :
    Block1Result :=
  if request.has .block1 then
    let response := response.coapSetHeaderBlock1 request.block1Num
      request.block1More request.block1Size
    if request.block1More ≠ 0 then ⟨.more, { response with code := continue231 }, x.1, x.2⟩
    else ⟨.last, response, x.1, x.2⟩
  else ⟨.last, response, x.1, x.2⟩

/-- `coap_block1_handler` on a request that was parsed, `mem` being the bytes it points into.
`none` is a write outside the buffer. -/
def coapBlock1Handler (request : Parsed) (mem : List UInt8) (response : Built) (a : Assembly) :
    Option Block1Result :=
  let (payload, payLen) := request.coapGetPayload
  if payLen = 0 ∨ payload = none then
    some ⟨.error badRequest400 "NoPayload", response, a.target, a.len⟩
  else if a.maxLen < (request.block1Offset + payLen.toUInt32).toNat then
    some ⟨.error requestEntityTooLarge413 "Message to big", response, a.target, a.len⟩
  else
    (copyBlock1 request.block1Offset (text (mem.drop ·) (payload, payLen.toNat)) payLen a).map
      (answerBlock1 request response)

/-! ### What the parser made of the option -/

/-- The offset is the number times the size, in thirty-two bits. -/
def BlockOffset (m : Parsed) : Prop :=
  m.block1Offset.toNat = m.block1Num.toNat * m.block1Size.toNat % 2 ^ 32

variable {x : Except ParseResult Parser} {mem : List UInt8} {r : ParseResult} {m : Parsed}
  {s : Parser} {dataLen length : ℕ}

/-- An option sets its own fields. -/
theorem parseOption_setField {o : CoapOption} {msg : Parsed}
    (h : parseOption s o length = some (.ok (msg, mem))) :
    ∃ value x, msg = s.msg.setField o value x := by
  obtain ⟨value, hv, h⟩ := bind_eq_some_iff.mp h
  obtain ⟨y, hy, rfl⟩ := map_eq_some_iff.mp hv
  obtain ⟨-, hlen⟩ := readN_eq_some.mp hy
  subst hlen
  cases o with
  | uriPath | uriQuery | locationPath | locationQuery =>
    obtain ⟨⟨mem', x⟩, -, hx⟩ := bind_eq_some_iff.mp h
    cases hx
    exact ⟨y.1, x, rfl⟩
  | proxyUri | proxyScheme => cases h
  | uriHost =>
    cases h
    exact ⟨y.1, (some s.pos, y.1.length), rfl⟩
  | _ =>
    cases h
    exact ⟨y.1, (none, 0), rfl⟩

/-- What the loop keeps of a message. -/
structure Loaded (m : Parsed) : Prop where
  offset : BlockOffset m
  payload : m.payload = none

/-- The message the parser starts from. -/
theorem Loaded.of_zero (hnum : m.block1Num = 0) (hoffset : m.block1Offset = 0)
    (hpayload : m.payload = none) : Loaded m := by
  refine ⟨?_, hpayload⟩
  rw [BlockOffset, hnum, hoffset]
  simp

theorem Loaded.markNumber (h : Loaded m) (k : ℕ) : Loaded (m.markNumber k) :=
  ⟨h.offset, h.payload⟩

theorem Loaded.setField (h : Loaded m) (o : CoapOption) (value : List UInt8)
    (x : Option ℕ × ℕ) : Loaded (m.setField o value x) := by
  have honly := setField_onlyChanges m o value x
  have hheader := honly.header
  simp only [CoapMessage.header, Prod.mk.injEq] at hheader
  refine ⟨?_, hheader.2.2.2.trans h.payload⟩
  by_cases ho : o = .block1
  · subst ho
    exact parseBlock_offset (coapParseIntOption value)
  · have hcontent := honly.content .block1 (Ne.symm ho) fun _ => []
    simp only [CoapMessage.content, Content.block.injEq] at hcontent
    obtain ⟨hnum, -, hsize, hoffset⟩ := hcontent
    unfold BlockOffset
    rw [hnum, hsize, hoffset]
    exact h.offset

/-- The message a run of the parser ends with. -/
structure Request (r : ParseResult) : Prop where
  offset : BlockOffset r.msg
  payload : ∀ p, r.msg.payload = some p → p + r.msg.payloadLen.toNat ≤ r.mem.length

theorem Loaded.request {status : ParseStatus} {message : Option String} (h : Loaded m)
    (mem : List UInt8) : Request ⟨status, message, m, mem⟩ := by
  refine ⟨h.offset, fun p hp => ?_⟩
  rw [h.payload] at hp
  cases hp

theorem Loaded.parsePayload (h : Loaded s.msg)
    (hr : parsePayload dataLen s = some r) : Request r := by
  obtain ⟨n, hn⟩ : ∃ n, n = min (dataLen - (s.pos + 1)) coapMaxChunkSize := ⟨_, rfl⟩
  rcases Nat.lt_or_ge (s.pos + 1 + n) s.mem.length with hroom | hroom
  · rw [parsePayload_eq hn hroom, some.injEq] at hr
    subst hr
    refine ⟨h.offset, fun p hp => ?_⟩
    cases hp
    have hle : (UInt16.ofNat n).toNat ≤ n := by
      exact Nat.mod_le _ _
    change s.pos + 1 + (UInt16.ofNat n).toNat ≤ (s.mem.set _ _).length
    rw [List.length_set]
    omega
  · rw [parsePayload_outside hn hroom] at hr
    cases hr

/-- What a turn of the loop leaves. -/
def TurnLoaded : Except ParseResult Parser → Prop
  | .error r => Request r
  | .ok s => Loaded s.msg

theorem Loaded.parseBehind (h : Loaded s.msg) {delta pos : ℕ}
    (hx : parseBehind dataLen s delta length pos = some x) :
    TurnLoaded x := by
  unfold Coap.parseBehind at hx
  cases ho : CoapOption.ofNumber (s.optionNumber + delta) with
  | none =>
    simp only [ho] at hx
    split_ifs at hx <;> cases hx
    · exact h.request _
    · exact h.request _
    · exact (h.markNumber _).request _
    · exact h.markNumber _
  | some o =>
    simp only [ho] at hx
    split_ifs at hx
    · cases hx
      exact h.request _
    · cases hx
      exact h.request _
    · obtain ⟨y, hy, hx⟩ := bind_eq_some_iff.mp hx
      cases y with
      | error e =>
        cases hx
        exact (h.markNumber _).request _
      | ok y =>
        cases hx
        obtain ⟨value, z, hz⟩ := parseOption_setField hy
        rw [hz]
        exact (h.markNumber _).setField o value z

/-- One turn of the loop. -/
theorem Loaded.parseStep (h : Loaded s.msg) (hx : parseStep dataLen s = some x) : TurnLoaded x := by
  cases hd : s.mem[s.pos]? with
  | none =>
    rw [Coap.parseStep, hd] at hx
    cases hx
  | some d =>
    by_cases hm : d &&& 0xf0 = 0xf0
    · rw [parseStep_marker hd hm] at hx
      obtain ⟨r, hr, rfl⟩ := map_eq_some_iff.mp hx
      exact h.parsePayload hr
    · rw [parseStep_eq hd hm] at hx
      obtain ⟨⟨delta, length, n⟩, -, hx⟩ := bind_eq_some_iff.mp hx
      exact h.parseBehind hx

/-- The parser's messages belong together. -/
theorem Loaded.parseLoop (fuel : ℕ) : ∀ {s : Parser} {r : ParseResult}, Loaded s.msg →
    parseLoop dataLen fuel s = some r → Request r := by
  induction fuel with
  | zero =>
    intro s r h hr
    cases hr
    exact h.request _
  | succ fuel ih =>
    intro s r h hr
    rw [Coap.parseLoop] at hr
    split_ifs at hr with hlt
    · obtain ⟨x, hx, hr⟩ := bind_eq_some_iff.mp hr
      have hstep := h.parseStep hx
      cases x with
      | error r' =>
        cases hr
        exact hstep
      | ok s' => exact ih hstep hr
    · cases hr
      exact h.request _

theorem request_of_parse (h : coapParseMessage mem dataLen = some r) : Request r := by
  match mem, h with
  | b0 :: b1 :: b2 :: b3 :: rest, h =>
    unfold coapParseMessage at h
    dsimp only at h
    split_ifs at h
    · cases h
      exact (Loaded.of_zero rfl rfl rfl).request _
    · cases h
      exact (Loaded.of_zero rfl rfl rfl).request _
    · obtain ⟨x, -, h⟩ := bind_eq_some_iff.mp h
      exact Loaded.parseLoop _ (.of_zero rfl rfl rfl) h

/-! ### The buffer -/

/-- The end of the block in the body that is assembled. -/
def blockEnd (m : Parsed) : ℕ := m.block1Num.toNat * m.block1Size.toNat + m.payloadLen.toNat

/-- Nothing is written outside the buffer, and a block which does not fit is refused, with the
buffer and the length as they were. -/
def Block1Safe (a : Assembly) (blockEnd : ℕ) (res : Option Block1Result) : Prop :=
  ∃ x, res = some x ∧ (a.maxLen < blockEnd →
    (∃ code message, x.ret = .error code message) ∧ x.target = a.target ∧ x.len = a.len)

theorem coapBlock1Handler_noPayload (h : m.payloadLen = 0 ∨ m.payload = none)
    (mem : List UInt8) (response : Built) (a : Assembly) :
    coapBlock1Handler m mem response a =
      some ⟨.error badRequest400 "NoPayload", response, a.target, a.len⟩ := by
  have hpay : (if m.payload.isSome then m.payloadLen else 0) = 0 ∨ m.payload = none := by
    rcases h with h | h
    · exact .inl (by rw [h, ite_self])
    · exact .inr h
  exact if_pos hpay

/-- The sum of the offset and the length, as the handler computes it. -/
theorem toNat_blockSum (h : BlockOffset m) :
    (m.block1Offset + m.payloadLen.toUInt32).toNat = blockEnd m % 2 ^ 32 := by
  rw [UInt32.toNat_add, h, Nat.mod_add_mod]
  rfl

/-- A payload is refused or copied. -/
theorem coapBlock1Handler_payload {p : ℕ} (hlen : m.payloadLen ≠ 0) (hp : m.payload = some p)
    (mem : List UInt8) (response : Built) (a : Assembly) :
    coapBlock1Handler m mem response a =
      if a.maxLen < (m.block1Offset + m.payloadLen.toUInt32).toNat then
        some ⟨.error requestEntityTooLarge413 "Message to big", response, a.target, a.len⟩
      else
        (copyBlock1 m.block1Offset (text (mem.drop ·) (some p, m.payloadLen.toNat))
          m.payloadLen a).map
          (answerBlock1 m response) := by
  have hpay : ¬ (m.payloadLen = 0 ∨ m.payload = none) := by simp [hlen, hp]
  simp only [coapBlock1Handler, CoapMessage.coapGetPayload, hp, isSome_some, if_true]
  rw [if_neg (hp ▸ hpay)]

theorem answerBlock1_ret (response : Built) (x : Option (List UInt8) × Option ℕ) (code : UInt8)
    (message : String) : (answerBlock1 m response x).ret ≠ .error code message := by
  unfold answerBlock1
  split_ifs <;> simp

theorem copyBlock1_isSome {offset : UInt32} {payload : List UInt8} (payLen : UInt16) {a : Assembly}
    (h : offset.toNat + payload.length ≤ a.maxLen) :
    (copyBlock1 offset payload payLen a).isSome := by
  obtain ⟨target, len, maxLen, hsize⟩ := a
  unfold copyBlock1
  cases target with
  | none => rfl
  | some t =>
    cases len with
    | none => rfl
    | some n =>
      have hle : offset.toNat + payload.length ≤ t.length := (hsize t rfl).symm ▸ h
      simp only [writeAt, if_pos hle]
      rfl

/-- **Assembly stays in the buffer, unless the sum wraps.**  For every request that was parsed and
every buffer: no byte outside the buffer is written, and a block that does not fit is refused with
nothing changed, if and only if there is no payload, or the block fits, or its end is too large also
in thirty-two bits. -/
theorem block1_inside_iff (mem : List UInt8) (dataLen : ℕ) {r : ParseResult}
    (hparse : coapParseMessage mem dataLen = some r) (response : Built) (a : Assembly) :
    Block1Safe a (blockEnd r.msg) (coapBlock1Handler r.msg r.mem response a) ↔
      (r.msg.payloadLen = 0 ∨ r.msg.payload = none) ∨ blockEnd r.msg ≤ a.maxLen ∨
        a.maxLen < blockEnd r.msg % 2 ^ 32 := by
  obtain ⟨hoffset, hinside⟩ := request_of_parse hparse
  by_cases hpay : r.msg.payloadLen = 0 ∨ r.msg.payload = none
  · refine ⟨fun _ => .inl hpay, fun _ => ⟨_, coapBlock1Handler_noPayload hpay _ _ _, fun _ => ?_⟩⟩
    exact ⟨⟨_, _, rfl⟩, rfl, rfl⟩
  · simp only [hpay, false_or]
    obtain ⟨hlen, hp⟩ := not_or.mp hpay
    obtain ⟨p, hp⟩ := ne_none_iff_exists'.mp hp
    rw [coapBlock1Handler_payload hlen hp, toNat_blockSum hoffset]
    by_cases hbig : a.maxLen < blockEnd r.msg % 2 ^ 32
    · rw [if_pos hbig]
      exact ⟨fun _ => .inr hbig, fun _ => ⟨_, rfl, fun _ => ⟨⟨_, _, rfl⟩, rfl, rfl⟩⟩⟩
    · simp only [hbig, or_false]
      rw [if_false]
      constructor
      · rintro ⟨x, hx, hsafe⟩
        by_contra hlt
        obtain ⟨y, -, rfl⟩ := map_eq_some_iff.mp hx
        obtain ⟨⟨code, message, hret⟩, -⟩ := hsafe (not_le.mp hlt)
        exact answerBlock1_ret response y code message hret
      · intro hfit
        have htext : (text (r.mem.drop ·) (some p, r.msg.payloadLen.toNat)).length =
            r.msg.payloadLen.toNat := by
          have hle := hinside p hp
          rw [text, elim_some, List.length_take, List.length_drop]
          omega
        have hle : r.msg.block1Offset.toNat ≤ r.msg.block1Num.toNat * r.msg.block1Size.toNat := by
          rw [hoffset]
          exact Nat.mod_le _ _
        rw [blockEnd] at hfit
        have hroom : r.msg.block1Offset.toNat +
            (text (r.mem.drop ·) (some p, r.msg.payloadLen.toNat)).length ≤ a.maxLen := by
          omega
        obtain ⟨y, hy⟩ := isSome_iff_exists.mp (copyBlock1_isSome r.msg.payloadLen hroom)
        rw [hy]
        exact ⟨_, rfl, fun hlt => absurd hfit (not_le.mpr hlt)⟩

/-- A request with a Block1 option of the value `value` and a payload of thirty-two bytes, and the
byte behind it. -/
def block1Request (value : List UInt8) : List UInt8 :=
  [0x40, 3, 0, 0, 0xd0 ||| UInt8.ofNat value.length, 14] ++ value ++
    0xff :: List.replicate 32 97 ++ [0]

/-- A buffer of sixty-four bytes. -/
def buffer64 : Assembly := ⟨some (List.replicate 64 0), some 0, 64, by simp⟩

theorem block1_inside_second : ∃ r, coapParseMessage (block1Request [0x11]) 40 = some r ∧
    blockEnd r.msg = 64 ∧
    Block1Safe buffer64 (blockEnd r.msg)
      (coapBlock1Handler r.msg r.mem (coapInitMessage .ack 68 0) buffer64) :=
  ⟨_, rfl, rfl, (block1_inside_iff (block1Request [0x11]) 40 rfl _ _).mpr (.inr (.inl le_rfl))⟩

/-- Block 2²⁸ - 1 of sixteen bytes ends 16 bytes behind 2³², and is copied far outside the buffer.
Block 2²¹ of 2048 bytes starts at 2³², and is taken for the first one. -/
theorem block1_wraps : (∃ r, coapParseMessage (block1Request [0xff, 0xff, 0xff, 0xf0]) 43 = some r ∧
      r.status = .noError ∧ blockEnd r.msg = 2 ^ 32 + 16 ∧
      coapBlock1Handler r.msg r.mem (coapInitMessage .ack 68 0) buffer64 = none) ∧
    ∃ r, coapParseMessage (block1Request [0x02, 0x00, 0x00, 0x07]) 43 = some r ∧
      r.status = .noError ∧ blockEnd r.msg = 2 ^ 32 + 32 ∧
      (coapBlock1Handler r.msg r.mem (coapInitMessage .ack 68 0) buffer64).map Block1Result.ret =
        some .last ∧
      (coapBlock1Handler r.msg r.mem (coapInitMessage .ack 68 0) buffer64).map Block1Result.len =
        some (some 32) :=
  ⟨⟨_, rfl, rfl, by decide, rfl⟩, _, rfl, rfl, by decide, rfl, rfl⟩

end Nespy.Coap
