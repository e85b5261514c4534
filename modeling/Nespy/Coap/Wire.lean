import Nespy.Coap.Serialize
import Nespy.Coap.Parse

/-!
# Coap — options on the wire

A list of options, each with its value, and its encoding (`encode`), which is what the serializer
writes. An option header read from the bytes alone is `readHeader`, and options read one behind the
other are `readOptions`; what was encoded is read back (`readOptions_header`), unless a value is
longer than a header can say.
-/

open List Option

namespace Nespy.Coap

/-- An option and its value. -/
abbrev RawOption := CoapOption × List UInt8

/-- The encoding of options behind an option of number `current`. -/
def encode : ℕ → List RawOption → List UInt8
  | _, [] => []
  | current, (o, v) :: opts =>
    coapSetOptionHeader (o.number - current) v.length ++ (v ++ encode o.number opts)

variable (current : ℕ)

/-- The number of the last option. -/
@[simp] def lastNumber (opts : List RawOption) : ℕ :=
  (opts.getLast?.map fun x => x.1.number).getD current

theorem lastNumber_cons (x : RawOption) (opts : List RawOption) :
    lastNumber current (x :: opts) = lastNumber x.1.number opts := by
  cases opts with
  | nil => rfl
  | cons y opts => simp [getLast?_cons]

theorem encode_append (opts opts' : List RawOption) :
    encode current (opts ++ opts') =
      encode current opts ++ encode (lastNumber current opts) opts' := by
  induction opts generalizing current with
  | nil => rfl
  | cons x opts ih =>
    rw [cons_append, encode, ih, lastNumber_cons, encode]
    simp only [append_assoc]

theorem lastNumber_append (opts opts' : List RawOption) :
    lastNumber current (opts ++ opts') = lastNumber (lastNumber current opts) opts' := by
  induction opts generalizing current with
  | nil => rfl
  | cons x opts ih => rw [cons_append, lastNumber_cons, ih, lastNumber_cons]

/-- Several values of one option. -/
theorem lastNumber_map {o : CoapOption} {vs : List (List UInt8)} (h : vs ≠ []) (current : ℕ) :
    lastNumber current (vs.map (o, ·)) = o.number := by
  obtain ⟨v, hv⟩ := ne_none_iff_exists'.mp (getLast?_eq_none_iff.not.mpr h)
  simp [hv]

/-! ### Option headers -/

theorem coapOptionNibble_eq (value : ℕ) : ∃ k : Fin 15, coapOptionNibble value = UInt8.ofNat k := by
  unfold coapOptionNibble
  split_ifs with h
  · exact ⟨⟨value, by omega⟩, rfl⟩
  · exact ⟨13, rfl⟩
  · exact ⟨14, rfl⟩

theorem nibbles : ∀ a b : Fin 15, let d := UInt8.ofNat a <<< 4 ||| UInt8.ofNat b
    d &&& 0xf0 ≠ 0xf0 ∧ d >>> 4 = UInt8.ofNat a ∧ d &&& 0x0f = UInt8.ofNat b := by
  decide

variable {opts : List (ℕ × List UInt8)} {bytes mem rest tail : List UInt8} {nibble : UInt8}
  {delta e fuel length n pos value : ℕ}

theorem getElem?_of_drop {l : List UInt8} (h : mem.drop pos = l) (i : ℕ) :
    mem[pos + i]? = l[i]? := by
  rw [← h, getElem?_drop]

/-- What the header says of a delta or a length: two bytes of extension leave sixteen bits. -/
def saidValue (value : ℕ) : ℕ := if value ≤ 268 then value else 269 + (value - 269) % 65536

theorem saidValue_of_lt (h : value < 65536 + 269) : saidValue value = value := by
  unfold saidValue
  split_ifs <;> omega

theorem saidValue_pos (h : 0 < value) : 0 < saidValue value := by
  unfold saidValue
  split_ifs <;> omega

/-- A delta or a length is read from its nibble and its extension. -/
theorem parseNibble_said (h : mem.drop pos = optionExtension value ++ rest) :
    parseNibble mem (coapOptionNibble value) pos =
      some (saidValue value, pos + (optionExtension value).length) := by
  have h0 : mem[pos]? = (optionExtension value ++ rest)[0]? := getElem?_of_drop h 0
  have h1 := getElem?_of_drop h 1
  unfold parseNibble coapOptionNibble saidValue
  unfold optionExtension at h0 h1 ⊢
  by_cases hs : value < 13
  · have htoNat : (UInt8.ofNat value).toNat = value := by
      rw [UInt8.toNat_ofNat', Nat.mod_eq_of_lt (by omega)]
    have hne : ∀ k : UInt8, 13 ≤ k.toNat → UInt8.ofNat value ≠ k := by
      rintro k hk rfl
      omega
    rw [if_pos hs, if_neg (by omega : ¬ value > 268), if_neg (by omega : ¬ value > 12),
      if_neg (hne 13 (by decide)), if_neg (hne 14 (by decide)), htoNat,
      if_pos (by omega : value ≤ 268)]
    rfl
  · by_cases hm : value ≤ 268
    · rw [if_neg (by omega : ¬ value > 268), if_pos (by omega : value > 12)] at h0 ⊢
      rw [if_neg hs, if_pos hm, if_pos hm, h0]
      simp
      omega
    · rw [if_pos (by omega : value > 268)] at h0 h1 ⊢
      rw [if_neg hs, if_neg hm, if_neg hm, h0, h1]
      simp
      omega

/-- Where an extension ends, and what it can say at most. -/
theorem parseNibble_spec
    (h : parseNibble mem nibble pos = some (value, e)) (hn : nibble.toNat < 16) :
    value < 65536 + 269 ∧ pos ≤ e ∧ (pos ≤ mem.length → e ≤ mem.length) := by
  unfold parseNibble at h
  split_ifs at h with h13 h14
  · cases hb : mem[pos]? with
    | none => simp [hb] at h
    | some b =>
      have hb' := b.toNat_lt
      have hlt := (List.getElem?_eq_some_iff.mp hb).1
      simp only [hb, bind_eq_bind, bind_some, some.injEq, Prod.mk.injEq] at h
      omega
  · cases hb : mem[pos]? with
    | none => simp [hb] at h
    | some hi =>
      cases hb' : mem[pos + 1]? with
      | none => simp [hb'] at h
      | some lo =>
        have hhi := hi.toNat_lt
        have hlo := lo.toNat_lt
        have hlt := (List.getElem?_eq_some_iff.mp hb').1
        simp only [hb, hb', bind_eq_bind, bind_some, some.injEq,
          Prod.mk.injEq] at h
        omega
  · simp only [some.injEq, Prod.mk.injEq] at h
    omega

/-- A nibble read from `pos` on. -/
theorem parseNibble_drop (mem : List UInt8) (nibble : UInt8) (pos k : ℕ) :
    parseNibble mem nibble (pos + k) =
      (parseNibble (mem.drop pos) nibble k).map fun x => (x.1, pos + x.2) := by
  unfold parseNibble
  simp only [getElem?_drop]
  split_ifs
  · cases mem[pos + k]? <;> rfl
  · cases mem[pos + k]? <;> cases mem[pos + (k + 1)]? <;> rfl
  · rfl

/-- More bytes change nothing that was read from fewer. -/
theorem parseNibble_append {x : ℕ × ℕ}
    (h : parseNibble mem nibble pos = some x) (tail : List UInt8) :
    parseNibble (mem ++ tail) nibble pos = some x := by
  have hget : ∀ {i : ℕ} {b : UInt8}, mem[i]? = some b → (mem ++ tail)[i]? = some b := by
    intro i b hb
    rw [List.getElem?_append_left (List.getElem?_eq_some_iff.mp hb).1, hb]
  unfold parseNibble at h ⊢
  split_ifs at h ⊢
  · obtain ⟨b, hb, hx⟩ := bind_eq_some_iff.mp h
    rw [hget hb]
    exact hx
  · obtain ⟨hi, hhi, h⟩ := bind_eq_some_iff.mp h
    obtain ⟨lo, hlo, hx⟩ := bind_eq_some_iff.mp h
    rw [hget hhi, hget hlo]
    exact hx
  · exact h

/-- Where more bytes are needed, they are read. -/
theorem lt_of_parseNibble_append (hn : parseNibble mem nibble pos = none)
    (h : parseNibble (mem ++ tail) nibble pos = some (value, e)) : mem.length < e := by
  have hget : ∀ {i : ℕ}, mem[i]? = none → mem.length ≤ i := fun hi => getElem?_eq_none_iff.mp hi
  unfold parseNibble at hn h
  split_ifs at hn h
  · obtain ⟨b, -, hx⟩ := bind_eq_some_iff.mp h
    cases hb : mem[pos]? with
    | none =>
      have := hget hb
      cases hx
      omega
    | some b' => simp [hb] at hn
  · obtain ⟨hi, -, h⟩ := bind_eq_some_iff.mp h
    obtain ⟨lo, -, hx⟩ := bind_eq_some_iff.mp h
    cases hx
    cases hb : mem[pos]? with
    | none =>
      have := hget hb
      omega
    | some b =>
      cases hb' : mem[pos + 1]? with
      | none =>
        have := hget hb'
        omega
      | some b' => simp [hb, hb'] at hn

theorem nibble_lt (d : UInt8) : (d >>> 4).toNat < 16 ∧ (d &&& 0x0f).toNat < 16 := by
  have hd := d.toNat_lt
  refine ⟨?_, ?_⟩
  · rw [UInt8.toNat_shiftRight, Nat.shiftRight_eq_div_pow]
    change d.toNat / 16 < 16
    omega
  · exact Nat.lt_succ_of_le Nat.and_le_right

/-- The header of an option at the start of `bytes`: its delta, its length and its own size. -/
def readHeader (bytes : List UInt8) : Option (ℕ × ℕ × ℕ) := do
  let d ← bytes[0]?
  let (delta, n) ← parseNibble bytes (d >>> 4) 1
  let (length, n) ← parseNibble bytes (d &&& 0x0f) n
  some (delta, length, n)

/-- What is read from a header that was written. -/
theorem readHeader_coapSetOptionHeader (delta length : ℕ) (rest : List UInt8) :
    readHeader (coapSetOptionHeader delta length ++ rest) =
      some (saidValue delta, saidValue length, (coapSetOptionHeader delta length).length) := by
  obtain ⟨a, ha⟩ := coapOptionNibble_eq delta
  obtain ⟨b, hb⟩ := coapOptionNibble_eq length
  obtain ⟨-, hdelta, hlength⟩ := nibbles a b
  rw [← ha, ← hb] at hdelta hlength
  have htail : (coapSetOptionHeader delta length ++ rest).drop 1 =
      optionExtension delta ++ (optionExtension length ++ rest) := append_assoc _ _ _
  have htail' :
    (coapSetOptionHeader delta length ++ rest).drop (1 + (optionExtension delta).length) =
      optionExtension length ++ rest := by
    rw [← drop_drop, htail, drop_left]
  have hd : (coapSetOptionHeader delta length ++ rest)[0]? =
      some (coapOptionNibble delta <<< 4 ||| coapOptionNibble length) := rfl
  rw [readHeader, hd, bind_eq_bind, bind_some, hdelta, hlength, parseNibble_said htail,
    bind_eq_bind, bind_some]
  dsimp only
  rw [parseNibble_said htail', bind_some, coapSetOptionHeader, length_cons,
    length_append, Nat.add_comm 1, Nat.add_right_comm]

/-- A header lies in the bytes it is read from. -/
theorem readHeader_spec (h : readHeader bytes = some (delta, length, n)) :
    length < 65536 + 269 ∧ 1 ≤ n ∧ n ≤ bytes.length := by
  unfold readHeader at h
  simp only [bind_eq_bind, bind_eq_some_iff, Prod.exists] at h
  obtain ⟨d, hd, delta', n₁, h₁, length', n₂, h₂, rfl, rfl, rfl⟩ := h
  have hlt := (List.getElem?_eq_some_iff.mp hd).1
  obtain ⟨-, hle₁, hin₁⟩ := parseNibble_spec h₁ (nibble_lt d).1
  obtain ⟨hlen, hle₂, hin₂⟩ := parseNibble_spec h₂ (nibble_lt d).2
  exact ⟨hlen, by omega, hin₂ (hin₁ hlt)⟩

theorem readHeader_append {x : ℕ × ℕ × ℕ} (h : readHeader bytes = some x)
    (tail : List UInt8) : readHeader (bytes ++ tail) = some x := by
  unfold readHeader at h ⊢
  obtain ⟨d, hd, h⟩ := bind_eq_some_iff.mp h
  obtain ⟨y, hy, h⟩ := bind_eq_some_iff.mp h
  obtain ⟨z, hz, h⟩ := bind_eq_some_iff.mp h
  have hd' : (bytes ++ tail)[0]? = some d := by
    rw [List.getElem?_append_left (List.getElem?_eq_some_iff.mp hd).1, hd]
  rw [hd', bind_eq_bind, bind_some, parseNibble_append hy, bind_eq_bind,
    bind_some]
  dsimp only
  rw [parseNibble_append hz]
  exact h

/-- A header that is not complete ends behind the bytes there are. -/
theorem lt_of_readHeader_append {d : UInt8} (hn : readHeader (d :: bytes) = none)
    (h : readHeader (d :: bytes ++ tail) = some (delta, length, n)) : (d :: bytes).length < n := by
  unfold readHeader at hn h
  obtain ⟨d', hd', h⟩ := bind_eq_some_iff.mp h
  cases hd'
  obtain ⟨⟨delta', n₁⟩, h₁, h⟩ := bind_eq_some_iff.mp h
  obtain ⟨⟨length', n₂⟩, h₂, h⟩ := bind_eq_some_iff.mp h
  cases h
  have hle := (parseNibble_spec h₂ (nibble_lt d).2).2.1
  cases hf : parseNibble (d :: bytes) (d >>> 4) 1 with
  | none => exact (lt_of_parseNibble_append hf h₁).trans_le hle
  | some x =>
    have hx := parseNibble_append hf tail
    rw [h₁, some.injEq] at hx
    subst hx
    refine lt_of_parseNibble_append ?_ h₂
    have hfirst : (d :: bytes)[0]? = some d := rfl
    simp only [hfirst, hf, bind_eq_bind, bind_some] at hn
    cases hs : parseNibble (d :: bytes) (d &&& 0x0f) n₁ with
    | none => rfl
    | some x =>
      rw [hs] at hn
      cases hn

/-! ### Reading options -/

/-- The options `bytes` consist of: the delta and the value of each.  Each has a byte of its own, so
as many turns as there are bytes suffice. -/
def readOptions : ℕ → List UInt8 → Option (List (ℕ × List UInt8))
  | _, [] => some []
  | 0, _ :: _ => none
  | fuel + 1, bytes => do
      let (delta, length, n) ← readHeader bytes
      if bytes.length < n + length then none
      else
        let opts ← readOptions fuel (bytes.drop (n + length))
        some ((delta, (bytes.drop n).take length) :: opts)

theorem readOptions_cons {x : ℕ × List UInt8} (h : readOptions fuel bytes = some (x :: opts)) :
    ∃ n fuel', readHeader bytes = some (x.1, x.2.length, n) ∧ n + x.2.length ≤ bytes.length ∧
      (bytes.drop n).take x.2.length = x.2 ∧
      readOptions fuel' (bytes.drop (n + x.2.length)) = some opts := by
  cases bytes with
  | nil => cases fuel <;> cases h
  | cons b bytes =>
    cases fuel with
    | zero => cases h
    | succ fuel =>
      simp only [readOptions, bind_eq_bind, bind_eq_some_iff, Prod.exists] at h
      obtain ⟨delta, length, n, hh, h⟩ := h
      split_ifs at h with hlt
      simp only [bind_eq_some_iff] at h
      obtain ⟨opts', ho, rfl, rfl⟩ := h
      have hlen : (((b :: bytes).drop n).take length).length = length := by
        rw [length_take, length_drop]
        omega
      refine ⟨n, fuel, ?_, ?_, ?_, ?_⟩ <;> simp only [hlen]
      · exact hh
      · omega
      · exact ho

/-- A header has no room for the length of a longer value. -/
theorem length_of_readOptions
    (h : readOptions fuel bytes = some opts) : ∀ x ∈ opts, x.2.length < 65536 + 269 := by
  induction opts generalizing fuel bytes with
  | nil => exact forall_mem_nil _
  | cons y opts ih =>
    obtain ⟨n, fuel', hh, -, -, hrest⟩ := readOptions_cons h
    exact forall_mem_cons.mpr ⟨(readHeader_spec hh).1, ih hrest⟩

/-- **An option that was written is read back**, if its header can say its length. -/
theorem readOptions_header {value : List UInt8} (hdelta : delta < 65536 + 269)
    (hlen : value.length < 65536 + 269) :
    readOptions (fuel + 1) (coapSetOptionHeader delta value.length ++ (value ++ rest)) =
      (readOptions fuel rest).map ((delta, value) :: ·) := by
  have hread := readHeader_coapSetOptionHeader delta value.length (value ++ rest)
  rw [saidValue_of_lt hdelta, saidValue_of_lt hlen] at hread
  generalize hheader : coapSetOptionHeader delta value.length = header at *
  have hcons : ∃ b bs, header ++ (value ++ rest) = b :: bs := by
    rw [← hheader]
    exact ⟨_, _, rfl⟩
  have hdrop : (header ++ (value ++ rest)).drop (header.length + value.length) = rest := by
    rw [← drop_drop, drop_left, drop_left]
  have htake : ((header ++ (value ++ rest)).drop header.length).take value.length = value := by
    rw [drop_left, take_left]
  have hfit : ¬ (header ++ (value ++ rest)).length < header.length + value.length := by
    simp only [length_append]
    omega
  obtain ⟨b, bs, hb⟩ := hcons
  rw [hb] at hread hdrop htake hfit ⊢
  rw [readOptions, hread, bind_eq_bind, bind_some]
  · dsimp only
    rw [if_neg hfit, hdrop, htake]
    cases readOptions fuel rest <;> rfl
  · exact cons_ne_nil b bs

end Nespy.Coap
