import Nespy.Lib.Bits
import Nespy.Coap.Parse

/-!
# Coap — what a message says

A message, with its strings wherever they are, gives each option a content or none (`contents`).
That is all the getters return.  Reading options one after the other is a machine on such maps
(`absorb`): a value replaces what its option had, but the values of a path or of a query are joined.
`foldl_absorb_flatMap`: after all options, each one has the content of its own values.
-/

open Function

namespace Nespy.Coap

open Nespy.Lib

/-- The content of an option. -/
inductive Content where
  | int (value : UInt32)
  | bytes (bytes : List UInt8)
  | block (num : UInt32) (more : UInt8) (size : UInt16) (offset : UInt32)
  | flag
  deriving DecidableEq

/-! ### The contents of a message -/

namespace CoapMessage

variable {P : Type} (m : CoapMessage P)

/-- The strings of a message, each with its length. -/
def str : CoapOption → Option P × ℕ
  | .uriHost => (m.uriHost, m.uriHostLen)
  | .locationPath => (m.locationPath, m.locationPathLen)
  | .uriPath => (m.uriPath, m.uriPathLen)
  | .uriQuery => (m.uriQuery, m.uriQueryLen)
  | .locationQuery => (m.locationQuery, m.locationQueryLen)
  | .proxyUri => (m.proxyUri, m.proxyUriLen)
  | .proxyScheme => (m.proxyScheme, m.proxySchemeLen)
  | _ => (none, 0)

/-- The fields of an option. -/
def content (deref : P → List UInt8) (o : CoapOption) : Content :=
  match o with
  | .ifMatch => .bytes (m.ifMatch.take m.ifMatchLen.toNat)
  | .etag => .bytes (m.etag.take m.etagLen.toNat)
  | .ifNoneMatch => .flag
  | .observe => .int m.observe
  | .uriPort => .int m.uriPort.toUInt32
  | .contentFormat => .int m.contentFormat.toUInt32
  | .maxAge => .int m.maxAge
  | .accept => .int m.accept.toUInt32
  | .block2 => .block m.block2Num m.block2More m.block2Size m.block2Offset
  | .block1 => .block m.block1Num m.block1More m.block1Size m.block1Offset
  | .size2 => .int m.size2
  | .size1 => .int m.size1
  | .uriHost | .locationPath | .uriPath | .uriQuery | .locationQuery | .proxyUri | .proxyScheme =>
    .bytes (text deref (m.str o))

/-- The options that are set, with their contents. -/
def contents (deref : P → List UInt8) (o : CoapOption) : Option Content :=
  if m.has o then some (m.content deref o) else none

end CoapMessage

/-! ### The bitmap -/

theorem bit_and_bit : ∀ i j : Fin 8, (1 : UInt8) <<< UInt8.ofNat i &&& 1 <<< UInt8.ofNat j =
    if i = j then 1 <<< UInt8.ofNat j else 0 := by
  decide

theorem bit_ne_zero : ∀ j : Fin 8, (1 : UInt8) <<< UInt8.ofNat j ≠ 0 := by
  decide

theorem coapIsOption_setOption (options : OptionMap) {a b : ℕ} (ha : a ≤ 60) (hb : b ≤ 60) :
    coapIsOption (coapSetOption options a) b = (decide (b = a) || coapIsOption options b) := by
  have hbit := bit_and_bit ⟨a % 8, by omega⟩ ⟨b % 8, by omega⟩
  simp only [Fin.mk.injEq] at hbit
  simp only [coapIsOption, coapSetOption, dif_pos ha, dif_pos hb, update_apply, Fin.mk.injEq]
  by_cases hbyte : b / 8 = a / 8
  · simp only [hbyte, if_true, or_and_distrib, hbit]
    by_cases hmod : a % 8 = b % 8
    · have hne := bit_ne_zero ⟨b % 8, by omega⟩
      rw [if_pos hmod, decide_eq_true (show b = a by omega), Bool.true_or, bne_iff_ne]
      intro h
      exact hne (UInt8.or_eq_zero_iff.mp h).2
    · rw [if_neg hmod, UInt8.or_zero, decide_eq_false (show b ≠ a by omega), Bool.false_or]
  · rw [if_neg hbyte, decide_eq_false (show b ≠ a by omega), Bool.false_or]

theorem has_setOption {P : Type} (m : CoapMessage P) (o o' : CoapOption) :
    (m.mark o).has o' = (decide (o' = o) || m.has o') := by
  have h := coapIsOption_setOption m.options (CoapOption.number_le o) (CoapOption.number_le o')
  simp only [CoapOption.number_injective.eq_iff] at h
  exact h

theorem has_of_options_zero {P : Type} {m : CoapMessage P} (h : m.options = fun _ => 0)
    (o : CoapOption) : m.has o = false := by
  rw [CoapMessage.has, h, coapIsOption]
  split_ifs <;> simp

/-! ### Reading options -/

/-- The values of an option joined, the first one being taken as it is. -/
def join (separator : UInt8) (old : Option Content) (value : List UInt8) : List UInt8 :=
  match old with
  | some (.bytes (b :: bs)) => b :: bs ++ separator :: value
  | _ => value

/-- The separator of an option whose values are joined. -/
def CoapOption.separator? : CoapOption → Option UInt8
  | .locationPath | .uriPath => some slash
  | .uriQuery | .locationQuery => some ampersand
  | _ => none

variable (o : CoapOption)

/-- What an option's content becomes with one more value. -/
def accumulate (old : Option Content) (value : List UInt8) : Content :=
  match o with
  | .ifMatch | .etag => .bytes (value.take coapEtagLen)
  | .ifNoneMatch => .flag
  | .observe | .maxAge | .size1 | .size2 => .int (coapParseIntOption value)
  | .uriPort | .contentFormat | .accept => .int (coapParseIntOption value).toUInt16.toUInt32
  | .block1 | .block2 =>
    let (num, more, size, offset) := parseBlock (coapParseIntOption value)
    .block num more size offset
  | .locationPath | .uriPath => .bytes (join slash old value)
  | .uriQuery | .locationQuery => .bytes (join ampersand old value)
  | .uriHost | .proxyUri | .proxyScheme => .bytes value

/-- One option is read. -/
def absorb (c : CoapOption → Option Content) (x : CoapOption × List UInt8) :
    CoapOption → Option Content :=
  update c x.1 (some (accumulate x.1 (c x.1) x.2))

/-- The content of an option after several values. -/
def accumulateAll (old : Option Content) (values : List (List UInt8)) : Option Content :=
  values.foldl (fun c v => some (accumulate o c v)) old

theorem foldl_absorb_map (values : List (List UInt8)) (c : CoapOption → Option Content) :
    (values.map (o, ·)).foldl absorb c = update c o (accumulateAll o (c o) values) := by
  induction values generalizing c with
  | nil => exact (update_eq_self o c).symm
  | cons v values ih =>
    rw [List.map_cons, List.foldl_cons, ih, absorb, update_self, update_idem]
    rfl

/-- **Each option gets its own values.**  `values` are those of each option, which are read option
by option. -/
theorem foldl_absorb_flatMap (values : CoapOption → List (List UInt8)) {os : List CoapOption}
    (hos : os.Nodup) (c : CoapOption → Option Content) (o : CoapOption) :
    (os.flatMap fun o => (values o).map (o, ·)).foldl absorb c o =
      if o ∈ os then accumulateAll o (c o) (values o) else c o := by
  induction os generalizing c with
  | nil => rfl
  | cons o' os ih =>
    obtain ⟨hnot, hos⟩ := List.nodup_cons.mp hos
    rw [List.flatMap_cons, List.foldl_append, foldl_absorb_map, ih hos]
    by_cases ho : o = o'
    · subst ho
      rw [if_neg hnot, if_pos List.mem_cons_self, update_self]
    · simp only [update_of_ne ho, List.mem_cons, ho, false_or]

end Nespy.Coap
