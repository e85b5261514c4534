import Nespy.Coap.PathSplit

/-!
# Coap — the options of a message

What the serializer is given for each option (`source`), and the values it writes for it (`values`),
the segments of a path being values of their own.  `serializeOptions_eq`: the serializer writes the
encoding of all of them, in the order of their numbers (`rawOptions`).
-/

namespace Nespy.Coap

/-- What the serializer is given for an option. -/
inductive Source where
  | int (value : UInt32)
  | array (array : List UInt8) (length : ℕ) (splitChar : UInt8)

namespace Source

/-- The values of the option. -/
def values : Source → List (List UInt8)
  | int value => [intBytes value]
  | array arr length splitChar =>
    if splitChar ≠ 0 then (arr.take length).splitOn splitChar else [arr.take length]

/-- The parts that are written for the option, whatever the string is. -/
def parts : Source → Option (List (List UInt8))
  | int value => some [intBytes value]
  | array arr length splitChar => cutParts splitChar (arr.drop length) (arr.take length)

/-- The array has that length. -/
def Fits : Source → Prop
  | int _ => True
  | array arr length _ => length ≤ arr.length

/-- The array has that length, and a string can be split. -/
def Ok : Source → Prop
  | int _ => True
  | array arr length splitChar =>
    length ≤ arr.length ∧ (splitChar ≠ 0 → Joined splitChar (arr.take length))

theorem Ok.fits {x : Source} (h : x.Ok) : x.Fits := by
  cases x with
  | int value => trivial
  | array arr length splitChar => exact h.1

/-- The parts of a string that can be split are its segments. -/
theorem Ok.parts_eq {x : Source} (h : x.Ok) : x.parts = some x.values := by
  cases x with
  | int value => rfl
  | array arr length splitChar =>
    dsimp only [parts, values]
    by_cases hsplit : splitChar ≠ 0
    · obtain ⟨seg, segs, hparts, -, -, hne, -⟩ := splitOn_parts (h.2 hsplit)
      rw [if_pos hsplit]
      refine cutParts_of_segments hsplit ?_
      rw [hparts]
      exact hne
    · rw [if_neg hsplit, cutParts, if_neg hsplit]

end Source

/-- The options in the order of their numbers. -/
def allOptions : List CoapOption :=
  [.ifMatch, .uriHost, .etag, .ifNoneMatch, .observe, .uriPort, .locationPath, .uriPath,
    .contentFormat, .maxAge, .uriQuery, .accept, .locationQuery, .block2,
      .block1, .size2, .proxyUri,
    .proxyScheme, .size1]

theorem mem_allOptions (o : CoapOption) : o ∈ allOptions := by
  cases o <;> decide

theorem allOptions_sorted : allOptions.Pairwise fun o o' => o.number < o'.number := by
  decide

namespace CoapMessage

variable (m : Built)

/-- Where the value of an option is, and how it is written. -/
def source : CoapOption → Source
  | .ifMatch => .array m.ifMatch m.ifMatchLen.toNat 0
  | .uriHost => .array (m.uriHost.getD []) m.uriHostLen 0
  | .etag => .array m.etag m.etagLen.toNat 0
  | .ifNoneMatch => .int (m.contentFormat - m.contentFormat).toUInt32
  | .observe => .int m.observe
  | .uriPort => .int m.uriPort.toUInt32
  | .locationPath => .array (m.locationPath.getD []) m.locationPathLen slash
  | .uriPath => .array (m.uriPath.getD []) m.uriPathLen slash
  | .contentFormat => .int m.contentFormat.toUInt32
  | .maxAge => .int m.maxAge
  | .uriQuery => .array (m.uriQuery.getD []) m.uriQueryLen ampersand
  | .accept => .int m.accept.toUInt32
  | .locationQuery => .array (m.locationQuery.getD []) m.locationQueryLen ampersand
  | .block2 => .int (blockValue m.block2Num m.block2More m.block2Size)
  | .block1 => .int (blockValue m.block1Num m.block1More m.block1Size)
  | .size2 => .int m.size2
  | .proxyUri => .array (m.proxyUri.getD []) m.proxyUriLen 0
  | .proxyScheme => .array (m.proxyScheme.getD []) m.proxySchemeLen 0
  | .size1 => .int m.size1

theorem source_ascii {o : CoapOption} {arr : List UInt8} {length : ℕ} {splitChar : UInt8}
    (h : m.source o = .array arr length splitChar) : splitChar < 0x80 := by
  cases o <;> cases h <;> decide

/-- The values of an option, if it is set. -/
def values (o : CoapOption) : List (List UInt8) := if m.has o then (m.source o).values else []

/-- The parts that are written for an option, if it is set. -/
def parts (o : CoapOption) : Option (List (List UInt8)) :=
  if m.has o then (m.source o).parts else some []

/-- The options of the message. -/
def rawOptions : List RawOption := allOptions.flatMap fun o => (m.values o).map (o, ·)

end CoapMessage

/-- One of the lines of the serializer. -/
def writeOption (m : Built) (w : Written) (o : CoapOption) : Option Written :=
  match m.source o with
  | .int value => some (w.int m o value)
  | .array arr length splitChar => w.array m o arr length splitChar

theorem serializeOptions_eq_foldlM (m : Built) (w : Written) :
    serializeOptions m w = allOptions.foldlM (writeOption m) w := by
  rfl

/-- What has been written with some more options behind it. -/
def Written.encoded (w : Written) (opts : List RawOption) : Written :=
  ⟨w.out ++ encode w.currentNumber opts, lastNumber w.currentNumber opts⟩

theorem Written.encoded_nil (w : Written) : w.encoded [] = w := by
  rw [Written.encoded, encode, List.append_nil]
  rfl

theorem Written.encoded_append (w : Written) (opts opts' : List RawOption) :
    (w.encoded opts).encoded opts' = w.encoded (opts ++ opts') := by
  simp only [Written.encoded, encode_append, lastNumber_append, List.append_assoc]

/-- One option is written as its parts. -/
theorem writeOption_parts {m : Built} {o : CoapOption} (h : (m.source o).Fits) (w : Written) :
    writeOption m w o = (m.parts o).map fun vs => w.encoded (vs.map (o, ·)) := by
  unfold writeOption CoapMessage.parts
  by_cases hhas : m.has o
  · simp only [Written.int, Written.array, if_pos hhas]
    cases hsource : m.source o with
    | int value => simp [Source.parts, Written.encoded, encode, coapSerializeIntOption]
    | array arr length splitChar =>
      rw [hsource] at h
      dsimp only
      rw [coapSerializeArrayOption_eq o w.currentNumber (m.source_ascii hsource) h, Source.parts]
      cases hparts : cutParts splitChar (arr.drop length) (arr.take length) with
      | none => rfl
      | some vs =>
        rw [Option.map_some, Option.map_some, Written.encoded,
          lastNumber_map (cutParts_ne_nil hparts)]
        rfl
  · simp only [Written.int, Written.array, if_neg hhas, Option.map_some, List.map_nil,
      Written.encoded_nil]
    cases m.source o <;> rfl

/-- The serializer writes the encoding of the parts of all options. -/
theorem serializeOptions_parts {m : Built} (h : ∀ o, (m.source o).Fits)
    {parts : CoapOption → List (List UInt8)} (hparts : ∀ o, m.parts o = some (parts o))
    (w : Written) :
    serializeOptions m w = some (w.encoded (allOptions.flatMap fun o => (parts o).map (o, ·))) := by
  rw [serializeOptions_eq_foldlM]
  generalize allOptions = os
  induction os generalizing w with
  | nil => exact congrArg some (Written.encoded_nil w).symm
  | cons o os ih =>
    rw [List.foldlM_cons, writeOption_parts (h o), hparts, Option.map_some, Option.bind_eq_bind,
      Option.bind_some, ih, Written.encoded_append, List.flatMap_cons]

/-- **The serializer writes the encoding of the message's options.** -/
theorem serializeOptions_eq {m : Built} (h : ∀ o, (m.source o).Ok) (w : Written) :
    serializeOptions m w = some (w.encoded m.rawOptions) := by
  refine serializeOptions_parts (fun o => (h o).fits) (fun o => ?_) w
  unfold CoapMessage.parts CoapMessage.values
  split_ifs
  · exact (h o).parts_eq
  · rfl

end Nespy.Coap
