import Nespy.Coap.Wire

/-!
# Coap — a path is split

`coap_serialize_array_option` on a string with a separator.  What the loop cuts out of the string is
`cutParts`, by recursion on the string; `coapSerializeArrayOption_eq`: the loop writes one option
for each part.  The loop never looks at the character behind a separator.  So the parts are the
segments of the string when no segment but the first is empty (`cutParts_of_segments`), and with any
other string some option is not a segment, or the byte behind the terminating zero is read
(`arrayOption_splits_iff`).
-/

open List Option

namespace Nespy.Coap

/-! ### The parts -/

/-- The parts behind a separator the string ends with.  The loop is on the byte behind the
terminating one then; `after` are the bytes from the terminating one on, without the zero at their
end. -/
def cutEnd (sep : UInt8) (after : List UInt8) : Option (List (List UInt8)) :=
  (after ++ [0])[1]?.map fun ch => if ch = sep then [after.take 1] else []

/-- The parts of a string of which the loop has `acc`, the start of a part, behind it. -/
def cutScan (sep : UInt8) (after : List UInt8) :
    List UInt8 → List UInt8 → Option (List (List UInt8))
  | acc, [] => some [acc]
  | acc, [c] => if c = sep then (cutEnd sep after).map (acc :: ·) else some [acc ++ [c]]
  | acc, c :: d :: rest =>
    if c = sep then (cutScan sep after [d] rest).map (acc :: ·)
    else cutScan sep after (acc ++ [c]) (d :: rest)

/-- The parts of a string, if it is split. -/
def cutParts (sep : UInt8) (after s : List UInt8) : Option (List (List UInt8)) :=
  if sep ≠ 0 then cutScan sep after [] s else some [s]

/-! ### The loop -/

/-- A separator without a sign is compared as it is. -/
theorem isSplit_iff {ch sep : UInt8} (hsep : sep < 0x80) : isSplit ch sep ↔ ch = sep := by
  have hlt : 2 * sep.toNat < 2 ^ 8 := by
    have hnat : sep.toNat < 128 := UInt8.lt_iff_toNat_lt.mp hsep
    omega
  have hint : sep.toInt8.toInt = sep.toNat := BitVec.toInt_eq_toNat_of_lt hlt
  rw [isSplit, hint, Int.natCast_inj, UInt8.toNat_inj]

section Loop

variable {o : CoapOption} {array : List UInt8} {length : ℕ} {sep : UInt8}

variable {acc after done rest : List UInt8} {ch : UInt8} {current fuel j partStart : ℕ}

theorem splitLoop_end (h : length + 1 < j) :
    splitLoop o.number array length sep fuel j partStart current = some [] := by
  cases fuel with
  | zero => rfl
  | succ fuel => rw [splitLoop, if_neg (by omega)]

/-- The loop at the end of a part. -/
theorem splitLoop_part (fuel current : ℕ)
    (harr : array = done ++ (acc ++ rest)) (hj : j = done.length + acc.length)
    (hle : j ≤ length + 1)
    (hch : (array ++ [0])[j]? = some ch) (hstop : isSplit ch sep ∨ j = length) :
    splitLoop o.number array length sep (fuel + 1) j done.length current =
      (splitLoop o.number array length sep fuel (j + 2) (j + 1) o.number).map fun r =>
        coapSetOptionHeader (o.number - current) acc.length ++ (acc ++ r) := by
  have hlen : j - done.length = acc.length := by omega
  have hpart : (array.drop done.length).take acc.length = acc := by
    rw [harr, drop_left, take_left]
  rw [splitLoop, if_pos hle, hch, bind_eq_bind, bind_some, if_pos hstop, hlen, hpart]
  cases splitLoop o.number array length sep fuel (j + 2) (j + 1) o.number with
  | none => rfl
  | some r => exact congrArg some (append_assoc _ _ _)

/-- The loop at the end of the string. -/
theorem splitLoop_last
    (harr : array = done ++ (acc ++ rest)) (hlen : length = done.length + acc.length)
    (hfuel : 1 ≤ fuel) :
    splitLoop o.number array length sep fuel length done.length current =
      some (encode current [(o, acc)]) := by
  obtain _ | fuel := fuel
  · omega
  obtain ⟨ch, hch⟩ : ∃ ch, (array ++ [0])[length]? = some ch := by
    refine ⟨_, getElem?_eq_getElem ?_⟩
    rw [harr]
    simp only [length_append, length_singleton]
    omega
  rw [splitLoop_part fuel current harr hlen (Nat.le_succ _) hch (.inr rfl),
    splitLoop_end (by omega)]
  rfl

/-- The loop on a character of a part. -/
theorem splitLoop_char (hle : j < length) (hch : (array ++ [0])[j]? = some ch)
    (hne : ¬isSplit ch sep) :
    splitLoop o.number array length sep (fuel + 1) j partStart current =
      splitLoop o.number array length sep fuel (j + 1) partStart current := by
  rw [splitLoop, if_pos (by omega), hch, bind_eq_bind, bind_some,
    if_neg (by rintro (h | h) <;> [exact hne h; omega])]

theorem getElem?_behind (harr : array = done ++ (acc ++ rest)) (i : ℕ) :
    (array ++ [0])[done.length + acc.length + i]? = (rest ++ [0])[i]? := by
  rw [harr, append_assoc, append_assoc, getElem?_append_right (by omega),
    getElem?_append_right (by omega)]
  congr 1
  omega

section

variable (hascii : sep < 0x80)

include hascii

/-- The loop behind a separator the string ends with. -/
theorem splitLoop_cutEnd (harr : array = done ++ after)
    (hlen : length = done.length) (hfuel : 1 ≤ fuel) :
    splitLoop o.number array length sep fuel (length + 1) length o.number =
      (cutEnd sep after).map fun vs => encode o.number (vs.map (o, ·)) := by
  obtain _ | fuel := fuel
  · omega
  have hread : (array ++ [0])[length + 1]? = (after ++ [0])[1]? := by
    rw [harr, append_assoc, getElem?_append_right (by omega)]
    congr 1
    omega
  cases hch : (after ++ [0])[1]? with
  | none =>
    rw [splitLoop, if_pos le_rfl, hread, cutEnd, hch]
    rfl
  | some ch =>
    by_cases hsep : ch = sep
    · -- the terminating byte is taken for a part
      obtain ⟨b, rest, rfl⟩ : ∃ b rest, after = b :: rest := by
        cases after with
        | nil => cases hch
        | cons b rest => exact ⟨b, rest, rfl⟩
      have harr' : array = done ++ ([b] ++ rest) := harr
      have hpart := splitLoop_part (o := o) fuel o.number harr' (congrArg (· + 1) hlen) le_rfl
        (hread.trans hch) (.inl ((isSplit_iff hascii).mpr hsep))
      rw [← hlen] at hpart
      rw [hpart, splitLoop_end (by omega), cutEnd, hch, map_some, map_some,
        if_pos hsep]
      rfl
    · rw [splitLoop, if_pos le_rfl, hread, hch, bind_eq_bind, bind_some,
        if_neg (by rintro (h | h) <;> [exact hsep ((isSplit_iff hascii).mp h); omega]),
        splitLoop_end (by omega), cutEnd, hch,
        map_some, if_neg hsep]
      rfl

/-- **The loop cuts the string into its parts.**  `u` is what the loop has in front of it. -/
theorem splitLoop_cutScan (u acc : List UInt8) (harr : array = done ++ (acc ++ (u ++ after)))
    (hj : j = done.length + acc.length) (hlen : length = j + u.length)
    (hfuel : length + 2 ≤ fuel + j) :
    splitLoop o.number array length sep fuel j done.length current =
      (cutScan sep after acc u).map fun vs => encode current (vs.map (o, ·)) := by
  fun_induction cutScan sep after acc u generalizing done fuel j current with
  | case1 acc =>
    -- the string ends in a part
    subst hlen
    exact splitLoop_last harr hj (by omega)
  | case2 acc =>
    obtain _ | fuel := fuel
    · omega
    have hch : (array ++ [0])[j]? = some sep := hj ▸ getElem?_behind harr 0
    have hdone : length = (done ++ (acc ++ [sep])).length := by
      simp only [length_append]
      omega
    have harr' : array = done ++ (acc ++ [sep]) ++ after := by
      rw [harr]
      simp only [append_assoc]
    rw [length_singleton] at hlen
    rw [splitLoop_part fuel current harr hj (by omega) hch (.inl ((isSplit_iff hascii).mpr rfl)),
      show j + 2 = length + 1 by omega, show j + 1 = length by omega,
      splitLoop_cutEnd hascii harr' hdone (by omega)]
    cases cutEnd sep after <;> rfl
  | case3 acc c hc =>
    obtain _ | fuel := fuel
    · omega
    have hch : (array ++ [0])[j]? = some c := hj ▸ getElem?_behind harr 0
    have hnext : j + 1 = done.length + (acc ++ [c]).length := by
      rw [hj, length_append, length_singleton, Nat.add_assoc]
    have harr' : array = done ++ (acc ++ [c] ++ after) := by
      rw [harr]
      simp only [append_assoc]
    rw [length_singleton] at hlen
    subst hlen
    rw [splitLoop_char (Nat.lt_succ_self j) hch (mt (isSplit_iff hascii).mp hc)]
    exact splitLoop_last harr' hnext (by omega)
  | case4 acc d rest ih =>
    obtain _ | fuel := fuel
    · omega
    have hch : (array ++ [0])[j]? = some sep := hj ▸ getElem?_behind harr 0
    simp only [length_cons] at hlen
    have hdone : (done ++ (acc ++ [sep])).length = j + 1 := by
      simp only [length_append, length_singleton]
      omega
    have harr' : array = done ++ (acc ++ [sep]) ++ ([d] ++ (rest ++ after)) := by
      rw [harr]
      simp only [append_assoc, cons_append, nil_append]
    have hrest : splitLoop o.number array length sep fuel (j + 2) (done ++ (acc ++ [sep])).length
        o.number = _ := ih harr' (by rw [hdone]; rfl) (by omega) (by omega)
    rw [hdone] at hrest
    rw [splitLoop_part fuel current harr hj (by omega) hch (.inl ((isSplit_iff hascii).mpr rfl)),
      hrest]
    cases cutScan sep after [d] rest <;> rfl
  | case5 acc c d rest hc ih =>
    obtain _ | fuel := fuel
    · omega
    have hch : (array ++ [0])[j]? = some c := hj ▸ getElem?_behind harr 0
    simp only [length_cons] at hlen
    rw [splitLoop_char (by omega) hch (mt (isSplit_iff hascii).mp hc)]
    refine ih ?_ ?_ ?_ (by omega)
    · rw [harr]
      simp only [append_assoc, cons_append, nil_append]
    · rw [hj, length_append, length_singleton, Nat.add_assoc]
    · rw [length_cons]
      omega

end

end Loop

/-- **The serializer writes one option for each part.** -/
theorem coapSerializeArrayOption_eq (o : CoapOption) (current : ℕ) {array : List UInt8} {length : ℕ}
    {sep : UInt8} (hascii : sep < 0x80) (hlen : length ≤ array.length) :
    coapSerializeArrayOption o.number current array length sep =
      (cutParts sep (array.drop length) (array.take length)).map fun vs =>
        encode current (vs.map (o, ·)) := by
  have htake : (array.take length).length = length := by
    rw [length_take]
    omega
  unfold coapSerializeArrayOption cutParts
  by_cases hsep : sep ≠ 0
  · rw [if_pos hsep, if_pos hsep]
    have harr : array = [] ++ ([] ++ (array.take length ++ array.drop length)) :=
      (take_append_drop length array).symm
    exact splitLoop_cutScan hascii (array.take length)
      [] harr rfl (by rw [htake, Nat.zero_add]) le_rfl
  · rw [if_neg hsep, if_neg hsep, map_some, map_singleton, encode, encode,
      append_nil, htake]

/-! ### The segments -/

/-- A string of one or more non-empty segments, joined by single separators. -/
def Segments (sep : UInt8) (l : List UInt8) : Prop :=
  ∃ segs ≠ [], (∀ s ∈ segs, s ≠ [] ∧ sep ∉ s) ∧ l = intercalate [sep] segs

/-- A string that is split is empty or has segments. -/
def Joined (sep : UInt8) (l : List UInt8) : Prop := l = [] ∨ Segments sep l

/-- The parts of a string that is split: its segments, or one empty part. -/
theorem splitOn_parts {sep : UInt8} {l : List UInt8} (h : Joined sep l) :
    ∃ seg segs, l.splitOn sep = seg :: segs ∧ l = intercalate [sep] (seg :: segs) ∧
      (∀ s ∈ seg :: segs, sep ∉ s) ∧ (∀ s ∈ segs, s ≠ []) ∧ (segs ≠ [] → seg ≠ []) := by
  rcases h with rfl | ⟨segs, hne, hsegs, rfl⟩
  · refine ⟨[], [], splitOn_nil sep, rfl, ?_, ?_, fun h => absurd rfl h⟩ <;> simp
  · obtain ⟨seg, segs, rfl⟩ := exists_cons_of_ne_nil hne
    exact ⟨seg, segs, splitOn_intercalate sep (fun s hs => (hsegs s hs).2) hne, rfl,
      fun s hs => (hsegs s hs).2, fun s hs => (hsegs s (mem_cons_of_mem _ hs)).1,
      fun _ => (hsegs seg mem_cons_self).1⟩

section Segments

variable {sep : UInt8}

variable {vs : List (List UInt8)} {acc after s u : List UInt8} {c : UInt8}

/-- A part starts with what the loop had of it. -/
theorem cutScan_head (h : cutScan sep after acc u = some vs) : ∃ v vs', vs = (acc ++ v) :: vs' := by
  fun_induction cutScan sep after acc u generalizing vs with
  | case1 acc =>
    cases h
    exact ⟨[], [], by rw [append_nil]⟩
  | case2 | case4 =>
    obtain ⟨vs', -, rfl⟩ := map_eq_some_iff.mp h
    exact ⟨[], vs', by rw [append_nil]⟩
  | case3 acc c hc =>
    cases h
    exact ⟨[c], [], rfl⟩
  | case5 acc c d rest hc ih =>
    obtain ⟨v, vs', rfl⟩ := ih h
    exact ⟨c :: v, vs', by rw [append_assoc]; rfl⟩

theorem cutParts_ne_nil (h : cutParts sep after s = some vs) : vs ≠ [] := by
  unfold cutParts at h
  split_ifs at h
  · obtain ⟨v, vs', rfl⟩ := cutScan_head h
    exact cons_ne_nil _ _
  · cases h
    exact cons_ne_nil _ _

/-- With a byte behind the terminating one, there is nothing the loop cannot read. -/
theorem cutScan_isSome (hafter : after ≠ []) (acc u : List UInt8) :
    (cutScan sep after acc u).isSome := by
  have hend : (cutEnd sep after).isSome := by
    obtain ⟨b, rest, rfl⟩ := exists_cons_of_ne_nil hafter
    cases rest <;> rfl
  fun_induction cutScan sep after acc u with
  | case1 | case3 => rfl
  | case2 | case4 => rwa [isSome_map]
  | case5 acc c d rest hc ih => exact ih

theorem cutParts_isSome (h : s = [] ∨ after ≠ []) : (cutParts sep after s).isSome := by
  unfold cutParts
  split_ifs
  · rcases h with rfl | h
    · rfl
    · exact cutScan_isSome h _ _
  · rfl

theorem splitOn_cons_of_ne (hc : c ≠ sep) (u : List UInt8) :
    (c :: u).splitOn sep = (u.splitOn sep).modifyHead (c :: ·) := by
  rw [splitOn_cons_eq_if_modifyHead, if_neg (by simpa using hc)]

theorem splitOn_cons_sep (u : List UInt8) : (sep :: u).splitOn sep = [] :: u.splitOn sep := by
  rw [splitOn_cons_eq_if_modifyHead, if_pos (beq_self_eq_true sep)]

/-- A character more of the first segment. -/
theorem modifyHead_append_splitOn (hc : c ≠ sep) (acc u : List UInt8) :
    ((c :: u).splitOn sep).modifyHead (acc ++ ·) =
      (u.splitOn sep).modifyHead (acc ++ [c] ++ ·) := by
  rw [splitOn_cons_of_ne hc, modifyHead_modifyHead]
  congr 1
  funext l
  exact (append_assoc acc [c] l).symm

theorem tail_splitOn_cons (hc : c ≠ sep) (u : List UInt8) :
    ((c :: u).splitOn sep).tail = (u.splitOn sep).tail := by
  rw [splitOn_cons_of_ne hc, tail_modifyHead]

/-- A string that starts with a character of its own has no empty segment but later ones. -/
theorem forall_splitOn_cons (hc : c ≠ sep) :
    (∀ seg ∈ (c :: u).splitOn sep, seg ≠ []) ↔ ∀ seg ∈ (u.splitOn sep).tail, seg ≠ [] := by
  obtain ⟨seg, segs, hu⟩ := exists_cons_of_ne_nil (splitOn_ne_nil sep u)
  rw [splitOn_cons_of_ne hc, hu]
  simp

/-- **Non-empty segments are the parts.** -/
theorem cutScan_of_segments (h : ∀ seg ∈ (u.splitOn sep).tail, seg ≠ []) :
    cutScan sep after acc u = some ((u.splitOn sep).modifyHead (acc ++ ·)) := by
  fun_induction cutScan sep after acc u with
  | case1 acc => simp
  | case2 acc =>
    rw [splitOn_cons_sep] at h
    exact absurd rfl (h [] mem_cons_self)
  | case3 acc c hc => rw [modifyHead_append_splitOn hc]; simp
  | case4 acc d rest ih =>
    rw [splitOn_cons_sep] at h
    have hd : d ≠ sep := by
      rintro rfl
      rw [splitOn_cons_sep] at h
      exact h [] mem_cons_self rfl
    rw [ih ((forall_splitOn_cons hd).mp h), splitOn_cons_sep, splitOn_cons_of_ne hd]
    simp
  | case5 acc c d rest hc ih =>
    rw [tail_splitOn_cons hc] at h
    rw [ih h, modifyHead_append_splitOn hc]

theorem cutParts_of_segments (hsep : sep ≠ 0)
    (h : ∀ seg ∈ (s.splitOn sep).tail, seg ≠ []) : cutParts sep after s = some (s.splitOn sep) := by
  rw [cutParts, if_pos hsep, cutScan_of_segments h]
  exact congrArg some (congrFun modifyHead_id _)

/-- One option for each value: the first has the delta, and the others follow it. -/
def oneEach (delta : ℕ) : List (List UInt8) → List (ℕ × List UInt8)
  | [] => []
  | v :: vs => (delta, v) :: vs.map (0, ·)

theorem oneEach_zero (vs : List (List UInt8)) : oneEach 0 vs = vs.map (0, ·) := by
  cases vs <;> rfl

theorem mem_oneEach {delta : ℕ} {v : List UInt8} (h : v ∈ vs) : ∃ d, (d, v) ∈ oneEach delta vs := by
  cases vs with
  | nil => cases h
  | cons v' vs =>
    rcases mem_cons.mp h with rfl | h
    · exact ⟨delta, mem_cons_self⟩
    · exact ⟨0, mem_cons_of_mem _ (mem_map_of_mem h)⟩

theorem delta_lt (o : CoapOption) (current : ℕ) : o.number - current < 65536 + 269 := by
  have hle := CoapOption.number_le o
  have hsize : CoapOption.size1.number = 60 := rfl
  omega

/-- The values of an option are read back. -/
theorem readOptions_encode (o : CoapOption) :
    ∀ {fuel current : ℕ}, (∀ v ∈ vs, v.length < 65536 + 269) →
      (encode current (vs.map (o, ·))).length ≤ fuel →
      readOptions fuel (encode current (vs.map (o, ·))) =
        some (oneEach (o.number - current) vs) := by
  induction vs with
  | nil =>
    intro fuel current _ _
    cases fuel <;> rfl
  | cons v vs ih =>
    intro fuel current hshort hfuel
    rw [map_cons, encode, length_append, length_append, coapSetOptionHeader,
      length_cons] at hfuel
    obtain _ | fuel := fuel
    · omega
    rw [map_cons, encode, readOptions_header (delta_lt o current) (hshort v mem_cons_self),
      ih (fun v hv => hshort v (mem_cons_of_mem _ hv)) (by omega), Nat.sub_self, oneEach_zero]
    rfl

/-- The parts of a string that are read back as its segments. -/
theorem segments_of_readOptions {o : CoapOption}
    {fuel current : ℕ} (h : cutScan sep [] acc u = some vs)
    (hread : readOptions fuel (encode current (vs.map (o, ·))) =
      some (oneEach (o.number - current) ((u.splitOn sep).modifyHead (acc ++ ·)))) :
    ∀ seg ∈ (u.splitOn sep).tail, seg ≠ [] := by
  fun_induction cutScan sep [] acc u generalizing vs fuel current with
  | case1 acc => simp
  | case2 acc => cases h
  | case3 acc c hc =>
    rw [tail_splitOn_cons hc]
    simp
  | case4 acc d rest ih =>
    obtain ⟨vs, hvs, rfl⟩ := map_eq_some_iff.mp h
    rw [splitOn_cons_sep, tail_cons]
    rw [splitOn_cons_sep, modifyHead_cons, append_nil] at hread
    -- behind the option of `acc`
    obtain ⟨n, fuel', hh, -, -, hrest⟩ := readOptions_cons hread
    rw [map_cons, encode] at hh hrest
    rw [readHeader_coapSetOptionHeader, some.injEq, Prod.mk.injEq, Prod.mk.injEq] at hh
    rw [← hh.2.2, ← drop_drop, drop_left, drop_left] at hrest
    obtain ⟨v, vs', rfl⟩ := cutScan_head hvs
    by_cases hd : d = sep
    · -- the separator is in the part, which is not empty as the segment is
      subst hd
      rw [splitOn_cons_sep, map_cons] at hrest
      obtain ⟨n', fuel'', hh', -⟩ := readOptions_cons hrest
      rw [encode, readHeader_coapSetOptionHeader, some.injEq, Prod.mk.injEq,
        Prod.mk.injEq] at hh'
      have hpos := saidValue_pos (show 0 < ([d] ++ v).length from Nat.succ_pos _)
      rw [hh'.2.1] at hpos
      exact absurd hpos (lt_irrefl 0)
    · rw [forall_splitOn_cons hd]
      rw [splitOn_cons_of_ne hd, ← oneEach_zero, ← Nat.sub_self o.number] at hrest
      exact ih hvs hrest
  | case5 acc c d rest hc ih =>
    rw [tail_splitOn_cons hc]
    rw [modifyHead_append_splitOn hc] at hread
    exact ih h hread

end Segments

/-- **Splitting is exact if no segment but the first is empty.**  For any string and any separator
without a sign, behind an option of a number that is not above, the options written are those of the
segments, and no byte behind the terminating zero is read, if and only if no segment behind a
separator is empty and no segment is longer than an option header can say. -/
theorem arrayOption_splits_iff (o : CoapOption) {current : ℕ} (_hle : current ≤ o.number)
    (s : CString) {sep : UInt8} (hascii : sep < 0x80) :
    (∃ bytes, coapSerializeArrayOption o.number current s.bytes s.bytes.length sep = some bytes ∧
      readOptions bytes.length bytes =
        some (oneEach (o.number - current) (s.bytes.splitOn sep))) ↔
    (∀ seg ∈ (s.bytes.splitOn sep).tail, seg ≠ []) ∧
      ∀ seg ∈ s.bytes.splitOn sep, seg.length < 65536 + 269 := by
  rw [coapSerializeArrayOption_eq o current hascii le_rfl, drop_length, take_length]
  constructor
  · rintro ⟨bytes, hbytes, hread⟩
    obtain ⟨vs, hvs, rfl⟩ := map_eq_some_iff.mp hbytes
    refine ⟨?_, fun seg hseg => ?_⟩
    · by_cases hsep : sep ≠ 0
      · have hhead : (s.bytes.splitOn sep).modifyHead ([] ++ ·) = s.bytes.splitOn sep :=
          congrFun modifyHead_id _
        rw [cutParts, if_pos hsep] at hvs
        rw [← hhead] at hread
        exact segments_of_readOptions hvs hread
      · rw [not_not.mp hsep, splitOn_eq_singleton s.noNul]
        simp
    · obtain ⟨delta, hx⟩ :
          ∃ delta, (delta, seg) ∈ oneEach (o.number - current) (s.bytes.splitOn sep) :=
        mem_oneEach hseg
      exact length_of_readOptions hread _ hx
  · rintro ⟨hne, hshort⟩
    have hvs : cutParts sep [] s.bytes = some (s.bytes.splitOn sep) := by
      by_cases hsep : sep ≠ 0
      · exact cutParts_of_segments hsep hne
      · rw [cutParts, if_neg hsep, not_not.mp hsep, splitOn_eq_singleton s.noNul]
    rw [hvs]
    exact ⟨_, rfl, readOptions_encode o hshort le_rfl⟩

theorem arrayOption_splits_ab : (0 ≤ CoapOption.uriPath.number ∧ slash < 0x80) ∧
    ∃ bytes,
      coapSerializeArrayOption CoapOption.uriPath.number 0 [97, 47, 98] 3 slash = some bytes ∧
      readOptions bytes.length bytes = some (oneEach 11 [[97], [98]]) :=
  ⟨by decide,
    (arrayOption_splits_iff .uriPath (Nat.zero_le _) ⟨[97, 47, 98], by decide⟩ (by decide)).mpr
      ⟨by decide, by decide⟩⟩

/-- Splitting goes wrong at an empty segment, and at a separator the string ends with: `a//b` is
written as `a` and `/b`, and with `a/` the byte behind the terminating zero is read. -/
theorem empty_segments_lost :
    (¬ ∃ bytes, coapSerializeArrayOption CoapOption.uriPath.number 0 [97, 47, 47, 98] 4 slash =
        some bytes ∧
      readOptions bytes.length bytes = some (oneEach 11 ([97, 47, 47, 98].splitOn slash))) ∧
    readOptions 5
      ((coapSerializeArrayOption CoapOption.uriPath.number 0 [97, 47, 47, 98] 4 slash).getD
      []) = some [(11, [97]), (0, [47, 98])] ∧
    coapSerializeArrayOption CoapOption.uriPath.number 0 [97, 47] 2 slash = none := by
  refine ⟨?_, by decide, by decide⟩
  rintro ⟨bytes, hbytes, hread⟩
  have hval : coapSerializeArrayOption CoapOption.uriPath.number 0 [97, 47, 47, 98] 4 slash =
      some [0xb1, 97, 0x02, 47, 98] := by decide
  rw [hval, some.injEq] at hbytes
  subst hbytes
  exact absurd hread (by decide)

end Nespy.Coap
