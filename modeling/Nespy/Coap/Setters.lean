import Nespy.Coap.Values

/-!
# Coap — messages that are built with the setters

A message is built by `coap_init_message` and any sequence of setters (`build`).  `Setter.Ok` is
what the caller has to see to: paths and queries are segments joined by single separators, block
sizes are powers of two.  Each setter keeps `WellBuilt` (`WellBuilt.apply`), so every message that
is built has it (`build_wellBuilt`).
-/

namespace Nespy.Coap

/-- The setters with their arguments. -/
inductive Setter where
  | token (token : List UInt8)
  | contentFormat (format : UInt32)
  | accept (accept : UInt32)
  | maxAge (age : UInt32)
  | etag (etag : List UInt8)
  | ifMatch (etag : List UInt8)
  | ifNoneMatch
  | uriHost (host : CString)
  | uriPath (path : CString)
  | uriQuery (query : CString)
  | locationPath (path : CString)
  | locationQuery (query : CString)
  | observe (observe : UInt32)
  | block2 (num : UInt32) (more : UInt8) (size : UInt16)
  | block1 (num : UInt32) (more : UInt8) (size : UInt16)
  | size2 (size : UInt32)
  | size1 (size : UInt32)
  | payload (payload : List UInt8)

namespace Setter

/-- What a setter does. -/
def apply (m : Built) : Setter → Built
  | token t => m.coapSetToken t
  | contentFormat format => m.coapSetHeaderContentFormat format
  | accept a => m.coapSetHeaderAccept a
  | maxAge age => m.coapSetHeaderMaxAge age
  | etag e => m.coapSetHeaderEtag e
  | ifMatch e => m.coapSetHeaderIfMatch e
  | ifNoneMatch => m.coapSetHeaderIfNoneMatch
  | uriHost host => m.coapSetHeaderUriHost host.bytes
  | uriPath path => m.coapSetHeaderUriPath path.bytes
  | uriQuery query => m.coapSetHeaderUriQuery query.bytes
  | locationPath path => m.coapSetHeaderLocationPath path.bytes
  | locationQuery query => m.coapSetHeaderLocationQuery query.bytes
  | observe o => m.coapSetHeaderObserve o
  | block2 num more size => m.coapSetHeaderBlock2 num more size
  | block1 num more size => m.coapSetHeaderBlock1 num more size
  | size2 size => m.coapSetHeaderSize2 size
  | size1 size => m.coapSetHeaderSize1 size
  | payload p => m.coapSetPayload p

/-- The query behind `?`, as the setters of queries take it. -/
def QueryOk (query : List UInt8) : Prop := Joined ampersand (query.dropWhile (· == questionMark))

/-- The path without the slashes in front, up to a query, and that query. -/
def LocationOk (path : List UInt8) : Prop :=
  let path := path.dropWhile (· == slash)
  let upTo := path.takeWhile (· != questionMark)
  Joined slash upTo ∧ (questionMark ∈ path → QueryOk (path.drop (upTo.length + 1)))

/-- What the caller sees to. -/
def Ok : Setter → Prop
  | uriPath path => Joined slash (path.bytes.dropWhile (· == slash))
  | uriQuery query | locationQuery query => QueryOk query.bytes
  | locationPath path => LocationOk path.bytes
  | block2 _ _ size => ∃ k, size.toNat = 2 ^ k
  | block1 _ more size => more ≤ 1 ∧ ∃ k, size.toNat = 2 ^ k
  | _ => True

end Setter

/-- A message as it is built. -/
def build (type : CoapMessageType) (code : UInt8) (mid : UInt16) (setters : List Setter) : Built :=
  setters.foldl Setter.apply (coapInitMessage type code mid)

/-! ### Each setter keeps what is promised -/

section Keep

variable {m : Built}

theorem source_mark (m : Built) (o o' : CoapOption) : (m.mark o).source o' = m.source o' := by
  cases o' <;> rfl

variable {m' : Built} {o : CoapOption} {size : UInt16} {more : UInt8}

theorem WellBuilt.mark (h : WellBuilt m) (hproxy : o.isProxy = false)
    (hblock2 : o = .block2 → BlockOk m.block2Num m.block2More m.block2Size)
    (hblock1 : o = .block1 → BlockOk m.block1Num m.block1More m.block1Size) :
    WellBuilt (m.mark o) := by
  have hhas : ∀ o', (m.mark o).has o' → o' = o ∨ m.has o' := by
    intro o' hhas
    rwa [has_setOption, Bool.or_eq_true, decide_eq_true_eq] at hhas
  exact { h with
    source := fun o' => source_mark m o o' ▸ h.source o'
    block2 := fun h2 => (hhas _ h2).elim (fun he => hblock2 he.symm) h.block2
    block1 := fun h1 => (hhas _ h1).elim (fun he => hblock1 he.symm) h.block1
    proxy := fun o' ho' => (hhas o' ho').elim (fun he => he ▸ hproxy) (h.proxy o') }

/-- An option that is not a block needs no more than its fields. -/
theorem WellBuilt.mark_other (h : WellBuilt m)
    (ho : o ≠ .block1 ∧ o ≠ .block2 ∧ o.isProxy = false) : WellBuilt (m.mark o) :=
  h.mark ho.2.2 (fun he => absurd he ho.2.1) fun he => absurd he ho.1

/-- An array of eight bytes and the length that is stored with it. -/
theorem overwrite_bounds (old bs : List UInt8) :
    (UInt8.ofNat (min 8 bs.length)).toNat ≤ 8 ∧ (UInt8.ofNat (min 8 bs.length)).toNat ≤
      (overwrite old (bs.take (min 8 bs.length))).length := by
  have hlen : (UInt8.ofNat (min 8 bs.length)).toNat = min 8 bs.length := by
    rw [UInt8.toNat_ofNat']
    omega
  rw [overwrite, List.length_append, List.length_take]
  omega

/-- A string that is all there. -/
theorem source_ok {l : List UInt8} {sep : UInt8} (h : sep ≠ 0 → Joined sep l) :
    (Source.array l l.length sep).Ok :=
  ⟨le_rfl, fun hsep => by rw [List.take_length]; exact h hsep⟩

theorem exists_exponent (hmin : ¬ size < 16) (hmax : ¬ size > 2048)
    (hpow : ∃ k, size.toNat = 2 ^ k) : ∃ j : Fin 8, size = 16 <<< UInt16.ofNat j := by
  obtain ⟨k, hk⟩ := hpow
  have hmin' : 2 ^ 4 ≤ 2 ^ k := hk ▸ not_lt.mp hmin
  have hmax' : 2 ^ k ≤ 2 ^ 11 := hk ▸ not_lt.mp hmax
  have h4 : 4 ≤ k := (Nat.pow_le_pow_iff_right (by decide)).mp hmin'
  have h11 : k ≤ 11 := (Nat.pow_le_pow_iff_right (by decide)).mp hmax'
  obtain ⟨j, rfl⟩ := Nat.exists_eq_add_of_le h4
  have hsize : ∀ j : Fin 8, ((16 : UInt16) <<< UInt16.ofNat j).toNat = 2 ^ (4 + (j : ℕ)) := by
    decide
  exact ⟨⟨j, by omega⟩, UInt16.toNat_inj.mp (hk.trans (hsize ⟨j, by omega⟩).symm)⟩

/-- The fields that `WellBuilt` names, other than those the serializer is given for options. -/
def CoapMessage.promised (m : Built) :
    (OptionMap × UInt8 × UInt8) × (UInt32 × UInt8 × UInt16) × (UInt32 × UInt8 × UInt16) ×
      (UInt8 × List UInt8) × (UInt16 × Option (List UInt8)) :=
  ((m.options, m.etagLen, m.ifMatchLen), (m.block2Num, m.block2More, m.block2Size),
    (m.block1Num, m.block1More, m.block1Size), (m.tokenLen, m.token), (m.payloadLen, m.payload))

section

variable (h : WellBuilt m)

include h

theorem WellBuilt.of_promised (hsame : m'.promised = m.promised)
    (hsource : ∀ o, (m'.source o).Ok) : WellBuilt m' := by
  simp only [CoapMessage.promised, Prod.mk.injEq] at hsame
  obtain ⟨⟨hoptions, hetag, hmatch⟩, ⟨hn2, hm2, hs2⟩, ⟨hn1, hm1, hs1⟩, ⟨htl, ht⟩, hpl, hp⟩ := hsame
  have hhas : ∀ o, m'.has o = m.has o := fun o => by rw [CoapMessage.has, hoptions]; rfl
  exact ⟨hsource, hetag ▸ h.etag, hmatch ▸ h.ifMatch,
    fun ho => hn2 ▸ hm2 ▸ hs2 ▸ h.block2 (hhas _ ▸ ho),
    fun ho => hn1 ▸ hm1 ▸ hs1 ▸ h.block1 (hhas _ ▸ ho), fun o ho => h.proxy o (hhas _ ▸ ho),
    htl ▸ ht ▸ h.token, hpl ▸ hp ▸ h.payload⟩

/-- One of the options whose fields the serializer is given as they are. -/
theorem WellBuilt.set (o : CoapOption)
    (ho : o ≠ .block1 ∧ o ≠ .block2 ∧ o.isProxy = false) (hsame : m'.promised = m.promised)
    (hother : ∀ o' ≠ o, (m.source o').Ok → (m'.source o').Ok) (hself : (m'.source o).Ok) :
    WellBuilt (m'.mark o) := by
  refine WellBuilt.mark_other (h.of_promised hsame fun o' => ?_) ho
  by_cases he : o' = o
  · exact he ▸ hself
  · exact hother o' he (h.source o')

theorem WellBuilt.setToken (t : List UInt8) : WellBuilt (m.coapSetToken t) := by
  refine { h with source := fun o => ?_, token := overwrite_bounds m.token t }
  have hold := h.source o
  cases o <;> exact hold

theorem WellBuilt.setPayload (p : List UInt8) : WellBuilt (m.coapSetPayload p) := by
  refine { h with source := fun o => ?_, payload := ?_ }
  · have hold := h.source o
    cases o <;> exact hold
  · have hlen : (UInt16.ofNat (min coapMaxChunkSize p.length)).toNat =
        min coapMaxChunkSize p.length := by
      rw [UInt16.toNat_ofNat', coapMaxChunkSize]
      omega
    show (UInt16.ofNat _).toNat ≤ _ ∧ (UInt16.ofNat _).toNat ≤ p.length
    rw [hlen]
    exact ⟨Nat.min_le_left _ _, Nat.min_le_right _ _⟩

theorem WellBuilt.setEtag (e : List UInt8) :
    WellBuilt (m.coapSetHeaderEtag e) := by
  obtain ⟨hmax, hlen⟩ := overwrite_bounds m.etag e
  apply WellBuilt.mark_other
  · refine { h with source := fun o => ?_, etag := hmax }
    have hold := h.source o
    cases o with
    | etag => exact ⟨hlen, fun hsep => absurd rfl hsep⟩
    | _ => exact hold
  · decide

theorem WellBuilt.setIfMatch (e : List UInt8) :
    WellBuilt (m.coapSetHeaderIfMatch e) := by
  obtain ⟨hmax, hlen⟩ := overwrite_bounds m.ifMatch e
  apply WellBuilt.mark_other
  · refine { h with source := fun o => ?_, ifMatch := hmax }
    have hold := h.source o
    cases o with
    | ifMatch => exact ⟨hlen, fun hsep => absurd rfl hsep⟩
    | _ => exact hold
  · decide

theorem WellBuilt.setLocationQuery {query : List UInt8}
    (hquery : Setter.QueryOk query) : WellBuilt (m.coapSetHeaderLocationQuery query) :=
  h.set .locationQuery (by decide) rfl
    (fun o ho hold => by cases o <;> first | exact hold | exact absurd rfl ho)
    (source_ok fun _ => hquery)

/-- A location, with its query. -/
theorem WellBuilt.setLocationPath {path : List UInt8}
    (hpath : Setter.LocationOk path) : WellBuilt (m.coapSetHeaderLocationPath path) := by
  obtain ⟨hjoined, hquery⟩ := hpath
  unfold CoapMessage.coapSetHeaderLocationPath
  dsimp only
  generalize path.dropWhile (· == slash) = path at hjoined hquery ⊢
  have hpre := List.takeWhile_prefix (l := path) (· != questionMark)
  generalize path.takeWhile (· != questionMark) = upTo at hpre hjoined hquery ⊢
  -- the query first, then the path
  have hm : WellBuilt (if questionMark ∈ path then
      m.coapSetHeaderLocationQuery (path.drop (upTo.length + 1)) else m) := by
    split_ifs with hmem
    · exact h.setLocationQuery (hquery hmem)
    · exact h
  generalize (if questionMark ∈ path then
      m.coapSetHeaderLocationQuery (path.drop (upTo.length + 1)) else m) = m' at hm ⊢
  have hset : WellBuilt { m' with locationPathLen := upTo.length, locationPath := some path } := by
    refine hm.of_promised rfl fun o => ?_
    have hold := hm.source o
    cases o with
    | locationPath =>
      exact ⟨hpre.length_le, fun _ => (List.prefix_iff_eq_take.mp hpre) ▸ hjoined⟩
    | _ => exact hold
  split_ifs
  · exact hset.mark_other (by decide)
  · exact hset

end

section

variable (hsize : ∃ k, size.toNat = 2 ^ k)

include hsize

/-- A block whose size is a power of two. -/
theorem BlockOk.of_set {num : UInt32}
    (h : ¬ (size < 16 ∨ size > 2048 ∨ num > 0x0fffff)) (hmore : more = 0 ∨ more = 1) :
    BlockOk num more size := by
  obtain ⟨hmin, hmax, hnum⟩ : ¬ size < 16 ∧ ¬ size > 2048 ∧ ¬ num > 0x0fffff := by tauto
  exact ⟨UInt32.not_lt.mp hnum, hmore, exists_exponent hmin hmax hsize⟩

theorem WellBuilt.setBlock2 (h : WellBuilt m) (num : UInt32) (more : UInt8) :
    WellBuilt (m.coapSetHeaderBlock2 num more size) := by
  unfold CoapMessage.coapSetHeaderBlock2
  by_cases hbad : size < 16 ∨ size > 2048 ∨ num > 0x0fffff
  · rw [if_pos hbad]
    exact h
  · rw [if_neg hbad]
    have hblock : BlockOk num (if more ≠ 0 then 1 else 0) size :=
      .of_set hsize hbad (by split_ifs <;> simp)
    apply WellBuilt.mark
    · refine { h with source := fun o => ?_, block2 := fun _ => hblock }
      have hold := h.source o
      cases o <;> exact hold
    · rfl
    · exact fun _ => hblock
    · intro he
      cases he

theorem WellBuilt.setBlock1 (h : WellBuilt m) (num : UInt32)
    (hmore : more ≤ 1) :
    WellBuilt (m.coapSetHeaderBlock1 num more size) := by
  unfold CoapMessage.coapSetHeaderBlock1
  split_ifs with hbad
  · exact h
  · have hmore' : more = 0 ∨ more = 1 := by
      have hle : more.toNat ≤ 1 := hmore
      rcases Nat.le_one_iff_eq_zero_or_eq_one.mp hle with h0 | h1
      · exact .inl (UInt8.toNat_inj.mp h0)
      · exact .inr (UInt8.toNat_inj.mp h1)
    have hblock : BlockOk num more size := .of_set hsize hbad hmore'
    apply WellBuilt.mark
    · refine { h with source := fun o => ?_, block1 := fun _ => hblock }
      have hold := h.source o
      cases o <;> exact hold
    · rfl
    · intro he
      cases he
    · exact fun _ => hblock

end

/-- **Each setter keeps what is promised of a message.** -/
theorem WellBuilt.apply (h : WellBuilt m) {s : Setter} (hs : s.Ok) : WellBuilt (s.apply m) := by
  cases s with
  | token t => exact h.setToken t
  | etag e => exact h.setEtag e
  | ifMatch e => exact h.setIfMatch e
  | payload p => exact h.setPayload p
  | locationPath path => exact h.setLocationPath hs
  | locationQuery query => exact h.setLocationQuery hs
  | block2 num more size => exact h.setBlock2 hs num more
  | block1 num more size => exact h.setBlock1 hs.2 num hs.1
  | ifNoneMatch => exact h.mark_other (by decide)
  | uriHost host =>
    refine h.set .uriHost (by decide) rfl (fun o ho hold => ?_)
      (source_ok fun hsep => absurd rfl hsep)
    cases o <;> first | exact hold | exact absurd rfl ho
  | uriPath path | uriQuery query =>
    refine h.set _ (by decide) rfl (fun o ho hold => ?_) (source_ok fun _ => hs)
    cases o <;> first | exact hold | exact absurd rfl ho
  | contentFormat | accept | maxAge | observe | size2 | size1 =>
    exact h.set _ (by decide) rfl (fun o _ hold => by cases o <;> exact hold) trivial

end Keep

variable (type : CoapMessageType)

section

variable (code : UInt8) (mid : UInt16)

theorem coapInitMessage_wellBuilt :
    WellBuilt (coapInitMessage type code mid) := by
  have hhas : ∀ o, (coapInitMessage type code mid).has o = false := has_of_options_zero rfl
  refine ⟨fun o => ?_, Nat.zero_le _, Nat.zero_le _, fun ho => ?_, fun ho => ?_, fun o ho => ?_,
    ⟨Nat.zero_le _, Nat.zero_le _⟩, ⟨Nat.zero_le _, Nat.zero_le _⟩⟩
  · cases o with
    | locationPath | uriPath | uriQuery | locationQuery => exact ⟨le_rfl, fun _ => .inl rfl⟩
    | uriHost | proxyUri | proxyScheme => exact ⟨le_rfl, fun hsep => absurd rfl hsep⟩
    | ifMatch | etag => exact ⟨Nat.zero_le _, fun hsep => absurd rfl hsep⟩
    | _ => trivial
  all_goals
    rw [hhas] at ho
    cases ho

/-- **A message that is built keeps its promises.** -/
theorem build_wellBuilt {setters : List Setter} (h : ∀ s ∈ setters, s.Ok) :
    WellBuilt (build type code mid setters) :=
  setters.foldlRecOn Setter.apply (coapInitMessage_wellBuilt type code mid) fun _ hm s hs =>
    hm.apply (h s hs)

theorem code_apply (m : Built) (s : Setter) : (s.apply m).code = m.code := by
  cases s with
  | locationPath path =>
    simp only [Setter.apply, CoapMessage.coapSetHeaderLocationPath]
    split_ifs <;> rfl
  | block2 num more size =>
    simp only [Setter.apply, CoapMessage.coapSetHeaderBlock2]
    split_ifs <;> rfl
  | block1 num more size =>
    simp only [Setter.apply, CoapMessage.coapSetHeaderBlock1]
    split_ifs <;> rfl
  | _ => rfl

theorem code_build (setters : List Setter) :
    (build type code mid setters).code = code :=
  setters.foldlRecOn Setter.apply (motive := fun m => m.code = code) rfl fun m hm s _ =>
    (code_apply m s).trans hm

end

end Nespy.Coap
