import Nespy.Coap.Blockwise

/-!
# Coap — what a download delivers

`download_agrees_iff`: a download hands on the body just when the body is one block, or the server's
block size is the one the client asks for.  While the sizes are the same, `Underway` says how far a
download has got, and each round leaves it so or ends it well (`Underway.answered`).  When they
differ, the second request leads behind the first block and past the bytes that follow it
(`rounds_gap`).
-/

open List

namespace Nespy.Coap

variable {z : Sizes} {handler : Handler} {body : List UInt8} {size : UInt16}
  {offset : UInt32} {n : ℕ}

/-! ### Sizes -/

theorem toNat_sixteen_shiftLeft : ∀ k : Fin 8,
    ((16 : UInt16) <<< UInt16.ofNat k).toNat = 16 * 2 ^ (k : ℕ) := by
  decide

/-- The size of the blocks that a client asks for. -/
def requestedSize (clientChunk : UInt16) : ℕ := 16 * 2 ^ coapLog2 (clientChunk / 16)

theorem coapLog2_eq : ∀ v : Fin 129, coapLog2 (UInt16.ofNat v) = Nat.log2 v := by
  decide +kernel

theorem coapLog2_lt (v : Fin 129) : coapLog2 (UInt16.ofNat v) < 8 := by
  rw [coapLog2_eq]
  have hv : (v : ℕ) < 2 ^ 8 := by omega
  rcases Nat.eq_zero_or_pos v with hzero | hpos
  · rw [hzero]
    decide
  · exact (Nat.log2_lt hpos.ne').mpr hv

theorem le_coapLog2 (v : Fin 129) (k : Fin 8) (hk : 2 ^ (k : ℕ) ≤ (v : ℕ)) :
    (k : ℕ) ≤ coapLog2 (UInt16.ofNat v) := by
  rw [coapLog2_eq]
  exact (Nat.le_log2 (by have := Nat.two_pow_pos (k : ℕ); omega)).mpr hk

section Sizes

variable {chunk : UInt16}

theorem div_sixteen (hmax : chunk ≤ 2048) :
    ∃ v : Fin 129, chunk / 16 = UInt16.ofNat v ∧ (v : ℕ) = chunk.toNat / 16 := by
  have hle : chunk.toNat ≤ 2048 := hmax
  refine ⟨⟨chunk.toNat / 16, by omega⟩, ?_, rfl⟩
  apply UInt16.toNat_inj.mp
  rw [UInt16.toNat_ofNat', Nat.mod_eq_of_lt (by omega)]
  rfl

theorem requestedSize_exponent (hmax : chunk ≤ 2048) :
    ∃ k : Fin 8, coapLog2 (chunk / 16) = k ∧ requestedSize chunk = 16 * 2 ^ (k : ℕ) := by
  obtain ⟨v, hv, -⟩ := div_sixteen hmax
  refine ⟨⟨_, coapLog2_lt v⟩, ?_, ?_⟩
  · rw [hv]
  · rw [requestedSize, hv]

/-- The client rounds its size down, so the server's blocks are not larger than what it asks for. -/
theorem le_requestedSize (hmax : chunk ≤ 2048) {k : Fin 8} (hk : 16 * 2 ^ (k : ℕ) ≤ chunk.toNat) :
    16 * 2 ^ (k : ℕ) ≤ requestedSize chunk := by
  obtain ⟨v, hv, hdiv⟩ := div_sixteen hmax
  have hpow : 2 ^ (k : ℕ) ≤ (v : ℕ) := by omega
  have hle := le_coapLog2 v k hpow
  rw [requestedSize, hv]
  exact Nat.mul_le_mul_left 16 (Nat.pow_le_pow_right (by decide) hle)

/-- The server's view of a request for block `num`. -/
theorem transmitBlock2_request (num : UInt32) (hnum : num ≤ 0x0fffff) (hmax : chunk ≤ 2048) :
    ∃ size offset, transmitBlock2 (some (num, 0, chunk)) = some (num, 0, size, offset) ∧
      size.toNat = requestedSize chunk ∧ offset.toNat = num.toNat * requestedSize chunk := by
  obtain ⟨k, hlog, hsize⟩ := requestedSize_exponent hmax
  have hvalue : blockValue num 0 chunk = blockValue num 0 (16 <<< UInt16.ofNat k) := by
    rw [blockValue, blockValue, hlog, coapLog2_two_pow]
  refine ⟨16 <<< UInt16.ofNat k, num * ((16 : UInt16) <<< UInt16.ofNat k).toUInt32, ?_, ?_, ?_⟩
  · rw [transmitBlock2_some, hvalue]
    exact congrArg some (parseBlock_blockValue hnum 0 k)
  · rw [hsize, toNat_sixteen_shiftLeft]
  · have hnum' : num.toNat ≤ 0x0fffff := hnum
    have hk : 2 ^ (k : ℕ) ≤ 2 ^ 7 := Nat.pow_le_pow_right (by decide) (Nat.le_of_lt_succ k.2)
    have hbound : num.toNat * (16 * 2 ^ (k : ℕ)) ≤ 0x0fffff * 2048 :=
      Nat.mul_le_mul hnum' (by omega)
    rw [UInt32.toNat_mul, UInt16.toNat_toUInt32, hsize, toNat_sixteen_shiftLeft]
    exact Nat.mod_eq_of_lt (by omega)

theorem setHeaderBlock2_eq {num : UInt32} (hnum : num ≤ 0x0fffff) (more : Bool) (hmin : ¬size < 16)
    (hmax : ¬size > 2048) :
    setHeaderBlock2 none num more size = some (num, if more then 1 else 0, size) := by
  rw [setHeaderBlock2, if_neg]
  rintro (h | h | h)
  · exact hmin h
  · exact hmax h
  · exact absurd hnum (UInt32.not_le.mpr h)

/-- The client's view of a response. -/
theorem transmitBlock2_response (num : UInt32) (hnum : num ≤ 0x0fffff) (more : Bool)
    (hmin : ¬size < 16) (hmax : ¬size > 2048) (hpow : ∃ k, size.toNat = 2 ^ k) :
    ∃ offset, transmitBlock2 (setHeaderBlock2 none num more size) =
      some (num, if more then 1 else 0, size, offset) := by
  rw [setHeaderBlock2_eq hnum more hmin hmax]
  obtain ⟨k, rfl⟩ := exists_exponent hmin hmax hpow
  refine ⟨num * ((16 : UInt16) <<< UInt16.ofNat k).toUInt32, ?_⟩
  refine congrArg some ((parseBlock_blockValue hnum _ k).trans ?_)
  cases more <;> rfl

end Sizes

/-! ### What the server answers -/

section Server

theorem Sizes.serverBlock_pos (z : Sizes) : 0 < z.serverBlock.toNat := by
  obtain ⟨k, hk⟩ := z.pow
  rw [hk]
  exact Nat.two_pow_pos k

theorem setPayload_take (hn : n ≤ z.serverBlock.toNat) (l : List UInt8) :
    z.setPayload (l.take n) = l.take n := by
  have hle : z.serverBlock.toNat ≤ z.serverChunk.toNat := z.le_server
  rw [Sizes.setPayload, take_take, min_eq_right (by omega)]

theorem min_serverBlock (hsize : z.serverBlock ≤ size) :
    min size z.serverBlock = z.serverBlock := by
  show (if size ≤ z.serverBlock then size else z.serverBlock) = z.serverBlock
  split_ifs with hle
  · exact UInt16.le_antisymm hle hsize
  · rfl

/-- The first response of a resource that provides blocks. -/
theorem respondFirst_blocks (h : ProvidesBlocks body handler) : (respondFirst z handler).block2 =
        setHeaderBlock2 none 0 (z.serverBlock.toNat < body.length) z.serverBlock ∧
      (respondFirst z handler).payload = body.take z.serverBlock.toNat := by
  have hpayload := (h.payload 0 z.serverBlock.toNat (.inl rfl)).2
  rw [drop_zero] at hpayload
  have hoffset : (handler 0 z.serverBlock.toNat).offset ≠ 0 ∧
      decide ((handler 0 z.serverBlock.toNat).offset ≠ -1) =
        decide (z.serverBlock.toNat < body.length) := by
    by_cases hlen : z.serverBlock.toNat < body.length
    · obtain ⟨hne, hne'⟩ := h.more 0 z.serverBlock.toNat z.serverBlock_pos (by omega)
      exact ⟨hne', by rw [decide_eq_true hne, decide_eq_true hlen]⟩
    · have hlast := h.last 0 z.serverBlock.toNat (.inl rfl) (by omega)
      rw [hlast, decide_eq_false hlen]
      exact ⟨by decide, rfl⟩
  simp only [respondFirst, if_pos hoffset.1, hoffset.2, hpayload, true_and]
  rw [setPayload_take le_rfl, take_take, length_take]
  have hle :
    min (min (min z.serverBlock.toNat body.length) z.serverBlock.toNat) z.serverBlock.toNat =
      min z.serverBlock.toNat body.length := by omega
  rw [hle, setPayload_take (by omega)]
  exact take_eq_take_min.symm

/-- The only response of a resource that does not. -/
theorem respondFirst_whole (h : ProvidesWhole body handler) :
    (respondFirst z handler).block2 = none ∧
      (respondFirst z handler).payload = body.take z.serverChunk.toNat := by
  have hoffset : ¬(handler 0 z.serverBlock.toNat).offset ≠ 0 := by
    rw [h.offset]
    exact fun hne => hne rfl
  simp only [respondFirst, if_neg hoffset, (h.payload 0 _).2, true_and]
  rfl

/-- A block inside the body. -/
theorem respondBlock_inside (h : ProvidesBlocks body handler) (num : UInt32)
    (hsize : z.serverBlock ≤ size)
    (hoffset : offset.toNat < 2 ^ 31) (hin : offset.toNat < body.length) :
    (respondBlock z handler num size offset).block2 =
        setHeaderBlock2 none num (offset.toNat + z.serverBlock.toNat < body.length) z.serverBlock ∧
      (respondBlock z handler num size offset).payload =
        (body.drop offset.toNat).take z.serverBlock.toNat := by
  have hmin := min_serverBlock hsize
  have hpayload := (h.payload offset.toNat z.serverBlock.toNat (.inr hin)).2
  have hlen :
      ¬z.serverBlock.toNat < ((body.drop offset.toNat).take z.serverBlock.toNat).length := by
    rw [length_take]
    omega
  have hnew : (handler offset.toNat z.serverBlock.toNat).offset ≠ (offset.toNat : ℤ) ∧
      decide ((handler offset.toNat z.serverBlock.toNat).offset ≠ -1 ∨ False) =
        decide (offset.toNat + z.serverBlock.toNat < body.length) := by
    by_cases hmore : offset.toNat + z.serverBlock.toNat < body.length
    · obtain ⟨hne, hne'⟩ := h.more _ _ z.serverBlock_pos hmore
      exact ⟨hne', by rw [decide_eq_true hmore]; exact decide_eq_true (.inl hne)⟩
    · have hlast := h.last offset.toNat z.serverBlock.toNat (.inr hin) (by omega)
      rw [hlast, decide_eq_false hmore]
      exact ⟨by omega, rfl⟩
  have hfalse : (z.serverBlock.toNat < ((body.drop offset.toNat).take z.serverBlock.toNat).length) =
      False := eq_false hlen
  simp only [respondBlock, hmin, if_neg (Nat.not_le.mpr hoffset), if_neg hnew.1, hpayload,
    setPayload_take le_rfl, hfalse, if_false, and_true]
  exact congrArg (setHeaderBlock2 none num · z.serverBlock) hnew.2

end Server

/-! ### Rounds -/

section Rounds

variable {s s' : RequestState} {payload : List UInt8}

theorem delivered_nil : delivered [] = [] := rfl

theorem delivered_append (ns ns' : List Notice) :
    delivered (ns ++ ns') = delivered ns ++ delivered ns' := flatMap_append

section

variable (api : Api) (hex : s.exchange z handler = (s', payload))

include api hex

/-- The expected block, with more to come. -/
theorem round_more
    (hres : s'.resBlock = s'.blockNum) (hmore : s'.more ≠ 0)
    (herr : s'.blockError < coapMaxAttempts) :
    api.round z handler s .answered =
      ({ s' with status := some .more, blockNum := s'.blockNum + 1 },
        [⟨.more, some payload⟩], false) := by
  cases api with
  | blocking =>
    simp only [Api.round, RequestState.coapBlockingRequest, hex, if_pos hres, if_pos hmore]
    exact if_pos ⟨hmore, herr⟩
  | callback =>
    simp only [Api.round, RequestState.coapRequestCallback, hex, if_pos hres, if_pos hmore]
    exact if_pos herr

/-- The expected block, and the last one. -/
theorem round_last
    (hres : s'.resBlock = s'.blockNum) (hmore : s'.more = 0)
    (herr : s'.blockError < coapMaxAttempts) :
    ∃ ns, delivered ns = payload ∧ api.round z handler s .answered =
      ({ s' with status := some .finished, blockNum := s'.blockNum + 1 }, ns, true) := by
  have hmore' : ¬s'.more ≠ 0 := fun h => h hmore
  cases api with
  | blocking =>
    refine ⟨[⟨.response, some payload⟩], append_nil _, ?_⟩
    simp only [Api.round, RequestState.coapBlockingRequest, hex, if_pos hres, if_neg hmore']
    rw [if_neg fun h => hmore' h.1, if_neg (UInt8.not_le.mpr herr)]
  | callback =>
    refine ⟨[⟨.response, some payload⟩, ⟨.finished, none⟩], append_nil _, ?_⟩
    simp only [Api.round, RequestState.coapRequestCallback, hex, if_pos hres, if_neg hmore']
    rfl

/-- Another block than the expected one: the client asks again, or gives up. -/
theorem round_wrong
    (hres : s'.resBlock ≠ s'.blockNum) (hmore : s'.more ≠ 0) :
    (s'.blockError + 1 < coapMaxAttempts ∧ ∃ status, (status = some .more ∨ status = s'.status) ∧
      api.round z handler s .answered =
        ({ s' with status := status, blockError := s'.blockError + 1 }, [], false)) ∨
    ∃ ns s'', delivered ns = [] ∧ s''.status = some .blockError ∧
      api.round z handler s .answered = (s'', ns, true) := by
  by_cases herr : s'.blockError + 1 < coapMaxAttempts
  · refine .inl ⟨herr, ?_⟩
    cases api with
    | blocking =>
      refine ⟨some .more, .inl rfl, ?_⟩
      simp only [Api.round, RequestState.coapBlockingRequest, hex, if_neg hres, if_pos hmore]
      exact if_pos ⟨hmore, herr⟩
    | callback =>
      refine ⟨s'.status, .inr rfl, ?_⟩
      simp only [Api.round, RequestState.coapRequestCallback, hex, if_neg hres, if_pos hmore]
      exact if_pos herr
  · refine .inr ?_
    cases api with
    | blocking =>
      simp only [Api.round, RequestState.coapBlockingRequest, hex, if_neg hres]
      rw [if_neg fun h => herr h.2, if_pos (UInt8.not_lt.mp herr)]
      exact ⟨_, _, delivered_nil, rfl, rfl⟩
    | callback =>
      simp only [Api.round, RequestState.coapRequestCallback, hex, if_neg hres, if_pos hmore]
      rw [if_neg herr]
      exact ⟨_, _, rfl, rfl, rfl⟩

end

variable {ns : List Notice} {o : RequestOutcome}

/-- A round without an answer is the last, and delivers nothing. -/
theorem round_unanswered (z : Sizes) (handler : Handler) (api : Api) (ho : o ≠ .answered)
    (hs : s.status ≠ some .finished) : ∃ ns s', delivered ns = [] ∧ s'.status ≠ some .finished ∧
      api.round z handler s o = (s', ns, true) := by
  cases o with
  | answered => exact absurd rfl ho
  | timedOut =>
    cases api with
    | blocking | callback =>
      exact ⟨_, { s.prepare z with status := some .timeout }, rfl, Option.some_injective _ |>.ne
        RequestStatus.noConfusion, rfl⟩
  | noTransaction =>
    cases api with
    | blocking | callback => exact ⟨_, _, rfl, hs, rfl⟩

theorem exchange_start (z : Sizes) (handler : Handler) : RequestState.start.exchange z handler =
    (RequestState.start.readBlock2 (transmitBlock2 (respondFirst z handler).block2),
      (respondFirst z handler).payload.take z.clientChunk.toNat) := rfl

variable (api : Api)

theorem rounds_of_done (h : api.round z handler s o = (s', ns, true)) (os : List RequestOutcome) :
    api.rounds z handler s (o :: os) = (s', ns) := by
  rw [Api.rounds, h]

theorem rounds_of_going (h : api.round z handler s o = (s', ns, false)) (os : List RequestOutcome) :
    api.rounds z handler s (o :: os) =
      ((api.rounds z handler s' os).1, ns ++ (api.rounds z handler s' os).2) := by
  rw [Api.rounds, h]

/-- The first response has no Block2 option, or one for the only block. -/
def Single (z : Sizes) (handler : Handler) : Prop :=
  transmitBlock2 (respondFirst z handler).block2 = none ∨
    ∃ size offset, transmitBlock2 (respondFirst z handler).block2 = some (0, 0, size, offset)

/-- Such a response ends the request. -/
theorem rounds_single (hblock : Single z handler) (os : List RequestOutcome) :
    delivered (api.rounds z handler .start (.answered :: os)).2 =
        (respondFirst z handler).payload.take z.clientChunk.toNat ∧
      (api.rounds z handler .start (.answered :: os)).1.status = some .finished := by
  have hlast : ∃ ns s', delivered ns = (respondFirst z handler).payload.take z.clientChunk.toNat ∧
      s'.status = some .finished ∧ api.round z handler .start .answered = (s', ns, true) := by
    have hex := exchange_start z handler
    rcases hblock with hnone | ⟨size, offset, hsome⟩
    · rw [hnone] at hex
      obtain ⟨ns, hns, hround⟩ := round_last api hex rfl rfl (by decide)
      exact ⟨ns, _, hns, rfl, hround⟩
    · rw [hsome] at hex
      obtain ⟨ns, hns, hround⟩ := round_last api hex rfl rfl (show 0 < coapMaxAttempts by decide)
      exact ⟨ns, _, hns, rfl, hround⟩
  obtain ⟨ns, s', hns, hstatus, hround⟩ := hlast
  rw [rounds_of_done api hround]
  exact ⟨hns, hstatus⟩

end Rounds

/-! ### A download in blocks -/

/-- The server's blocks have a size that a Block2 option can say, and it is the one the client asks
for. A client whose own size a Block2 option cannot say never asks for a second block. -/
structure SameSize (z : Sizes) : Prop where
  min : ¬z.serverBlock < 16
  max : ¬z.serverBlock > 2048
  same : 2048 < z.clientChunk ∨ z.serverBlock.toNat = requestedSize z.clientChunk

/-- The request is for block `num`. -/
def Asks (z : Sizes) (request : Option Block2) (num : UInt32) : Prop :=
  (request = none ∧ num = 0) ∨
    (request = some (num, 0, z.clientChunk) ∧ num ≠ 0 ∧ num ≤ 0x0fffff ∧ z.clientChunk ≤ 2048)

section Blocks

variable {request : Option Block2} {num : UInt32}

theorem Asks.le (h : Asks z request num) : num ≤ 0x0fffff := by
  rcases h with ⟨-, rfl⟩ | ⟨-, -, hnum, -⟩
  · decide
  · exact hnum

theorem take_clientChunk (hn : n ≤ z.serverBlock.toNat) (l : List UInt8) :
    (l.take n).take z.clientChunk.toNat = l.take n := by
  have hle : z.serverBlock.toNat ≤ z.clientChunk.toNat := z.le_client
  rw [take_take, min_eq_right (by omega)]

/-- The block that was asked for is the one that is sent. -/
theorem respond_asks (hz : SameSize z) (h : ProvidesBlocks body handler) (hask : Asks z request num)
    (hin : num = 0 ∨ num.toNat * z.serverBlock.toNat < body.length) :
    (∃ offset, transmitBlock2 (respond z handler (transmitBlock2 request)).block2 =
      some (num, if num.toNat * z.serverBlock.toNat + z.serverBlock.toNat < body.length then 1
        else 0, z.serverBlock, offset)) ∧
    (respond z handler (transmitBlock2 request)).payload.take z.clientChunk.toNat =
      (body.drop (num.toNat * z.serverBlock.toNat)).take z.serverBlock.toNat := by
  have hnum := hask.le
  rcases hask with ⟨rfl, rfl⟩ | ⟨rfl, hne, -, hmax⟩
  · obtain ⟨hblock, hpayload⟩ := respondFirst_blocks h
    obtain ⟨offset, hsent⟩ := transmitBlock2_response _ hnum (z.serverBlock.toNat < body.length)
      hz.min hz.max z.pow
    refine ⟨⟨offset, ?_⟩, ?_⟩
    · show transmitBlock2 (respondFirst z handler).block2 = _
      rw [hblock, hsent]
      simp
    · show (respondFirst z handler).payload.take _ = _
      rw [hpayload, take_clientChunk le_rfl]
      simp
  · obtain ⟨size, offset, hrequest, hsize, hoffset⟩ := transmitBlock2_request num hnum hmax
    have hsame : z.serverBlock.toNat = requestedSize z.clientChunk :=
      hz.same.resolve_left (UInt16.not_lt.mpr hmax)
    rw [← hsame] at hsize hoffset
    have hS : z.serverBlock.toNat ≤ 2048 := UInt16.not_lt.mp hz.max
    have hN : num.toNat ≤ 0x0fffff := hnum
    have hbound : num.toNat * z.serverBlock.toNat ≤ 0x0fffff * 2048 := Nat.mul_le_mul hN hS
    have hinside := hin.resolve_left hne
    rw [← hoffset] at hbound hinside
    have hle : z.serverBlock ≤ size := UInt16.le_iff_toNat_le.mpr hsize.ge
    obtain ⟨hblock, hpayload⟩ := respondBlock_inside h num hle (by omega) hinside
    obtain ⟨offset', hsent⟩ := transmitBlock2_response _ hnum
      (offset.toNat + z.serverBlock.toNat < body.length) hz.min hz.max z.pow
    rw [hrequest, ← hoffset]
    refine ⟨⟨offset', ?_⟩, ?_⟩
    · show transmitBlock2 (respondBlock z handler num size offset).block2 = _
      rw [hblock, hsent]
      simp only [decide_eq_true_eq]
    · show (respondBlock z handler num size offset).payload.take _ = _
      rw [hpayload, take_clientChunk le_rfl]

/-- A download that goes on: what was delivered, `acc`, is the blocks before `block_num`. -/
structure Underway (z : Sizes) (body : List UInt8) (s : RequestState) (acc : List UInt8) :
    Prop where
  blocks : acc = body.take (s.blockNum.toNat * z.serverBlock.toNat)
  inside : s.blockNum = 0 ∨ s.blockNum.toNat * z.serverBlock.toNat < body.length
  request : ∃ num ≤ s.blockNum, Asks z s.request num
  blockError : s.blockError < coapMaxAttempts
  status : s.status ≠ some .finished

theorem Underway.begins {s : RequestState} {acc : List UInt8} (h : Underway z body s acc) :
    acc <+: body := by
  rw [h.blocks]
  exact take_prefix _ _

theorem underway_start (z : Sizes) (body : List UInt8) : Underway z body .start [] where
  blocks := by
    show [] = body.take (0 * z.serverBlock.toNat)
    rw [Nat.zero_mul, take_zero]
  inside := .inl rfl
  request := ⟨0, UInt32.le_refl 0, .inl ⟨rfl, rfl⟩⟩
  blockError := by decide
  status h := by cases h

variable {s : RequestState} {acc : List UInt8}

/-- The next request is for some block up to the next one. -/
theorem Underway.prepare (h : Underway z body s acc) :
    ∃ num ≤ s.blockNum, Asks z (s.prepare z).request num := by
  obtain ⟨num, hle, hask⟩ := h.request
  rw [RequestState.prepare]
  split_ifs with hpos
  · rw [setHeaderBlock2]
    split
    · exact ⟨num, hle, hask⟩
    · rename_i hset
      refine ⟨s.blockNum, UInt32.le_refl _, .inr ⟨rfl, ?_, ?_, ?_⟩⟩
      · exact (UInt32.ne_of_lt hpos).symm
      · exact UInt32.not_lt.mp fun hbad => hset (.inr (.inr hbad))
      · exact UInt16.not_lt.mp fun hbad => hset (.inr (.inl hbad))
  · exact ⟨num, hle, hask⟩

theorem prepare_eq (z : Sizes) (s : RequestState) :
    s.prepare z = { s with request := (s.prepare z).request } := by
  rw [RequestState.prepare]
  split <;> rfl

/-- What a round leaves of a download: it goes on, or it is over. -/
def Left (z : Sizes) (body acc : List UInt8) (r : RequestState × List Notice × Bool) : Prop :=
  if r.2.2 then
    acc ++ delivered r.2.1 <+: body ∧ (r.1.status = some .finished → acc ++ delivered r.2.1 = body)
  else Underway z body r.1 (acc ++ delivered r.2.1)

/-- **Step.**  A block that is answered brings the transfer on. -/
theorem Underway.answered (hz : SameSize z) (hbody : ProvidesBlocks body handler)
    (h : Underway z body s acc) (api : Api) :
    Left z body acc (api.round z handler s .answered) := by
  obtain ⟨num, hle, hask⟩ := h.prepare
  have hle' : num.toNat ≤ s.blockNum.toNat := hle
  have hnum : num.toNat ≤ 0x0fffff := hask.le
  generalize hS : z.serverBlock.toNat = S
  have hdelivered := h.blocks
  have hin : s.blockNum = 0 ∨ s.blockNum.toNat * S < body.length := hS ▸ h.inside
  have hin' : num = 0 ∨ num.toNat * S < body.length := by
    rcases hin with hzero | hlt
    · rw [hzero] at hle
      exact .inl (UInt32.le_zero_iff.mp hle)
    · exact .inr (lt_of_le_of_lt (Nat.mul_le_mul_right S hle') hlt)
  obtain ⟨⟨offset, hblock⟩, hpayload⟩ := respond_asks hz hbody hask (hS ▸ hin')
  rw [hS] at hdelivered hblock hpayload
  -- the response is for block `num`; it says that there is more, or not
  obtain ⟨more, hmore⟩ : ∃ more : UInt8,
    more = if num.toNat * S + S < body.length then 1 else 0 := ⟨_, rfl⟩
  rw [← hmore] at hblock
  have hex : s.exchange z handler =
      ({ s with request := (s.prepare z).request, resBlock := num, more := more },
        (body.drop (num.toNat * S)).take S) := by
    refine Prod.ext ?_ hpayload
    show RequestState.readBlock2 (s.prepare z) _ = _
    rw [hblock, prepare_eq z s]
    rfl
  have hnext : (num.toNat + 1) * S = num.toNat * S + S := Nat.succ_mul ..
  by_cases hres : num = s.blockNum
  · subst hres
    have hacc : acc ++ (body.drop (s.blockNum.toNat * S)).take S =
        body.take ((s.blockNum.toNat + 1) * S) := by
      rw [hdelivered, hnext, take_add]
    split_ifs at hmore with hlt
    · have hne : more ≠ 0 := hmore ▸ by decide
      rw [round_more api hex rfl hne h.blockError]
      have hsucc : (s.blockNum + 1).toNat = s.blockNum.toNat + 1 := by
        rw [UInt32.toNat_add, show (1 : UInt32).toNat = 1 from rfl, Nat.mod_eq_of_lt (by omega)]
      refine ⟨?_, ?_, ⟨s.blockNum, ?_, hask⟩, h.blockError, fun hf => by cases hf⟩
      · show acc ++ ((body.drop (s.blockNum.toNat * S)).take S ++ []) = _
        rw [append_nil, hacc, hsucc, ← hS]
      · right
        rw [hsucc, hS, hnext]
        exact hlt
      · rw [UInt32.le_iff_toNat_le, hsucc]
        exact Nat.le_succ _
    · obtain ⟨ns, hns, hround⟩ := round_last api hex rfl hmore h.blockError
      rw [hround]
      have hall : acc ++ delivered ns = body := by
        rw [hns, hacc, take_of_length_le (by omega)]
      exact ⟨hall ▸ prefix_rfl, fun _ => hall⟩
  · -- an earlier block: there are more, since the download has got further
    have hlt : num.toNat < s.blockNum.toNat :=
      lt_of_le_of_ne hle' fun he => hres (UInt32.toNat_inj.mp he)
    have hpos : s.blockNum.toNat * S < body.length := by
      refine hin.resolve_left fun hzero => ?_
      rw [hzero] at hlt
      exact Nat.not_lt_zero _ hlt
    have hlt' : num.toNat * S + S < body.length :=
      lt_of_le_of_lt (hnext ▸ Nat.mul_le_mul_right S hlt) hpos
    rw [if_pos hlt'] at hmore
    have hne : more ≠ 0 := hmore ▸ by decide
    rcases round_wrong api hex hres hne with
      ⟨herr, status, hstatus, hround⟩ | ⟨ns, s'', hns, hstatus, hround⟩
    · rw [hround]
      refine ⟨?_, h.inside, ⟨num, hle, hask⟩, herr, ?_⟩
      · show acc ++ [] = _
        rw [append_nil]
        exact h.blocks
      · rcases hstatus with rfl | rfl
        · exact fun hf => by cases hf
        · exact h.status
    · rw [hround, Left, hns, append_nil]
      refine ⟨h.begins, fun hf => ?_⟩
      rw [hstatus] at hf
      cases hf

/-- **Run lemma.**  A download that goes on stays a beginning of the body, and finishes with all of
it. -/
theorem Underway.rounds (hz : SameSize z) (hbody : ProvidesBlocks body handler) (api : Api) :
    ∀ {os : List RequestOutcome} {s : RequestState} {acc : List UInt8}, Underway z body s acc →
      acc ++ delivered (api.rounds z handler s os).2 <+: body ∧
      ((api.rounds z handler s os).1.status = some .finished →
        acc ++ delivered (api.rounds z handler s os).2 = body) := by
  intro os
  induction os with
  | nil =>
    intro s acc h
    refine ⟨?_, fun hf => absurd hf h.status⟩
    show acc ++ [] <+: body
    rw [append_nil]
    exact h.begins
  | cons o os ih =>
    intro s acc h
    by_cases ho : o = .answered
    · subst ho
      have hleft := h.answered hz hbody api
      rcases hround : api.round z handler s .answered with ⟨s', ns, done⟩
      rw [hround] at hleft
      cases done with
      | true =>
        rw [rounds_of_done api hround]
        exact hleft
      | false =>
        rw [rounds_of_going api hround, delivered_append, ← append_assoc]
        exact ih hleft
    · obtain ⟨ns, s', hns, hstatus, hround⟩ :=
        round_unanswered z handler api ho h.status
      rw [rounds_of_done api hround, hns, append_nil]
      exact ⟨h.begins, fun hf => absurd hf hstatus⟩

end Blocks

/-! ### When the sizes differ -/

/-- A resource that says, as `.well-known/core` does, that nothing follows where it is asked for
more than it has. -/
def blocksOf (body : List UInt8) : Handler := fun offset size =>
  if offset = 0 ∨ offset < body.length then
    ⟨content205, (body.drop offset).take size,
      if body.length ≤ offset + size then -1 else offset + size⟩
  else ⟨badOption402, blockOutOfScope, -1⟩

theorem blocksOf_provides (body : List UInt8) : ProvidesBlocks body (blocksOf body) where
  payload offset size h := by
    rw [blocksOf, if_pos h]
    exact ⟨show content205 < badRequest400 by decide, rfl⟩
  last offset size h hlen := by
    rw [blocksOf, if_pos h]
    exact if_pos hlen
  more offset size hsize hlen := by
    rw [blocksOf, if_pos (.inr (by omega))]
    have hnew : (if body.length ≤ offset + size then (-1 : ℤ) else offset + size) = offset + size :=
      if_neg (Nat.not_le.mpr hlen)
    simp only [hnew]
    exact ⟨by omega, by omega⟩
  error offset size hne hlen := by
    rw [blocksOf, if_neg (by omega)]
    decide

/-- A body of zeros, but for one byte at the offset that the client's second request leads to. -/
def markedBody (length mark : ℕ) : List UInt8 := (replicate length 0).set mark 66

section Differ

variable {length : ℕ}

theorem length_markedBody (length mark : ℕ) : (markedBody length mark).length = length := by
  rw [markedBody, length_set, length_replicate]

theorem drop_markedBody {mark : ℕ} (h : mark < length) :
    ∃ rest, (markedBody length mark).drop mark = 66 :: rest := by
  have hlen : mark < (markedBody length mark).length := (length_markedBody length mark).symm ▸ h
  refine ⟨(markedBody length mark).drop (mark + 1), ?_⟩
  rw [drop_eq_getElem_cons hlen]
  refine congrArg (· :: _) ?_
  simp only [markedBody, getElem_set_self]

theorem getElem?_markedBody {mark i : ℕ} (hne : mark ≠ i) (hi : i < length) :
    (markedBody length mark)[i]? = some 0 := by
  rw [markedBody, getElem?_set_ne hne, getElem?_replicate, if_pos hi]

/-- The response to the second request begins with the mark, or is the error and begins with the
same byte. -/
theorem respondBlock_marked (length : ℕ) (hmin : ¬z.serverBlock < 16) (hsize : z.serverBlock ≤ size)
    (hlt : offset.toNat < 2 ^ 31) (hpos : 0 < offset.toNat) :
    ∃ more rest, (respondBlock z (blocksOf (markedBody length offset.toNat)) 1 size offset).block2 =
        setHeaderBlock2 none 1 more z.serverBlock ∧
      (respondBlock z (blocksOf (markedBody length offset.toNat)) 1 size offset).payload.take
        z.clientChunk.toNat = 66 :: rest := by
  have hS : 16 ≤ z.serverBlock.toNat := UInt16.not_lt.mp hmin
  have hC : z.serverBlock.toNat ≤ z.clientChunk.toNat := z.le_client
  have hK : z.serverBlock.toNat ≤ z.serverChunk.toNat := z.le_server
  by_cases hin : offset.toNat < length
  · obtain ⟨hblock, hpayload⟩ := respondBlock_inside
      (blocksOf_provides (markedBody length offset.toNat)) 1 hsize hlt
      ((length_markedBody length _).symm ▸ hin)
    obtain ⟨rest, hdrop⟩ := drop_markedBody hin
    obtain ⟨n, hn⟩ : ∃ n, z.serverBlock.toNat = n + 1 := ⟨_, (Nat.sub_add_cancel (by omega)).symm⟩
    refine ⟨_, rest.take n, hblock, ?_⟩
    rw [hpayload, take_clientChunk le_rfl, hdrop, hn, take_succ_cons]
  · have hhandled (n : ℕ) : blocksOf (markedBody length offset.toNat) offset.toNat n =
        ⟨badOption402, blockOutOfScope, -1⟩ := by
      rw [blocksOf, length_markedBody, if_neg (by omega)]
    have hlen : blockOutOfScope.length = 15 := rfl
    have hpayload : z.setPayload blockOutOfScope = blockOutOfScope :=
      take_of_length_le (by omega)
    have hminSize : min size z.serverBlock = z.serverBlock := min_serverBlock hsize
    simp only [respondBlock, hminSize, hhandled, hpayload]
    rw [if_neg (by omega)]
    refine ⟨_, blockOutOfScope.tail, rfl, ?_⟩
    show (if z.serverBlock.toNat < 15 then _ else blockOutOfScope).take _ = _
    rw [if_neg (by omega), take_of_length_le (by omega)]
    rfl

/-- Whatever block comes, if it is the expected one it is delivered. -/
theorem round_expected (api : Api) {s s' : RequestState} {payload : List UInt8}
    (hex : s.exchange z handler = (s', payload)) (hres : s'.resBlock = s'.blockNum)
    (herr : s'.blockError < coapMaxAttempts) :
    delivered (api.rounds z handler s [.answered]).2 = payload := by
  by_cases hmore : s'.more = 0
  · obtain ⟨ns, hns, hround⟩ := round_last api hex hres hmore herr
    rw [rounds_of_done api hround]
    exact hns
  · rw [rounds_of_going api (round_more api hex hres hmore herr)]
    exact append_nil _

variable (hmin : ¬z.serverBlock < 16) (hmax : ¬z.serverBlock > 2048) (hchunk : z.clientChunk ≤ 2048)
  (hlt : z.serverBlock.toNat < requestedSize z.clientChunk)

include hmin hmax hchunk hlt

/-- The second request is for block 1 of the client's own size. -/
theorem exchange_second (length : ℕ) {s : RequestState} (hnum : s.blockNum = 1)
    (hnone : s.request = none) :
    ∃ more rest,
      s.exchange z (blocksOf (markedBody length (requestedSize z.clientChunk))) =
        ({ s with request := some (1, 0, z.clientChunk), resBlock := 1, more := more },
          66 :: rest) := by
  obtain ⟨size, offset, hrequest, hsize, hoffset⟩ :=
    transmitBlock2_request 1 (by decide) hchunk
  have hmark : offset.toNat = requestedSize z.clientChunk := hoffset.trans (Nat.one_mul _)
  obtain ⟨k, -, hk⟩ := requestedSize_exponent hchunk
  have hk' : 2 ^ (k : ℕ) ≤ 2 ^ 7 := Nat.pow_le_pow_right (by decide) (Nat.le_of_lt_succ k.2)
  have hle : z.serverBlock ≤ size := UInt16.le_iff_toNat_le.mpr (by omega)
  have hoffset31 : offset.toNat < 2 ^ 31 := by omega
  have hoffset0 : 0 < offset.toNat := by omega
  obtain ⟨more, rest, hblock, hpayload⟩ := respondBlock_marked length hmin hle hoffset31 hoffset0
  rw [hmark] at hblock hpayload
  obtain ⟨offset', hsent⟩ := transmitBlock2_response 1 (by decide) more hmin hmax z.pow
  have hC : 16 ≤ z.clientChunk.toNat :=
    le_trans (UInt16.not_lt.mp hmin : 16 ≤ z.serverBlock.toNat) z.le_client
  have hset : setHeaderBlock2 none 1 false z.clientChunk = some (1, 0, z.clientChunk) :=
    setHeaderBlock2_eq (by decide) false (UInt16.not_lt.mpr hC) (UInt16.not_lt.mpr hchunk)
  have hprepare : s.prepare z = { s with request := some (1, 0, z.clientChunk) } := by
    rw [RequestState.prepare, hnum, hnone, hset]
    rfl
  refine ⟨if more then 1 else 0, rest, ?_⟩
  rw [RequestState.exchange, hprepare]
  simp only [hrequest, respond]
  rw [hblock, hsent, hpayload]
  rfl

/-- **A gap.**  With blocks smaller than the client asks for, the second block does not follow the
first. -/
theorem rounds_gap (api : Api) (hlen : z.serverBlock.toNat < length)
    (hbody : body = markedBody length (requestedSize z.clientChunk)) :
    ¬delivered (api.rounds z (blocksOf body) .start [.answered, .answered]).2 <+: body := by
  have hlength : body.length = length := hbody ▸ length_markedBody ..
  -- the first block, with more to come
  obtain ⟨hblock, hpayload⟩ := respondFirst_blocks (blocksOf_provides body)
  obtain ⟨offset, hsent⟩ := transmitBlock2_response 0 (by decide)
    (z.serverBlock.toNat < body.length) hmin hmax z.pow
  have hfirst := exchange_start z (blocksOf body)
  rw [hblock, hsent, hpayload, take_clientChunk le_rfl,
    decide_eq_true (hlength.symm ▸ hlen : z.serverBlock.toNat < body.length)] at hfirst
  have hround := round_more api hfirst rfl (show (1 : UInt8) ≠ 0 by decide)
    (show 0 < coapMaxAttempts by decide)
  -- the second block begins with the mark
  obtain ⟨more, rest, hsecond⟩ := exchange_second hmin hmax hchunk hlt length
    (s := { RequestState.start.readBlock2 (some (0, 1, z.serverBlock, offset)) with
      status := some .more, blockNum := RequestState.start.blockNum + 1 }) rfl rfl
  rw [← hbody] at hsecond
  have hexpected := round_expected api hsecond rfl (show 0 < coapMaxAttempts by decide)
  rw [rounds_of_going api hround, delivered_append]
  intro hbegin
  have hdelivered : body.take z.serverBlock.toNat ++ 66 :: rest <+: body := by
    refine List.IsPrefix.trans ?_ hbegin
    exact (congrArg₂ (· ++ ·) (append_nil (body.take z.serverBlock.toNat)).symm
      hexpected.symm) ▸ prefix_rfl
  -- but the body has a zero there
  obtain ⟨tail, htail⟩ := hdelivered
  have hzero : body[z.serverBlock.toNat]? = some 0 := by
    rw [hbody]
    exact getElem?_markedBody (Nat.ne_of_gt hlt) hlen
  rw [← htail, append_assoc, getElem?_append_right (by rw [length_take]; omega),
    length_take, hlength, min_eq_left (Nat.le_of_lt hlen), Nat.sub_self] at hzero
  cases hzero

end Differ

/-! ### The two kinds of resources -/

section Kinds

variable (api : Api)

/-- A body that comes with the first response. -/
theorem agrees_single (hblock : Single z handler)
    (hpayload : (respondFirst z handler).payload.take z.clientChunk.toNat = body)
    (os : List RequestOutcome) :
    DownloadAgrees body (api.rounds z handler .start os) := by
  cases os with
  | nil => exact ⟨List.nil_prefix, fun hf => by cases hf⟩
  | cons o os =>
    by_cases ho : o = .answered
    · subst ho
      obtain ⟨hdelivered, -⟩ := rounds_single api hblock os
      rw [hpayload] at hdelivered
      exact ⟨hdelivered ▸ prefix_rfl, fun _ => hdelivered⟩
    · obtain ⟨ns, s', hns, hstatus, hround⟩ := round_unanswered z handler (s := .start) api
        ho fun hf => by cases hf
      rw [rounds_of_done api hround]
      exact ⟨hns.symm ▸ nil_prefix, fun hf => absurd hf hstatus⟩

/-- If the first response ends the request, it has to carry the whole body. -/
theorem payload_of_agrees (hblock : Single z handler)
    (h : ∀ os, DownloadAgrees body (api.rounds z handler .start os)) :
    (respondFirst z handler).payload.take z.clientChunk.toNat = body := by
  obtain ⟨hdelivered, hfinished⟩ := rounds_single api hblock []
  rw [← hdelivered]
  exact (h [.answered]).2 hfinished

/-- A Block2 option for the only block, or none when its size cannot be said. -/
theorem transmitBlock2_only (z : Sizes) :
    transmitBlock2 (setHeaderBlock2 none 0 false z.serverBlock) = none ∨ ∃ size offset,
      transmitBlock2 (setHeaderBlock2 none 0 false z.serverBlock) = some (0, 0, size, offset) := by
  by_cases hmin : z.serverBlock < 16
  · exact .inl (by rw [setHeaderBlock2, if_pos (.inl hmin)]; rfl)
  by_cases hmax : z.serverBlock > 2048
  · exact .inl (by rw [setHeaderBlock2, if_pos (.inr (.inl hmax))]; rfl)
  obtain ⟨offset, hsent⟩ := transmitBlock2_response 0 (by decide) false hmin hmax z.pow
  exact .inr ⟨z.serverBlock, offset, hsent⟩

theorem agrees_blocks_of (hbody : ProvidesBlocks body handler)
    (hsize : body.length ≤ z.serverBlock.toNat ∨ SameSize z) (os : List RequestOutcome) :
    DownloadAgrees body (api.rounds z handler .start os) := by
  rcases hsize with hle | hsame
  · obtain ⟨hblock, hpayload⟩ := respondFirst_blocks hbody
    rw [decide_eq_false (Nat.not_lt.mpr hle)] at hblock
    refine agrees_single api (by rw [Single, hblock]; exact transmitBlock2_only z) ?_ os
    rw [hpayload, take_clientChunk le_rfl, take_of_length_le hle]
  · exact (underway_start z body).rounds hsame hbody api

/-- Without a valid size the first block ends the request. -/
theorem length_le_of_agrees (hbody : ProvidesBlocks body handler)
    (hbad : z.serverBlock < 16 ∨ z.serverBlock > 2048)
    (h : ∀ os, DownloadAgrees body (api.rounds z handler .start os)) :
    body.length ≤ z.serverBlock.toNat := by
  obtain ⟨hblock, hpayload⟩ := respondFirst_blocks hbody
  have hset : setHeaderBlock2 none 0 (z.serverBlock.toNat < body.length) z.serverBlock = none := by
    rw [setHeaderBlock2, if_pos]
    exact hbad.elim .inl fun hmax => .inr (.inl hmax)
  have hall := payload_of_agrees api (.inl (by rw [hblock, hset]; rfl)) h
  rw [hpayload, take_clientChunk le_rfl] at hall
  exact (take_eq_self_iff _).mp hall

/-- A handler that gives the whole body at once. -/
theorem agrees_whole_iff (hbody : ProvidesWhole body handler) :
    (∀ os, DownloadAgrees body (api.rounds z handler .start os)) ↔
      body.length ≤ z.serverChunk.toNat ∧ body.length ≤ z.clientChunk.toNat := by
  obtain ⟨hblock, hpayload⟩ := respondFirst_whole hbody
  have hnone : transmitBlock2 (respondFirst z handler).block2 = none := by
    rw [hblock]
    rfl
  have htake : (respondFirst z handler).payload.take z.clientChunk.toNat =
      body.take (min z.clientChunk.toNat z.serverChunk.toNat) := by
    rw [hpayload, take_take]
  constructor
  · intro h
    have hall := payload_of_agrees api (.inl hnone) h
    rw [htake] at hall
    have hle := (take_eq_self_iff _).mp hall
    omega
  · rintro ⟨hserver, hclient⟩ os
    refine agrees_single api (.inl hnone) ?_ os
    rw [htake, take_of_length_le (by omega)]

end Kinds

/-- **Blockwise download.**  For every sizes of the two ends, either way to make the request and
every length: each download of each body of that length from each resource, with any requests
unanswered, hands on a beginning of the body, and all of it when it finishes, just when the body is
one block or the server's block size is the size the client asks for; and from a resource that is
unaware of blocks, just when the body fits into one payload at both ends. -/
theorem download_agrees_iff (z : Sizes) (api : Api) (length : ℕ) :
    ((∀ body handler, body.length = length → ProvidesBlocks body handler →
        ∀ os, DownloadAgrees body (api.rounds z handler .start os)) ↔
      length ≤ z.serverBlock.toNat ∨ SameSize z) ∧
    ((∀ body handler, body.length = length → ProvidesWhole body handler →
        ∀ os, DownloadAgrees body (api.rounds z handler .start os)) ↔
      length ≤ z.serverChunk.toNat ∧ length ≤ z.clientChunk.toNat) := by
  refine ⟨⟨fun h => ?_, ?_⟩, ⟨fun h => ?_, ?_⟩⟩
  · by_cases hbad : z.serverBlock < 16 ∨ z.serverBlock > 2048
    · -- any body will do
      have hbody := length_le_of_agrees api (blocksOf_provides (markedBody length 0)) hbad
        (h _ _ (length_markedBody ..) (blocksOf_provides _))
      rw [length_markedBody] at hbody
      exact .inl hbody
    · have hmin : ¬z.serverBlock < 16 := fun hlt => hbad (.inl hlt)
      have hmax : ¬z.serverBlock > 2048 := fun hgt => hbad (.inr hgt)
      by_contra hcontra
      have hlen : z.serverBlock.toNat < length := Nat.not_le.mp fun hle => hcontra (.inl hle)
      have hchunk : z.clientChunk ≤ 2048 :=
        UInt16.not_lt.mp fun hlt => hcontra (.inr ⟨hmin, hmax, .inl hlt⟩)
      have hne : z.serverBlock.toNat ≠ requestedSize z.clientChunk :=
        fun he => hcontra (.inr ⟨hmin, hmax, .inr he⟩)
      obtain ⟨k, hk⟩ := exists_exponent hmin hmax z.pow
      have hS : z.serverBlock.toNat = 16 * 2 ^ (k : ℕ) := by rw [hk, toNat_sixteen_shiftLeft]
      have hle : z.serverBlock.toNat ≤ requestedSize z.clientChunk := by
        have hclient : z.serverBlock.toNat ≤ z.clientChunk.toNat := z.le_client
        rw [hS] at hclient ⊢
        exact le_requestedSize hchunk hclient
      refine rounds_gap hmin hmax hchunk (lt_of_le_of_ne hle hne) api hlen rfl ?_
      exact (h _ _ (length_markedBody ..) (blocksOf_provides _) _).1
  · rintro hsize body handler rfl hbody os
    exact agrees_blocks_of api hbody hsize os
  · have hbody : ProvidesWhole (markedBody length 0)
        (fun offset _ => ⟨content205, markedBody length 0, offset⟩) :=
      ⟨fun _ _ => ⟨show content205 < badRequest400 by decide, rfl⟩, fun _ _ => rfl⟩
    have hle := (agrees_whole_iff api hbody).mp (h _ _ (length_markedBody ..) hbody)
    rwa [length_markedBody] at hle
  · rintro hsize body handler rfl hbody
    exact (agrees_whole_iff api hbody).mpr hsize

/-- A client with chunks of 64 bytes and a server with blocks of 32. -/
def smallBlocks : Sizes := ⟨64, 64, 32, ⟨5, rfl⟩, by decide, by decide⟩

/-- The download of 96 bytes finishes without the second 32 of them. -/
theorem second_block_skipped : let body := (range 96).map UInt8.ofNat
    let r := Api.blocking.rounds smallBlocks (blocksOf body) .start [.answered, .answered]
    ProvidesBlocks body (blocksOf body) ∧ r.1.status = some .finished ∧
      delivered r.2 = body.take 32 ++ body.drop 64 ∧ ¬DownloadAgrees body r := by
  intro body r
  have hr : r.1.status = some .finished ∧ delivered r.2 = body.take 32 ++ body.drop 64 := by
    decide +kernel
  refine ⟨blocksOf_provides body, hr.1, hr.2, fun hagrees => ?_⟩
  have hall := hr.2.symm.trans (hagrees.2 hr.1)
  have hlen := congrArg length hall
  revert hlen
  decide

end Nespy.Coap
