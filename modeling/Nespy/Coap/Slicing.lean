import Nespy.Lib.Slices
import Nespy.Coap.Download

/-!
# Coap — a resource that is unaware of blocks

`coap_receive` cuts the payload of such a resource into blocks.  The offset of a block is computed
from the size that was asked for, and then the size is clamped to `COAP_MAX_BLOCK_SIZE`.
`block2_sliced_iff` says for which requests the response is the slice of that number, or 4.02 behind
the last slice: not for a size that is clamped, unless the first block is asked for, and not for a
number whose offset wraps around into the payload.
-/

namespace Nespy.Coap

open Nespy.Lib

/-- `COAP_MAX_BLOCK_SIZE`, the power of two below `COAP_MAX_CHUNK_SIZE`. -/
def coapMaxBlockSize (chunk : UInt16) : UInt16 :=
  if chunk < 32 then 16 else if chunk < 64 then 32 else if chunk < 128 then 64
  else if chunk < 256 then 128 else if chunk < 512 then 256 else if chunk < 1024 then 512
  else if chunk < 2048 then 1024 else 2048

theorem coapMaxBlockSize_bounds (chunk : UInt16) :
    16 ≤ (coapMaxBlockSize chunk).toNat ∧ (coapMaxBlockSize chunk).toNat ≤ 2048 := by
  unfold coapMaxBlockSize
  split_ifs <;> decide

/-! ### The response -/

variable {z : Sizes} {handler : Handler} {body : List UInt8}

section Whole

/-- The size of the blocks that are sent. -/
def Sizes.effective (z : Sizes) (size : UInt16) : UInt16 := min size z.serverBlock

theorem Sizes.toNat_effective (z : Sizes) (size : UInt16) :
    (z.effective size).toNat = min size.toNat z.serverBlock.toNat := by
  show (if size ≤ z.serverBlock then size else z.serverBlock).toNat = _
  split_ifs with hle
  · exact (Nat.min_eq_left hle).symm
  · exact (Nat.min_eq_right (Nat.le_of_not_le hle)).symm

theorem setPayload_of_le {l : List UInt8} (h : l.length ≤ z.serverChunk.toNat) :
    z.setPayload l = l :=
  List.take_of_length_le h

/-- What a resource that is unaware of blocks is made to answer. -/
theorem respondBlock_whole (h : ProvidesWhole body handler)
    (hlen : body.length ≤ z.serverChunk.toNat)
    (num : UInt32) (size : UInt16) (offset : UInt32) :
    respondBlock z handler num size offset =
      if body.length ≤ offset.toNat then ⟨badOption402, none, z.setPayload blockOutOfScope⟩
      else
        ⟨(handler offset.toNat (z.effective size).toNat).code,
          setHeaderBlock2 none num ((z.effective size).toNat < body.length - offset.toNat)
            (z.effective size), (body.drop offset.toNat).take (z.effective size).toNat⟩ := by
  have hchunk := z.serverChunk.toNat_lt
  have heff := z.toNat_effective size
  unfold respondBlock
  rw [show min size z.serverBlock = z.effective size from rfl]
  by_cases hneg : 2 ^ 31 ≤ offset.toNat
  · rw [if_pos hneg, if_pos (by omega)]
  · rw [if_neg hneg, if_pos (h.offset _ _), (h.payload _ _).2, setPayload_of_le hlen]
    split_ifs with hout
    · rfl
    · have hle := z.le_server
      have hle' : z.serverBlock.toNat ≤ z.serverChunk.toNat := hle
      have htake :
        (body.drop offset.toNat).take (min (body.length - offset.toNat) (z.effective size).toNat) =
          (body.drop offset.toNat).take (z.effective size).toNat := by
        rw [← List.length_drop, Nat.min_comm]
        exact List.take_eq_take_min.symm
      rw [htake, setPayload_of_le]
      rw [List.length_take]
      omega

end Whole

/-! ### Slices -/

variable (body)

/-- The response for block `num` of the size `size`: the slice of that number, with `more` unless it
is the last one, or 4.02 if there is none. -/
def Sliced (code : UInt8) (num : UInt32) (size : UInt16) (r : Reply) : Prop :=
  match (slices size.toNat body)[num.toNat]? with
  | some s =>
    r = ⟨code, some (num, if num.toNat + 1 < (slices size.toNat body).length then 1 else 0, size),
      s⟩
  | none => r.code = badOption402

/-- The resource is sent in slices: they are the body, all but the last have the block's size, and a
request is answered by its slice. -/
structure SlicedWhole (z : Sizes) (body : List UInt8) (handler : Handler) (v : UInt32) : Prop where
  whole : (slices (z.effective (parseBlock v).2.2.1).toNat body).flatten = body
  full : ∀ i s, i + 1 < (slices (z.effective (parseBlock v).2.2.1).toNat body).length →
    (slices (z.effective (parseBlock v).2.2.1).toNat body)[i]? = some s →
    s.length = (z.effective (parseBlock v).2.2.1).toNat
  reply : Sliced body
    (handler (parseBlock v).2.2.2.toNat (z.effective (parseBlock v).2.2.1).toNat).code
      (parseBlock v).1
    (z.effective (parseBlock v).2.2.1) (respond z handler (some (parseBlock v)))

/-- The request is one the server answers rightly, for a body of that length: a slice of a size that
is not clamped, or the first one; or an offset behind the body. -/
def Answerable (z : Sizes) (length : ℕ) (v : UInt32) : Prop :=
  if (parseBlock v).1.toNat * (z.effective (parseBlock v).2.2.1).toNat < length then
    (parseBlock v).2.2.1 ≤ z.serverBlock ∨ (parseBlock v).1 = 0
  else length ≤ (parseBlock v).1.toNat * (parseBlock v).2.2.1.toNat % 2 ^ 32

/-- A resource with that body. -/
def wholeOf : Handler := fun offset _ => ⟨content205, body, offset⟩

theorem wholeOf_provides : ProvidesWhole body (wholeOf body) :=
  ⟨fun _ _ => ⟨(by decide : content205 < badRequest400), rfl⟩, fun _ _ => rfl⟩

variable {body}

section Slices

variable {size : UInt16} {num offset : UInt32}

/-- The number and the size of a slice are within what a Block2 option can say. -/
theorem setHeaderBlock2_slice (hmin : 16 ≤ size.toNat) (hmax : size.toNat ≤ 2048)
    (hnum : num.toNat * size.toNat < 2 ^ 16) (more : Bool) :
    setHeaderBlock2 none num more size = some (num, if more then 1 else 0, size) := by
  have hle : num.toNat * 16 ≤ num.toNat * size.toNat := Nat.mul_le_mul le_rfl hmin
  refine setHeaderBlock2_eq ?_ more (UInt16.not_lt.mpr hmin) (UInt16.not_lt.mpr hmax)
  exact UInt32.le_iff_toNat_le.mpr (show num.toNat ≤ 0x0fffff by omega)

section

variable (h : ProvidesWhole body handler) (hlen : body.length ≤ z.serverChunk.toNat)
  (hmin : 16 ≤ (z.effective size).toNat)

include h hlen hmin

/-- A request whose offset is that of its slice. -/
theorem sliced_of_offset (hmax : (z.effective size).toNat ≤ 2048)
    (hoffset : offset.toNat = num.toNat * (z.effective size).toNat)
    (hin : num.toNat * (z.effective size).toNat < body.length) :
    Sliced body (handler offset.toNat (z.effective size).toNat).code num (z.effective size)
      (respondBlock z handler num size offset) := by
  have he : 0 < (z.effective size).toNat := by omega
  have hchunk := z.serverChunk.toNat_lt
  have hmore : (decide ((z.effective size).toNat < body.length - offset.toNat) : Bool) =
      decide (num.toNat + 1 < (slices (z.effective size).toNat body).length) := by
    rw [decide_eq_decide, lt_length_slices he, Nat.add_mul]
    omega
  rw [Sliced, getElem?_slices he hin]
  rw [respondBlock_whole h hlen, if_neg (by omega), hmore,
    setHeaderBlock2_slice hmin hmax (by omega), hoffset]
  simp only [decide_eq_true_eq]

/-- A request for a number behind the last slice. -/
theorem sliced_behind (hin : body.length ≤ num.toNat * (z.effective size).toNat) (code : UInt8) :
    Sliced body code num (z.effective size) (respondBlock z handler num size offset) ↔
      body.length ≤ offset.toNat := by
  have he : 0 < (z.effective size).toNat := by omega
  rw [Sliced, getElem?_slices_none he hin]
  rw [respondBlock_whole h hlen]
  by_cases hout : body.length ≤ offset.toNat
  · rw [if_pos hout]
    exact ⟨fun _ => hout, fun _ => rfl⟩
  · have hne : (handler offset.toNat (z.effective size).toNat).code ≠ badOption402 := by
      intro he
      have hlt := (h.payload offset.toNat (z.effective size).toNat).1
      rw [he] at hlt
      exact absurd hlt (by decide)
    rw [if_neg hout]
    exact ⟨fun hcode => absurd hcode hne, fun hle => absurd hle hout⟩

end

/-- A slice of a size that is clamped is not the one which is sent, for some body. -/
theorem not_sliced_of_clamped {length : ℕ} (hlen : length ≤ z.serverChunk.toNat)
    (hmin : 16 ≤ (z.effective size).toNat)
    (hne : offset.toNat ≠ num.toNat * (z.effective size).toNat)
    (hin : num.toNat * (z.effective size).toNat < length) :
    ∃ body, body.length = length ∧
      ¬ Sliced body content205 num (z.effective size)
        (respondBlock z (wholeOf body) num size offset) := by
  have he : 0 < (z.effective size).toNat := by omega
  generalize hmark : num.toNat * (z.effective size).toNat = mark
  rw [hmark] at hne hin
  have hbody := length_markedBody length mark
  refine ⟨markedBody length mark, hbody, ?_⟩
  rw [Sliced, getElem?_slices he (by rw [hbody, hmark]; exact hin), hmark]
  rw [respondBlock_whole (wholeOf_provides _) (hbody.le.trans hlen), hbody]
  obtain ⟨rest, hrest⟩ := drop_markedBody hin
  obtain ⟨e, he'⟩ : ∃ e, (z.effective size).toNat = e + 1 := ⟨_, (Nat.sub_add_cancel he).symm⟩
  intro hr
  by_cases hout : length ≤ offset.toNat
  · rw [if_pos hout] at hr
    have hcode : badOption402 = content205 := congrArg Reply.code hr
    exact absurd hcode (by decide)
  · rw [if_neg hout] at hr
    -- the byte in front is the mark, and it is not what is sent
    have hpayload := congrArg Reply.payload hr
    have hzero := getElem?_markedBody (Ne.symm hne) (not_le.mp hout)
    rw [hrest, he'] at hpayload
    have hfirst := congrArg List.head? hpayload
    rw [List.head?_take, List.head?_drop, hzero] at hfirst
    cases hfirst

/-- **Slicing is complete where the request is answerable.**  For every size of the server's chunks,
every length of the body and every Block2 option, whatever its number and size: any resource with a
body of that length is sent in slices if and only if the request is answerable. -/
theorem block2_sliced_iff (z : Sizes) (hz : z.serverBlock = coapMaxBlockSize z.serverChunk)
    (length : ℕ) (hlen : length ≤ z.serverChunk.toNat) (v : UInt32) :
    (∀ body handler, body.length = length → ProvidesWhole body handler →
      SlicedWhole z body handler v) ↔
      Answerable z length v := by
  obtain ⟨hblock, hblock'⟩ := coapMaxBlockSize_bounds z.serverChunk
  rw [← hz] at hblock hblock'
  obtain ⟨k, -, hk⟩ := parseBlock_size v
  have hk2 : 0 < 2 ^ (k : ℕ) := Nat.two_pow_pos _
  have heff := z.toNat_effective (parseBlock v).2.2.1
  have hmin : 16 ≤ (z.effective (parseBlock v).2.2.1).toNat := by omega
  have hmax : (z.effective (parseBlock v).2.2.1).toNat ≤ 2048 := by omega
  have hoffset := parseBlock_offset v
  have hchunk := z.serverChunk.toNat_lt
  have hwhole : ∀ body handler, Sliced body
      (handler (parseBlock v).2.2.2.toNat (z.effective (parseBlock v).2.2.1).toNat).code
        (parseBlock v).1
      (z.effective (parseBlock v).2.2.1)
        (respondBlock z handler (parseBlock v).1 (parseBlock v).2.2.1
        (parseBlock v).2.2.2) → SlicedWhole z body handler v := by
    intro body handler hreply
    refine ⟨flatten_slices (by omega), fun i s hi hs => ?_, hreply⟩
    have hin := (lt_length_slices (show 0 < _ by omega)).mp (Nat.lt_of_succ_lt hi)
    rw [getElem?_slices (by omega) hin, Option.some.injEq] at hs
    rw [← hs]
    exact length_slice (by omega) hi
  unfold Answerable
  split_ifs with hin
  · have hnum : (parseBlock v).1.toNat * 16 < 2 ^ 16 :=
      (Nat.mul_le_mul le_rfl hmin).trans_lt (hin.trans_le (by omega))
    have hsmall : (parseBlock v).1.toNat * (parseBlock v).2.2.1.toNat < 2 ^ 32 := by
      have hle : (parseBlock v).1.toNat * (parseBlock v).2.2.1.toNat ≤
          (parseBlock v).1.toNat * 2048 := Nat.mul_le_mul le_rfl (by
            have := Nat.pow_le_pow_right (show 0 < 2 by decide) (Nat.le_of_lt_succ k.2)
            omega)
      omega
    rw [Nat.mod_eq_of_lt hsmall] at hoffset
    constructor
    · intro hall
      by_contra hnot
      obtain ⟨hsize, hzero⟩ := not_or.mp hnot
      have hclamped : z.serverBlock.toNat < (parseBlock v).2.2.1.toNat := UInt16.not_le.mp hsize
      have hpos : 0 < (parseBlock v).1.toNat :=
        Nat.pos_of_ne_zero fun h => hzero (UInt32.toNat_inj.mp h)
      have hne : (parseBlock v).2.2.2.toNat ≠
          (parseBlock v).1.toNat * (z.effective (parseBlock v).2.2.1).toNat := by
        rw [hoffset]
        refine (Nat.mul_lt_mul_of_pos_left ?_ hpos).ne'
        omega
      obtain ⟨body, hbody, hnot⟩ := not_sliced_of_clamped hlen hmin hne hin
      exact hnot (hall body (wholeOf body) hbody (wholeOf_provides body)).reply
    · intro hcond body handler hbody h
      refine hwhole body handler (sliced_of_offset h (hbody.le.trans hlen)
        hmin hmax ?_ (hbody ▸ hin))
      rw [hoffset]
      rcases hcond with hsize | hzero
      · have hle : (parseBlock v).2.2.1.toNat ≤ z.serverBlock.toNat := hsize
        rw [heff, Nat.min_eq_left hle]
      · rw [hzero]
        simp
  · have hbehind : length ≤ (parseBlock v).1.toNat * (z.effective (parseBlock v).2.2.1).toNat :=
      Nat.not_lt.mp hin
    rw [← hoffset]
    constructor
    · intro hall
      have hbody : (List.replicate length (0 : UInt8)).length = length := List.length_replicate ..
      have hreply := (hall _ _ hbody (wholeOf_provides _)).reply
      rw [← hbody]
      exact (sliced_behind (wholeOf_provides _) (hbody.le.trans hlen) hmin
        (hbody.symm ▸ hbehind) _).mp hreply
    · intro hle body handler hbody h
      exact hwhole body handler ((sliced_behind h (hbody.le.trans hlen) hmin
        (hbody.symm ▸ hbehind) _).mpr (hbody.symm ▸ hle))

end Slices

instance (z : Sizes) (length : ℕ) (v : UInt32) : Decidable (Answerable z length v) :=
  inferInstanceAs (Decidable (@ite _ _ _ (_ ∨ _) (length ≤ _)))

/-- The sizes of the configuration as it is: sixty-four bytes. -/
def defaultSizes : Sizes := ⟨64, 64, 64, ⟨6, rfl⟩, by decide, by decide⟩

/-- A server with chunks of a hundred bytes. -/
def hundredSizes : Sizes := ⟨100, 100, 64, ⟨6, rfl⟩, by decide, by decide⟩

/-- The second block of forty bytes, in blocks of thirty-two. -/
theorem block2_sliced_second :
    SlicedWhole defaultSizes (List.replicate 40 97) (wholeOf (List.replicate 40 97)) 0x11 :=
  (block2_sliced_iff defaultSizes rfl 40 (by decide) 0x11).mpr (by decide) _ _
    rfl (wholeOf_provides _)

/-- Block 2²⁶ of sixty-four bytes has the offset 0 and is answered with the first slice, and without
a Block2 option.  With chunks of a hundred bytes, the second slice is refused if blocks of 128 are
asked for. -/
theorem block2_not_sliced : (¬ SlicedWhole defaultSizes [97] (wholeOf [97]) 0x40000002 ∧
      respond defaultSizes (wholeOf [97]) (some (parseBlock 0x40000002)) =
        ⟨content205, none, [97]⟩) ∧
    ¬ SlicedWhole hundredSizes (List.replicate 100 97) (wholeOf (List.replicate 100 97)) 0x13 ∧
      (respond hundredSizes (wholeOf (List.replicate 100 97)) (some (parseBlock 0x13))).code =
        badOption402 := by
  refine ⟨⟨fun h => ?_, rfl⟩, fun h => ?_, rfl⟩
  · have hreply := h.reply
    have hcode : content205 = badOption402 := hreply
    exact absurd hcode (by decide)
  · have hreply := h.reply
    have hcode : badOption402 = content205 := congrArg Reply.code hreply
    exact absurd hcode (by decide)

end Nespy.Coap
