import Mathlib.Algebra.Order.BigOperators.Group.List
import Nespy.Coap.Buffer
import Nespy.Coap.Slicing

/-!
# Coap — `/.well-known/core`

The handler of the discovery resource (`coap-res-well-known-core.c`, without filtering).  It makes
the whole listing anew for every block: `strpos` counts the characters of the listing, `bufpos`
those that belong to the block, and two macros add a character or a string of which only the part
inside the block is stored.  `snprintf` returns the length the string would have had, so `bufpos`
may run beyond the block, and the loop is left then.

`Shows` is the invariant of the loop: the buffer shows the listing made so far through the window of
the block.  `Full` is how the loop is left.  `handler_spec` is what the handler gives for any offset
and size, and `listing_served` puts the blocks together.
-/

open List Option

namespace Nespy.Coap

open Nespy.Lib

/-! ### The program -/

/-- `url` and `attributes` of a `coap_resource_t`. -/
structure LinkResource where
  url : CString
  attributes : Option CString

/-- `strpos`, `bufpos` and the buffer. -/
structure Listing where
  strpos : ℕ
  bufpos : ℕ
  buffer : List UInt8

/-- The loop goes on, or it is left by `break`. -/
inductive Turn where
  | next (s : Listing)
  | stop (s : Listing)

/-- `snprintf(buffer + pos, size, "%s", string)`. -/
def snprintf (buffer : List UInt8) (pos size : ℕ) (string : List UInt8) : Option (List UInt8) :=
  if size = 0 then some buffer else writeAt buffer pos (string.take (size - 1) ++ [0])

section Handler

variable (offset preferredSize : ℕ)

/-- A character inside of the window is written, and any is counted. -/
def addCharIfPossible (char : UInt8) (s : Listing) : Option Listing :=
  if offset ≤ s.strpos ∧ s.bufpos < preferredSize then
    (writeAt s.buffer s.bufpos [char]).map fun buffer => ⟨s.strpos + 1, s.bufpos + 1, buffer⟩
  else some { s with strpos := s.strpos + 1 }

/-- `ADD_STRING_IF_POSSIBLE`; `op` compares `bufpos` with the preferred size, and the room that is
left is a `size_t`. -/
def addStringIfPossible (string : List UInt8) (op : ℕ → ℕ → Bool) (s : Listing) : Option Turn :=
  if offset < s.strpos + string.length then do
    let rest := string.drop (offset - s.strpos)
    let room := (((preferredSize : ℤ) - s.bufpos + 1) % 2 ^ 32).toNat
    let buffer ← snprintf s.buffer s.bufpos room rest
    let bufpos := s.bufpos + rest.length
    if op bufpos preferredSize then some (.stop ⟨s.strpos, bufpos, buffer⟩)
    else some (.next ⟨s.strpos + string.length, bufpos, buffer⟩)
  else some (.next { s with strpos := s.strpos + string.length })

/-- What follows in the body of the loop, unless the loop was left. -/
def Turn.andThen : Turn → (Listing → Option Turn) → Option Turn
  | .next s, k => k s
  | .stop s, _ => some (.stop s)

/-- The attributes of a resource, or nothing. -/
def LinkResource.attributeBytes (r : LinkResource) : List UInt8 :=
  (r.attributes.map (·.bytes)).getD []

/-- The comma between two links. -/
def addComma (s : Listing) : Option Listing :=
  if 0 < s.strpos then addCharIfPossible offset preferredSize 44 s else some s

/-- The attributes behind a link. -/
def addAttributes (attributes : List UInt8) (s : Listing) : Option Turn :=
  if attributes ≠ [] then do
    let s ← addCharIfPossible offset preferredSize 59 s
    addStringIfPossible offset preferredSize attributes (fun bufpos size => size < bufpos) s
  else some (.next s)

/-- The body of the loop. -/
def addResource (r : LinkResource) (s : Listing) : Option Turn := do
  let s ← addComma offset preferredSize s
  let s ← addCharIfPossible offset preferredSize 60 s
  let s ← addCharIfPossible offset preferredSize slash s
  let t ← addStringIfPossible offset preferredSize r.url.bytes (fun bufpos size => size ≤ bufpos) s
  t.andThen fun s => do
    let s ← addCharIfPossible offset preferredSize 62 s
    let t ← addAttributes offset preferredSize r.attributeBytes s
    t.andThen fun s =>
      if preferredSize < s.bufpos ∧ (offset : ℤ) < ((s.strpos : ℤ) - s.bufpos) % 2 ^ 32
        then some (.stop s)
      else some (.next s)

/-- The loop. -/
def addResources : List LinkResource → Listing → Option Turn
  | [], s => some (.next s)
  | r :: rs, s => do
      let t ← addResource offset preferredSize r s
      t.andThen (addResources rs)

/-- The listing so far. -/
def Turn.listing : Turn → Listing
  | .next s => s
  | .stop s => s

/-- `well_known_core_get_handler`, on the buffer it is given. -/
def wellKnownCoreGetHandler (resources : List LinkResource) (buffer : List UInt8) :
    Option Handled := do
  let t ← addResources offset preferredSize resources ⟨0, 0, buffer⟩
  let s := t.listing
  let newOffset : ℤ :=
    match t with
    | .next _ => -1
    | .stop _ => offset + preferredSize
  if 0 < s.bufpos then some ⟨content205, s.buffer.take s.bufpos, newOffset⟩
  else if 0 < s.strpos then some ⟨badOption402, blockOutOfScope, newOffset⟩
  else some ⟨content205, [], newOffset⟩

end Handler

/-- The response of `coap_receive` to a request for a block of the listing. -/
def discoveryReply (z : Sizes) (resources : List LinkResource) (buffer : List UInt8)
    (block2 : UInt32 × UInt8 × UInt16 × UInt32) : Option Reply :=
  let (num, _, size, offset) := block2
  if 2 ^ 31 ≤ offset.toNat then some ⟨badOption402, none, z.setPayload blockOutOfScope⟩
  else
    (wellKnownCoreGetHandler offset.toNat (z.effective size).toNat resources buffer).map fun r =>
      respondBlock z (fun _ _ => r) num size offset

/-! ### The listing -/

/-- The link of a resource. -/
def LinkResource.link (r : LinkResource) : List UInt8 :=
  [60, slash] ++ r.url.bytes ++ [62] ++
    if r.attributeBytes ≠ [] then 59 :: r.attributeBytes else []

/-- The links of all resources. -/
def linkFormat (resources : List LinkResource) : List UInt8 :=
  intercalate [44] (resources.map LinkResource.link)

/-- The listing `text`, with another link behind it. -/
def appendLink (text : List UInt8) (r : LinkResource) : List UInt8 :=
  text ++ (if text ≠ [] then [44] else []) ++ r.link

variable {resources : List LinkResource} {buffer text : List UInt8} {r : Reply} {z : Sizes}
  {n num offset size : ℕ}

theorem foldl_appendLink (htext : text ≠ []) (resources : List LinkResource) :
    resources.foldl appendLink text =
      intercalate [44] (text :: resources.map LinkResource.link) := by
  induction resources generalizing text with
  | nil => simp
  | cons r rs ih =>
    have hne : appendLink text r ≠ [] := by
      rw [appendLink, append_assoc]
      exact fun h => htext (append_eq_nil_iff.mp h).1
    rw [foldl_cons, ih hne, appendLink, if_pos htext]
    cases rs <;> simp

theorem foldl_appendLink_nil (resources : List LinkResource) :
    resources.foldl appendLink [] = linkFormat resources := by
  cases resources with
  | nil => rfl
  | cons r rs =>
    have hne : r.link ≠ [] := cons_ne_nil _ _
    exact foldl_appendLink hne rs

/-! ### The loop -/

/-- The buffer shows `text` through the window of the block. -/
structure Shows (offset size n : ℕ) (text : List UInt8) (s : Listing) : Prop where
  strpos : s.strpos = text.length
  bufpos : s.bufpos = (window offset size text).length
  bytes : s.buffer.take s.bufpos = window offset size text
  length : s.buffer.length = n

/-- The block is full, and `text` reaches to its end. -/
structure Full (offset size n : ℕ) (text : List UInt8) (s : Listing) : Prop where
  le : size ≤ s.bufpos
  bytes : s.buffer.take size = window offset size text
  reach : offset + size ≤ text.length
  length : s.buffer.length = n

theorem Full.append {s : Listing}
    (h : Full offset size n text s) (x : List UInt8) : Full offset size n (text ++ x) s where
  le := h.le
  bytes := (window_append_of_le h.reach x).symm ▸ h.bytes
  reach := h.reach.trans (by rw [length_append]; omega)
  length := h.length

/-- What holds when the loop goes on, and what holds when it is left. -/
def Turn.Meets (next stop : Listing → Prop) : Turn → Prop
  | .next s => next s
  | .stop s => stop s

theorem Turn.Meets.andThen {next next' stop : Listing → Prop} {t : Turn} {k : Listing → Option Turn}
    (h : t.Meets next stop) (hk : ∀ s, next s → ∃ t, k s = some t ∧ t.Meets next' stop) :
    ∃ t', t.andThen k = some t' ∧ t'.Meets next' stop := by
  cases t with
  | next s => exact hk s h
  | stop s => exact ⟨_, rfl, h⟩

/-- The loop has made `text`, or was left when the block was full and something followed it. -/
def Turn.Made (offset size n : ℕ) (text : List UInt8) (t : Turn) : Prop :=
  t.Meets (fun s => Shows offset size n text s ∧ text.length ≤ offset + size)
    (fun s => Full offset size n text s ∧ offset + size < text.length)

section Loop

variable {offset size n : ℕ} {text : List UInt8} {s : Listing}

theorem prefix_foldl_appendLink (text : List UInt8) (resources : List LinkResource) :
    text <+: resources.foldl appendLink text := by
  refine resources.foldlRecOn appendLink prefix_rfl fun text' h r _ => h.trans ?_
  rw [appendLink, append_assoc]
  exact prefix_append _ _

variable (hn : size < n) (hsize : size < 2 ^ 16) (hpos : 0 < size) (h : Shows offset size n text s)

include h

variable (string : List UInt8)

/-- The lengths a string is added with. -/
theorem bufpos_shows :
    s.strpos = text.length ∧ s.bufpos = min size (text.length - offset) ∧
      (string.drop (offset - s.strpos)).length = string.length - (offset - text.length) ∧
      (window offset size (text ++ string)).length =
        min size (text.length + string.length - offset) ∧
      (text ++ string).length = text.length + string.length := by
  refine ⟨h.strpos, ?_, ?_, ?_, length_append⟩
  · rw [h.bufpos, length_window]
  · rw [length_drop, h.strpos]
  · rw [length_window, length_append]

/-- A string that starts behind the block's end is not looked at, nor one that ends in front of
it. -/
theorem skip_shows {string : List UInt8} (hskip : ¬ offset < s.strpos + string.length) :
    Shows offset size n (text ++ string) { s with strpos := s.strpos + string.length } := by
  obtain ⟨hstr, hbufpos, -, hwindow, hlen⟩ := bufpos_shows h string
  have hzero : (window offset size (text ++ string)).length = 0 := by omega
  have hbuf : s.bufpos = 0 := by omega
  refine ⟨?_, ?_, ?_, h.length⟩
  · rw [hlen, hstr]
  · rw [hzero]
    exact hbuf
  · rw [length_eq_zero_iff.mp hzero]
    rw [hbuf, take_zero]

include hn

/-- **Step.**  One character more of the listing. -/
theorem addCharIfPossible_shows (c : UInt8) :
    ∃ s', addCharIfPossible offset size c s = some s' ∧ Shows offset size n (text ++ [c]) s' := by
  obtain ⟨hstr, hbuf, hbytes, hlen⟩ := h
  have hwindow := window_append offset size text [c]
  rw [← hbuf] at hwindow
  unfold addCharIfPossible
  by_cases hpossible : offset ≤ s.strpos ∧ s.bufpos < size
  · obtain ⟨hoffset, hroom⟩ := hpossible
    have hadd : ([c].drop (offset - text.length)).take (size - s.bufpos) = [c] := by
      rw [← hstr, Nat.sub_eq_zero_of_le hoffset]
      exact take_of_length_le (Nat.sub_pos_of_lt hroom)
    rw [hadd] at hwindow
    have hset := writeAt_singleton (hlen ▸ hroom.trans hn) c
    rw [if_pos ⟨hoffset, hroom⟩, hset]
    refine ⟨_, rfl, ?_, ?_, ?_, ?_⟩
    · rw [hstr, length_append, length_singleton]
    · rw [hwindow, length_append, ← hbuf]
      rfl
    · rw [hwindow, ← hbytes]
      exact take_writeAt hset
    · rw [length_set, hlen]
  · have hadd : ([c].drop (offset - text.length)).take (size - s.bufpos) = [] := by
      rw [take_eq_nil_iff, drop_eq_nil_iff]
      simp only [length_singleton]
      omega
    rw [hadd, append_nil] at hwindow
    rw [if_neg hpossible]
    refine ⟨_, rfl, ?_, hwindow ▸ hbuf, hwindow ▸ hbytes, hlen⟩
    rw [hstr, length_append, length_singleton]

theorem addComma_shows :
    ∃ s', addComma offset size s = some s' ∧
      Shows offset size n (text ++ if text ≠ [] then [44] else []) s' := by
  unfold addComma
  by_cases htext : text = []
  · have hzero : ¬ 0 < s.strpos := by
      rw [h.strpos, htext]
      exact Nat.lt_irrefl 0
    rw [if_neg hzero, if_neg (not_not.mpr htext), append_nil]
    exact ⟨s, rfl, h⟩
  · rw [if_pos (h.strpos ▸ length_pos_iff.mpr htext), if_pos htext]
    exact addCharIfPossible_shows hn h 44

include hsize

/-- What `snprintf` leaves in the buffer. -/
theorem snprintf_shows :
    ∃ buffer, snprintf s.buffer s.bufpos (((size : ℤ) - s.bufpos + 1) % 2 ^ 32).toNat
        (string.drop (offset - s.strpos)) = some buffer ∧ buffer.length = n ∧
      buffer.take (window offset size (text ++ string)).length =
        window offset size (text ++ string) := by
  obtain ⟨hstr, hbuf, hbytes, hlen⟩ := h
  have hle : s.bufpos ≤ size := by
    rw [hbuf, length_window]
    exact Nat.min_le_left _ _
  have hroom : (((size : ℤ) - s.bufpos + 1) % 2 ^ 32).toNat = size - s.bufpos + 1 := by omega
  have hwindow := window_append offset size text string
  rw [← hbuf, ← hstr] at hwindow
  rw [hroom, snprintf, Nat.add_sub_cancel]
  obtain ⟨rest, hrest⟩ : ∃ rest, rest = (string.drop (offset - s.strpos)).take (size - s.bufpos) :=
    ⟨_, rfl⟩
  rw [← hrest] at hwindow ⊢
  have hrestLen : rest.length ≤ size - s.bufpos := by
    rw [hrest, length_take]
    exact Nat.min_le_left _ _
  have hfits : s.bufpos + (rest ++ [0]).length ≤ s.buffer.length := by
    rw [length_append, length_singleton]
    omega
  obtain ⟨buffer, hwrite⟩ : ∃ buffer, writeAt s.buffer s.bufpos (rest ++ [0]) = some buffer :=
    ⟨_, if_pos hfits⟩
  refine ⟨_, hwrite, (writeAt_length hwrite).trans hlen, ?_⟩
  have htake := congrArg (take (window offset size (text ++ string)).length) (take_writeAt hwrite)
  rw [take_take, hbytes, ← append_assoc, ← hwindow, take_left] at htake
  rw [hwindow, length_append] at htake ⊢
  rwa [length_append, Nat.min_eq_left (by omega)] at htake

include hpos

/-- A string that is added, with the comparison of the macro. -/
theorem addStringIfPossible_shows (op : ℕ → ℕ → Bool)
    (hop : ∀ p, size < p → op p size) (hop' : ∀ p, p < size → op p size = false) :
    ∃ t, addStringIfPossible offset size string op s = some t ∧
      t.Meets
        (fun s' => Shows offset size n (text ++ string) s' ∧
          (op size size ∨ string ≠ [] → (text ++ string).length ≤ offset + size) ∧
          (op size size → (text ++ string).length < offset + size))
        (fun s' => Full offset size n (text ++ string) s' ∧
          (op size size = false → string ≠ [] → offset + size < (text ++ string).length)) := by
  obtain ⟨hstr, hbufpos, hrest, hwindow, hlen⟩ := bufpos_shows h string
  have hne : string ≠ [] → 0 < string.length := length_pos_iff.mpr
  unfold addStringIfPossible
  by_cases hin : offset < s.strpos + string.length
  · obtain ⟨buffer, hbuffer, hbufferLen, hbytes⟩ := snprintf_shows hn hsize h string
    rw [if_pos hin]
    dsimp only
    rw [hbuffer]
    simp only [bind_eq_bind, bind_some]
    generalize hp : s.bufpos + (string.drop (offset - s.strpos)).length = p
    by_cases hfull : op p size
    · have hle : size ≤ p := by
        by_contra hlt
        rw [hop' _ (not_le.mp hlt)] at hfull
        cases hfull
      have hfullWindow : (window offset size (text ++ string)).length = size := by omega
      rw [if_pos hfull]
      refine ⟨_, rfl, ⟨hle, ?_, by omega, hbufferLen⟩, fun hop hstring => ?_⟩
      · rwa [hfullWindow] at hbytes
      · have hlt : p ≠ size := by
          intro heq
          rw [heq, hop] at hfull
          cases hfull
        omega
    · have hle : p ≤ size := by
        by_contra hlt
        exact hfull (hop _ (not_le.mp hlt))
      have hlt : op size size → p < size := by
        intro hop
        refine lt_of_le_of_ne hle fun heq => hfull ?_
        rwa [heq]
      rw [if_neg hfull]
      have hshown : p = (window offset size (text ++ string)).length := by omega
      refine ⟨_, rfl, ⟨?_, hshown, ?_, hbufferLen⟩, ?_, ?_⟩
      · rw [hlen, hstr]
      · rwa [hshown]
      · rintro (hop | hstring)
        · have := hlt hop
          omega
        · have := hne hstring
          omega
      · intro hop
        have := hlt hop
        omega
  · rw [if_neg hin]
    refine ⟨_, rfl, skip_shows h hin, fun _ => ?_, fun _ => ?_⟩ <;> omega

theorem addAttributes_shows (htext : text.length ≤ offset + size) (attributes : List UInt8) :
    ∃ t, addAttributes offset size attributes s = some t ∧
      t.Made offset size n (text ++ if attributes ≠ [] then 59 :: attributes else []) := by
  unfold addAttributes
  by_cases hne : attributes ≠ []
  · simp only [if_pos hne]
    obtain ⟨s₁, hs₁, h₁⟩ := addCharIfPossible_shows hn h 59
    obtain ⟨t, ht, hmeets⟩ := addStringIfPossible_shows hn hsize hpos h₁ attributes
      (fun bufpos size => size < bufpos) (fun p hp => decide_eq_true hp)
        (fun p hp => decide_eq_false (Nat.lt_asymm hp))
    rw [append_assoc] at hmeets
    refine ⟨t, ?_, ?_⟩
    · rw [hs₁]
      exact ht
    · cases t with
      | next s' => exact ⟨hmeets.1, hmeets.2.1 (.inr hne)⟩
      | stop s' => exact ⟨hmeets.1, hmeets.2 (decide_eq_false (Nat.lt_irrefl size)) hne⟩
  · simp only [if_neg hne, append_nil]
    exact ⟨_, rfl, h, htext⟩

/-- **One turn of the loop adds a link**, or is left when the block is full and something follows
it. -/
theorem addResource_shows (r : LinkResource) :
    ∃ t, addResource offset size r s = some t ∧ t.Made offset size n (appendLink text r) := by
  obtain ⟨s₁, hs₁, h₁⟩ := addComma_shows hn h
  obtain ⟨s₂, hs₂, h₂⟩ := addCharIfPossible_shows hn h₁ 60
  obtain ⟨s₃, hs₃, h₃⟩ := addCharIfPossible_shows hn h₂ slash
  obtain ⟨t, ht, hurl⟩ := addStringIfPossible_shows hn hsize hpos h₃ r.url.bytes
    (fun bufpos size => size ≤ bufpos) (fun p hp => decide_eq_true hp.le)
    (fun p hp => decide_eq_false (Nat.not_le.mpr hp))
  have hop : decide (size ≤ size) = true := decide_eq_true le_rfl
  -- the text up to the end of the address, and what follows in the link
  obtain ⟨upTo, hupTo⟩ : ∃ upTo, upTo =
    text ++ (if text ≠ [] then [44] else []) ++ [60] ++ [slash] ++ r.url.bytes := ⟨_, rfl⟩
  have hlink : appendLink text r =
      upTo ++ [62] ++ if r.attributeBytes ≠ [] then 59 :: r.attributeBytes else [] := by
    rw [hupTo, appendLink, LinkResource.link]
    simp only [append_assoc, cons_append, nil_append]
  rw [← hupTo] at hurl
  simp only [addResource, hs₁, hs₂, hs₃, ht, bind_eq_bind, bind_some]
  have hmeets : t.Meets (fun s' => Shows offset size n upTo s' ∧ upTo.length < offset + size)
      (fun s' => Full offset size n (appendLink text r) s' ∧
        offset + size < (appendLink text r).length) := by
    cases t with
    | next s' => exact ⟨hurl.1, hurl.2.2 hop⟩
    | stop s' =>
      refine ⟨hlink ▸ (hurl.1.append _).append _, ?_⟩
      have hreach := hurl.1.reach
      rw [hlink, length_append, length_append, length_singleton]
      omega
  refine hmeets.andThen fun s₄ ⟨h₄, hless⟩ => ?_
  obtain ⟨s₅, hs₅, h₅⟩ := addCharIfPossible_shows hn h₄ 62
  have htight : (upTo ++ [62]).length ≤ offset + size := by
    rw [length_append, length_singleton]
    omega
  obtain ⟨t', ht', hattributes⟩ := addAttributes_shows hn hsize hpos h₅ htight r.attributeBytes
  rw [← hlink] at hattributes
  simp only [hs₅, ht', bind_some]
  refine Turn.Meets.andThen hattributes fun s₆ ⟨h₆, hend⟩ => ?_
  -- the block cannot have been exceeded here
  have hle : ¬ size < s₆.bufpos := by
    rw [h₆.bufpos, length_window]
    omega
  exact ⟨_, if_neg fun hbreak => hle hbreak.1, h₆, hend⟩

/-- **The loop makes the listing**, or is left when the block is full and something follows it. -/
theorem addResources_shows (resources : List LinkResource) (htext : text.length ≤ offset + size) :
    ∃ t, addResources offset size resources s = some t ∧
      t.Made offset size n (resources.foldl appendLink text) := by
  induction resources generalizing text s with
  | nil => exact ⟨_, rfl, h, htext⟩
  | cons r rs ih =>
    obtain ⟨t, ht, hmeets⟩ := addResource_shows hn hsize hpos h r
    rw [addResources, ht, foldl_cons]
    cases t with
    | next s' => exact ih hmeets.1 hmeets.2
    | stop s' =>
      obtain ⟨x, hx⟩ := prefix_foldl_appendLink (appendLink text r) rs
      refine ⟨_, rfl, hx ▸ hmeets.1.append x, ?_⟩
      rw [← hx, length_append]
      exact hmeets.2.trans_le (Nat.le_add_right _ _)

end Loop

/-! ### The handler and the response -/

/-- What the handler gives: the rest of the listing and -1, or at least the block. -/
structure Lists (listing : List UInt8) (offset size : ℕ) (r : Handled) : Prop where
  code : offset < listing.length ∨ listing = [] → r.code = content205
  rest : listing.length ≤ offset + size → r.offset = -1 ∧
    (offset < listing.length ∨ listing = [] → r.payload = window offset size listing)
  more : offset + size < listing.length → r.offset = offset + size ∧ size ≤ r.payload.length ∧
    r.payload.take size = window offset size listing

/-- **The handler lists the resources**, whatever the offset, the size and the old bytes of the
buffer. -/
theorem handler_spec (resources : List LinkResource)
    (hn : size < buffer.length) (hsize : size < 2 ^ 16) (hpos : 0 < size) :
    ∃ r, wellKnownCoreGetHandler offset size resources buffer = some r ∧
      Lists (linkFormat resources) offset size r := by
  have hempty : window offset size ([] : List UInt8) = [] := by
    rw [window, drop_nil, take_nil]
  have hstart : Shows offset size buffer.length [] ⟨0, 0, buffer⟩ :=
    ⟨rfl, by rw [hempty]; rfl, by rw [hempty, take_zero], rfl⟩
  obtain ⟨t, ht, hmeets⟩ := addResources_shows hn hsize hpos hstart resources (Nat.zero_le _)
  rw [foldl_appendLink_nil] at hmeets
  rw [wellKnownCoreGetHandler, ht, bind_eq_bind, bind_some]
  generalize linkFormat resources = listing at hmeets ⊢
  cases t with
  | next s =>
    obtain ⟨hshows, htight⟩ := hmeets
    have hbufpos := hshows.bufpos
    rw [length_window] at hbufpos
    dsimp only [Turn.listing]
    by_cases hin : offset < listing.length
    · rw [if_pos (by omega)]
      exact ⟨_, rfl, fun _ => rfl, fun _ => ⟨rfl, fun _ => hshows.bytes⟩, fun hmore => by omega⟩
    · rw [if_neg (by omega)]
      by_cases hnil : listing = []
      · have hstr : ¬ 0 < s.strpos := by
          rw [hshows.strpos, hnil]
          exact Nat.lt_irrefl 0
        rw [if_neg hstr]
        refine ⟨_, rfl, fun _ => rfl, fun _ => ⟨rfl, fun _ => ?_⟩, fun hmore => by omega⟩
        rw [hnil, hempty]
      · have hout : ¬ (offset < listing.length ∨ listing = []) := not_or.mpr ⟨hin, hnil⟩
        have hstr : 0 < s.strpos := hshows.strpos ▸ length_pos_iff.mpr hnil
        rw [if_pos hstr]
        exact ⟨_, rfl, fun h => absurd h hout, fun _ => ⟨rfl, fun h => absurd h hout⟩,
          fun hmore => by omega⟩
  | stop s =>
    obtain ⟨hfull, hmore⟩ := hmeets
    have hle := hfull.le
    dsimp only [Turn.listing]
    rw [if_pos (by omega)]
    refine ⟨_, rfl, fun _ => rfl, fun hrest => by omega, fun _ => ⟨rfl, ?_, ?_⟩⟩
    · rw [length_take, hfull.length]
      omega
    · rw [take_take, Nat.min_eq_left hle, hfull.bytes]

section Reply

variable {z : Sizes} {listing : List UInt8} {size : UInt16} {offset : UInt32}

/-- What `coap_receive` makes of it: bytes behind the block are cut off. -/
theorem respondBlock_lists {r : Handled} {b : UInt16} (hb : b = z.effective size)
    (h : Lists listing offset.toNat b.toNat r) (hoffset : offset.toNat < 2 ^ 31)
    (hpos : 0 < b.toNat) (hin : offset.toNat < listing.length ∨ listing = []) (num : UInt32) :
    respondBlock z (fun _ _ => r) num size offset =
      ⟨content205, setHeaderBlock2 none num (offset.toNat + b.toNat < listing.length)
        b, window offset.toNat b.toNat listing⟩ := by
  have hblock : b.toNat ≤ z.serverBlock.toNat := by
    rw [hb, z.toNat_effective]
    exact Nat.min_le_right _ _
  have hchunk : z.serverBlock.toNat ≤ z.serverChunk.toNat := z.le_server
  unfold respondBlock
  rw [show min size z.serverBlock = b from hb.symm]
  dsimp only
  rw [if_neg (not_le.mpr hoffset), h.code hin]
  rcases Nat.lt_or_ge (offset.toNat + b.toNat) listing.length with hmore | hrest
  · obtain ⟨hnew, hlen, hbytes⟩ := h.more hmore
    have hne : ¬ r.offset = (offset.toNat : ℤ) := by omega
    have hmore' : r.offset ≠ -1 := by omega
    rw [if_neg hne, decide_eq_true (Or.inl hmore'), decide_eq_true hmore]
    congr 1
    -- the payload is cut to the chunk first, and then to the block
    have hcut : (z.setPayload r.payload).take b.toNat = window offset.toNat b.toNat listing := by
      rw [Sizes.setPayload, take_take, Nat.min_eq_left (hblock.trans hchunk), hbytes]
    split_ifs with hlong
    · rw [setPayload_take hblock, hcut]
    · rw [← hcut]
      exact (take_of_length_le (not_lt.mp hlong)).symm
  · obtain ⟨hnew, hpayload⟩ := h.rest hrest
    have hwindow : (window offset.toNat b.toNat listing).length ≤ b.toNat := by
      rw [length_window]
      exact Nat.min_le_left _ _
    have hne : ¬ r.offset = (offset.toNat : ℤ) := by omega
    have hcut : z.setPayload r.payload = window offset.toNat b.toNat listing := by
      rw [hpayload hin]
      exact setPayload_of_le (hwindow.trans (hblock.trans hchunk))
    have hlast : ¬ (r.offset ≠ -1 ∨ b.toNat < (window offset.toNat b.toNat listing).length) :=
      not_or.mpr ⟨not_not.mpr hnew, not_lt.mpr hwindow⟩
    rw [if_neg hne, hcut, decide_eq_false hlast, decide_eq_false (not_lt.mpr hrest),
      if_neg (not_lt.mpr hwindow)]

/-- **A block of the listing.** -/
theorem discoveryReply_eq {resources : List LinkResource} {buffer : List UInt8}
    (hbuffer : (z.effective size).toNat < buffer.length) (hoffset : offset.toNat < 2 ^ 31)
    (hpos : 0 < (z.effective size).toNat)
    (hin : offset.toNat < (linkFormat resources).length ∨ linkFormat resources = []) (num : UInt32)
    (more : UInt8) :
    discoveryReply z resources buffer (num, more, size, offset) =
      some ⟨content205, setHeaderBlock2 none num
        (offset.toNat + (z.effective size).toNat < (linkFormat resources).length)
          (z.effective size),
          window offset.toNat (z.effective size).toNat (linkFormat resources)⟩ := by
  obtain ⟨r, hr, hlists⟩ := handler_spec resources hbuffer (z.effective size).toNat_lt hpos
  rw [discoveryReply, if_neg (not_le.mpr hoffset), hr, map_some,
    respondBlock_lists rfl hlists hoffset hpos hin]

end Reply

/-! ### The download -/

/-- The more flag of a response. -/
def Reply.more (r : Reply) : Bool :=
  match r.block2 with
  | some (_, more, _) => more ≠ 0
  | none => false

/-- The responses to requests for the blocks `num`, `num + 1`, …, up to one without the more
flag. -/
def fetchBlocks (reply : ℕ → Option Reply) : ℕ → ℕ → Option (List Reply)
  | 0, _ => none
  | fuel + 1, num => do
      let r ← reply num
      if r.more then (fetchBlocks reply fuel (num + 1)).map (r :: ·) else some [r]

/-- The Block2 option of a request, as the server reads it. -/
def requestBlock (size : UInt16) (num : ℕ) : UInt32 × UInt8 × UInt16 × UInt32 :=
  parseBlock (blockValue (UInt32.ofNat num) 0 size)

section Fetch

variable {reply : ℕ → Option Reply} {f : ℕ → Reply} {count : ℕ}

variable {rs : List Reply} {fuel num : ℕ}

/-- The client asks for one block after the other. -/
theorem fetchBlocks_eq (hreply : ∀ num < count, reply num = some (f num))
    (hmore : ∀ num < count, (f num).more = decide (num + 1 < count))
    (h : num + (fuel + 1) = count) :
    fetchBlocks reply (fuel + 1) num = some ((range' num (fuel + 1)).map f) := by
  induction fuel generalizing num with
  | zero =>
    have hlast : ¬ num + 1 < count := by omega
    rw [fetchBlocks, hreply num (by omega), bind_eq_bind, bind_some,
      hmore num (by omega), decide_eq_false hlast]
    rfl
  | succ fuel ih =>
    have hnext : num + 1 < count := by omega
    rw [fetchBlocks, hreply num (by omega), bind_eq_bind, bind_some,
      hmore num (by omega), decide_eq_true hnext, ih (by omega)]
    rfl

variable (h : fetchBlocks reply fuel num = some rs)

include h

/-- The blocks end with one that has no more flag. -/
theorem of_fetchBlocks (hnum : num ≤ count) (hlast : ∀ r, reply count = some r → r.more = false) :
    rs.length ≤ count - num + 1 ∧ ∀ r ∈ rs, ∃ k, reply k = some r := by
  induction fuel generalizing num rs with
  | zero => cases h
  | succ fuel ih =>
    obtain ⟨r, hr, hrest⟩ := bind_eq_some_iff.mp h
    split_ifs at hrest with hmore
    · obtain ⟨rs', hrs', rfl⟩ := map_eq_some_iff.mp hrest
      have hne : num ≠ count := by
        rintro rfl
        rw [hlast r hr] at hmore
        cases hmore
      obtain ⟨hlen, hall⟩ := ih hrs' (by omega)
      refine ⟨?_, forall_mem_cons.mpr ⟨⟨num, hr⟩, hall⟩⟩
      rw [length_cons]
      omega
    · cases hrest
      exact ⟨Nat.le_add_left _ _, forall_mem_singleton.mpr ⟨num, hr⟩⟩

end Fetch

/-- The option that asks for a block of the listing. -/
theorem requestBlock_eq {size : UInt16} (hsize : size = 16 ∨ size = 32 ∨ size = 64)
    (hnum : num < 2 ^ 20) :
    UInt32.ofNat num ≤ 0x0fffff ∧ num * size.toNat < 2 ^ 31 ∧
      ∃ offset, requestBlock size num = (UInt32.ofNat num, 0, size, offset) ∧
        offset.toNat = num * size.toNat := by
  have htoNat : (UInt32.ofNat num).toNat = num := by
    rw [UInt32.toNat_ofNat']
    omega
  have hle : UInt32.ofNat num ≤ 0x0fffff := by
    show (UInt32.ofNat num).toNat ≤ 0x0fffff
    omega
  have hmul : num * size.toNat ≤ 2 ^ 20 * 64 :=
    Nat.mul_le_mul hnum.le (by rcases hsize with rfl | rfl | rfl <;> decide)
  obtain ⟨k, rfl⟩ : ∃ k : Fin 8, size = (16 : UInt16) <<< UInt16.ofNat k := by
    rcases hsize with rfl | rfl | rfl
    · exact ⟨0, rfl⟩
    · exact ⟨1, rfl⟩
    · exact ⟨2, rfl⟩
  refine ⟨hle, by omega, _, parseBlock_blockValue hle 0 k, ?_⟩
  rw [UInt32.toNat_mul, UInt16.toNat_toUInt32, htoNat, Nat.mod_eq_of_lt (by omega)]

variable (listing : List UInt8)

/-- The block of the listing that has the number `num`. -/
def listingBlock (size : UInt16) (num : ℕ) : Reply :=
  ⟨content205,
    some (UInt32.ofNat num, if (num + 1) * size.toNat < listing.length then 1 else 0, size),
    window (num * size.toNat) size.toNat listing⟩

theorem more_listingBlock (size : UInt16) (num : ℕ) :
    (listingBlock listing size num).more = decide ((num + 1) * size.toNat < listing.length) := by
  rw [listingBlock]
  by_cases h : (num + 1) * size.toNat < listing.length
  · simp only [if_pos h, decide_eq_true h]
    rfl
  · simp only [if_neg h, decide_eq_false h]
    rfl

/-- A request for a block whose number a Block2 option can hold. -/
theorem discoveryReply_request
    (hbuffer : buffer.length = transactionSize - coapMaxHeaderSize) {size : UInt16}
    (hsize : size = 16 ∨ size = 32 ∨ size = 64) (hnum : num < 2 ^ 20)
    (hin : num * size.toNat < (linkFormat resources).length ∨ linkFormat resources = []) :
    discoveryReply defaultSizes resources buffer (requestBlock size num) =
      some (listingBlock (linkFormat resources) size num) := by
  obtain ⟨heff, hpos, hvalid⟩ : defaultSizes.effective size = size ∧
      (0 < size.toNat ∧ size.toNat ≤ 64) ∧ ¬size < 16 ∧ ¬size > 2048 := by
    rcases hsize with rfl | rfl | rfl <;> decide
  have hmax : size.toNat < buffer.length := by
    rw [hbuffer]
    exact hpos.2.trans_lt (by decide)
  obtain ⟨hle, hlt, offset, hrequest, hoffset⟩ := requestBlock_eq hsize hnum
  rw [← hoffset] at hin hlt
  rw [hrequest, discoveryReply_eq (heff.symm ▸ hmax) hlt (heff.symm ▸ hpos.1) hin, heff,
    setHeaderBlock2_eq hle _ hvalid.1 hvalid.2, hoffset, listingBlock, Nat.succ_mul]
  simp only [decide_eq_true_eq]

/-- The listing was fetched: the blocks are the listing, and all but the last are full. -/
structure Fetched (size : ℕ) (replies : List Reply) : Prop where
  whole : (replies.map (·.payload)).flatten = listing
  full : ∀ r ∈ replies.dropLast, r.payload.length = size

/-- **The listing is served whole**, as long as its blocks can be numbered: a Block2 option has
twenty bits for the number.  `buffers` are the bytes that are in the transaction's buffer when a
request comes in. -/
theorem listing_served (resources : List LinkResource) {buffers : ℕ → List UInt8}
    (hbuffers : ∀ num, (buffers num).length = transactionSize - coapMaxHeaderSize) {size : UInt16}
    (hsize : size = 16 ∨ size = 32 ∨ size = 64)
    (hlen : (linkFormat resources).length ≤ 2 ^ 20 * size.toNat) :
    ∃ fuel replies,
      fetchBlocks (fun num => discoveryReply defaultSizes resources (buffers num)
        (requestBlock size num)) fuel 0 = some replies ∧
      Fetched (linkFormat resources) size.toNat replies := by
  have hpos : 0 < size.toNat := by
    rcases hsize with rfl | rfl | rfl <;> decide
  -- an empty listing is one block, too
  obtain ⟨count, hcount⟩ : ∃ count,
      count + 1 = max 1 (slices size.toNat (linkFormat resources)).length :=
    ⟨max 1 (slices size.toNat (linkFormat resources)).length - 1, by omega⟩
  have hslices : ∀ num, num < (slices size.toNat (linkFormat resources)).length ↔
      num * size.toNat < (linkFormat resources).length := fun _ => lt_length_slices hpos
  have hnext : ∀ num, num + 1 < count + 1 ↔
      (num + 1) * size.toNat < (linkFormat resources).length := by
    intro num
    rw [← hslices]
    omega
  have hmore : ∀ num < count + 1, (listingBlock (linkFormat resources) size num).more =
      decide (num + 1 < count + 1) := by
    intro num _
    rw [more_listingBlock, decide_eq_decide, hnext]
  have hreply : ∀ num < count + 1, discoveryReply defaultSizes resources (buffers num)
      (requestBlock size num) = some (listingBlock (linkFormat resources) size num) := by
    intro num hnum
    rcases Nat.eq_zero_or_pos num with rfl | hnumPos
    · refine discoveryReply_request (hbuffers 0) hsize (by decide) ?_
      rw [Nat.zero_mul, length_pos_iff]
      exact ne_or_eq _ _
    · have hin := (hslices num).mp (by omega)
      have hlt : num < 2 ^ 20 := Nat.lt_of_mul_lt_mul_right (hin.trans_le hlen)
      exact discoveryReply_request (hbuffers num) hsize hlt (.inl hin)
  refine ⟨count + 1, _, fetchBlocks_eq hreply hmore (Nat.zero_add _), ?_, ?_⟩
  · have hend : ¬ count + 1 < (slices size.toNat (linkFormat resources)).length := by omega
    rw [hslices, not_lt] at hend
    rw [List.map_map, ← range_eq_range']
    exact (flatten_range_slices _ _ _).trans (take_of_length_le hend)
  · intro r hr
    rw [← range_eq_range', range_succ, map_append, map_singleton,
      dropLast_concat, List.mem_map] at hr
    obtain ⟨num, hnum, rfl⟩ := hr
    have hin := (hnext num).mp (Nat.succ_lt_succ (mem_range.mp hnum))
    rw [listingBlock, length_window]
    rw [Nat.succ_mul] at hin
    omega

/-- A resource with an address of `length` characters. -/
def longResource (length : ℕ) : LinkResource :=
  ⟨⟨replicate length 97, fun h => absurd (eq_of_mem_replicate h) (by decide)⟩, none⟩

/-- Three links, in blocks of sixteen bytes. -/
theorem listing_served_three : ∃ fuel replies,
      fetchBlocks (fun num =>
        discoveryReply defaultSizes [longResource 3, longResource 11, longResource 8]
        (replicate 65 0) (requestBlock 16 num)) fuel 0 = some replies ∧
      Fetched (linkFormat [longResource 3, longResource 11, longResource 8]) 16 replies :=
  listing_served [longResource 3, longResource 11, longResource 8] (fun _ => rfl) (.inl rfl)
    (by decide)

/-! ### Listings with too many blocks -/

theorem length_setPayload_le (z : Sizes) (l : List UInt8) :
    (z.setPayload l).length ≤ z.serverChunk.toNat := by
  rw [Sizes.setPayload, length_take]
  exact Nat.min_le_left _ _

/-- No response has more bytes than a chunk. -/
theorem length_payload_le {block2 : UInt32 × UInt8 × UInt16 × UInt32}
    (h : discoveryReply z resources buffer block2 = some r) :
    r.payload.length ≤ z.serverChunk.toNat := by
  rw [discoveryReply] at h
  split_ifs at h
  · cases h
    exact length_setPayload_le z _
  · obtain ⟨r₀, -, rfl⟩ := map_eq_some_iff.mp h
    unfold respondBlock
    dsimp only
    split_ifs <;> exact length_setPayload_le z _

/-- Block 2²⁰ is answered without a Block2 option. -/
theorem more_of_number
    (h : discoveryReply z resources buffer (requestBlock 16 (2 ^ 20)) = some r) :
    r.more = false := by
  have hrequest : requestBlock 16 (2 ^ 20) = (2 ^ 20, 0, 16, 2 ^ 24) := by decide +kernel
  have hset : ∀ (more : Bool) (size : UInt16), setHeaderBlock2 none (2 ^ 20) more size = none := by
    intro more size
    exact if_pos (.inr (.inr (by decide)))
  rw [hrequest, discoveryReply] at h
  split_ifs at h
  · cases h
    rfl
  · obtain ⟨r₀, -, rfl⟩ := map_eq_some_iff.mp h
    simp only [respondBlock, hset]
    split_ifs <;> rfl

theorem le_length_linkFormat (length : ℕ) : length ≤ (linkFormat [longResource length]).length := by
  rw [← foldl_appendLink_nil]
  simp only [foldl_cons, foldl_nil, appendLink, LinkResource.link, longResource,
    length_append, length_replicate]
  omega

theorem not_fetched {length : ℕ} (h : (2 ^ 20 + 1) * 64 < length) (buffers : ℕ → List UInt8)
    {fuel : ℕ} {replies : List Reply} (hfetch : fetchBlocks (fun num =>
      discoveryReply defaultSizes [longResource length] (buffers num)
      (requestBlock 16 num)) fuel 0 = some replies) :
    ¬ Fetched (linkFormat [longResource length]) 16 replies := by
  rintro ⟨hwhole, -⟩
  obtain ⟨hcount, hreply⟩ := of_fetchBlocks hfetch (Nat.zero_le (2 ^ 20)) fun r hr =>
    more_of_number hr
  have hpayload : ∀ l ∈ replies.map (·.payload), l.length ≤ 64 := by
    intro l hl
    obtain ⟨r, hr, rfl⟩ := mem_map.mp hl
    obtain ⟨num, hnum⟩ := hreply r hr
    exact length_payload_le hnum
  have hle := sum_le_card_nsmul ((replies.map (·.payload)).map List.length) 64
    (forall_mem_map.mpr hpayload)
  have hlong := le_length_linkFormat length
  rw [← length_flatten, hwhole, length_map, length_map] at hle
  change _ ≤ replies.length * 64 at hle
  omega

/-- An address of 2²⁷ characters is not served whole in blocks of sixteen: the response for block
2²⁰ has no Block2 option, and no more flag with it. -/
theorem listing_not_served : ¬ ∃ fuel replies,
      fetchBlocks (fun num => discoveryReply defaultSizes [longResource (2 ^ 27)] (replicate 65 0)
        (requestBlock 16 num)) fuel 0 = some replies ∧
      Fetched (linkFormat [longResource (2 ^ 27)]) 16 replies := by
  rintro ⟨fuel, replies, hfetch, hfetched⟩
  exact not_fetched (by decide) (fun _ => replicate 65 0) hfetch hfetched

end Nespy.Coap
