import Mathlib.Data.List.Nodup

/-!
# Lib — tilings of an interval

A chunk is known by its first address `c` and is `len c` long.  `Tiles len stop a l` says that the
chunks `l` lie one behind the other and fill `[a, stop)`.  `tiles_mid` takes a tiling apart at a
chunk, and `Tiles.mid_of_eq` does so after that chunk alone was given another length; to join two
chunks, to split one or to cut the last one off is to put the parts together again.
-/

open List

namespace Nespy.Lib

/-- The chunks of `l` fill the interval from `a` to `stop`. -/
def Tiles (len : ℕ → ℕ) (stop : ℕ) : ℕ → List ℕ → Prop
  | a, [] => a = stop
  | a, c :: l => c = a ∧ Tiles len stop (a + len a) l

variable {len len' : ℕ → ℕ} {a c d stop : ℕ} {l l₁ l₂ : List ℕ}

theorem tiles_append :
    Tiles len stop a (l₁ ++ l₂) ↔ ∃ b, Tiles len b a l₁ ∧ Tiles len stop b l₂ := by
  induction l₁ generalizing a with
  | nil => exact ⟨fun h => ⟨a, rfl, h⟩, fun ⟨b, hb, h⟩ => (show a = b from hb) ▸ h⟩
  | cons c l₁ ih => simp only [cons_append, Tiles, ih, exists_and_left, and_assoc]

/-- A tiling, taken apart at one of its chunks. -/
theorem tiles_mid :
    Tiles len stop a (l₁ ++ c :: l₂) ↔ Tiles len c a l₁ ∧ Tiles len stop (c + len c) l₂ := by
  rw [tiles_append]
  constructor
  · rintro ⟨b, h₁, rfl, h₂⟩
    exact ⟨h₁, h₂⟩
  · rintro ⟨h₁, h₂⟩
    exact ⟨c, h₁, rfl, h₂⟩

section

variable (h : Tiles len stop a l)

include h

theorem Tiles.of_eq (hlen : ∀ c ∈ l, len' c = len c) : Tiles len' stop a l := by
  induction l generalizing a with
  | nil => exact h
  | cons c l ih =>
    obtain ⟨rfl, h⟩ := h
    refine ⟨rfl, ?_⟩
    rw [hlen c mem_cons_self]
    exact ih h fun d hd => hlen d (mem_cons_of_mem _ hd)

theorem Tiles.le : a ≤ stop := by
  induction l generalizing a with
  | nil => exact Nat.le_of_eq h
  | cons c l ih => exact Nat.le_trans (Nat.le_add_right ..) (ih h.2)

theorem Tiles.bounds (hc : c ∈ l) : a ≤ c ∧ c + len c ≤ stop := by
  obtain ⟨l₁, l₂, rfl⟩ := append_of_mem hc
  obtain ⟨h₁, h₂⟩ := tiles_mid.mp h
  exact ⟨h₁.le, h₂.le⟩

/-- Two chunks have no address in common. -/
theorem Tiles.disjoint (hc : c ∈ l) (hd : d ∈ l) (hne : c ≠ d) : c + len c ≤ d ∨ d + len d ≤ c := by
  obtain ⟨l₁, l₂, rfl⟩ := append_of_mem hc
  obtain ⟨h₁, h₂⟩ := tiles_mid.mp h
  rcases mem_append.mp hd with hd | hd
  · exact .inr (h₁.bounds hd).2
  · rcases mem_cons.mp hd with rfl | hd
    · exact absurd rfl hne
    · exact .inl (h₂.bounds hd).1

end

section Pos

variable (hpos : ∀ c, 0 < len c)

include hpos

theorem Tiles.nodup (h : Tiles len stop a l) : l.Nodup := by
  induction l generalizing a with
  | nil => exact nodup_nil
  | cons c l ih =>
    obtain ⟨rfl, h⟩ := h
    refine nodup_cons.mpr ⟨fun hc => ?_, ih h⟩
    have hle := (h.bounds hc).1
    have hlt := hpos c
    omega

/-- There are no more chunks than addresses. -/
theorem Tiles.length_le (h : Tiles len stop a l) : a + l.length ≤ stop := by
  induction l generalizing a with
  | nil => exact Nat.le_of_eq h
  | cons c l ih =>
    have hle := ih h.2
    have hlt := hpos a
    rw [length_cons]
    omega

variable (h : Tiles len stop a (l₁ ++ c :: l₂))

include h

/-- The parts of a tiling around a chunk whose length, and no other one's, has changed. -/
theorem Tiles.mid_of_eq (hlen : ∀ d, d ≠ c → len' d = len d) :
    Tiles len' c a l₁ ∧ Tiles len' stop (c + len c) l₂ := by
  obtain ⟨hnodup, -, hdisj⟩ := nodup_append.mp (h.nodup hpos)
  obtain ⟨hc, -⟩ := nodup_cons.mp ((nodup_append.mp (h.nodup hpos)).2.1)
  obtain ⟨h₁, h₂⟩ := tiles_mid.mp h
  refine ⟨h₁.of_eq fun d hd => hlen d ?_, h₂.of_eq fun d hd => hlen d ?_⟩
  · exact hdisj d hd c mem_cons_self
  · exact fun he => hc (he ▸ hd)

/-- What comes behind a chunk is the end or the next chunk. -/
theorem Tiles.next :
    (c + len c = stop ∧ l₂ = []) ∨ (c + len c < stop ∧ ∃ l₃, l₂ = (c + len c) :: l₃) := by
  obtain ⟨-, h₂⟩ := tiles_mid.mp h
  cases l₂ with
  | nil => exact .inl ⟨h₂, rfl⟩
  | cons n l₃ =>
    obtain ⟨rfl, h₃⟩ := h₂
    have hle := h₃.le
    have hlt := hpos (c + len c)
    exact .inr ⟨by omega, l₃, rfl⟩

end Pos

end Nespy.Lib
