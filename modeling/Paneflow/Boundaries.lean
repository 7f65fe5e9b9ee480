import Paneflow.Utf8

/-!
# The next character boundary

A byte offset is moved to a boundary by going down or up one byte after the other. Going down ends less than four bytes
below (`lt_floorBoundary`), and no boundary is passed on the way (`le_floorBoundary`, `ceilBoundary_spec`).
-/

namespace Paneflow.Boundaries

open Paneflow.Utf8

variable {s : List Char} {n b : ℕ}

/-- `str::is_char_boundary` -/
def isCharBoundary (s : List Char) (n : ℕ) : Bool := (splitAtByte s n).isSome

theorem isCharBoundary_iff : isCharBoundary s n = true ↔ Boundary s n := by
  constructor
  · intro h
    obtain ⟨⟨p, q⟩, hsplit⟩ := Option.isSome_iff_exists.mp h
    obtain ⟨heq, hsize⟩ := splitAtByte_eq_some hsplit
    exact ⟨p, q, heq, hsize⟩
  · rintro ⟨p, q, rfl, rfl⟩
    rw [isCharBoundary, splitAtByte_append]
    rfl

/-! ### Down -/

/-- `while !s.is_char_boundary(n) { n -= 1 }` -/
def floorBoundary (s : List Char) : ℕ → ℕ
  | 0 => 0
  | n + 1 => if isCharBoundary s (n + 1) then n + 1 else floorBoundary s n

theorem boundary_floorBoundary : ∀ n, Boundary s (floorBoundary s n)
  | 0 => boundary_zero s
  | n + 1 => by
    unfold floorBoundary
    split_ifs with h
    · exact isCharBoundary_iff.mp h
    · exact boundary_floorBoundary n

theorem floorBoundary_le (s : List Char) : ∀ n, floorBoundary s n ≤ n
  | 0 => le_rfl
  | n + 1 => by
    unfold floorBoundary
    split_ifs
    · exact le_rfl
    · exact (floorBoundary_le s n).trans (Nat.le_succ n)

/-- No boundary is passed. -/
theorem le_floorBoundary (hb : Boundary s b) : ∀ {n}, b ≤ n → b ≤ floorBoundary s n
  | 0, h => h
  | n + 1, h => by
    unfold floorBoundary
    split_ifs with hn
    · exact h
    · have hne : b ≠ n + 1 := fun heq => hn (isCharBoundary_iff.mpr (heq ▸ hb))
      exact le_floorBoundary hb (by omega)

/-- There is a boundary less than four bytes below. -/
theorem exists_boundary_near : ∀ {s : List Char} {n : ℕ}, n ≤ size s → ∃ b, Boundary s b ∧ b ≤ n ∧ n < b + 4
  | [], n, h => ⟨0, boundary_zero _, Nat.zero_le n, by rw [size_nil] at h; omega⟩
  | c :: s, n, h => by
    have hfour := c.utf8Size_le_four
    by_cases hn : n < c.utf8Size
    · exact ⟨0, boundary_zero _, Nat.zero_le n, by omega⟩
    · rw [size_cons] at h
      obtain ⟨b, ⟨p, q, hpq, hp⟩, hle, hlt⟩ := @exists_boundary_near s (n - c.utf8Size) (by omega)
      refine ⟨c.utf8Size + b, ⟨c :: p, q, by rw [hpq]; rfl, by rw [size_cons, hp]⟩, by omega, by omega⟩

theorem lt_floorBoundary (h : n ≤ size s) : n < floorBoundary s n + 4 := by
  obtain ⟨b, hb, hle, hlt⟩ := exists_boundary_near h
  have := le_floorBoundary hb hle
  omega

/-! ### Up -/

/-- `while !s.is_char_boundary(n) { n += 1 }`, `none` if `fuel` rounds do not end it. -/
def ceilBoundary (s : List Char) : (fuel n : ℕ) → Option ℕ
  | 0, _ => none
  | fuel + 1, n => if isCharBoundary s n then some n else ceilBoundary s fuel (n + 1)

/-- The first boundary from `n` on. -/
structure FirstFrom (s : List Char) (n b : ℕ) : Prop where
  boundary : Boundary s b
  le : n ≤ b
  first : ∀ {b'}, Boundary s b' → n ≤ b' → b ≤ b'

theorem ceilBoundary_spec : ∀ {fuel n : ℕ}, n ≤ size s → size s - n < fuel →
    ∃ b, ceilBoundary s fuel n = some b ∧ FirstFrom s n b
  | fuel + 1, n, h, hfuel => by
    unfold ceilBoundary
    split_ifs with hn
    · exact ⟨n, rfl, isCharBoundary_iff.mp hn, le_rfl, fun _ h => h⟩
    · have hnot : ¬Boundary s n := fun hb => hn (isCharBoundary_iff.mpr hb)
      have hne : n ≠ size s := fun heq => hnot (heq ▸ boundary_size s)
      obtain ⟨b, hb, hfirst⟩ := @ceilBoundary_spec fuel (n + 1) (by omega) (by omega)
      refine ⟨b, hb, hfirst.boundary, (Nat.le_succ n).trans hfirst.le, fun hb' hle => ?_⟩
      rcases Nat.lt_or_eq_of_le hle with hlt | rfl
      · exact hfirst.first hb' hlt
      · exact absurd hb' hnot

theorem FirstFrom.eq_of_boundary (h : FirstFrom s n b) (hn : Boundary s n) : b = n :=
  le_antisymm (h.first hn le_rfl) h.le

end Paneflow.Boundaries
