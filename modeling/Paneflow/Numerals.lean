import Mathlib

/-!
# Numerals

Numbers in texts, in a base of at most ten. `fromStrRadix` reads one as the standard library of the source does for an
unsigned type: an optional plus, then digits, and a value below the bound. `padded` writes one with zeros in front of
it. What is written is read back.
-/

namespace Paneflow.Numerals

def isDigitIn (radix : ℕ) (c : Char) : Bool := c.isDigit && c.toNat - '0'.toNat < radix

/-- A numeral without its plus. -/
def stripPlus : List Char → List Char
  | '+' :: rest => rest
  | text => text

/-- `from_str_radix` of an unsigned type whose values are below `bound`. -/
def fromStrRadix (radix bound : ℕ) (text : List Char) : Option ℕ :=
  let digits := stripPlus text
  if digits ≠ [] ∧ digits.all (isDigitIn radix) ∧ Nat.ofDigitChars radix digits 0 < bound then
    some (Nat.ofDigitChars radix digits 0)
  else none

/-- The digits of the number, with zeros in front up to the width. -/
def padded (radix width n : ℕ) : List Char :=
  List.replicate (width - (Nat.toDigits radix n).length) '0' ++ Nat.toDigits radix n

variable {radix bound width n : ℕ}

theorem isDigitIn_digitChar {digit : ℕ} (hradix : radix ≤ 10) (h : digit < radix) :
    isDigitIn radix digit.digitChar = true := by
  have hten : digit < 10 := by omega
  unfold isDigitIn
  rw [Bool.and_eq_true, decide_eq_true_eq]
  refine ⟨Nat.isDigit_digitChar.trans (decide_eq_true hten), ?_⟩
  rw [show '0'.toNat = 48 from rfl, Nat.toNat_digitChar_sub_48_of_lt_ten hten]
  exact h

theorem mem_toDigits (hradix : 1 < radix) (n : ℕ) : ∀ c ∈ Nat.toDigits radix n, ∃ d < radix, c = d.digitChar := by
  induction n using Nat.strongRecOn with
  | _ n ih =>
    intro c hc
    by_cases h : n < radix
    · rw [Nat.toDigits_of_lt_base h, List.mem_singleton] at hc
      exact ⟨n, h, hc⟩
    · rw [Nat.toDigits_of_base_le hradix (Nat.le_of_not_lt h), List.mem_append] at hc
      have hpos : 0 < n := by omega
      rcases hc with hc | hc
      · exact ih (n / radix) (Nat.div_lt_self hpos hradix) c hc
      · exact ⟨n % radix, Nat.mod_lt n (by omega), List.mem_singleton.1 hc⟩

theorem mem_padded (hradix : 1 < radix) (width n : ℕ) : ∀ c ∈ padded radix width n, ∃ d < radix, c = d.digitChar := by
  intro c hc
  rcases List.mem_append.1 hc with hc | hc
  · exact ⟨0, by omega, List.eq_of_mem_replicate hc⟩
  · exact mem_toDigits hradix n c hc

theorem isDigitIn_toDigits (hradix : 1 < radix) (hten : radix ≤ 10) (n : ℕ) :
    ∀ c ∈ Nat.toDigits radix n, isDigitIn radix c = true := by
  intro c hc
  obtain ⟨d, hd, rfl⟩ := mem_toDigits hradix n c hc
  exact isDigitIn_digitChar hten hd

theorem isDigitIn_padded (hradix : 1 < radix) (hten : radix ≤ 10) (width n : ℕ) :
    ∀ c ∈ padded radix width n, isDigitIn radix c = true := by
  intro c hc
  obtain ⟨d, hd, rfl⟩ := mem_padded hradix width n c hc
  exact isDigitIn_digitChar hten hd

theorem ofDigitChars_padded (hradix : 1 < radix) (hten : radix ≤ 10) (width n : ℕ) :
    Nat.ofDigitChars radix (padded radix width n) 0 = n := by
  unfold padded
  rw [Nat.ofDigitChars_append, Nat.ofDigitChars_replicate_zero, Nat.mul_zero,
    Nat.ofDigitChars_toDigits hradix hten]

theorem length_padded (hradix : 1 < radix) (hwidth : 0 < width) (h : n < radix ^ width) :
    (padded radix width n).length = width := by
  have hle := (Nat.length_toDigits_le_iff hradix hwidth).2 h
  unfold padded
  rw [List.length_append, List.length_replicate]
  omega

/-- A text of digits is read as its value. -/
theorem fromStrRadix_of_digits {text : List Char} (hne : text ≠ [])
    (hdigits : ∀ c ∈ text, isDigitIn radix c = true) (hbound : Nat.ofDigitChars radix text 0 < bound) :
    fromStrRadix radix bound text = some (Nat.ofDigitChars radix text 0) := by
  have hplus : stripPlus text = text := by
    unfold stripPlus
    split
    · have hdigit := hdigits '+' List.mem_cons_self
      have hplus : isDigitIn radix '+' = false := rfl
      exact absurd (hplus.symm.trans hdigit) Bool.false_ne_true
    · rfl
  unfold fromStrRadix
  rw [hplus]
  exact if_pos ⟨hne, List.all_eq_true.2 hdigits, hbound⟩

theorem fromStrRadix_padded (hradix : 1 < radix) (hten : radix ≤ 10) (h : n < bound) (width : ℕ) :
    fromStrRadix radix bound (padded radix width n) = some n := by
  have hne : padded radix width n ≠ [] := by
    intro hnil
    exact Nat.toDigits_ne_nil (List.append_eq_nil_iff.1 hnil).2
  have hvalue := ofDigitChars_padded hradix hten width n
  rw [fromStrRadix_of_digits hne (isDigitIn_padded hradix hten width n) (hvalue.symm ▸ h), hvalue]

theorem fromStrRadix_toDigits (hradix : 1 < radix) (hten : radix ≤ 10) (h : n < bound) :
    fromStrRadix radix bound (Nat.toDigits radix n) = some n := by
  have hpadded := fromStrRadix_padded hradix hten h 0
  unfold padded at hpadded
  rw [Nat.zero_sub, List.replicate_zero, List.nil_append] at hpadded
  exact hpadded

end Paneflow.Numerals
