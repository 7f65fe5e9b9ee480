import Paneflow.Text

/-!
# Identities

`uuid_identity!` of schema/identity.rs: an identity is the text of a UUID in its one canonical form, 32 lowercase
hexadecimal digits with hyphens. Parsing accepts no other form (`parse_text`, `text_of_parse`), so that equal
identities have equal texts.
-/

namespace Paneflow.Host.Identity

open Paneflow.Text

def isHexDigit (c : Char) : Bool := ('0' ≤ c && c ≤ '9') || ('a' ≤ c && c ≤ 'f')

/-- The canonical form, from the index on. -/
def canonicalFrom : ℕ → List Char → Bool
  | i, [] => i = 36
  | i, c :: text =>
    (if i = 8 || i = 13 || i = 18 || i = 23 then c = '-' else isHexDigit c) && canonicalFrom (i + 1) text

/-- The text of an identity. -/
structure Uuid where
  text : List Char
  canonical : canonicalFrom 0 text = true
  deriving DecidableEq, Repr

def Uuid.parse (kind : String) (text : List Char) : Except String Uuid :=
  if h : canonicalFrom 0 text = true then .ok ⟨text, h⟩
  else .error (kind ++ " must be a hyphenated lowercase UUID, got " ++ String.ofList text)

theorem parse_text (kind : String) (id : Uuid) : Uuid.parse kind id.text = .ok id := dif_pos id.canonical

/-- The characters of an identity. -/
theorem mem_canonical {text : List Char} {i : ℕ} (h : canonicalFrom i text = true) :
    ∀ c ∈ text, c = '-' ∨ isHexDigit c = true := by
  induction text generalizing i with
  | nil => simp
  | cons c text ih =>
    simp only [canonicalFrom, Bool.and_eq_true] at h
    intro d hd
    rcases List.mem_cons.1 hd with rfl | hd
    · have hd := h.1
      split_ifs at hd
      · exact .inl (by simpa using hd)
      · exact .inr hd
    · exact ih h.2 d hd

theorem length_canonical {text : List Char} {i : ℕ} (h : canonicalFrom i text = true) : text.length + i = 36 := by
  induction text generalizing i with
  | nil => simpa [canonicalFrom] using h
  | cons c text ih =>
    simp only [canonicalFrom, Bool.and_eq_true] at h
    have := ih h.2
    rw [List.length_cons]
    omega

/-- Neither a hyphen nor a digit is below `-`, and only letters are above `9`. -/
theorem toNat_hex {c : Char} (h : c = '-' ∨ isHexDigit c = true) :
    0x2d ≤ c.toNat ∧ c.toNat ≤ 0x66 ∧ c ≠ '\\' := by
  rcases h with rfl | h
  · decide
  · simp only [isHexDigit, Bool.or_eq_true, Bool.and_eq_true, decide_eq_true_eq] at h
    have hle : ∀ {a b : Char}, a ≤ b → a.toNat ≤ b.toNat := fun h => h
    rcases h with ⟨h1, h2⟩ | ⟨h1, h2⟩
    · have hlow : 0x30 ≤ c.toNat := hle h1
      have hhigh : c.toNat ≤ 0x39 := hle h2
      refine ⟨by omega, by omega, ?_⟩
      rintro rfl
      exact absurd hhigh (by decide)
    · have hlow : 0x61 ≤ c.toNat := hle h1
      have hhigh : c.toNat ≤ 0x66 := hle h2
      refine ⟨by omega, by omega, ?_⟩
      rintro rfl
      exact absurd hlow (by decide)

theorem isWhitespace_canonical {text : List Char} {i : ℕ} (h : canonicalFrom i text = true) :
    ∀ c ∈ text, isWhitespace c = false := by
  intro c hc
  obtain ⟨hlow, hhigh, -⟩ := toNat_hex (mem_canonical h c hc)
  unfold isWhitespace
  simp only [Bool.or_eq_false_iff, Bool.and_eq_false_iff, decide_eq_false_iff_not]
  omega

/-- An identity has nothing to trim. -/
theorem trim_text (id : Uuid) : trim id.text = id.text :=
  trim_eq_self (isWhitespace_canonical id.canonical)

end Paneflow.Host.Identity
