import Mathlib.Data.List.Basic
import Mathlib.Data.Nat.Notation

/-!
# Text operations

The operations of Rust's `str` that the programs use, over lists of characters.
-/

namespace Paneflow.Text

/-- A property of each of some characters, as a check of their list: `decide` would try every character there is. -/
theorem forall_mem_of_all {p : Char → Prop} [DecidablePred p] {text : List Char}
    (h : (text.all fun c => decide (p c)) = true) : ∀ c ∈ text, p c := by
  simpa using h

/-- `char::is_whitespace`: the property White_Space. -/
def isWhitespace (c : Char) : Bool :=
  let n := c.toNat
  (9 ≤ n && n ≤ 13) || n = 0x20 || n = 0x85 || n = 0xa0 || n = 0x1680 || (0x2000 ≤ n && n ≤ 0x200a) || n = 0x2028 ||
    n = 0x2029 || n = 0x202f || n = 0x205f || n = 0x3000

/-- `str::trim_matches` -/
def trimMatches (p : Char → Bool) (text : List Char) : List Char :=
  ((text.dropWhile p).reverse.dropWhile p).reverse

/-- `str::trim` -/
def trim (text : List Char) : List Char := trimMatches isWhitespace text

theorem dropWhile_eq_self {p : Char → Bool} {text : List Char} (h : ∀ c ∈ text, p c = false) :
    text.dropWhile p = text := by
  cases text with
  | nil => rfl
  | cons c text => simp [h c List.mem_cons_self]

theorem trim_eq_self {text : List Char} (h : ∀ c ∈ text, isWhitespace c = false) : trim text = text := by
  unfold trim trimMatches
  rw [dropWhile_eq_self h, dropWhile_eq_self fun c hc => h c (List.mem_reverse.1 hc), List.reverse_reverse]

/-- `str::replace`, for a pattern that is not empty; `skip` characters of a match are still to be passed over. -/
def replaceFrom (pattern value : List Char) : (skip : ℕ) → List Char → List Char
  | _, [] => []
  | skip + 1, _ :: text => replaceFrom pattern value skip text
  | 0, c :: text =>
    if pattern.isPrefixOf (c :: text) then value ++ replaceFrom pattern value (pattern.length - 1) text
    else c :: replaceFrom pattern value 0 text

def replace (pattern value text : List Char) : List Char := replaceFrom pattern value 0 text

/-- Where the pattern is one character, every one of it is replaced. -/
theorem replace_singleton (pattern : Char) (value text : List Char) :
    replace [pattern] value text = text.flatMap fun c => if c = pattern then value else [c] := by
  unfold replace
  induction text with
  | nil => rfl
  | cons c text ih =>
    have hmatch : [pattern].isPrefixOf (c :: text) = decide (c = pattern) := by
      rw [List.isPrefixOf_cons_cons, List.isPrefixOf_nil_left, Bool.and_true, beq_eq_decide, decide_eq_decide,
        eq_comm]
    unfold replaceFrom
    rw [hmatch, List.flatMap_cons]
    split_ifs with hc
    · simp only [List.length_singleton, Nat.sub_self, ih]
    · exact absurd ‹_› (by simpa using hc)
    · exact absurd ‹_› (by simpa using hc)
    · rw [ih, List.singleton_append]

/-- `str::split_once` for one character -/
def splitOnce (c : Char) : List Char → Option (List Char × List Char)
  | [] => none
  | x :: text => if x = c then some ([], text) else (splitOnce c text).map fun (front, rest) => (x :: front, rest)

theorem splitOnce_eq {c : Char} {text front rest : List Char} (h : splitOnce c text = some (front, rest)) :
    text = front ++ c :: rest := by
  induction text generalizing front with
  | nil => exact nomatch h
  | cons x text ih =>
    unfold splitOnce at h
    by_cases hx : x = c
    · rw [if_pos hx] at h
      cases h
      simp [hx]
    · rw [if_neg hx] at h
      obtain ⟨⟨front', rest'⟩, hsplit, heq⟩ := Option.map_eq_some_iff.1 h
      cases heq
      simpa using ih hsplit

theorem splitOnce_append {c : Char} {front : List Char} (h : c ∉ front) (rest : List Char) :
    splitOnce c (front ++ c :: rest) = some (front, rest) := by
  induction front with
  | nil => simp [splitOnce]
  | cons x front ih =>
    obtain ⟨hx, hfront⟩ := List.ne_and_not_mem_of_not_mem_cons h
    rw [List.cons_append, splitOnce, if_neg (Ne.symm hx), ih hfront]
    rfl

theorem splitOnce_eq_none_iff {c : Char} {text : List Char} : splitOnce c text = none ↔ c ∉ text := by
  induction text with
  | nil => simp [splitOnce]
  | cons x text ih =>
    unfold splitOnce
    by_cases hx : x = c
    · simp [hx]
    · rw [if_neg hx, Option.map_eq_none_iff, ih, List.mem_cons, not_or]
      exact ⟨fun h => ⟨Ne.symm hx, h⟩, And.right⟩

end Paneflow.Text
