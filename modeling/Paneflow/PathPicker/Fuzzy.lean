import Paneflow.Utf8

/-!
# Fuzzy matching of paths

fuzzy.rs of the path picker. A pattern is matched when its folded characters stand in a text in their order;
`align` finds the tightest place from the left, `score` rates it. What a platform and Unicode say of characters
is a parameter.
-/

namespace Paneflow.PathPicker

open Paneflow.Utf8

/-- The separators of the platform, and what Unicode says of characters: the first character that one becomes in
lower case, and its classes. -/
structure Platform where
  isSeparator : Char → Bool
  mainSeparator : Char
  lowercase : Char → Char
  isAlphanumeric : Char → Bool
  isLowercase : Char → Bool
  isUppercase : Char → Bool

/-- The offsets of the characters of a text, with the characters. -/
def charIndices : ℕ → List Char → List (ℕ × Char)
  | _, [] => []
  | index, ch :: text => (index, ch) :: charIndices (index + ch.utf8Size) text

/-- `text[start..]` -/
def charsFrom (text : List Char) (start : ℕ) : List Char :=
  ((charIndices 0 text).filter fun entry => start ≤ entry.1).map Prod.snd

/-- `text[..stop]` -/
def charsTo (text : List Char) (stop : ℕ) : List Char :=
  ((charIndices 0 text).filter fun entry => entry.1 < stop).map Prod.snd

def scoreMatch : ℤ := 16
def bonusBoundary : ℤ := 10
def bonusCamel : ℤ := 8
def bonusConsecutive : ℤ := 6
def penaltyGapStart : ℤ := 3
def penaltyGapExtension : ℤ := 1
def bonusInName : ℤ := 64
def bonusWholeName : ℤ := 32

section
variable (platform : Platform)

def fold (ch : Char) : Char :=
  if ch.toNat < 128 then ch.toLower else platform.lowercase ch

def charBit (folded : Char) : ℕ :=
  if 'a' ≤ folded ∧ folded ≤ 'z' then 2 ^ (folded.toNat - 'a'.toNat)
  else if '0' ≤ folded ∧ folded ≤ '9' then 2 ^ 26
  else if folded = '.' then 2 ^ 27
  else if folded = '-' then 2 ^ 28
  else if folded = '_' then 2 ^ 29
  else if folded = ' ' then 2 ^ 30
  else if platform.isSeparator folded then 0
  else 2 ^ 31

def maskOf (text : List Char) : ℕ :=
  text.foldl (fun mask ch => mask ||| charBit platform (fold platform ch)) 0

structure Pattern where
  folded : List Char
  mask : ℕ

def Pattern.new (query : List Char) : Pattern :=
  let folded := query.map (fold platform)
  ⟨folded, folded.foldl (fun mask ch => mask ||| charBit platform ch) 0⟩

/-- `self.mask & !text_mask != 0`, on words of 32 bits. -/
def Pattern.excludedBy (pattern : Pattern) (textMask : ℕ) : Bool :=
  pattern.mask &&& (2 ^ 32 - 1 - textMask) ≠ 0

/-- The end of the first place where the needle stands in the text. -/
def alignEnd : ℕ → List Char → List Char → Option ℕ
  | index, ch :: text, wanted :: remaining =>
    if fold platform ch = wanted then
      if remaining.isEmpty then some (index + ch.utf8Size)
      else alignEnd (index + ch.utf8Size) text remaining
    else alignEnd (index + ch.utf8Size) text (wanted :: remaining)
  | _, _, _ => none

/-- The offsets of the needle, from the back. -/
def alignBack : List (ℕ × Char) → List Char → List ℕ
  | (index, ch) :: entries, wanted :: remaining =>
    if fold platform ch = wanted then index :: alignBack entries remaining
    else alignBack entries (wanted :: remaining)
  | _, _ => []

def align (haystack needle : List Char) : Option (List ℕ) :=
  (alignEnd platform 0 haystack needle).map fun stop =>
    (alignBack platform ((charIndices 0 haystack).filter fun entry => entry.1 < stop).reverse
      needle.reverse).reverse

def boundaryBonus (before : Option Char) (current : Char) : ℤ :=
  match before with
  | none => bonusBoundary
  | some before =>
    if !platform.isAlphanumeric before then bonusBoundary
    else if platform.isLowercase before && platform.isUppercase current then bonusCamel
    else 0

/-- `haystack[start..stop].chars().count()` -/
def gapLength (haystack : List Char) (start stop : ℕ) : ℕ :=
  ((charIndices 0 haystack).filter fun entry => start ≤ entry.1 && entry.1 < stop).length

/-- What a position adds after the end of the one before. -/
def scoreAt (haystack : List Char) (nth index : ℕ) (current : Char) (previousEnd : Option ℕ) : ℤ :=
  let bonus := boundaryBonus platform (charsTo haystack index).getLast? current
  scoreMatch + (if nth = 0 then 2 * bonus else bonus) +
    match previousEnd with
    | none => 0
    | some stop =>
      if stop = index then bonusConsecutive
      else -(penaltyGapStart + penaltyGapExtension * ((gapLength haystack stop index : ℤ) - 1))

def scoreFrom (haystack : List Char) (nth : ℕ) (previousEnd : Option ℕ) : List ℕ → ℤ
  | [] => 0
  | index :: positions =>
    match (charsFrom haystack index).head? with
    | none => scoreFrom haystack (nth + 1) previousEnd positions
    | some current =>
      scoreAt platform haystack nth index current previousEnd +
        scoreFrom haystack (nth + 1) (some (index + current.utf8Size)) positions

def score (haystack : List Char) (positions : List ℕ) : ℤ :=
  scoreFrom platform haystack 0 none positions

/-- `score_name`, with the positions. -/
def scoreName (name : List Char) (pattern : Pattern) : Option (ℤ × List ℕ) :=
  (align platform name pattern.folded).map fun positions =>
    (score platform name positions + bonusInName +
      (if name.map (fold platform) = pattern.folded then bonusWholeName else 0), positions)

def scorePath (path : List Char) (pattern : Pattern) : Option (ℤ × List ℕ) :=
  (align platform path pattern.folded).map fun positions =>
    (score platform path positions, positions)

/-- The number of characters of the pattern that are matched after the text. -/
def advance : List Char → Pattern → ℕ → ℕ
  | [], _, matched => matched
  | ch :: text, pattern, matched =>
    match pattern.folded[matched]? with
    | none => matched
    | some wanted =>
      advance text pattern (if fold platform ch = wanted then matched + 1 else matched)

def isComplete (pattern : Pattern) (matched : ℕ) : Bool := matched ≥ pattern.folded.length

/-- Ranges of offsets, merged where one begins at the end of another. -/
def ranges (text : List Char) : List ℕ → List (ℕ × ℕ) → List (ℕ × ℕ)
  | [], merged => merged
  | start :: positions, merged =>
    let stop := start + (((charsFrom text start).head?).map Char.utf8Size).getD 0
    match merged.getLast? with
    | some last =>
      if last.2 = start then ranges text positions (merged.dropLast ++ [(last.1, stop)])
      else ranges text positions (merged ++ [(start, stop)])
    | none => ranges text positions (merged ++ [(start, stop)])

structure PathMatch where
  score : ℤ
  highlights : List (ℕ × ℕ)
  deriving DecidableEq, Repr

/-- The offset after the last separator. -/
def nameStart (path : List Char) : ℕ :=
  match ((charIndices 0 path).filter fun entry => platform.isSeparator entry.2).getLast? with
  | some entry => entry.1 + 1
  | none => 0

def matchPath (path : List Char) (pattern : Pattern) : Option PathMatch :=
  if pattern.folded.isEmpty then some ⟨0, []⟩
  else
    match scoreName platform (charsFrom path (nameStart platform path)) pattern with
    | some (score, positions) =>
      some ⟨score, ranges path (positions.map (· + nameStart platform path)) []⟩
    | none =>
      (scorePath platform path pattern).map fun scored => ⟨scored.1, ranges path scored.2 []⟩

end

end Paneflow.PathPicker
