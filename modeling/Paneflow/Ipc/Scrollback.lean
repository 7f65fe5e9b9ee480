import Paneflow.JsonText
import Paneflow.Numerals
import Paneflow.Rows
import Paneflow.Text
import Mathlib.Data.List.Infix

/-!
# Scrollback in answers

scrollback.rs: a window of a text by lines, the lines of a text that a pattern is found in, and the budgets that cut
both down to `maxIpcTextBytes`. `escapedLen_truncateIpcText` says that a text is cut just below its budget and no
further, `escapedLen_neutralizeUntrusted` that fencing makes a text no shorter.
-/

namespace Paneflow.Ipc.Scrollback

open Paneflow.JsonText Paneflow.Numerals Paneflow.Rows Paneflow.Text Paneflow.Utf8

def maxIpcTextBytes : ℕ := 240 * 1024

def truncationMarker : List Char := "\n[paneflow: output truncated to fit IPC frame]\n".toList

/-- The window of `lines` lines that ends `offset` lines above the end: its text, its number of lines, the number of all
lines, and whether it starts at the top. -/
def paginateScrollback (full : List Char) (lines offset : ℕ) : List Char × ℕ × ℕ × Bool :=
  if full = [] then ([], 0, 0, true)
  else
    let all := full.splitOn '\n'
    let total := all.length
    let stop := total - offset
    if stop = 0 then ([], 0, total, true)
    else
      let start := stop - lines
      let window := seg all start stop
      (join '\n' window, window.length, total, start = 0)

def matchEnvelopeBytes : ℕ := 31

def jsonEscapedCharLen (c : Char) : ℕ :=
  if c = '"' ∨ c = '\\' ∨ c = '\n' ∨ c = '\r' ∨ c = '\t' ∨ c = '\x08' ∨ c = '\x0c' then 2
  else if c.toNat < 0x20 then 6
  else c.utf8Size

def jsonEscapedLen (text : List Char) : ℕ := (text.map jsonEscapedCharLen).sum

/-- The characters up to the boundary: those before the first that leaves the budget. -/
def keptFrom (budget : ℕ) : (used : ℕ) → List Char → List Char
  | _, [] => []
  | used, c :: text =>
    let used := used + jsonEscapedCharLen c
    if used > budget then [] else c :: keptFrom budget used text

def truncateIpcText (text : List Char) : List Char × Bool :=
  if jsonEscapedLen text ≤ maxIpcTextBytes then (text, false)
  else (keptFrom (maxIpcTextBytes - jsonEscapedLen truncationMarker) 0 text ++ truncationMarker, true)

/-- The loop of `fit_matches_to_ipc_frame`. -/
def fitMatchesFrom : (used : ℕ) → List (ℕ × List Char) → List (ℕ × List Char) × Bool
  | _, [] => ([], false)
  | used, (line, text) :: matched =>
    let used := used + (matchEnvelopeBytes + jsonEscapedLen text)
    if used > maxIpcTextBytes then ([], true)
    else
      let (kept, clipped) := fitMatchesFrom used matched
      ((line, text) :: kept, clipped)

def fitMatchesToIpcFrame (matched : List (ℕ × List Char)) : List (ℕ × List Char) × Bool := fitMatchesFrom 0 matched

def closingTag : List Char := "</untrusted_terminal_output".toList

def neutralTag : List Char := '<' :: '\u200b' :: "/untrusted_terminal_output".toList

def neutralizeUntrusted (body : List Char) : List Char := replace closingTag neutralTag body

/-- `wrap_untrusted`, with the number that the fence is made of. -/
def wrapUntrusted (fence : UInt64) (headerAttrs body : List Char) : List Char :=
  let id := padded 16 16 fence.toNat
  "<untrusted_terminal_output ".toList ++ headerAttrs ++ " id=\"".toList ++ id ++ "\">\n".toList ++
    neutralizeUntrusted body ++ "\n</untrusted_terminal_output id=\"".toList ++ id ++ "\">".toList

/-- The loop of `search_text`, from the line with the index; `matches` are found so far. -/
def searchLines (lower : List Char → List Char) (needle : List Char) (maxMatches : ℕ) :
    (index found : ℕ) → List (List Char) → List (ℕ × List Char) × Bool
  | _, _, [] => ([], false)
  | index, found, line :: lines =>
    if ¬ needle <:+: lower line then searchLines lower needle maxMatches (index + 1) found lines
    else if found = maxMatches then ([], true)
    else
      let (matched, truncated) := searchLines lower needle maxMatches (index + 1) (found + 1) lines
      ((min index (2 ^ 31 - 1), line) :: matched, truncated)

def searchText (lower : List Char → List Char) (full pattern : List Char) (maxMatches : ℕ) :
    List (ℕ × List Char) × Bool :=
  if pattern = [] ∨ maxMatches = 0 then ([], false)
  else searchLines lower (lower pattern) maxMatches 0 0 (full.splitOn '\n')

/-! ### The sizes -/

theorem size_escape (c : Char) : size (escape c) = jsonEscapedCharLen c := by
  unfold escape jsonEscapedCharLen
  by_cases hshort : c = '"' ∨ c = '\\' ∨ c = '\n' ∨ c = '\r' ∨ c = '\t' ∨ c = '\x08' ∨ c = '\x0c'
  · rw [if_pos hshort]
    rcases hshort with rfl | rfl | rfl | rfl | rfl | rfl | rfl <;> rfl
  · rw [if_neg hshort]
    simp only [not_or] at hshort
    obtain ⟨h1, h2, h3, h4, h5, h6, h7⟩ := hshort
    rw [if_neg h1, if_neg h2, if_neg h3, if_neg h4, if_neg h5, if_neg h6, if_neg h7]
    split_ifs with hcontrol
    · have hsize : ∀ d, d < 16 → (Nat.digitChar d).utf8Size = 1 := by decide
      simp only [size_cons, size_nil, hsize _ (show c.toNat / 16 < 16 by omega),
        hsize _ (show c.toNat % 16 < 16 by omega)]
      rfl
    · rw [size_cons, size_nil, Nat.add_zero]

/-- `json_escaped_len` counts what `serde_json` writes. -/
theorem jsonEscapedLen_eq (text : List Char) : jsonEscapedLen text = escapedLen text := by
  induction text with
  | nil => rfl
  | cons c text ih =>
    rw [escapedLen_cons, size_escape, ← ih]
    rfl

theorem jsonEscapedCharLen_le (c : Char) : jsonEscapedCharLen c ≤ 6 := by
  unfold jsonEscapedCharLen
  have := c.utf8Size_le_four
  split_ifs <;> omega

/-- A text that leaves the budget is kept until just below it. -/
theorem escapedLen_keptFrom {budget : ℕ} : ∀ {used : ℕ} {text : List Char}, budget < used + escapedLen text →
    used ≤ budget → budget < used + escapedLen (keptFrom budget used text) + 6
  | used, [], h, hused => by
    rw [escapedLen_nil] at h
    omega
  | used, c :: text, h, hused => by
    have hc := jsonEscapedCharLen_le c
    rw [escapedLen_cons, size_escape] at h
    unfold keptFrom
    dsimp only
    split_ifs with hover
    · rw [escapedLen_nil]
      omega
    · have := @escapedLen_keptFrom budget (used + jsonEscapedCharLen c) text (by omega) (by omega)
      rw [escapedLen_cons, size_escape]
      omega

/-- **A text is cut only if it is over its budget, and then just below it.** -/
theorem escapedLen_truncateIpcText (text : List Char) :
    escapedLen text ≤ maxIpcTextBytes ∧ truncateIpcText text = (text, false) ∨
      maxIpcTextBytes < escapedLen text ∧ (truncateIpcText text).2 = true ∧
        maxIpcTextBytes < escapedLen (truncateIpcText text).1 + 6 := by
  unfold truncateIpcText
  rw [jsonEscapedLen_eq, jsonEscapedLen_eq]
  by_cases h : escapedLen text ≤ maxIpcTextBytes
  · exact .inl ⟨h, if_pos h⟩
  · rw [if_neg h]
    have hmarker : escapedLen truncationMarker ≤ maxIpcTextBytes := by decide
    have hkept := @escapedLen_keptFrom (maxIpcTextBytes - escapedLen truncationMarker) 0 text (by omega)
      (Nat.zero_le _)
    refine .inr ⟨by omega, rfl, ?_⟩
    rw [escapedLen_append]
    omega

theorem escapedLen_replaceFrom {pattern value : List Char} (hpattern : pattern ≠ [])
    (hvalue : escapedLen pattern ≤ escapedLen value) : ∀ (skip : ℕ) (text : List Char),
      escapedLen text ≤ escapedLen (text.take skip) + escapedLen (replaceFrom pattern value skip text)
  | skip, [] => by simp
  | skip + 1, c :: text => by
    have := escapedLen_replaceFrom hpattern hvalue skip text
    rw [replaceFrom, List.take_succ_cons, escapedLen_cons, escapedLen_cons]
    omega
  | 0, c :: text => by
    rw [replaceFrom, List.take_zero, escapedLen_nil, Nat.zero_add]
    split_ifs with hmatch
    · have hrest := escapedLen_replaceFrom hpattern hvalue (pattern.length - 1) text
      obtain ⟨rest, heq⟩ := List.isPrefixOf_iff_prefix.1 hmatch
      have htaken : escapedLen (c :: text.take (pattern.length - 1)) = escapedLen pattern := by
        cases pattern with
        | nil => exact absurd rfl hpattern
        | cons p pattern =>
          obtain ⟨rfl, rfl⟩ := List.cons.inj heq
          simp
      rw [escapedLen_cons] at htaken
      rw [escapedLen_append, escapedLen_cons]
      omega
    · have := escapedLen_replaceFrom hpattern hvalue 0 text
      rw [List.take_zero, escapedLen_nil, Nat.zero_add] at this
      rw [escapedLen_cons, escapedLen_cons]
      omega

/-- A fenced text is not shorter. -/
theorem escapedLen_neutralizeUntrusted (body : List Char) :
    escapedLen body ≤ escapedLen (neutralizeUntrusted body) := by
  have := @escapedLen_replaceFrom closingTag neutralTag (by decide) (by decide) 0 body
  rwa [List.take_zero, escapedLen_nil, Nat.zero_add] at this

/-- What matched lines take of the budget. -/
def budgetLen (matched : List (ℕ × List Char)) : ℕ :=
  (matched.map fun found => matchEnvelopeBytes + escapedLen found.2).sum

theorem budgetLen_cons (line : ℕ) (text : List Char) (matched : List (ℕ × List Char)) :
    budgetLen ((line, text) :: matched) = matchEnvelopeBytes + escapedLen text + budgetLen matched := rfl

theorem budgetLen_take_le (matched : List (ℕ × List Char)) {n m : ℕ} (h : n ≤ m) :
    budgetLen (matched.take n) ≤ budgetLen (matched.take m) := by
  obtain ⟨rest, hrest⟩ := List.take_prefix_take_left h (l := matched)
  rw [← hrest, budgetLen, budgetLen, List.map_append, List.sum_append]
  omega

/-- **The kept matches are the most that stay in the budget.** -/
theorem fitMatchesFrom_spec : ∀ {used : ℕ} (matched : List (ℕ × List Char)), used ≤ maxIpcTextBytes →
    ∃ n ≤ matched.length, fitMatchesFrom used matched = (matched.take n, decide (n < matched.length)) ∧
      used + budgetLen (matched.take n) ≤ maxIpcTextBytes ∧
        (n < matched.length → maxIpcTextBytes < used + budgetLen (matched.take (n + 1)))
  | used, [], hused => ⟨0, Nat.le_refl _, rfl, hused, fun h => absurd h (Nat.lt_irrefl _)⟩
  | used, (line, text) :: matched, hused => by
    unfold fitMatchesFrom
    dsimp only
    rw [jsonEscapedLen_eq]
    by_cases hover : used + (matchEnvelopeBytes + escapedLen text) > maxIpcTextBytes
    · rw [if_pos hover]
      refine ⟨0, Nat.zero_le _, by simp, hused, fun _ => ?_⟩
      simpa [budgetLen] using hover
    · rw [if_neg hover]
      obtain ⟨n, hn, heq, hle, hmax⟩ := fitMatchesFrom_spec matched (Nat.le_of_not_lt hover)
      refine ⟨n + 1, Nat.succ_le_succ hn, ?_, ?_, fun hlt => ?_⟩
      · rw [heq]
        simp
      · rw [List.take_succ_cons, budgetLen_cons]
        omega
      · have := hmax (Nat.lt_of_succ_lt_succ hlt)
        rw [List.take_succ_cons, budgetLen_cons]
        omega

end Paneflow.Ipc.Scrollback
