import Paneflow.Lines
import Paneflow.Text
import Paneflow.Utf8

/-!
# Tokens in texts

`extract_tokens` of cli/up_cmd.rs, and `substitute_vars` and `last_lines` of cli/flow_cmd.rs: a text refers to a
variable as `$\x7bname\x7d`, and is cut where it gets longer than a surface accepts.
-/

namespace Paneflow.Flow

open Paneflow.Lines Paneflow.Text Paneflow.Utf8

/-- The tokens of a text, read character by character: `none` outside of a token, otherwise its characters so far. -/
def scanTokens : Option (List Char) → List Char → Except (List Char) (List (List Char))
  | none, [] => .ok []
  | some _, [] => .error "unclosed `$\x7b`".toList
  | none, '$' :: '{' :: text => scanTokens (some []) text
  | none, _ :: text => scanTokens none text
  | some token, c :: text =>
    if c = '}' then (scanTokens none text).map (token.reverse :: ·) else scanTokens (some (c :: token)) text

def extractTokens (value : List Char) : Except (List Char) (List (List Char)) := scanTokens none value

/-- How a text refers to a variable. -/
def reference (token : List Char) : List Char := '$' :: '{' :: token ++ ['}']

abbrev Vars := List (List Char × List Char)

def maxSendLen : ℕ := 64 * 1024

def truncatedMark : List Char := "…[truncated]".toList

/-- The longest front of a text that takes at most `limit` bytes. -/
def floorBoundary : (limit : ℕ) → List Char → List Char
  | _, [] => []
  | limit, c :: text => if c.utf8Size ≤ limit then c :: floorBoundary (limit - c.utf8Size) text else []

/-- The values in the place of the tokens; the error is the token that has none. -/
def substituteTokens (vars : Vars) : List (List Char) → List Char → Except (List Char) (List Char)
  | [], out => .ok out
  | token :: tokens, out =>
    match vars.lookup token with
    | none => .error token
    | some value => substituteTokens vars tokens (replace (reference token) value out)

/-- A text that fits what a surface accepts, with a mark where it was cut. -/
def clipped (out : List Char) : List Char :=
  if size out > maxSendLen then floorBoundary (maxSendLen - size truncatedMark) out ++ truncatedMark else out

def substituteVars (text : List Char) (vars : Vars) : Except (List Char) (List Char) := do
  let tokens ← extractTokens text
  let out ← substituteTokens vars tokens text
  return clipped out

/-- `str::lines` -/
def textLines (text : List Char) : List (List Char) :=
  let (lines, rest) := splitLines '\n' text
  lines.map (fun line => if line.getLast? = some '\r' then line.dropLast else line) ++ if rest = [] then [] else [rest]

def joinLines (lines : List (List Char)) : List Char := List.intercalate ['\n'] lines

/-! ### What a substitution needs -/

/-- Every token of the text is a variable that has a value. -/
def Defined (vars : Vars) (text : List Char) : Prop :=
  ∃ tokens, extractTokens text = .ok tokens ∧ ∀ token ∈ tokens, (vars.lookup token).isSome = true

theorem substituteTokens_ok {vars : Vars} {tokens : List (List Char)}
    (h : ∀ token ∈ tokens, (vars.lookup token).isSome = true) (out : List Char) :
    ∃ out', substituteTokens vars tokens out = .ok out' := by
  induction tokens generalizing out with
  | nil => exact ⟨out, rfl⟩
  | cons token tokens ih =>
    obtain ⟨value, hvalue⟩ := Option.isSome_iff_exists.1 (h token (by simp))
    obtain ⟨out', hout'⟩ := ih (fun token ht => h token (by simp [ht])) (replace (reference token) value out)
    exact ⟨out', by rw [substituteTokens, hvalue]; exact hout'⟩

theorem substituteTokens_defined {vars : Vars} {tokens : List (List Char)} {out out' : List Char}
    (h : substituteTokens vars tokens out = .ok out') : ∀ token ∈ tokens, (vars.lookup token).isSome = true := by
  induction tokens generalizing out with
  | nil => exact nofun
  | cons token tokens ih =>
    unfold substituteTokens at h
    rcases hvalue : vars.lookup token with _ | value <;> rw [hvalue] at h
    · exact nomatch h
    · intro x hx
      rcases List.mem_cons.1 hx with rfl | hx
      · simp [hvalue]
      · exact ih h x hx

/-- A text is substituted exactly when all of its tokens have values. -/
theorem substituteVars_ok_iff {vars : Vars} {text : List Char} :
    (∃ out, substituteVars text vars = .ok out) ↔ Defined vars text := by
  constructor
  · rintro ⟨out, h⟩
    rcases htokens : extractTokens text with e | tokens
    · simp only [substituteVars, htokens] at h
      exact nomatch h
    · rcases hout : substituteTokens vars tokens text with token | out1
      · simp only [substituteVars, htokens] at h
        change (substituteTokens vars tokens text >>= _) = _ at h
        rw [hout] at h
        exact nomatch h
      · exact ⟨tokens, htokens, substituteTokens_defined hout⟩
  · rintro ⟨tokens, htokens, hdefined⟩
    obtain ⟨out, hout⟩ := substituteTokens_ok hdefined text
    refine ⟨clipped out, ?_⟩
    simp only [substituteVars, htokens]
    change (substituteTokens vars tokens text >>= _) = _
    rw [hout]
    rfl

end Paneflow.Flow
