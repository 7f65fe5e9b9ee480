import Paneflow.Delimited
import Paneflow.Terminal.PtyText

/-!
# Dropped paths in the shells of Windows

What PowerShell and cmd.exe read of the paths that `quote_path_for_shell` quotes for them, as one argument.

PowerShell has five single quotes, and each of them can end a string that another has opened; the quoting doubles one
of them (`readPowerShell_quoted`). cmd.exe takes a caret between double quotes as it stands, and the quoting doubles it
as well (`readCmd_quoted`).
-/

namespace Paneflow.Terminal

open Paneflow.Delimited Paneflow.Text

def bareSigns : List Char := "/\\._-:".toList

/-- The characters of which a word is itself in both shells. -/
def isBare (c : Char) : Bool := c.isAlphanum || c ∈ bareSigns

theorem isBare_of_unquoted {c : Char} (h : windowsUnquotedPathChar c = true) : isBare c = true := by
  unfold windowsUnquotedPathChar at h
  unfold isBare
  simp only [Bool.or_eq_true, decide_eq_true_eq] at h ⊢
  rcases h with (((((h | rfl) | rfl) | rfl) | rfl) | rfl) | rfl
  · exact .inl h
  all_goals exact .inr (by decide)

/-! ### PowerShell -/

def singleQuotes : List Char := ['\u0027', '\u2018', '\u2019', '\u201A', '\u201B']

def isSingleQuote (c : Char) : Bool := c ∈ singleQuotes

/-- The text as one argument of PowerShell: a string in single quotes, or a bare word. -/
def readPowerShell (doubles : Char → Char → Bool) : List Char → Option (List Char)
  | [] => none
  | c :: text =>
    if isSingleQuote c then
      match content isSingleQuote doubles text with
      | some (inside, []) => some inside
      | _ => none
    else if (c :: text).all isBare then some (c :: text) else none

theorem isSingleQuote_bare {c : Char} (h : isBare c = true) : isSingleQuote c = false := by
  have hquotes : ∀ c ∈ singleQuotes, isBare c = false := forall_mem_of_all (by decide)
  rw [isSingleQuote, decide_eq_false_iff_not]
  intro hmem
  rw [hquotes c hmem] at h
  exact nomatch h

theorem readPowerShell_bare {doubles : Char → Char → Bool} {text : List Char} (hnonempty : text ≠ [])
    (h : ∀ c ∈ text, isBare c = true) : readPowerShell doubles text = some text := by
  cases text with
  | nil => exact absurd rfl hnonempty
  | cons c text =>
    rw [readPowerShell, isSingleQuote_bare (h c List.mem_cons_self), if_neg Bool.false_ne_true,
      if_pos (List.all_eq_true.mpr h)]

theorem quotePowershellPath_quoted {path : List Char} (h : path.all windowsUnquotedPathChar = false) :
    quotePowershellPath path = '\'' :: (double '\'' path ++ ['\'']) := by
  rw [quotePowershellPath, h, if_neg Bool.false_ne_true, replace_singleton]
  rfl

/-- **What PowerShell reads of a quoted path**, whichever pairs of single quotes it takes for a doubled one: the path,
if and only if the path has no single quote but the one of ASCII. -/
theorem readPowerShell_quoted (doubles : Char → Char → Bool)
    (hpairs : ∀ c d, doubles c d = true → isSingleQuote d = true)
    (hsame : ∀ c, isSingleQuote c = true → doubles c c = true) {path : List Char} (hnonempty : path ≠ []) :
    readPowerShell doubles (quotePathForShell path .powerShell) = some path ↔
      ∀ c ∈ path, c ∉ ['\u2018', '\u2019', '\u201A', '\u201B'] := by
  have hother : ∀ c, c ∈ ['\u2018', '\u2019', '\u201A', '\u201B'] ↔ isSingleQuote c = true ∧ c ≠ '\'' := by
    intro c
    rw [isSingleQuote, decide_eq_true_iff, singleQuotes, List.mem_cons (b := '\u0027')]
    constructor
    · exact fun hmem => ⟨.inr hmem, fun heq => absurd (heq ▸ hmem) (by decide)⟩
    · exact fun h => h.1.resolve_left h.2
  change readPowerShell doubles (quotePowershellPath path) = some path ↔ _
  cases hbare : path.all windowsUnquotedPathChar with
  | true =>
    have hall : ∀ c ∈ path, isBare c = true := fun c hc => isBare_of_unquoted (List.all_eq_true.mp hbare c hc)
    rw [quotePowershellPath, if_pos hbare]
    refine iff_of_true (readPowerShell_bare hnonempty hall) fun c hc hmem => ?_
    have hquote := ((hother c).mp hmem).1
    rw [isSingleQuote_bare (hall c hc)] at hquote
    exact nomatch hquote
  | false =>
    have hquote : isSingleQuote '\'' = true := by decide
    have hread : readPowerShell doubles (quotePowershellPath path) = some path ↔
        content isSingleQuote doubles (double '\'' path ++ ['\'']) = some (path, []) := by
      rw [quotePowershellPath_quoted hbare, readPowerShell, if_pos hquote]
      cases content isSingleQuote doubles (double '\'' path ++ ['\'']) with
      | none => exact iff_of_false nofun nofun
      | some read =>
        obtain ⟨inside, after⟩ := read
        cases after with
        | nil => simp
        | cons d rest => exact iff_of_false nofun (by simp)
    rw [hread, content_doubled_iff hpairs hquote (hsame _ hquote)]
    refine forall₂_congr fun c hc => ?_
    rw [hother, not_and, not_ne_iff]

/-- PowerShell takes any two single quotes in a row for a doubled one. -/
def anyTwo (c d : Char) : Bool := isSingleQuote c && isSingleQuote d

theorem readPowerShell_quoted_blank :
    readPowerShell anyTwo (quotePathForShell "it's here".toList .powerShell) = some "it's here".toList :=
  (readPowerShell_quoted anyTwo (fun _ _ h => (Bool.and_eq_true_iff.mp h).2)
    (fun c h => by rw [anyTwo, h]; rfl) (by decide)).mpr (forall_mem_of_all (by decide))

/-- What follows a typographic quote in a name is code. -/
theorem not_readPowerShell_quoted :
    ¬ ∀ path : List Char, path ≠ [] → '\n' ∉ path → '\r' ∉ path → '\x00' ∉ path →
      readPowerShell anyTwo (quotePathForShell path .powerShell) = some path := by
  intro h
  have hread := h "a\u2019;calc".toList (by decide) (by decide) (by decide) (by decide)
  exact absurd hread (by decide)

/-! ### cmd.exe -/

/-- The text as one argument of cmd.exe: characters between double quotes, or a bare word. -/
def readCmd : List Char → Option (List Char)
  | [] => none
  | c :: text =>
    if c = '"' then
      if text.getLast? = some '"' && text.dropLast.all (fun c => c ≠ '"' && c ≠ '%' && c ≠ '!') then some text.dropLast
      else none
    else if (c :: text).all isBare then some (c :: text) else none

theorem replace_of_notMem {c : Char} {value text : List Char} (h : c ∉ text) : replace [c] value text = text := by
  rw [replace_singleton]
  refine (List.flatMap_congr fun d hd => ?_).trans (List.flatMap_singleton' text)
  exact if_neg fun heq : d = c => h (heq ▸ hd)

/-- **What cmd.exe reads of a quoted path**: the path, if and only if it has no caret. -/
theorem readCmd_quoted {path : List Char} (hnonempty : path ≠ [])
    (hclean : ∀ c ∈ path, c ≠ '"' ∧ c ≠ '%' ∧ c ≠ '!') :
    readCmd (quotePathForShell path .cmd) = some path ↔ '^' ∉ path := by
  change readCmd (quoteCmdPath path) = some path ↔ _
  cases hbare : path.all windowsUnquotedPathChar with
  | true =>
    have hall : ∀ c ∈ path, isBare c = true := fun c hc => isBare_of_unquoted (List.all_eq_true.mp hbare c hc)
    rw [quoteCmdPath, if_pos hbare]
    refine iff_of_true ?_ fun hmem => absurd (hall _ hmem) (by decide)
    cases path with
    | nil => exact absurd rfl hnonempty
    | cons c path =>
      rw [readCmd, if_neg (hclean c List.mem_cons_self).1, if_pos (List.all_eq_true.mpr hall)]
  | false =>
    -- of the four replacements only the first one finds something
    have hcarets : ∀ c ∈ double '^' path, c ≠ '"' ∧ c ≠ '%' ∧ c ≠ '!' := by
      intro c hc
      obtain ⟨d, hd, hin⟩ := List.mem_flatMap.mp hc
      split_ifs at hin with hcaret
      · simp only [List.mem_cons, List.not_mem_nil, or_false, or_self] at hin
        rw [hin]
        decide
      · rw [List.mem_singleton.mp hin]
        exact hclean d hd
    have hfirst : replace ['^'] "^^".toList path = double '^' path := replace_singleton _ _ _
    have htext : quoteCmdPath path = '"' :: (double '^' path ++ ['"']) := by
      rw [quoteCmdPath, hbare, if_neg Bool.false_ne_true, hfirst,
        replace_of_notMem fun hmem => (hcarets _ hmem).2.1 rfl,
        replace_of_notMem fun hmem => (hcarets _ hmem).2.2 rfl, replace_of_notMem fun hmem => (hcarets _ hmem).1 rfl]
      rfl
    have hinside : (double '^' path).all (fun c => c ≠ '"' && c ≠ '%' && c ≠ '!') = true := by
      refine List.all_eq_true.mpr fun c hc => ?_
      simpa [and_assoc] using hcarets c hc
    rw [htext, readCmd, if_pos rfl, List.getLast?_concat, List.dropLast_concat, hinside]
    change some (double '^' path) = some path ↔ _
    rw [Option.some.injEq]
    constructor
    · intro heq
      have hlength := length_double '^' path
      rw [heq] at hlength
      exact List.count_eq_zero.mp (by omega)
    · exact fun hnone => (replace_singleton _ _ _).symm.trans (@replace_of_notMem '^' "^^".toList path hnone)

theorem readCmd_quoted_blank : readCmd (quotePathForShell "a b&c".toList .cmd) = some "a b&c".toList :=
  (readCmd_quoted (by decide) (forall_mem_of_all (by decide))).mpr (by decide)

/-- `char::is_control` -/
def isControl (c : Char) : Bool := c.toNat < 32 || (127 ≤ c.toNat && c.toNat < 160)

/-- A name with a caret becomes another one. -/
theorem not_readCmd_quoted :
    ¬ ∀ path : List Char, path ≠ [] → (∀ c ∈ path, isControl c = false) →
      (∀ c ∈ path, c ≠ '"' ∧ c ≠ '%' ∧ c ≠ '!') → readCmd (quotePathForShell path .cmd) = some path := by
  intro h
  have hread := h "a^b".toList (by decide) (forall_mem_of_all (by decide)) (forall_mem_of_all (by decide))
  exact absurd hread (by decide)

end Paneflow.Terminal
