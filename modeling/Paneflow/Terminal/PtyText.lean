import Paneflow.ShellWords
import Paneflow.Text
import Paneflow.Utf8Lossy

/-!
# Paths that are dropped on a terminal

`paths_to_pty_text` of the terminal's input.rs, with the ways to quote a path of the shells. A path is the bytes
that the system gives for it; what is typed is a text.

`paths_spelled`: in the POSIX shell, the words of what is typed are the texts of the paths that can be typed, and
no character of them means anything else to the shell.
-/

namespace Paneflow.Terminal

open Paneflow.ShellWords Paneflow.Text Paneflow.Utf8

inductive ShellQuoting where
  | posix
  | wsl
  | powerShell
  | cmd
  deriving DecidableEq, Repr

abbrev PathBuf := List UInt8

def posixUnquotedPathChar (c : Char) : Bool :=
  c.isAlphanum || c = '/' || c = '.' || c = '_' || c = '-' || c = ':'

def windowsUnquotedPathChar (c : Char) : Bool :=
  c.isAlphanum || c = '/' || c = '\\' || c = '.' || c = '_' || c = '-' || c = ':'

def quotePosixPath (path : List Char) : List Char :=
  if path.all posixUnquotedPathChar then path else '\'' :: replace ['\''] "'\\''".toList path ++ ['\'']

def quotePowershellPath (path : List Char) : List Char :=
  if path.all windowsUnquotedPathChar then path else '\'' :: replace ['\''] "''".toList path ++ ['\'']

def quoteCmdPath (path : List Char) : List Char :=
  if path.all windowsUnquotedPathChar then path
  else
    let escaped := replace ['"'] "\"\"".toList (replace ['!'] "^!".toList
      (replace ['%'] "^%".toList (replace ['^'] "^^".toList path)))
    '"' :: escaped ++ ['"']

def quotePathForShell (path : List Char) : ShellQuoting → List Char
  | .posix | .wsl => quotePosixPath path
  | .powerShell => quotePowershellPath path
  | .cmd => quoteCmdPath path

def pathsToPtyText (paths : List PathBuf) (shellQuoting : ShellQuoting) : Option (List Char) :=
  let quoted := paths.filterMap fun p =>
    let s := fromUtf8Lossy p
    if s.contains '\n' || s.contains '\r' || s.contains '\x00' then none
    else some (quotePathForShell s shellQuoting)
  if quoted.isEmpty then none else some ([' '].intercalate quoted)

/-! ### A path as a word of the shell -/

theorem isSpecial_of_unquoted {c : Char} (h : posixUnquotedPathChar c = true) : isSpecial c = false := by
  have hspecials : ∀ c ∈ specials, posixUnquotedPathChar c = false := forall_mem_of_all (by decide)
  rw [isSpecial, decide_eq_false_iff_not]
  intro hmem
  rw [hspecials c hmem] at h
  exact absurd h Bool.false_ne_true

/-- The cells of the word that `quote_posix_path` writes. -/
def posixCells (path : List Char) : List ShellWords.Cell :=
  path.map (⟨·, !path.all posixUnquotedPathChar⟩)

theorem quotePosixPath_spells {path : List Char} (h : path ≠ []) :
    Spells (quotePosixPath path) path (posixCells path) := by
  unfold quotePosixPath posixCells
  split_ifs with hbare
  · rw [hbare]
    exact spells_bare h fun c hc => isSpecial_of_unquoted (List.all_eq_true.mp hbare c hc)
  · rw [Bool.not_eq_true] at hbare
    have hspells := spells_singleQuoted path
    rw [replace_singleton, hbare]
    exact hspells

/-! ### The paths of a drop -/

/-- A path that is no line break and no end of a text in the eyes of a terminal. -/
def typable (p : PathBuf) : Bool := !p.contains 0x0a && !p.contains 0x0d && !p.contains 0x00

theorem typable_eq (p : PathBuf) :
    typable p = !((fromUtf8Lossy p).contains '\n' || (fromUtf8Lossy p).contains '\r' ||
      (fromUtf8Lossy p).contains '\x00') := by
  have hmem : ∀ {c : Char}, c.toNat < 128 → (fromUtf8Lossy p).contains c = p.contains (UInt8.ofNat c.toNat) :=
    fun hc => by
      rw [List.contains_eq_mem, List.contains_eq_mem, decide_eq_decide]
      exact mem_fromUtf8Lossy hc p
  rw [hmem (by decide), hmem (by decide), hmem (by decide), Bool.not_or, Bool.not_or]
  rfl

theorem pathsToPtyText_eq {paths : List PathBuf} {shellQuoting : ShellQuoting} :
    pathsToPtyText paths shellQuoting =
      if (paths.filter typable).isEmpty then none
      else some ([' '].intercalate (((paths.filter typable).map fromUtf8Lossy).map
        (quotePathForShell · shellQuoting))) := by
  have hquoted : (paths.filterMap fun p =>
      if (fromUtf8Lossy p).contains '\n' || (fromUtf8Lossy p).contains '\r' ||
          (fromUtf8Lossy p).contains '\x00' then none
      else some (quotePathForShell (fromUtf8Lossy p) shellQuoting)) =
        (paths.filter typable).map fun p => quotePathForShell (fromUtf8Lossy p) shellQuoting := by
    induction paths with
    | nil => rfl
    | cons p paths ih =>
      have htypable := typable_eq p
      rw [List.filterMap_cons, List.filter_cons, ih, htypable]
      cases (fromUtf8Lossy p).contains '\n' || (fromUtf8Lossy p).contains '\r' ||
        (fromUtf8Lossy p).contains '\x00' <;> rfl
  unfold pathsToPtyText
  dsimp only
  rw [hquoted, List.isEmpty_map, List.map_map]
  rfl

/-- The words that the POSIX shell makes of what is typed for a drop are the texts of the paths that can be typed,
in their order, and no character of them means anything but itself; a path that is UTF-8 is its text. Nothing is
typed if and only if none of the paths can be typed. -/
theorem paths_spelled {paths : List PathBuf} (hnonempty : ∀ p ∈ paths, p ≠ []) {shellQuoting : ShellQuoting}
    (hquoting : shellQuoting = .posix ∨ shellQuoting = .wsl) :
    (pathsToPtyText paths shellQuoting = none ↔ paths.filter typable = []) ∧
      (∀ text, pathsToPtyText paths shellQuoting = some text →
        plainWords text = some ((paths.filter typable).map fromUtf8Lossy)) ∧
      ∀ p ∈ paths.filter typable, ∀ s, fromUtf8 p = some s → bytes (fromUtf8Lossy p) = p := by
  have hposix : (quotePathForShell · shellQuoting) = quotePosixPath := by
    rcases hquoting with rfl | rfl <;> rfl
  rw [pathsToPtyText_eq, hposix]
  refine ⟨?_, fun text htext => ?_, fun p _ s hs => ?_⟩
  · rw [← List.isEmpty_iff]
    split_ifs with hempty
    · exact iff_of_true rfl hempty
    · exact iff_of_false nofun hempty
  · split_ifs at htext
    obtain rfl := Option.some.inj htext
    refine plainWords_intercalate quotePosixPath posixCells fun word hword =>
      quotePosixPath_spells ?_
    obtain ⟨p, hp, rfl⟩ := List.mem_map.mp hword
    exact fromUtf8Lossy_ne_nil (hnonempty p (List.mem_of_mem_filter hp))
  · obtain rfl := bytes_of_fromUtf8 hs
    rw [fromUtf8Lossy_bytes]

/-- A quote inside of a name, and a name that cannot be typed. -/
theorem paths_spelled_two :
    pathsToPtyText [bytes "/a".toList, bytes "it's".toList, bytes "x\ny".toList] .wsl =
        some "/a 'it'\\''s'".toList ∧
      plainWords "/a 'it'\\''s'".toList = some ["/a".toList, "it's".toList] := by
  have htext : pathsToPtyText [bytes "/a".toList, bytes "it's".toList, bytes "x\ny".toList] .wsl =
      some "/a 'it'\\''s'".toList := by decide +kernel
  have hwords := (paths_spelled (by decide +kernel) (.inr rfl)).2.1 _ htext
  exact ⟨htext, hwords.trans (by decide +kernel)⟩

/-- A name that is not UTF-8 comes out as another one. -/
theorem not_paths_spelled :
    (pathsToPtyText [[0xff]] .posix).bind plainWords = some [['\uFFFD']] ∧
      [['\uFFFD']].map bytes ≠ [[0xff]].filter typable := by decide +kernel

end Paneflow.Terminal
