import Mathlib.Data.List.Basic
import Mathlib.Data.Nat.Notation
import Mathlib.Tactic.SplitIfs

/-!
# The words of a shell

How the POSIX shell cuts a text into tokens, with its three ways to quote, and what its words are when the quotes
are removed. `plainWords` gives the words of a text in which no character means more to the shell than itself.

`Opens text cells`: whatever follows, the text begins a word of these cells. Words that are written so, with a
blank between them, are read as they are (`plainWords_intercalate`).
-/

namespace Paneflow.ShellWords

/-- A character of a word, and whether it was quoted. -/
structure Cell where
  char : Char
  quoted : Bool
  deriving DecidableEq, Repr

inductive Token where
  | word (cells : List Cell)
  | operator (c : Char)
  | newline
  deriving DecidableEq, Repr

def isBlank (c : Char) : Bool := c = ' ' || c = '\t'

def operators : List Char := "|&;<>()".toList

def isOperator (c : Char) : Bool := c ∈ operators

/-- The characters that have to be quoted to represent themselves: those that quote, those that end a word, and
those that begin an expansion, a pattern, a comment, an assignment or a word of the grammar. -/
def specials : List Char := " \t\n|&;<>()'\"\\$`*?[]#~=%!^\x7b\x7d".toList

def isSpecial (c : Char) : Bool := c ∈ specials

def escapables : List Char := "$`\"\\".toList

/-- Behind a backslash in double quotes. -/
def isEscapable (c : Char) : Bool := c ∈ escapables

/-- Where the shell is in a text, with the word that it is reading. -/
inductive Mode where
  | plain (word : Option (List Cell))
  | escape (word : Option (List Cell))
  | single (cells : List Cell)
  | double (cells : List Cell)
  | doubleEscape (cells : List Cell)
  | comment

/-- What a character of a word that is not quoted leads to. -/
def opened (cells : List Cell) (word : Option (List Cell)) (c : Char) : Mode :=
  if c = '\'' then .single cells
  else if c = '"' then .double cells
  else if c = '\\' then .escape word
  else .plain (some (cells ++ [⟨c, false⟩]))

def closed (word : Option (List Cell)) : List Token := (word.map .word).toList

/-- Token recognition; quotes that are left open are an error. -/
def lex : Mode → List Char → Option (List Token)
  | .plain word, [] => some (closed word)
  | .plain word, c :: text =>
    if isBlank c then (lex (.plain none) text).map (closed word ++ ·)
    else if c = '\n' then (lex (.plain none) text).map (closed word ++ .newline :: ·)
    else if isOperator c then (lex (.plain none) text).map (closed word ++ .operator c :: ·)
    else if word = none ∧ c = '#' then lex .comment text
    else lex (opened (word.getD []) word c) text
  | .escape _, [] => none
  | .escape word, c :: text =>
    if c = '\n' then lex (.plain word) text
    else lex (.plain (some (word.getD [] ++ [⟨c, true⟩]))) text
  | .single _, [] => none
  | .single cells, c :: text =>
    if c = '\'' then lex (.plain (some cells)) text else lex (.single (cells ++ [⟨c, true⟩])) text
  | .double _, [] => none
  | .double cells, c :: text =>
    if c = '"' then lex (.plain (some cells)) text
    else if c = '\\' then lex (.doubleEscape cells) text
    -- an expansion begins here as well
    else if isEscapable c then lex (.double (cells ++ [⟨c, false⟩])) text
    else lex (.double (cells ++ [⟨c, true⟩])) text
  | .doubleEscape _, [] => none
  | .doubleEscape cells, c :: text =>
    if c = '\n' then lex (.double cells) text
    else if isEscapable c then lex (.double (cells ++ [⟨c, true⟩])) text
    else lex (.double (cells ++ [⟨'\\', true⟩, ⟨c, true⟩])) text
  | .comment, [] => some []
  | .comment, c :: text =>
    if c = '\n' then (lex (.plain none) text).map (.newline :: ·) else lex .comment text

/-- A word after the quotes are removed, if no character of it stands for something else. -/
def Token.plainWord : Token → Option (List Char)
  | .word cells =>
    if cells.all fun cell => cell.quoted || !isSpecial cell.char then some (cells.map (·.char)) else none
  | _ => none

def plainWords (text : List Char) : Option (List (List Char)) :=
  (lex (.plain none) text).bind fun tokens => tokens.mapM Token.plainWord

/-! ### How a word is written -/

/-- The text begins a word of the cells, whatever follows. -/
def Opens (text : List Char) (cells : List Cell) : Prop :=
  ∀ rest, lex (.plain none) (text ++ rest) = lex (.plain (some cells)) rest

/-- A character that stands for itself where it is. -/
def Plain (cells : List Cell) : Prop := ∀ cell ∈ cells, (cell.quoted || !isSpecial cell.char) = true

theorem lex_bare {word : Option (List Cell)} {c : Char} (h : isSpecial c = false) (text : List Char) :
    lex (.plain word) (c :: text) = lex (.plain (some (word.getD [] ++ [⟨c, false⟩]))) text := by
  have hne : ∀ other ∈ specials, c ≠ other := fun other hother heq => by
    rw [heq, isSpecial, decide_eq_true hother] at h
    exact nomatch h
  have hblank : isBlank c = false := by
    simp [isBlank, hne ' ' (by decide), hne '\t' (by decide)]
  have hsubset : operators ⊆ specials := by decide
  have hoperator : isOperator c = false := decide_eq_false fun hmem => hne c (hsubset hmem) rfl
  simp only [lex, opened, hblank, hoperator, hne '\n' (by decide), hne '#' (by decide), hne '\'' (by decide),
    hne '"' (by decide), hne '\\' (by decide), Bool.false_eq_true, if_false, and_false]

/-- Characters that are not special are a word as they are. -/
theorem lex_bare_append {word : List Char} (h : ∀ c ∈ word, isSpecial c = false) (cells : List Cell)
    (rest : List Char) :
    lex (.plain (some cells)) (word ++ rest) = lex (.plain (some (cells ++ word.map (⟨·, false⟩)))) rest := by
  induction word generalizing cells with
  | nil => simp
  | cons c word ih =>
    obtain ⟨hc, hword⟩ := List.forall_mem_cons.mp h
    rw [List.cons_append, lex_bare hc, ih hword, Option.getD_some, List.map_cons, List.append_assoc,
      List.singleton_append]

theorem opens_bare {word : List Char} (hne : word ≠ []) (h : ∀ c ∈ word, isSpecial c = false) :
    Opens word (word.map (⟨·, false⟩)) := by
  intro rest
  cases word with
  | nil => exact absurd rfl hne
  | cons c word =>
    obtain ⟨hc, hword⟩ := List.forall_mem_cons.mp h
    rw [List.cons_append, lex_bare hc, lex_bare_append hword]
    rfl

/-- A word in single quotes, where `'` is written as `'\''`. -/
def singleQuoted (word : List Char) : List Char :=
  '\'' :: (word.flatMap fun c => if c = '\'' then ['\'', '\\', '\'', '\''] else [c]) ++ ['\'']

theorem lex_single (word : List Char) (cells : List Cell) (rest : List Char) :
    lex (.single cells)
        ((word.flatMap fun c => if c = '\'' then ['\'', '\\', '\'', '\''] else [c]) ++ '\'' :: rest) =
      lex (.plain (some (cells ++ word.map (⟨·, true⟩)))) rest := by
  induction word generalizing cells with
  | nil => simp [lex]
  | cons c word ih =>
    rw [List.flatMap_cons, List.append_assoc, List.map_cons]
    by_cases hc : c = '\''
    · subst hc
      have hquote : ∀ text, lex (.single cells) ('\'' :: '\\' :: '\'' :: '\'' :: text) =
          lex (.single (cells ++ [⟨'\'', true⟩])) text := fun _ => rfl
      rw [if_pos rfl, List.cons_append, List.cons_append, List.cons_append, List.cons_append, hquote]
      rw [List.nil_append, ih, List.append_assoc]
      rfl
    · rw [if_neg hc, List.singleton_append]
      rw [lex, if_neg hc, ih, List.append_assoc]
      rfl

theorem opens_singleQuoted (word : List Char) : Opens (singleQuoted word) (word.map (⟨·, true⟩)) := by
  intro rest
  have hopen : ∀ text, lex (.plain none) ('\'' :: text) = lex (.single []) text := fun _ => rfl
  unfold singleQuoted
  rw [List.append_assoc, List.cons_append, hopen, List.singleton_append, lex_single, List.nil_append]

/-! ### Words with blanks between them -/

theorem Opens.lex {text : List Char} {cells : List Cell} (h : Opens text cells) :
    lex (.plain none) text = some [.word cells] := by
  have hend := h []
  rw [List.append_nil] at hend
  rw [hend]
  rfl

theorem Opens.lex_blank {text : List Char} {cells : List Cell} (h : Opens text cells) (rest : List Char) :
    ShellWords.lex (.plain none) (text ++ ' ' :: rest) =
      (ShellWords.lex (.plain none) rest).map (.word cells :: ·) := by
  rw [h]
  rfl

theorem plainWord_of_plain {cells : List Cell} (h : Plain cells) :
    (Token.word cells).plainWord = some (cells.map (·.char)) :=
  if_pos (List.all_eq_true.mpr h)

/-- How a word may be written so that it is read as it is. -/
structure Spells (text word : List Char) (cells : List Cell) : Prop where
  opens : Opens text cells
  plain : Plain cells
  chars : cells.map (·.char) = word

theorem spells_bare {word : List Char} (hne : word ≠ []) (h : ∀ c ∈ word, isSpecial c = false) :
    Spells word word (word.map (⟨·, false⟩)) := by
  refine ⟨opens_bare hne h, fun cell hcell => ?_, ?_⟩
  · obtain ⟨c, hc, rfl⟩ := List.mem_map.mp hcell
    simpa using h c hc
  · rw [List.map_map]
    exact List.map_id _

theorem spells_singleQuoted (word : List Char) :
    Spells (singleQuoted word) word (word.map (⟨·, true⟩)) := by
  refine ⟨opens_singleQuoted word, fun cell hcell => ?_, ?_⟩
  · obtain ⟨c, -, rfl⟩ := List.mem_map.mp hcell
    rfl
  · rw [List.map_map]
    exact List.map_id _

theorem lex_intercalate {spelled : List Char → List Char} {cells : List Char → List Cell} :
    ∀ {words : List (List Char)}, (∀ word ∈ words, Opens (spelled word) (cells word)) →
      lex (.plain none) ([' '].intercalate (words.map spelled)) =
        some (words.map fun word => .word (cells word))
  | [], _ => rfl
  | [word], h => by
    rw [List.map_cons, List.map_nil, List.intercalate_singleton, (h word List.mem_cons_self).lex]
    rfl
  | word :: next :: words, h => by
    obtain ⟨hword, hwords⟩ := List.forall_mem_cons.mp h
    have ih := lex_intercalate hwords
    rw [List.map_cons] at ih
    rw [List.map_cons, List.map_cons, List.intercalate_cons_cons, List.append_assoc, List.singleton_append,
      hword.lex_blank, ih]
    rfl

/-- Words that are written one by one, with blanks between them, are read as they are. -/
theorem plainWords_intercalate (spelled : List Char → List Char) (cells : List Char → List Cell)
    {words : List (List Char)} (h : ∀ word ∈ words, Spells (spelled word) word (cells word)) :
    plainWords ([' '].intercalate (words.map spelled)) = some words := by
  unfold plainWords
  rw [lex_intercalate fun word hword => (h word hword).opens, Option.bind_some]
  induction words with
  | nil => rfl
  | cons word words ih =>
    obtain ⟨hword, hwords⟩ := List.forall_mem_cons.mp h
    rw [List.map_cons, List.mapM_cons, plainWord_of_plain hword.plain, hword.chars, ih hwords]
    rfl

example : plainWords "a 'b c'\\''d' \"e\\$f\"".toList = some ["a".toList, "b c'd".toList, "e$f".toList] ∧
    plainWords "a $b".toList = none := by decide +kernel

end Paneflow.ShellWords
