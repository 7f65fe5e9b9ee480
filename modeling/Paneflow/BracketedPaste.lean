import Mathlib.Data.List.Infix

/-!
# Bracketed paste

A terminal that reads characters: `ESC [ 200 ~` puts it into paste mode and `ESC [ 201 ~` takes it out, with `ESC [` as
two characters or as the one of U+009B. A body that has neither ESC nor U+009B keeps it in paste mode, whatever was read
before the paste (`read_frame`).
-/

namespace Paneflow.BracketedPaste

def esc : Char := '\x1b'

/-- The control sequence introducer as one character. -/
def csi : Char := '\u009b'

def pasteOn : List Char := [esc, '[', '2', '0', '0', '~']

def pasteOff : List Char := [esc, '[', '2', '0', '1', '~']

/-- The mode of the terminal, and what it has read of a sequence that is not complete. -/
structure Reader where
  pasting : Bool
  held : List Char
  deriving DecidableEq, Repr

def Reader.step (reader : Reader) (c : Char) : Reader :=
  if c = esc then { reader with held := [esc] }
  else if c = csi then { reader with held := [esc, '['] }
  else
    let held := reader.held ++ [c]
    if held = pasteOn then ⟨true, []⟩
    else if held = pasteOff then ⟨false, []⟩
    else if held.isPrefixOf pasteOn || held.isPrefixOf pasteOff then { reader with held }
    else { reader with held := [] }

def Reader.read (reader : Reader) (text : List Char) : Reader := text.foldl Reader.step reader

theorem read_append (reader : Reader) (a b : List Char) : reader.read (a ++ b) = (reader.read a).read b :=
  List.foldl_append

theorem read_pasteOn (reader : Reader) : reader.read pasteOn = ⟨true, []⟩ := rfl

theorem read_pasteOff (reader : Reader) : reader.read pasteOff = ⟨false, []⟩ := rfl

/-- The mode is left with the last character of the sequence. -/
theorem pasting_before_pasteOff :
    ∀ front ∈ pasteOff.inits, front ≠ pasteOff → (Reader.read ⟨true, []⟩ front).pasting = true := by decide

theorem step_plain {pasting : Bool} {c : Char} (hesc : c ≠ esc) (hcsi : c ≠ csi) :
    Reader.step ⟨pasting, []⟩ c = ⟨pasting, []⟩ := by
  have hfirst : ∀ rest : List Char, List.isPrefixOf [c] (esc :: rest) = false := fun rest => by
    rw [List.isPrefixOf_cons_cons, beq_false_of_ne hesc, Bool.false_and]
  unfold Reader.step
  rw [if_neg hesc, if_neg hcsi]
  dsimp only
  rw [List.nil_append, if_neg (by simp [pasteOn]), if_neg (by simp [pasteOff]), pasteOn, pasteOff, hfirst, hfirst,
    Bool.or_self, if_neg Bool.false_ne_true]

/-- Characters that start no sequence are read as they are. -/
theorem read_plain {pasting : Bool} {body : List Char} (h : ∀ c ∈ body, c ≠ esc ∧ c ≠ csi) :
    Reader.read ⟨pasting, []⟩ body = ⟨pasting, []⟩ := by
  induction body with
  | nil => rfl
  | cons c body ih =>
    obtain ⟨hesc, hcsi⟩ := h c List.mem_cons_self
    change Reader.read (Reader.step ⟨pasting, []⟩ c) body = _
    rw [step_plain hesc hcsi]
    exact ih fun d hd => h d (List.mem_cons_of_mem _ hd)

/-- **The terminal leaves paste mode at the end of the frame and not before**, from whatever it has read so far. -/
theorem read_frame {body : List Char} (h : ∀ c ∈ body, c ≠ esc ∧ c ≠ csi) (reader : Reader) :
    reader.read (pasteOn ++ body ++ pasteOff) = ⟨false, []⟩ ∧
      ∀ front rest, pasteOn ++ body ++ pasteOff = front ++ rest → pasteOn <+: front → rest ≠ [] →
        (reader.read front).pasting = true := by
  constructor
  · rw [read_append, read_pasteOff]
  · rintro front rest hsplit ⟨inner, rfl⟩ hrest
    rw [read_append, read_pasteOn]
    rw [List.append_assoc, List.append_assoc, List.append_cancel_left_eq] at hsplit
    rcases List.append_eq_append_iff.mp hsplit with ⟨more, rfl, hmore⟩ | ⟨more, rfl, -⟩
    · -- inside the sequence at the end
      rw [read_append, read_plain h]
      refine pasting_before_pasteOff more ((List.mem_inits _ _).mpr ⟨rest, hmore.symm⟩) ?_
      rintro rfl
      exact hrest (List.append_right_eq_self.mp hmore.symm)
    · -- inside the body
      rw [read_plain fun c hc => h c (List.mem_append_left _ hc)]

end Paneflow.BracketedPaste
