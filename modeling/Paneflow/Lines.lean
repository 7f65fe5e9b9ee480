import Mathlib.Data.List.Basic
import Mathlib.Data.Nat.Init

/-! # Lines of a text

`splitLines sep text` are the complete lines of a text, each ended by `sep`, and what is left after the last
one. Text that comes later only continues what is left (`splitLines_append`). -/

namespace Paneflow.Lines

variable {α : Type*} [DecidableEq α] {sep : α}

def splitLines (sep : α) : List α → List (List α) × List α
  | [] => ([], [])
  | x :: text =>
    if x = sep then ([] :: (splitLines sep text).1, (splitLines sep text).2)
    else
      match splitLines sep text with
      | ([], rest) => ([], x :: rest)
      | (line :: lines, rest) => ((x :: line) :: lines, rest)

@[simp] theorem splitLines_nil : splitLines sep [] = ([], []) := rfl

theorem splitLines_rest {rest : List α} (h : sep ∉ rest) : splitLines sep rest = ([], rest) := by
  induction rest with
  | nil => rfl
  | cons x rest ih =>
    have hx : x ≠ sep := fun hx => h (hx ▸ List.mem_cons_self)
    simp [splitLines, hx, ih (List.not_mem_of_not_mem_cons h)]

theorem splitLines_line {line : List α} (h : sep ∉ line) (text : List α) :
    splitLines sep (line ++ sep :: text) =
      (line :: (splitLines sep text).1, (splitLines sep text).2) := by
  induction line with
  | nil => simp [splitLines]
  | cons x line ih =>
    have hx : x ≠ sep := fun hx => h (hx ▸ List.mem_cons_self)
    simp [splitLines, hx, ih (List.not_mem_of_not_mem_cons h)]

/-- A text has no separator, or begins with a line. -/
theorem eq_line_or_rest (sep : α) (text : List α) :
    sep ∉ text ∨ ∃ line rest, sep ∉ line ∧ text = line ++ sep :: rest := by
  induction text with
  | nil => exact .inl List.not_mem_nil
  | cons x text ih =>
    by_cases hx : x = sep
    · exact .inr ⟨[], text, List.not_mem_nil, by rw [hx, List.nil_append]⟩
    · rcases ih with hnot | ⟨line, rest, hline, rfl⟩
      · exact .inl (by simp [hnot, Ne.symm hx])
      · exact .inr ⟨x :: line, rest, by simp [hline, Ne.symm hx], rfl⟩

/-- What comes later continues what is left after the last line. -/
theorem splitLines_append (text more : List α) :
    splitLines sep (text ++ more) =
      ((splitLines sep text).1 ++ (splitLines sep ((splitLines sep text).2 ++ more)).1,
        (splitLines sep ((splitLines sep text).2 ++ more)).2) := by
  induction hlength : text.length using Nat.strong_induction_on generalizing text with
  | _ length ih =>
    rcases eq_line_or_rest sep text with hnot | ⟨line, rest, hline, rfl⟩
    · rw [splitLines_rest hnot]
      rfl
    · have hshort : rest.length < length := by
        rw [← hlength, List.length_append, List.length_cons]
        omega
      rw [List.append_assoc, List.cons_append, splitLines_line hline, splitLines_line hline,
        ih _ hshort rest rfl]
      rfl

theorem notMem_splitLines (sep : α) (text : List α) : sep ∉ (splitLines sep text).2 := by
  induction hlength : text.length using Nat.strong_induction_on generalizing text with
  | _ length ih =>
    rcases eq_line_or_rest sep text with hnot | ⟨line, rest, hline, rfl⟩
    · rwa [splitLines_rest hnot]
    · rw [splitLines_line hline]
      refine ih _ ?_ rest rfl
      rw [← hlength, List.length_append, List.length_cons]
      omega

/-- A text is its lines and what is left. -/
theorem splitLines_eq (sep : α) (text : List α) :
    ∃ lines, text = lines ++ (splitLines sep text).2 ∧
      splitLines sep lines = ((splitLines sep text).1, []) := by
  induction hlength : text.length using Nat.strong_induction_on generalizing text with
  | _ length ih =>
    rcases eq_line_or_rest sep text with hnot | ⟨line, rest, hline, rfl⟩
    · exact ⟨[], by simp [splitLines_rest hnot]⟩
    · have hshort : rest.length < length := by
        rw [← hlength, List.length_append, List.length_cons]
        omega
      obtain ⟨lines, hrest, hlines⟩ := ih _ hshort rest rfl
      refine ⟨line ++ sep :: lines, ?_, ?_⟩
      · rw [splitLines_line hline, List.append_assoc, List.cons_append, ← hrest]
      · rw [splitLines_line hline, splitLines_line hline, hlines]

end Paneflow.Lines
