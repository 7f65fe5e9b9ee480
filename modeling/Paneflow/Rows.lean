import Mathlib.Data.List.Basic
import Mathlib.Data.Nat.Notation
import Mathlib.Tactic.Common

/-!
# Rows of a text

The rows of a text are what a separator splits it into (`List.splitOn`): there is at least one, and a separator at the
end is followed by an empty row. Putting texts one after the other joins the last row of the one to the first row of the
other (`splitOn_append`), and replacing a part of a text replaces the rows that it touches (`splitOn_part`).

`closed` writes a separator behind each row and `opened` one before it: the text of some rows is that of the rows in
front of it, closed, and of the rows behind it, opened (`join_around`).
-/

namespace Paneflow.Rows

variable {α : Type} {sep : α} {text p q : List α} {row a b : List α} {P Q rows : List (List α)}

/-! ### Putting rows together -/

/-- The text of some rows. -/
def join (sep : α) (rows : List (List α)) : List α := [sep].intercalate rows

def closed (sep : α) (rows : List (List α)) : List α := rows.flatMap fun row => row ++ [sep]

def opened (sep : α) (rows : List (List α)) : List α := rows.flatMap fun row => sep :: row

@[simp] theorem closed_nil : closed sep [] = [] := rfl

@[simp] theorem closed_cons : closed sep (row :: rows) = row ++ sep :: closed sep rows := by
  simp [closed]

@[simp] theorem closed_append : closed sep (P ++ Q) = closed sep P ++ closed sep Q := List.flatMap_append

@[simp] theorem opened_nil : opened sep [] = [] := rfl

@[simp] theorem opened_cons : opened sep (row :: rows) = sep :: row ++ opened sep rows := by
  simp [opened]

@[simp] theorem opened_append : opened sep (P ++ Q) = opened sep P ++ opened sep Q := List.flatMap_append

theorem join_cons (row : List α) (rows : List (List α)) : join sep (row :: rows) = row ++ opened sep rows := by
  induction rows generalizing row with
  | nil => simp [join, List.intercalate, opened]
  | cons next rows ih =>
    have hnext := ih next
    simp only [join, List.intercalate, opened, List.flatMap_cons] at hnext ⊢
    rw [List.intersperse_cons_cons, List.flatten_cons, List.flatten_cons, hnext]
    simp

/-- The text around a row. -/
theorem join_around (P : List (List α)) (row : List α) (Q : List (List α)) :
    join sep (P ++ row :: Q) = closed sep P ++ row ++ opened sep Q := by
  induction P with
  | nil => simpa [closed] using join_cons row Q
  | cons first P ih =>
    rw [List.cons_append, join_cons]
    rcases P with _ | ⟨second, P⟩
    · simp [opened, closed]
    · rw [List.cons_append, join_cons] at ih
      simp only [opened, closed, List.cons_append, List.flatMap_cons] at ih ⊢
      simp only [List.append_assoc, List.cons_append, List.nil_append] at ih ⊢
      rw [ih]

theorem join_append_left (P : List (List α)) (h : Q ≠ []) : join sep (P ++ Q) = closed sep P ++ join sep Q := by
  obtain ⟨row, Q, rfl⟩ := List.exists_cons_of_ne_nil h
  rw [join_around, join_cons, List.append_assoc]

theorem join_append_right (h : P ≠ []) (Q : List (List α)) : join sep (P ++ Q) = join sep P ++ opened sep Q := by
  obtain ⟨row, P, rfl⟩ := List.exists_cons_of_ne_nil h
  rw [List.cons_append, join_cons, join_cons]
  simp [opened]

/-! ### What is in no row -/

theorem notMem_closed {x : α} (hx : x ≠ sep) (h : ∀ row ∈ rows, x ∉ row) : x ∉ closed sep rows := by
  unfold closed
  simpa [hx] using h

theorem notMem_opened {x : α} (hx : x ≠ sep) (h : ∀ row ∈ rows, x ∉ row) : x ∉ opened sep rows := by
  unfold opened
  simpa [hx] using h

theorem notMem_join {x : α} (hx : x ≠ sep) (h : ∀ row ∈ rows, x ∉ row) : x ∉ join sep rows := by
  cases rows with
  | nil => simp [join, List.intercalate]
  | cons row rows =>
    rw [join_cons, List.mem_append]
    exact not_or.2 ⟨h row (by simp), notMem_opened hx fun other hother => h other (by simp [hother])⟩

/-! ### Splitting -/

variable [DecidableEq α]

theorem exists_concat (sep : α) (text : List α) : ∃ P a, text.splitOn sep = P ++ [a] := by
  rcases List.eq_nil_or_concat (text.splitOn sep) with h | ⟨P, a, h⟩
  · exact absurd h (List.splitOn_ne_nil sep text)
  · exact ⟨P, a, by rw [h, List.concat_eq_append]⟩

theorem exists_cons (sep : α) (text : List α) : ∃ b Q, text.splitOn sep = b :: Q :=
  List.exists_cons_of_ne_nil (List.splitOn_ne_nil sep text)

/-- **Texts one after the other**: the last row and the first one become one. -/
theorem splitOn_append (hp : p.splitOn sep = P ++ [a]) (hq : q.splitOn sep = b :: Q) :
    (p ++ q).splitOn sep = P ++ (a ++ b) :: Q := by
  induction p generalizing P a with
  | nil =>
    obtain ⟨rfl, rfl⟩ : P = [] ∧ a = [] := by
      rw [List.splitOn_nil] at hp
      cases P with
      | nil => exact ⟨rfl, (List.cons.inj hp).1.symm⟩
      | cons row P => simp at hp
    exact hq
  | cons x p ih =>
    rw [List.cons_append, List.splitOn_cons_eq_if_modifyHead]
    rw [List.splitOn_cons_eq_if_modifyHead] at hp
    obtain ⟨P', a', hp'⟩ := exists_concat sep p
    have hjoined := ih hp'
    rw [hp'] at hp
    rw [hjoined]
    split_ifs at hp ⊢
    · obtain ⟨rfl, rfl⟩ : P = [] :: P' ∧ a = a' := by
        have heq : ([] :: P') ++ [a'] = P ++ [a] := hp
        exact ⟨(List.append_inj' heq rfl).1.symm, by simpa using (List.append_inj' heq rfl).2.symm⟩
      rfl
    · cases P' with
      | nil =>
        cases P with
        | nil =>
          have heq : x :: a' = a := by simpa using hp
          simp [← heq]
        | cons row P => simp at hp
      | cons row' P' =>
        have heq : ((x :: row') :: P') ++ [a'] = P ++ [a] := hp
        obtain ⟨rfl, hlast⟩ := List.append_inj' heq rfl
        have hlast : a' = a := by simpa using hlast
        simp [hlast]

theorem length_splitOn (sep : α) (text : List α) : (text.splitOn sep).length = text.count sep + 1 := by
  induction text with
  | nil => simp
  | cons x text ih =>
    rw [List.splitOn_cons_eq_if_modifyHead, List.count_cons]
    split_ifs
    · rw [List.length_cons, ih]
    · rw [List.length_modifyHead, ih]

theorem notMem_splitOn (sep : α) (text : List α) : ∀ row ∈ text.splitOn sep, sep ∉ row := by
  induction text with
  | nil => simp
  | cons x text ih =>
    rw [List.splitOn_cons_eq_if_modifyHead]
    split_ifs with hx
    · simpa using ih
    · obtain ⟨b, Q, hsplit⟩ := exists_cons sep text
      rw [hsplit] at ih ⊢
      intro row hrow
      rcases List.mem_cons.1 hrow with rfl | hrow
      · have hne : sep ≠ x := fun h => hx (by simp [h])
        simpa [hne] using ih b (by simp)
      · exact ih row (by simp [hrow])

/-- A text that ends with a separator. -/
theorem splitOn_concat (sep : α) (text : List α) : (text ++ [sep]).splitOn sep = text.splitOn sep ++ [[]] := by
  rw [List.splitOn_append_cons_self, List.splitOn_nil]

/-- A text that begins with a separator. -/
theorem splitOn_cons_self (sep : α) (text : List α) : (sep :: text).splitOn sep = [] :: text.splitOn sep := by
  rw [List.splitOn_cons_eq_if_modifyHead, if_pos (by simp)]

/-- **A part of a text**: the rows in front of it and behind it are those of the text around it, and it touches the
rows between them, one more than it has separators. -/
theorem splitOn_part (hp : p.splitOn sep = P ++ [a]) (hq : q.splitOn sep = b :: Q) (part : List α) :
    ∃ M, (p ++ part ++ q).splitOn sep = P ++ M ++ Q ∧ M.length = part.count sep + 1 := by
  obtain ⟨c, R, hpart⟩ := exists_cons sep part
  have hfront := splitOn_append hp hpart
  have hlength := length_splitOn sep part
  rw [hpart] at hlength
  obtain ⟨M, d, hM⟩ : ∃ M d, (a ++ c) :: R = M ++ [d] := by
    rcases List.eq_nil_or_concat ((a ++ c) :: R) with h | ⟨M, d, h⟩
    · simp at h
    · exact ⟨M, d, by rw [h, List.concat_eq_append]⟩
  rw [hM, ← List.append_assoc] at hfront
  refine ⟨M ++ [d ++ b], by rw [splitOn_append hfront hq]; simp, ?_⟩
  have hsame := congrArg List.length hM
  simp only [List.length_cons, List.length_append] at hsame hlength ⊢
  omega

theorem join_splitOn (sep : α) (text : List α) : join sep (text.splitOn sep) = text := List.intercalate_splitOn sep

theorem splitOn_join (hrows : ∀ row ∈ rows, sep ∉ row) (h : rows ≠ []) : (join sep rows).splitOn sep = rows :=
  List.splitOn_intercalate sep hrows h

/-- The text around one of its rows. -/
theorem eq_around (h : text.splitOn sep = P ++ row :: Q) : text = closed sep P ++ row ++ opened sep Q := by
  rw [← join_around, ← h, join_splitOn]

end Paneflow.Rows
