import Mathlib.Data.List.Basic
import Mathlib.Data.Nat.Basic
import Mathlib.Tactic.Ring

/-!
# Grids

A grid of rows of `cols` elements in one list, row after row: its rows, the grid with every row rewritten in
place (`mapRows`), and what a rotation of the list does to the rows.
-/

namespace Paneflow.Grid

variable {α : Type} {cols r k rows : ℕ} {xs ys : List α}

/-- The row `r` of a grid. -/
def row (cols r : ℕ) (xs : List α) : List α := (xs.drop (r * cols)).take cols

theorem length_row (h : (r + 1) * cols ≤ xs.length) : (row cols r xs).length = cols := by
  have hend : (r + 1) * cols = r * cols + cols := Nat.succ_mul r cols
  simp only [row, List.length_take, List.length_drop]
  omega

theorem row_end_le (h : r < rows) (hlength : xs.length = rows * cols) :
    (r + 1) * cols ≤ xs.length := by
  rw [hlength]
  exact Nat.mul_le_mul_right cols h

theorem row_map {β : Type} (f : α → β) : row cols r (xs.map f) = (row cols r xs).map f := by
  unfold row
  rw [← List.map_drop, ← List.map_take]

theorem row_drop : row cols r (xs.drop (k * cols)) = row cols (r + k) xs := by
  unfold row
  rw [List.drop_drop, ← Nat.add_mul, Nat.add_comm k r]

theorem row_append_left (h : (r + 1) * cols ≤ xs.length) :
    row cols r (xs ++ ys) = row cols r xs := by
  have hend : (r + 1) * cols = r * cols + cols := Nat.succ_mul r cols
  unfold row
  rw [List.drop_append_of_le_length (by omega), List.take_append_of_le_length]
  rw [List.length_drop]
  omega

theorem row_append_right (hlength : xs.length = k * cols) (h : k ≤ r) :
    row cols r (xs ++ ys) = row cols (r - k) ys := by
  have hstart : r * cols = xs.length + (r - k) * cols := by
    rw [hlength, ← Nat.add_mul, Nat.add_sub_cancel' h]
  unfold row
  rw [hstart, List.drop_length_add_append]

theorem row_take {n : ℕ} (h : (r + 1) * cols ≤ n) : row cols r (xs.take n) = row cols r xs := by
  have hend : (r + 1) * cols = r * cols + cols := Nat.succ_mul r cols
  unfold row
  rw [List.drop_take, List.take_take, min_eq_left (by omega)]

/-- Two grids with the same rows are equal. -/
theorem eq_of_rows (hxs : xs.length = rows * cols) (hys : ys.length = rows * cols)
    (h : ∀ r < rows, row cols r xs = row cols r ys) : xs = ys := by
  induction rows generalizing xs ys with
  | zero =>
    rw [Nat.zero_mul] at hxs hys
    rw [List.eq_nil_of_length_eq_zero hxs, List.eq_nil_of_length_eq_zero hys]
  | succ rows ih =>
    have hfirst := h 0 (Nat.succ_pos rows)
    simp only [row, Nat.zero_mul, List.drop_zero] at hfirst
    have hrest : xs.drop cols = ys.drop cols := by
      rw [Nat.succ_mul] at hxs hys
      refine ih (by rw [List.length_drop]; omega) (by rw [List.length_drop]; omega) ?_
      intro r hr
      have hnext := h (r + 1) (Nat.succ_lt_succ hr)
      rw [← row_drop, ← row_drop, Nat.one_mul] at hnext
      exact hnext
    rw [← List.take_append_drop cols xs, ← List.take_append_drop cols ys, hfirst, hrest]

/-! ### Rewriting the rows -/

/-- The grid with `line` in place of its row `r`. -/
def setRow (cols r : ℕ) (line xs : List α) : List α :=
  xs.take (r * cols) ++ (line ++ xs.drop ((r + 1) * cols))

/-- The loop that rewrites the rows in place, the first one first. -/
def mapRows (cols rows : ℕ) (f : ℕ → List α → List α) (xs : List α) : List α :=
  (List.range rows).foldl (fun xs r => setRow cols r (f r (row cols r xs)) xs) xs

theorem length_setRow {line : List α} (hline : line.length = cols)
    (h : (r + 1) * cols ≤ xs.length) : (setRow cols r line xs).length = xs.length := by
  have hend : (r + 1) * cols = r * cols + cols := Nat.succ_mul r cols
  simp only [setRow, List.length_append, List.length_take, List.length_drop, hline]
  omega

theorem row_setRow {line : List α} {r' : ℕ} (hline : line.length = cols)
    (h : (r + 1) * cols ≤ xs.length) :
    row cols r' (setRow cols r line xs) = if r' = r then line else row cols r' xs := by
  have hend : (r + 1) * cols = r * cols + cols := Nat.succ_mul r cols
  have htake : (xs.take (r * cols)).length = r * cols := by
    rw [List.length_take]
    omega
  unfold setRow
  rcases Nat.lt_trichotomy r' r with hlt | rfl | hgt
  · have hle : (r' + 1) * cols ≤ r * cols := Nat.mul_le_mul_right cols hlt
    rw [if_neg (by omega), row_append_left (by omega), row_take hle]
  · rw [if_pos rfl, row_append_right htake le_rfl, Nat.sub_self, row_append_left (by omega)]
    simp [row, ← hline]
  · have hnext : line.length = 1 * cols := by omega
    rw [if_neg (by omega), row_append_right htake (by omega), row_append_right hnext (by omega),
      row_drop]
    congr 1
    omega

/-- Every row of the grid is rewritten. -/
theorem mapRows_spec {f : ℕ → List α → List α} (hlength : xs.length = rows * cols)
    (hf : ∀ r < rows, (f r (row cols r xs)).length = cols) {n : ℕ} (hn : n ≤ rows) :
    (mapRows cols n f xs).length = xs.length ∧
      ∀ r, row cols r (mapRows cols n f xs) =
        if r < n then f r (row cols r xs) else row cols r xs := by
  induction n with
  | zero => exact ⟨rfl, fun _ => rfl⟩
  | succ n ih =>
    obtain ⟨ihlength, ihrow⟩ := ih (Nat.le_of_succ_le hn)
    have hstep : mapRows cols (n + 1) f xs =
        setRow cols n (f n (row cols n (mapRows cols n f xs))) (mapRows cols n f xs) := by
      simp [mapRows, List.range_succ]
    have hsame : row cols n (mapRows cols n f xs) = row cols n xs := by
      rw [ihrow, if_neg (lt_irrefl n)]
    rw [hsame] at hstep
    have hend : (n + 1) * cols ≤ (mapRows cols n f xs).length :=
      row_end_le hn (ihlength.trans hlength)
    refine ⟨?_, ?_⟩
    · rw [hstep, length_setRow (hf n hn) hend, ihlength]
    · intro r
      rw [hstep, row_setRow (hf n hn) hend, ihrow]
      split_ifs <;> first | rfl | omega | (subst_vars; rfl)

/-! ### Rotating -/

theorem row_rotateLeft (h : (r + k + 1) * cols ≤ xs.length) :
    row cols r (xs.drop (k * cols) ++ xs.take (k * cols)) = row cols (r + k) xs := by
  have hsplit : (r + k + 1) * cols = (r + 1) * cols + k * cols := by ring
  rw [row_append_left, row_drop]
  rw [List.length_drop]
  omega

theorem row_rotateRight (hk : k ≤ r) (h : (r + 1) * cols ≤ xs.length) :
    row cols r (xs.drop (xs.length - k * cols) ++ xs.take (xs.length - k * cols)) =
      row cols (r - k) xs := by
  have hle : k * cols ≤ (r + 1) * cols := Nat.mul_le_mul_right cols (by omega)
  have hsplit : (r + 1) * cols = (r - k + 1) * cols + k * cols := by
    rw [← Nat.add_mul]
    congr 1
    omega
  have hdrop : (xs.drop (xs.length - k * cols)).length = k * cols := by
    rw [List.length_drop]
    omega
  rw [row_append_right hdrop hk, row_take]
  omega

end Paneflow.Grid
