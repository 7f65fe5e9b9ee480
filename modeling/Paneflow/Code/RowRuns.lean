import Paneflow.Code.Highlight
import Paneflow.Code.Windows
import Paneflow.Patches

/-!
# The rows of the highlighter

`interpolate` of code/highlight.rs: when the document was edited, the coloured runs of its rows are moved to the rows
that they stand on now. One edit is spliced into the rows in place, several are worked into new rows by a cursor.

An edit of the document rewrites some of its rows (`Rewrites`), and both ways patch the rows in the same place:
`interpolateBatch_spec`. The runs stay inside of the rows with the carriage return that may end them; `not_textInside`:
not of the text that the document gives for a line.
-/

namespace Paneflow.Code.RowRuns

open Paneflow.Code.Document Paneflow.Code.Highlight Paneflow.Code.Points Paneflow.Code.DocRows Paneflow.Patches
open Paneflow.Rows Paneflow.Utf8

/-! ### The rows -/

structure IndexedCapture where
  pass : UInt16
  capture : UInt16
  deriving DecidableEq, Repr

structure IndexedRun where
  start : UInt32
  stop : UInt32
  capture : IndexedCapture
  deriving DecidableEq, Repr

abbrev IndexedLineRuns := List IndexedRun

inductive RowState where
  | stale
  | fresh
  deriving DecidableEq, Repr

/-- What the highlighter keeps for each row. -/
structure HighlightRows where
  rows : List IndexedLineRuns
  rowStates : List RowState
  deriving DecidableEq, Repr

/-- `Vec::resize` -/
def resize {α : Type*} (n : ℕ) (value : α) (list : List α) : List α := list.take n ++ List.replicate (n - list.length) value

/-- `u32::try_from` -/
def tryFrom (n : ℕ) : Option UInt32 := if n < 2 ^ 32 then some (UInt32.ofNat n) else none

def headRun (startCol : ℕ) (run : IndexedRun) : Option IndexedRun :=
  let stop := min run.stop.toNat startCol
  if run.start.toNat < startCol ∧ run.start.toNat < stop then some ⟨run.start, UInt32.ofNat stop, run.capture⟩ else none

def headRuns (runs : Option IndexedLineRuns) (startCol : ℕ) : IndexedLineRuns :=
  (runs.getD []).filterMap (headRun startCol)

def tailRun (oldEndCol newEndCol : ℕ) (run : IndexedRun) : Option IndexedRun :=
  if run.stop.toNat ≤ oldEndCol then none
  else do
    let start ← tryFrom (max run.start.toNat oldEndCol - oldEndCol + newEndCol)
    let stop ← tryFrom (run.stop.toNat - oldEndCol + newEndCol)
    return ⟨start, stop, run.capture⟩

def tailRuns (runs : Option IndexedLineRuns) (oldEndCol newEndCol : ℕ) : IndexedLineRuns :=
  (runs.getD []).filterMap (tailRun oldEndCol newEndCol)

def takenRow (rows : List IndexedLineRuns) (row : ℕ) : IndexedLineRuns × List IndexedLineRuns :=
  ((rows[row]?).getD [], rows.set row [])

/-! ### In place -/

def interpolateInPlace (hl : HighlightRows) (doc : CodeDocument) (edit : CodeEdit) : HighlightRows :=
  let lineCount := lenLines doc.text
  let startRow := edit.startPoint.row
  let oldEndRow := max edit.oldEndPoint.row startRow
  let newEndRow := max edit.newEndPoint.row startRow
  let front := headRuns hl.rows[startRow]? edit.startPoint.column
  let back := tailRuns hl.rows[oldEndRow]? edit.oldEndPoint.column edit.newEndPoint.column
  let replacement :=
    if newEndRow = startRow then [front ++ back] else resize (newEndRow - startRow) [] [front] ++ [back]
  let removedEnd := min (oldEndRow + 1) hl.rows.length
  let rows := hl.rows.take (min startRow removedEnd) ++ replacement ++ hl.rows.drop removedEnd
  let stale := List.replicate (newEndRow - startRow + 1) .stale
  let removedEnd := min (oldEndRow + 1) hl.rowStates.length
  let rowStates := hl.rowStates.take (min startRow removedEnd) ++ stale ++ hl.rowStates.drop removedEnd
  ⟨resize lineCount [] rows, resize lineCount .stale rowStates⟩

/-! ### By a cursor -/

/-- The new rows so far, and the old rows, of which those in front of the cursor were taken. -/
structure Rebuild where
  rows : List IndexedLineRuns
  states : List RowState
  oldRows : List IndexedLineRuns
  cursor : ℕ
  deriving DecidableEq, Repr

/-- A round of a `while` loop: the row at the cursor stays as it is. -/
def Rebuild.copy (oldStates : List RowState) (b : Rebuild) : Rebuild :=
  let (row, oldRows) := takenRow b.oldRows b.cursor
  ⟨b.rows ++ [row], b.states ++ [(oldStates[b.cursor]?).getD .stale], oldRows, b.cursor + 1⟩

/-- The `while` loop up to a row. -/
def Rebuild.copyTo (oldStates : List RowState) (row : ℕ) (b : Rebuild) : Rebuild :=
  (Rebuild.copy oldStates)^[row - b.cursor] b

def Rebuild.edit (oldStates : List RowState) (b : Rebuild) (edit : CodeEdit) : Rebuild :=
  let startRow := edit.startPoint.row
  let oldEndRow := max edit.oldEndPoint.row startRow
  let newEndRow := max edit.newEndPoint.row startRow
  let b := b.copyTo oldStates startRow
  let front := headRuns b.oldRows[startRow]? edit.startPoint.column
  let back := tailRuns b.oldRows[oldEndRow]? edit.oldEndPoint.column edit.newEndPoint.column
  if newEndRow = startRow then
    ⟨b.rows ++ [front ++ back], b.states ++ [.stale], b.oldRows, oldEndRow + 1⟩
  else
    let rows := b.rows ++ [front]
    ⟨resize (rows.length + newEndRow - startRow - 1) [] rows ++ [back],
      resize (b.states.length + newEndRow - startRow + 1) .stale b.states, b.oldRows, oldEndRow + 1⟩

/-- The rows of `interpolate_batch` before they are brought to their number. -/
def rebuilt (hl : HighlightRows) (edits : List CodeEdit) : Rebuild :=
  let b := edits.reverse.foldl (Rebuild.edit hl.rowStates) ⟨[], [], hl.rows, 0⟩
  b.copyTo hl.rowStates b.oldRows.length

def interpolateBatch (hl : HighlightRows) (doc : CodeDocument) (edits : List CodeEdit) : HighlightRows :=
  let b := rebuilt hl edits
  ⟨resize (lenLines doc.text) [] b.rows, resize (lenLines doc.text) .stale b.states⟩

def interpolate (hl : HighlightRows) (doc : CodeDocument) : List CodeEdit → HighlightRows
  | [edit] => interpolateInPlace hl doc edit
  | edits => interpolateBatch hl doc edits

/-! ### The rows that an edit rewrites -/

/-- What the points of an edit say of the rows of the document in front of it and behind it. -/
structure Rewrites (edit : CodeEdit) (X Y : List Str) : Prop where
  oldRow_le : edit.startPoint.row ≤ edit.oldEndPoint.row
  newRow_le : edit.startPoint.row ≤ edit.newEndPoint.row
  oldRow_lt : edit.oldEndPoint.row < X.length
  newRow_lt : edit.newEndPoint.row < Y.length
  front : Y.take edit.startPoint.row = X.take edit.startPoint.row
  back : Y.drop (edit.newEndPoint.row + 1) = X.drop (edit.oldEndPoint.row + 1)
  /-- The first row keeps what stands in front of the edit. -/
  head : ∀ row, Y[edit.startPoint.row]? = some row → edit.startPoint.column ≤ size row
  /-- The last row keeps what stands behind it. -/
  tail : ∀ row row', X[edit.oldEndPoint.row]? = some row → Y[edit.newEndPoint.row]? = some row' →
    ∃ rest, size row = edit.oldEndPoint.column + rest ∧ size row' = edit.newEndPoint.column + rest
  columns : edit.newEndPoint.row = edit.startPoint.row → edit.startPoint.column ≤ edit.newEndPoint.column

theorem pointOf_rows {text : Str} {P : List Str} {a : Str} (h : text.splitOn '\n' = P ++ [a]) (more : Str) :
    pointOf (text ++ more) (size text) = ⟨P.length, size a⟩ := by
  have hrows := notMem_splitOn '\n' text
  have hlength := length_splitOn '\n' text
  rw [h] at hrows hlength
  have hcount : text.count '\n' = P.length := by
    rw [List.length_append, List.length_singleton] at hlength
    omega
  have htext : text = closed '\n' P ++ a := by
    have hjoin := eq_around h
    rwa [opened_nil, List.append_nil] at hjoin
  have hstart : lineToByte text P.length = size (closed '\n' P) := by
    rw [htext]
    exact lineToByte_closed (fun row hrow => hrows row (List.mem_append_left _ hrow)) a
  have hsize : size text = size (closed '\n' P) + size a := by
    conv_lhs => rw [htext]
    exact size_append _ _
  have hself := byteToLine_size text []
  rw [List.append_nil] at hself
  rw [pointOf_append, pointOf]
  rw [Nat.min_self, hself, hcount, hstart, hsize, Nat.add_sub_cancel_left]

/-- A longer text has the rows of a shorter one in front, and its last row goes on. -/
theorem rows_extend {p r : Str} {P P' : List Str} {a a' : Str} (hp : p.splitOn '\n' = P ++ [a])
    (hr : (p ++ r).splitOn '\n' = P' ++ [a']) :
    P'.take P.length = P ∧ ((P' = P ∧ a <+: a') ∨ ∃ row, P'[P.length]? = some row ∧ a <+: row) := by
  obtain ⟨c, R, hsplit⟩ := exists_cons '\n' r
  have hjoined := (splitOn_append hp hsplit).symm.trans hr
  cases hR : R using List.reverseRecOn with
  | nil =>
    rw [hR] at hjoined
    obtain ⟨rfl, hlast⟩ := List.append_inj' hjoined rfl
    obtain rfl := List.singleton_inj.mp hlast
    exact ⟨List.take_length, .inl ⟨rfl, List.prefix_append a c⟩⟩
  | append_singleton R last _ =>
    have hcons : P ++ (a ++ c) :: (R ++ [last]) = (P ++ (a ++ c) :: R) ++ [last] := by simp
    rw [hR, hcons] at hjoined
    obtain ⟨rfl, -⟩ := List.append_inj' hjoined rfl
    refine ⟨List.take_left, .inr ⟨a ++ c, ?_, List.prefix_append a c⟩⟩
    rw [List.getElem?_append_right (Nat.le_refl _), Nat.sub_self]
    rfl

theorem size_le_of_prefix {a row : Str} (h : a <+: row) : size a ≤ size row := by
  obtain ⟨rest, rfl⟩ := h
  rw [size_append]
  omega

theorem Applies.rewrites {edit : CodeEdit} {x y : Str} (h : Applies edit x y) :
    Rewrites edit (x.splitOn '\n') (y.splitOn '\n') := by
  obtain ⟨p, r, s, q, rfl, rfl, rfl⟩ := h
  obtain ⟨P, a, hp⟩ := exists_concat '\n' p
  obtain ⟨P₁, a₁, hr⟩ := exists_concat '\n' (p ++ r)
  obtain ⟨P₂, a₂, hs⟩ := exists_concat '\n' (p ++ s)
  obtain ⟨b, Q, hq⟩ := exists_cons '\n' q
  obtain ⟨hr₁, -⟩ := rows_extend hp hr
  obtain ⟨hs₁, hs₂⟩ := rows_extend hp hs
  have hle₁ : P.length ≤ P₁.length := by
    have hlength := congrArg List.length hr₁
    rw [List.length_take] at hlength
    omega
  have hle₂ : P.length ≤ P₂.length := by
    have hlength := congrArg List.length hs₁
    rw [List.length_take] at hlength
    omega
  have hstart : pointOf (p ++ r ++ q) (size p) = ⟨P.length, size a⟩ := by
    rw [List.append_assoc]
    exact pointOf_rows hp _
  rw [hstart, pointOf_rows hr, pointOf_rows hs, splitOn_append hr hq, splitOn_append hs hq]
  constructor
  case oldRow_le => exact hle₁
  case newRow_le => exact hle₂
  case oldRow_lt =>
    rw [List.length_append, List.length_cons]
    dsimp only
    omega
  case newRow_lt =>
    rw [List.length_append, List.length_cons]
    dsimp only
    omega
  case front => rw [List.take_append_of_le_length hle₂, List.take_append_of_le_length hle₁, hs₁, hr₁]
  case back =>
    have hdrop (R : List Str) (row : Str) : (R ++ row :: Q).drop (R.length + 1) = Q := by
      have hlength : (R ++ [row]).length = R.length + 1 := by simp
      rw [List.append_cons, ← hlength, List.drop_left]
    rw [hdrop, hdrop]
  case head =>
    intro row hrow
    rcases hs₂ with ⟨rfl, hlast⟩ | ⟨first, hfirst, hbegins⟩
    · rw [List.getElem?_append_right (Nat.le_refl _), Nat.sub_self] at hrow
      obtain rfl := Option.some.inj hrow
      exact size_le_of_prefix (hlast.trans (List.prefix_append _ _))
    · have hlt : P.length < P₂.length := (List.getElem?_eq_some_iff.mp hfirst).1
      rw [List.getElem?_append_left hlt, hfirst] at hrow
      obtain rfl := Option.some.inj hrow
      exact size_le_of_prefix hbegins
  case tail =>
    intro row row' hrow hrow'
    rw [List.getElem?_append_right (Nat.le_refl _), Nat.sub_self] at hrow hrow'
    obtain rfl := Option.some.inj hrow
    obtain rfl := Option.some.inj hrow'
    exact ⟨size b, size_append _ _, size_append _ _⟩
  case columns =>
    intro hsame
    rcases hs₂ with ⟨-, hlast⟩ | ⟨first, hfirst, -⟩
    · exact size_le_of_prefix hlast
    · have hlt : P.length < P₂.length := (List.getElem?_eq_some_iff.mp hfirst).1
      exact absurd hsame (by dsimp only; omega)

/-! ### Patches of the rows -/

theorem resize_self {α : Type*} {n : ℕ} {list : List α} (h : list.length = n) (value : α) : resize n value list = list := by
  unfold resize
  rw [← h, List.take_length, Nat.sub_self, List.replicate_zero, List.append_nil]

theorem resize_of_le {α : Type*} {n : ℕ} {list : List α} (h : list.length ≤ n) (value : α) :
    resize n value list = list ++ List.replicate (n - list.length) value := by
  unfold resize
  rw [List.take_of_length_le h]

/-- The rows that come in the place of the rows of an edit. -/
def replacement (edit : CodeEdit) (first last : Option IndexedLineRuns) : List IndexedLineRuns :=
  let front := headRuns first edit.startPoint.column
  let back := tailRuns last edit.oldEndPoint.column edit.newEndPoint.column
  if edit.newEndPoint.row = edit.startPoint.row then [front ++ back]
  else front :: List.replicate (edit.newEndPoint.row - edit.startPoint.row - 1) [] ++ [back]

def rowPatch (edit : CodeEdit) : Patch IndexedLineRuns where
  start := edit.startPoint.row
  stop := edit.oldEndPoint.row + 1
  make := fun segment => replacement edit segment[0]? segment[edit.oldEndPoint.row - edit.startPoint.row]?

def statePatch (edit : CodeEdit) : Patch RowState where
  start := edit.startPoint.row
  stop := edit.oldEndPoint.row + 1
  make := fun _ => List.replicate (edit.newEndPoint.row - edit.startPoint.row + 1) .stale

variable {edit : CodeEdit} {X Y : List Str} {hl : HighlightRows} {doc : CodeDocument}

theorem length_replacement (h : edit.startPoint.row ≤ edit.newEndPoint.row) (first last : Option IndexedLineRuns) :
    (replacement edit first last).length = edit.newEndPoint.row - edit.startPoint.row + 1 := by
  unfold replacement
  split_ifs with hrow
  · rw [hrow, Nat.sub_self]
    rfl
  · simp only [List.length_append, List.length_cons, List.length_replicate, List.length_nil]
    omega

/-- A patch reads the first and the last of the rows that it replaces. -/
theorem rowPatch_make (h : edit.startPoint.row ≤ edit.oldEndPoint.row) (rows : List IndexedLineRuns) :
    (rowPatch edit).make ((rowPatch edit).segment rows) =
      replacement edit rows[edit.startPoint.row]? rows[edit.oldEndPoint.row]? := by
  have hget (i : ℕ) (hi : edit.startPoint.row + i < edit.oldEndPoint.row + 1) :
      ((rowPatch edit).segment rows)[i]? = rows[edit.startPoint.row + i]? := by
    unfold Patch.segment rowPatch
    rw [List.getElem?_drop, List.getElem?_take_of_lt hi]
  have hlast : edit.startPoint.row + (edit.oldEndPoint.row - edit.startPoint.row) = edit.oldEndPoint.row := by omega
  change replacement edit ((rowPatch edit).segment rows)[0]? ((rowPatch edit).segment rows)[_]? = _
  rw [hget 0 (by omega), hget _ (by omega), hlast, Nat.add_zero]

theorem length_apply {α : Type*} {patch : Patch α} {rows : List α} {n : ℕ} (hle : patch.start ≤ rows.length)
    (hmake : (patch.make (patch.segment rows)).length = n) :
    (patch.apply rows).length = patch.start + n + (rows.length - patch.stop) := by
  unfold Patch.apply
  rw [List.length_append, List.length_append, List.length_take, List.length_drop, hmake, Nat.min_eq_left hle]

theorem Rewrites.length_eq (h : Rewrites edit X Y) :
    Y.length = edit.newEndPoint.row + 1 + (X.length - (edit.oldEndPoint.row + 1)) := by
  have hback := congrArg List.length h.back
  have hlt := h.newRow_lt
  rw [List.length_drop, List.length_drop] at hback
  omega

theorem Rewrites.length_rowPatch (h : Rewrites edit X Y) {rows : List IndexedLineRuns} (hrows : rows.length = X.length) :
    ((rowPatch edit).apply rows).length = Y.length := by
  have hold := h.oldRow_le
  have holdlt := h.oldRow_lt
  have hnew := h.newRow_le
  have hmake := length_replacement hnew rows[edit.startPoint.row]? rows[edit.oldEndPoint.row]?
  rw [← rowPatch_make hold] at hmake
  have hle : (rowPatch edit).start ≤ rows.length := by
    change edit.startPoint.row ≤ _
    omega
  rw [length_apply hle hmake, h.length_eq, hrows]
  change edit.startPoint.row + _ + (_ - (edit.oldEndPoint.row + 1)) = _
  omega

theorem Rewrites.length_statePatch (h : Rewrites edit X Y) {states : List RowState} (hstates : states.length = X.length) :
    ((statePatch edit).apply states).length = Y.length := by
  have hold := h.oldRow_le
  have holdlt := h.oldRow_lt
  have hnew := h.newRow_le
  have hle : (statePatch edit).start ≤ states.length := by
    change edit.startPoint.row ≤ _
    omega
  rw [length_apply hle List.length_replicate, h.length_eq, hstates]
  change edit.startPoint.row + _ + (_ - (edit.oldEndPoint.row + 1)) = _
  omega

/-- One entry for each line of the document. -/
def OnePerLine (hl : HighlightRows) (doc : CodeDocument) : Prop :=
  hl.rows.length = lenLines doc.text ∧ hl.rowStates.length = lenLines doc.text

instance : Decidable (OnePerLine hl doc) := inferInstanceAs (Decidable (_ ∧ _))

/-- In place, the rows and the states are patched. -/
theorem interpolateInPlace_eq {doc' : CodeDocument} (h : Applies edit doc.text doc'.text) (hone : OnePerLine hl doc) :
    interpolateInPlace hl doc' edit = ⟨(rowPatch edit).apply hl.rows, (statePatch edit).apply hl.rowStates⟩ ∧
      OnePerLine (interpolateInPlace hl doc' edit) doc' := by
  have hrewrites := Applies.rewrites h
  obtain ⟨hrows, hstates⟩ := hone
  rw [lenLines_eq] at hrows hstates
  have hold := hrewrites.oldRow_le
  have holdlt := hrewrites.oldRow_lt
  have hnew := hrewrites.newRow_le
  have hlengthRows := hrewrites.length_rowPatch hrows
  have hlengthStates := hrewrites.length_statePatch hstates
  have heq : interpolateInPlace hl doc' edit =
      ⟨(rowPatch edit).apply hl.rows, (statePatch edit).apply hl.rowStates⟩ := by
    have hreplacement (first last : Option IndexedLineRuns) :
        (if edit.newEndPoint.row = edit.startPoint.row then
          [headRuns first edit.startPoint.column ++ tailRuns last edit.oldEndPoint.column edit.newEndPoint.column]
        else resize (edit.newEndPoint.row - edit.startPoint.row) [] [headRuns first edit.startPoint.column] ++
          [tailRuns last edit.oldEndPoint.column edit.newEndPoint.column]) = replacement edit first last := by
      unfold replacement
      split_ifs with hrow
      · rfl
      · rw [resize_of_le (by rw [List.length_singleton]; omega)]
        rfl
    unfold interpolateInPlace
    simp only [Nat.max_eq_left hold, Nat.max_eq_left hnew, hreplacement]
    rw [hrows, hstates, Nat.min_eq_left (by omega : edit.oldEndPoint.row + 1 ≤ _),
      Nat.min_eq_left (by omega : edit.startPoint.row ≤ edit.oldEndPoint.row + 1), lenLines_eq, ← rowPatch_make hold]
    exact congrArg₂ HighlightRows.mk (resize_self hlengthRows _) (resize_self hlengthStates _)
  refine ⟨heq, ?_⟩
  rw [heq]
  exact ⟨hlengthRows.trans (lenLines_eq _).symm, hlengthStates.trans (lenLines_eq _).symm⟩

/-! ### The cursor -/

/-- The old rows from the cursor on are still there. -/
structure Aligned (hl : HighlightRows) (b : Rebuild) : Prop where
  length_eq : b.oldRows.length = hl.rows.length
  kept : ∀ i, b.cursor ≤ i → b.oldRows[i]? = hl.rows[i]?

theorem Aligned.copy {b : Rebuild} (h : Aligned hl b) : Aligned hl (b.copy hl.rowStates) where
  length_eq := List.length_set.trans h.length_eq
  kept := by
    intro i hi
    change b.cursor + 1 ≤ i at hi
    exact (List.getElem?_set_ne (by omega)).trans (h.kept i (by omega))

theorem drop_take_succ {α : Type*} {list : List α} {start n : ℕ} {value : α} (hstart : start ≤ n)
    (hvalue : list[n]? = some value) : (list.take (n + 1)).drop start = (list.take n).drop start ++ [value] := by
  have hlt := (List.getElem?_eq_some_iff.mp hvalue).1
  rw [List.take_add_one, hvalue, Option.toList_some, List.drop_append_of_le_length (by rw [List.length_take]; omega)]

/-- The rows up to a row are copied. -/
theorem copyTo_eq {b : Rebuild} {row : ℕ} (h : Aligned hl b) (hcursor : b.cursor ≤ row) (hrow : row ≤ hl.rows.length)
    (hstates : hl.rowStates.length = hl.rows.length) :
    Aligned hl (b.copyTo hl.rowStates row) ∧ (b.copyTo hl.rowStates row).cursor = row ∧
      (b.copyTo hl.rowStates row).rows = b.rows ++ (hl.rows.take row).drop b.cursor ∧
      (b.copyTo hl.rowStates row).states = b.states ++ (hl.rowStates.take row).drop b.cursor := by
  unfold Rebuild.copyTo
  obtain ⟨n, rfl⟩ := Nat.exists_eq_add_of_le hcursor
  rw [Nat.add_sub_cancel_left]
  clear hcursor
  induction n with
  | zero =>
    have hrows : (hl.rows.take b.cursor).drop b.cursor = [] :=
      List.drop_eq_nil_of_le (by rw [List.length_take]; omega)
    have hnone : (hl.rowStates.take b.cursor).drop b.cursor = [] :=
      List.drop_eq_nil_of_le (by rw [List.length_take]; omega)
    rw [Nat.add_zero, hrows, hnone, List.append_nil, List.append_nil]
    exact ⟨h, rfl, rfl, rfl⟩
  | succ n ih =>
    obtain ⟨haligned, hcursor, hrows, hcopied⟩ := ih (by omega)
    rw [Function.iterate_succ_apply']
    generalize (Rebuild.copy hl.rowStates)^[n] b = b' at *
    obtain ⟨taken, hrow⟩ : ∃ taken, hl.rows[b.cursor + n]? = some taken := ⟨_, List.getElem?_eq_getElem (by omega)⟩
    obtain ⟨state, hstate⟩ : ∃ state, hl.rowStates[b.cursor + n]? = some state :=
      ⟨_, List.getElem?_eq_getElem (by omega)⟩
    refine ⟨haligned.copy, by rw [← Nat.add_assoc, ← hcursor]; rfl, ?_, ?_⟩
    · change b'.rows ++ [(b'.oldRows[b'.cursor]?).getD []] = _
      rw [haligned.kept _ (Nat.le_refl _), hcursor, hrow, hrows, Option.getD_some, ← Nat.add_assoc,
        drop_take_succ (Nat.le_add_right _ _) hrow, List.append_assoc]
    · change b'.states ++ [(hl.rowStates[b'.cursor]?).getD .stale] = _
      rw [hcursor, hstate, hcopied, Option.getD_some, ← Nat.add_assoc, drop_take_succ (Nat.le_add_right _ _) hstate,
        List.append_assoc]

/-- The cursor has rebuilt the rows and the states behind these edits. -/
structure Rebuilds (hl : HighlightRows) (edits : List CodeEdit) (b : Rebuild) : Prop where
  aligned : Aligned hl b
  rows_eq : b.rows = (rebuild hl.rows (edits.map rowPatch)).1
  states_eq : b.states = (rebuild hl.rowStates (edits.map statePatch)).1
  cursor_eq : b.cursor = (rebuild hl.rows (edits.map rowPatch)).2
  cursor_eq' : b.cursor = (rebuild hl.rowStates (edits.map statePatch)).2

theorem Rebuilds.cons {edits : List CodeEdit} {b : Rebuild} (h : Rebuilds hl edits b)
    (hstates : hl.rowStates.length = hl.rows.length) (hold : edit.startPoint.row ≤ edit.oldEndPoint.row)
    (hnew : edit.startPoint.row ≤ edit.newEndPoint.row) (hlt : edit.oldEndPoint.row < hl.rows.length)
    (hcursor : b.cursor ≤ edit.startPoint.row) : Rebuilds hl (edit :: edits) (b.edit hl.rowStates edit) := by
  obtain ⟨haligned, hat, hrows, hcopied⟩ := copyTo_eq h.aligned hcursor (by omega) hstates
  have hstart := haligned.kept edit.startPoint.row (Nat.le_of_eq hat)
  have hend := haligned.kept edit.oldEndPoint.row (by omega)
  have hmake := rowPatch_make hold hl.rows
  have hstateRow (states : List RowState) :
      resize (states.length + edit.newEndPoint.row - edit.startPoint.row + 1) .stale states =
        states ++ List.replicate (edit.newEndPoint.row - edit.startPoint.row + 1) .stale := by
    have hlength : states.length + edit.newEndPoint.row - edit.startPoint.row + 1 =
        states.length + (edit.newEndPoint.row - edit.startPoint.row + 1) := by omega
    rw [hlength, resize_of_le (Nat.le_add_right _ _), Nat.add_sub_cancel_left]
  have hbetween (rows : List IndexedLineRuns) (hrow : edit.newEndPoint.row ≠ edit.startPoint.row) :
      resize (rows.length + edit.newEndPoint.row - edit.startPoint.row - 1) [] rows =
        rows ++ List.replicate (edit.newEndPoint.row - edit.startPoint.row - 1) [] := by
    have hlength : rows.length + edit.newEndPoint.row - edit.startPoint.row - 1 =
        rows.length + (edit.newEndPoint.row - edit.startPoint.row - 1) := by omega
    rw [hlength, resize_of_le (Nat.le_add_right _ _), Nat.add_sub_cancel_left]
  have hedit : b.edit hl.rowStates edit =
      ⟨(b.copyTo hl.rowStates edit.startPoint.row).rows ++
          replacement edit hl.rows[edit.startPoint.row]? hl.rows[edit.oldEndPoint.row]?,
        (b.copyTo hl.rowStates edit.startPoint.row).states ++
          List.replicate (edit.newEndPoint.row - edit.startPoint.row + 1) .stale,
        (b.copyTo hl.rowStates edit.startPoint.row).oldRows, edit.oldEndPoint.row + 1⟩ := by
    unfold Rebuild.edit replacement
    simp only [Nat.max_eq_left hold, Nat.max_eq_left hnew, hstart, hend]
    split_ifs with hrow
    · rw [hrow, Nat.sub_self]
      rfl
    · rw [hstateRow, hbetween _ hrow]
      simp only [List.append_assoc, List.cons_append, List.nil_append]
  rw [hedit]
  refine ⟨⟨haligned.length_eq, fun i hi => haligned.kept i ?_⟩, ?_, ?_, rfl, rfl⟩
  · change edit.oldEndPoint.row + 1 ≤ i at hi
    omega
  · rw [hrows, h.rows_eq, ← hmake, h.cursor_eq]
    rfl
  · rw [hcopied, h.states_eq, h.cursor_eq']
    rfl

/-! ### Batches -/

/-- The edits lead from the document to those behind them. -/
def Leads : CodeDocument → List (CodeEdit × CodeDocument) → Prop
  | _, [] => True
  | doc, (edit, doc') :: steps => Applies edit doc.text doc'.text ∧ Leads doc' steps

def lastDocument (doc : CodeDocument) (steps : List (CodeEdit × CodeDocument)) : CodeDocument :=
  steps.foldl (fun _ step => step.2) doc

/-- One edit after the other, each with the document behind it. -/
def interpolateEach (hl : HighlightRows) (steps : List (CodeEdit × CodeDocument)) : HighlightRows :=
  steps.foldl (fun hl step => interpolateInPlace hl step.2 step.1) hl

/-- The edits stand above the row, and each above the one in front of it. -/
def Above : ℕ → List CodeEdit → Prop
  | _, [] => True
  | row, edit :: edits =>
    edit.startPoint.row ≤ edit.oldEndPoint.row ∧ edit.startPoint.row ≤ edit.newEndPoint.row ∧
      edit.oldEndPoint.row < row ∧ Above edit.startPoint.row edits

variable {steps : List (CodeEdit × CodeDocument)} {edits : List CodeEdit} {row : ℕ}

theorem above_of_descends (hleads : Leads doc steps) (horder : descendsWithoutOverlap (steps.map Prod.fst) = true) :
    Above (lenLines doc.text) (steps.map Prod.fst) := by
  have hrows (edit : CodeEdit) (doc doc' : CodeDocument) (h : Applies edit doc.text doc'.text) :
      edit.startPoint.row ≤ edit.oldEndPoint.row ∧ edit.startPoint.row ≤ edit.newEndPoint.row :=
    ⟨(Applies.rewrites h).oldRow_le, (Applies.rewrites h).newRow_le⟩
  have habove (row : ℕ) (doc : CodeDocument) (steps : List (CodeEdit × CodeDocument)) (hleads : Leads doc steps)
      (horder : descendsWithoutOverlap (steps.map Prod.fst) = true)
      (hfirst : ∀ edit ∈ steps.head?.map Prod.fst, edit.oldEndPoint.row < row) : Above row (steps.map Prod.fst) := by
    induction steps generalizing row doc with
    | nil => trivial
    | cons step steps ih =>
      obtain ⟨edit, doc'⟩ := step
      obtain ⟨happlies, hleads⟩ := hleads
      obtain ⟨hold, hnew⟩ := hrows edit doc doc' happlies
      refine ⟨hold, hnew, hfirst edit rfl, ?_⟩
      cases steps with
      | nil => trivial
      | cons next steps =>
        simp only [List.map_cons, descendsWithoutOverlap, Bool.and_eq_true, decide_eq_true_eq] at horder
        refine ih edit.startPoint.row doc' hleads horder.2 fun edit' hedit' => ?_
        obtain rfl := Option.some.inj hedit'
        exact horder.1.1
  cases steps with
  | nil => trivial
  | cons step steps =>
    obtain ⟨edit, doc'⟩ := step
    refine habove _ doc _ hleads horder fun edit' hedit' => ?_
    obtain rfl := Option.some.inj hedit'
    have hlt := (Applies.rewrites hleads.1).oldRow_lt
    rwa [lenLines_eq]

theorem Above.below {α : Type*} {patchOf : CodeEdit → Patch α} (hstart : ∀ edit, (patchOf edit).start = edit.startPoint.row)
    (hstop : ∀ edit, (patchOf edit).stop = edit.oldEndPoint.row + 1) (h : Above row edits) :
    Below row (edits.map patchOf) := by
  induction edits generalizing row with
  | nil => trivial
  | cons edit edits ih =>
    obtain ⟨hold, -, hlt, habove⟩ := h
    refine ⟨?_, ?_, ?_⟩
    · rw [hstart, hstop]
      omega
    · rw [hstop]
      omega
    · rw [hstart]
      exact ih habove

theorem Above.rows (h : Above row edits) : Below row (edits.map rowPatch) := h.below (fun _ => rfl) fun _ => rfl

theorem Above.states (h : Above row edits) : Below row (edits.map statePatch) := h.below (fun _ => rfl) fun _ => rfl

/-- The loop over the edits, the last one first. -/
theorem foldl_edit (hstates : hl.rowStates.length = hl.rows.length) (h : Above row edits) (hrow : row ≤ hl.rows.length) :
    Rebuilds hl edits (edits.reverse.foldl (Rebuild.edit hl.rowStates) ⟨[], [], hl.rows, 0⟩) := by
  rw [List.foldl_reverse]
  induction edits generalizing row with
  | nil => exact ⟨⟨rfl, fun _ _ => rfl⟩, rfl, rfl, rfl, rfl⟩
  | cons edit edits ih =>
    obtain ⟨hold, hnew, hlt, habove⟩ := h
    have hrest := ih habove (by omega)
    exact hrest.cons hstates hold hnew (by omega) (hrest.cursor_eq.trans_le (rebuild_cursor_le habove.rows))

theorem interpolateEach_eq (hleads : Leads doc steps) (hone : OnePerLine hl doc) :
    interpolateEach hl steps =
        ⟨((steps.map Prod.fst).map rowPatch).foldl (fun rows patch => patch.apply rows) hl.rows,
          ((steps.map Prod.fst).map statePatch).foldl (fun rows patch => patch.apply rows) hl.rowStates⟩ ∧
      OnePerLine (interpolateEach hl steps) (lastDocument doc steps) := by
  induction steps generalizing hl doc with
  | nil => exact ⟨rfl, hone⟩
  | cons step steps ih =>
    obtain ⟨edit, doc'⟩ := step
    obtain ⟨happlies, hleads⟩ := hleads
    obtain ⟨heq, hone'⟩ := interpolateInPlace_eq happlies hone
    obtain ⟨hsame, hlast⟩ := ih hleads hone'
    refine ⟨?_, hlast⟩
    change interpolateEach (interpolateInPlace hl doc' edit) steps = _
    rw [hsame, heq]
    rfl

/-- **The cursor gives what the edits give one after the other**, one entry for each line. -/
theorem rebuilt_eq (hleads : Leads doc steps) (horder : descendsWithoutOverlap (steps.map Prod.fst) = true)
    (hone : OnePerLine hl doc) :
    (rebuilt hl (steps.map Prod.fst)).rows = (interpolateEach hl steps).rows ∧
      (rebuilt hl (steps.map Prod.fst)).states = (interpolateEach hl steps).rowStates := by
  have habove := above_of_descends hleads horder
  have hstates : hl.rowStates.length = hl.rows.length := hone.2.trans hone.1.symm
  have hrows : lenLines doc.text ≤ hl.rows.length := hone.1.ge
  obtain ⟨heach, -⟩ := interpolateEach_eq hleads hone
  have hloop := foldl_edit hstates habove hrows
  have hcursor : (rebuild hl.rows ((steps.map Prod.fst).map rowPatch)).2 ≤ hl.rows.length :=
    (rebuild_cursor_le habove.rows).trans hrows
  rw [heach, foldl_apply habove.rows hrows, foldl_apply habove.states (hrows.trans_eq hstates.symm)]
  unfold rebuilt
  dsimp only
  rw [hloop.aligned.length_eq]
  obtain ⟨-, -, hcopied, hcopiedStates⟩ :=
    copyTo_eq hloop.aligned (hloop.cursor_eq.trans_le hcursor) (Nat.le_refl _) hstates
  rw [hcopied, hcopiedStates, hloop.rows_eq, hloop.states_eq, List.take_length, ← hstates, List.take_length,
    ← hloop.cursor_eq, ← hloop.cursor_eq']
  exact ⟨rfl, rfl⟩

theorem interpolateBatch_eq (hleads : Leads doc steps) (horder : descendsWithoutOverlap (steps.map Prod.fst) = true)
    (hone : OnePerLine hl doc) :
    interpolateBatch hl (lastDocument doc steps) (steps.map Prod.fst) = interpolateEach hl steps := by
  obtain ⟨hrows, hstates⟩ := rebuilt_eq hleads horder hone
  obtain ⟨-, hlast⟩ := interpolateEach_eq hleads hone
  unfold interpolateBatch
  dsimp only
  rw [hrows, hstates, resize_self hlast.1, resize_self hlast.2]

/-! ### Where a row comes from -/

/-- The row in front of the edit that a row is; none for the rows that the edit wrote. -/
def rowBefore (edit : CodeEdit) (row : ℕ) : Option ℕ :=
  if row < edit.startPoint.row then some row
  else if row ≤ edit.newEndPoint.row then none
  else some (row - (edit.newEndPoint.row + 1) + (edit.oldEndPoint.row + 1))

/-- The row in front of all edits. -/
def origin : List CodeEdit → ℕ → Option ℕ
  | [], row => some row
  | edit :: edits, row => (origin edits row).bind (rowBefore edit)

/-- A row that comes from an old one has its text, its runs and its state; another row is stale. -/
structure Kept (origin : ℕ → Option ℕ) (doc doc' : CodeDocument) (hl hl' : HighlightRows) : Prop where
  kept : ∀ row old, origin row = some old →
    (doc'.text.splitOn '\n')[row]? = (doc.text.splitOn '\n')[old]? ∧ hl'.rows[row]? = hl.rows[old]? ∧
      hl'.rowStates[row]? = hl.rowStates[old]?
  stale : ∀ row, origin row = none → hl'.rowStates[row]? = some .stale

theorem Kept.trans {edit : CodeEdit} {doc doc' doc'' : CodeDocument} {hl hl' hl'' : HighlightRows}
    (h : Kept (rowBefore edit) doc doc' hl hl') (h' : Kept (origin edits) doc' doc'' hl' hl'') :
    Kept (origin (edit :: edits)) doc doc'' hl hl'' where
  kept := by
    intro row old horigin
    obtain ⟨middle, hmiddle, hold⟩ := Option.bind_eq_some_iff.mp horigin
    obtain ⟨htext, hruns, hstate⟩ := h'.kept row middle hmiddle
    obtain ⟨htext', hruns', hstate'⟩ := h.kept middle old hold
    exact ⟨htext.trans htext', hruns.trans hruns', hstate.trans hstate'⟩
  stale := by
    intro row horigin
    change (origin edits row).bind (rowBefore edit) = none at horigin
    cases hmiddle : origin edits row with
    | none => exact h'.stale row hmiddle
    | some middle =>
      rw [hmiddle] at horigin
      exact (h'.kept row middle hmiddle).2.2.trans (h.stale middle horigin)

/-- A row outside of the rewritten part. -/
theorem getElem?_rowBefore {α : Type*} {list middle : List α} {old : ℕ} (hstart : edit.startPoint.row ≤ list.length)
    (hnew : edit.startPoint.row ≤ edit.newEndPoint.row)
    (hmiddle : middle.length = edit.newEndPoint.row - edit.startPoint.row + 1) (hbefore : rowBefore edit row = some old) :
    (list.take edit.startPoint.row ++ middle ++ list.drop (edit.oldEndPoint.row + 1))[row]? = list[old]? := by
  rw [getElem?_around hstart]
  unfold rowBefore at hbefore
  split_ifs at hbefore with hfront hback
  · obtain rfl := Option.some.inj hbefore
    rw [if_pos hfront]
  · obtain rfl := Option.some.inj hbefore
    rw [if_neg hfront, if_neg (by omega)]
    congr 2
    omega

/-- A row of the rewritten part. -/
theorem getElem?_written {α : Type*} {list middle : List α} (hstart : edit.startPoint.row ≤ list.length)
    (hmiddle : middle.length = edit.newEndPoint.row - edit.startPoint.row + 1) (hbefore : rowBefore edit row = none) :
    edit.startPoint.row ≤ row ∧ row ≤ edit.newEndPoint.row ∧
      (list.take edit.startPoint.row ++ middle ++ list.drop (edit.oldEndPoint.row + 1))[row]? =
        middle[row - edit.startPoint.row]? := by
  rw [getElem?_around hstart]
  unfold rowBefore at hbefore
  split_ifs at hbefore with hfront hback
  exact ⟨by omega, hback, by rw [if_neg hfront, if_pos (by omega)]⟩

theorem Rewrites.rows_eq (h : Rewrites edit X Y) : ∃ middle, Y = X.take edit.startPoint.row ++ middle ++
    X.drop (edit.oldEndPoint.row + 1) ∧ middle.length = edit.newEndPoint.row - edit.startPoint.row + 1 := by
  have hnew := h.newRow_le
  have hlt := h.newRow_lt
  refine ⟨(Y.take (edit.newEndPoint.row + 1)).drop edit.startPoint.row, ?_, ?_⟩
  · rw [← h.front, ← h.back]
    have hinner : Y.take edit.startPoint.row ++ (Y.take (edit.newEndPoint.row + 1)).drop edit.startPoint.row =
        Y.take (edit.newEndPoint.row + 1) := by
      have htake : Y.take edit.startPoint.row = (Y.take (edit.newEndPoint.row + 1)).take edit.startPoint.row := by
        rw [List.take_take, Nat.min_eq_left (by omega)]
      rw [htake, List.take_append_drop]
    rw [hinner, List.take_append_drop]
  · rw [List.length_drop, List.length_take]
    omega

theorem interpolateInPlace_kept {doc' : CodeDocument} (h : Applies edit doc.text doc'.text) (hone : OnePerLine hl doc) :
    Kept (rowBefore edit) doc doc' hl (interpolateInPlace hl doc' edit) := by
  have hrewrites := Applies.rewrites h
  have hold := hrewrites.oldRow_le
  have hnew := hrewrites.newRow_le
  have hlt := hrewrites.oldRow_lt
  obtain ⟨hrows, hstates⟩ := hone
  rw [lenLines_eq] at hrows hstates
  obtain ⟨heq, -⟩ := interpolateInPlace_eq h ⟨hrows.trans (lenLines_eq _).symm, hstates.trans (lenLines_eq _).symm⟩
  obtain ⟨middle, hmiddle, hlength⟩ := hrewrites.rows_eq
  have hmake : ((rowPatch edit).make ((rowPatch edit).segment hl.rows)).length =
      edit.newEndPoint.row - edit.startPoint.row + 1 := by
    rw [rowPatch_make hold]
    exact length_replacement hnew _ _
  rw [heq]
  constructor
  case kept =>
    intro row old hbefore
    refine ⟨?_, ?_, ?_⟩
    · rw [hmiddle]
      exact getElem?_rowBefore (by omega) hnew hlength hbefore
    · exact getElem?_rowBefore (by omega) hnew hmake hbefore
    · exact getElem?_rowBefore (by omega) hnew List.length_replicate hbefore
  case stale =>
    intro row hbefore
    have hle : edit.startPoint.row ≤ hl.rowStates.length := by omega
    obtain ⟨hfirst, hlast, hget⟩ := getElem?_written hle (@List.length_replicate _ _ RowState.stale) hbefore
    refine hget.trans ?_
    rw [List.getElem?_replicate, if_pos (by omega)]

/-! ### The runs of a row -/

/-- The runs stand inside of a row of this many bytes. -/
def Inside (runs : IndexedLineRuns) (n : ℕ) : Prop := ∀ run ∈ runs, run.start.toNat ≤ run.stop.toNat ∧ run.stop.toNat ≤ n

instance (runs : IndexedLineRuns) (n : ℕ) : Decidable (Inside runs n) := inferInstanceAs (Decidable (∀ run ∈ runs, _))

/-- Every run has its key before the next ones start. -/
def Ordered (key : IndexedRun → UInt32) (runs : IndexedLineRuns) : Prop :=
  runs.Pairwise fun a b => (key a).toNat ≤ b.start.toNat

variable {run run' : IndexedRun} {startCol oldEndCol newEndCol : ℕ} {runs : IndexedLineRuns}
  {key : IndexedRun → UInt32}

theorem headRun_eq_some (h : headRun startCol run = some run') :
    run'.start = run.start ∧ run'.stop.toNat = min run.stop.toNat startCol ∧ run'.start.toNat < run'.stop.toNat := by
  unfold headRun at h
  dsimp only at h
  split_ifs at h with hcut
  obtain rfl := Option.some.inj h
  have hstop : (UInt32.ofNat (min run.stop.toNat startCol)).toNat = min run.stop.toNat startCol :=
    UInt32.toNat_ofNat_of_lt' (Nat.lt_of_le_of_lt (Nat.min_le_left _ _) run.stop.toNat_lt)
  exact ⟨rfl, hstop, hstop.symm ▸ hcut.2⟩

theorem tryFrom_eq_some {n : ℕ} {value : UInt32} (h : tryFrom n = some value) : value.toNat = n := by
  unfold tryFrom at h
  split_ifs at h with hlt
  obtain rfl := Option.some.inj h
  exact UInt32.toNat_ofNat_of_lt' hlt

theorem tailRun_eq_some (h : tailRun oldEndCol newEndCol run = some run') :
    oldEndCol < run.stop.toNat ∧ run'.start.toNat = max run.start.toNat oldEndCol - oldEndCol + newEndCol ∧
      run'.stop.toNat = run.stop.toNat - oldEndCol + newEndCol := by
  unfold tailRun at h
  split_ifs at h with hend
  obtain ⟨start, hstart, h⟩ := Option.bind_eq_some_iff.mp h
  obtain ⟨stop, hstop, h⟩ := Option.bind_eq_some_iff.mp h
  obtain rfl := Option.some.inj h
  exact ⟨by omega, tryFrom_eq_some hstart, tryFrom_eq_some hstop⟩

/-- The runs at the head of a row end before the edit. -/
theorem mem_headRuns {found : Option IndexedLineRuns} (h : run' ∈ headRuns found startCol) :
    run'.start.toNat < run'.stop.toNat ∧ run'.stop.toNat ≤ startCol := by
  obtain ⟨run, -, hrun⟩ := List.mem_filterMap.mp h
  obtain ⟨-, hstop, hlt⟩ := headRun_eq_some hrun
  exact ⟨hlt, by omega⟩

/-- Those at its tail start behind it. -/
theorem mem_tailRuns {found : Option IndexedLineRuns} (h : run' ∈ tailRuns found oldEndCol newEndCol) :
    newEndCol ≤ run'.start.toNat := by
  obtain ⟨run, -, hrun⟩ := List.mem_filterMap.mp h
  obtain ⟨-, hstart, -⟩ := tailRun_eq_some hrun
  omega

theorem inside_headRuns (found : Option IndexedLineRuns) {n : ℕ} (h : startCol ≤ n) : Inside (headRuns found startCol) n :=
  fun _ hrun => ⟨(mem_headRuns hrun).1.le, (mem_headRuns hrun).2.trans h⟩

theorem inside_tailRuns {rest : ℕ} (h : Inside runs (oldEndCol + rest)) :
    Inside (tailRuns (some runs) oldEndCol newEndCol) (newEndCol + rest) := by
  intro run' hrun'
  obtain ⟨run, hmem, hrun⟩ := List.mem_filterMap.mp hrun'
  obtain ⟨hend, hstart, hstop⟩ := tailRun_eq_some hrun
  obtain ⟨hle, hinside⟩ := h run hmem
  omega

theorem ordered_headRuns (hkey : key = IndexedRun.start ∨ key = IndexedRun.stop) (h : Ordered key runs) :
    Ordered key (headRuns (some runs) startCol) := by
  refine List.Pairwise.filterMap _ (fun a b hab a' ha b' hb => ?_) h
  obtain ⟨hstart, hstop, -⟩ := headRun_eq_some ha
  obtain ⟨hstart', -, -⟩ := headRun_eq_some hb
  have hstart := congrArg UInt32.toNat hstart
  have hstart' := congrArg UInt32.toNat hstart'
  rcases hkey with rfl | rfl <;> omega

theorem ordered_tailRuns (hkey : key = IndexedRun.start ∨ key = IndexedRun.stop) (h : Ordered key runs) :
    Ordered key (tailRuns (some runs) oldEndCol newEndCol) := by
  refine List.Pairwise.filterMap _ (fun a b hab a' ha b' hb => ?_) h
  obtain ⟨hend, hstart, hstop⟩ := tailRun_eq_some ha
  obtain ⟨-, hstart', -⟩ := tailRun_eq_some hb
  rcases hkey with rfl | rfl <;> omega

theorem ordered_append (hkey : key = IndexedRun.start ∨ key = IndexedRun.stop) {found found' : Option IndexedLineRuns}
    (h : Ordered key (headRuns found startCol)) (h' : Ordered key (tailRuns found' oldEndCol newEndCol))
    (hle : startCol ≤ newEndCol) : Ordered key (headRuns found startCol ++ tailRuns found' oldEndCol newEndCol) := by
  refine List.pairwise_append.mpr ⟨h, h', fun a ha b hb => ?_⟩
  obtain ⟨hlt, hstop⟩ := mem_headRuns ha
  have hstart := mem_tailRuns hb
  rcases hkey with rfl | rfl <;> omega

/-- What stands in the place of the rows of an edit. -/
theorem getElem?_replacement (hnew : edit.startPoint.row ≤ edit.newEndPoint.row)
    {first last : Option IndexedLineRuns} {i : ℕ} (h : (replacement edit first last)[i]? = some runs) :
    (i = 0 ∧ edit.newEndPoint.row = edit.startPoint.row ∧
        runs = headRuns first edit.startPoint.column ++
          tailRuns last edit.oldEndPoint.column edit.newEndPoint.column) ∨
      (i = 0 ∧ runs = headRuns first edit.startPoint.column) ∨
      (i = edit.newEndPoint.row - edit.startPoint.row ∧
        runs = tailRuns last edit.oldEndPoint.column edit.newEndPoint.column) ∨ runs = [] := by
  unfold replacement at h
  dsimp only at h
  split_ifs at h with hrow
  · cases i with
    | zero => exact .inl ⟨rfl, hrow, (Option.some.inj h).symm⟩
    | succ i => exact nomatch h
  · rcases Nat.lt_trichotomy i (edit.newEndPoint.row - edit.startPoint.row - 1 + 1) with hlt | rfl | hgt
    · rw [List.getElem?_append_left (by simpa using hlt)] at h
      cases i with
      | zero => exact .inr (.inl ⟨rfl, (Option.some.inj h).symm⟩)
      | succ i =>
        rw [List.getElem?_cons_succ, List.getElem?_replicate, if_pos (by omega)] at h
        exact .inr (.inr (.inr (Option.some.inj h).symm))
    · rw [List.getElem?_append_right (by simp), List.length_cons, List.length_replicate, Nat.sub_self] at h
      exact .inr (.inr (.inl ⟨by omega, (Option.some.inj h).symm⟩))
    · rw [List.getElem?_eq_none (by simp; omega)] at h
      exact nomatch h

/-- The runs of every row stand inside of its text, up to the newline. -/
def RunsInside (hl : HighlightRows) (doc : CodeDocument) : Prop :=
  ∀ (i : ℕ) (runs : IndexedLineRuns) (row : Str), hl.rows[i]? = some runs → (doc.text.splitOn '\n')[i]? = some row → Inside runs (size row)

def RunsOrdered (key : IndexedRun → UInt32) (hl : HighlightRows) : Prop := ∀ runs ∈ hl.rows, Ordered key runs

/-- The runs of the rows that an edit wrote. -/
theorem written_runs {doc' : CodeDocument} (h : Applies edit doc.text doc'.text) (hone : OnePerLine hl doc) {i : ℕ}
    (hbefore : rowBefore edit i = none) (hruns : (interpolateInPlace hl doc' edit).rows[i]? = some runs) :
    edit.startPoint.row ≤ i ∧
      (replacement edit hl.rows[edit.startPoint.row]? hl.rows[edit.oldEndPoint.row]?)[i - edit.startPoint.row]? =
        some runs := by
  have hrewrites := Applies.rewrites h
  have hold := hrewrites.oldRow_le
  have hlt := hrewrites.oldRow_lt
  have hrows := hone.1
  rw [lenLines_eq] at hrows
  have hle : edit.startPoint.row ≤ hl.rows.length := by omega
  have hmake := rowPatch_make hold hl.rows
  have hlength : ((rowPatch edit).make ((rowPatch edit).segment hl.rows)).length =
      edit.newEndPoint.row - edit.startPoint.row + 1 := by
    rw [hmake]
    exact length_replacement hrewrites.newRow_le _ _
  obtain ⟨hfirst, -, hget⟩ := getElem?_written hle hlength hbefore
  rw [(interpolateInPlace_eq h hone).1] at hruns
  rw [← hmake, ← hget]
  exact ⟨hfirst, hruns⟩

theorem interpolateInPlace_inside {doc' : CodeDocument} (h : Applies edit doc.text doc'.text) (hone : OnePerLine hl doc)
    (hinside : RunsInside hl doc) : RunsInside (interpolateInPlace hl doc' edit) doc' := by
  intro i runs row hruns hrow
  have hrewrites := Applies.rewrites h
  have holdlt := hrewrites.oldRow_lt
  have hrows := hone.1
  rw [lenLines_eq] at hrows
  cases hbefore : rowBefore edit i with
  | some old =>
    obtain ⟨htext, hsame, -⟩ := (interpolateInPlace_kept h hone).kept i old hbefore
    exact hinside old runs row (hsame.symm.trans hruns) (htext.symm.trans hrow)
  | none =>
    obtain ⟨hfirst, hget⟩ := written_runs h hone hbefore hruns
    obtain ⟨lastRuns, hlastRuns⟩ : ∃ lastRuns, hl.rows[edit.oldEndPoint.row]? = some lastRuns :=
      ⟨_, List.getElem?_eq_getElem (by omega)⟩
    obtain ⟨lastRow, hlastRow⟩ : ∃ lastRow, (doc.text.splitOn '\n')[edit.oldEndPoint.row]? = some lastRow :=
      ⟨_, List.getElem?_eq_getElem holdlt⟩
    have hlast := hinside _ lastRuns lastRow hlastRuns hlastRow
    have hhead (hi : i = edit.startPoint.row) : edit.startPoint.column ≤ size row := hrewrites.head row (hi ▸ hrow)
    have htail (hi : i = edit.newEndPoint.row) :
        Inside (tailRuns (some lastRuns) edit.oldEndPoint.column edit.newEndPoint.column) (size row) := by
      obtain ⟨rest, hsize, hsize'⟩ := hrewrites.tail lastRow row hlastRow (hi ▸ hrow)
      rw [hsize']
      exact inside_tailRuns (hsize ▸ hlast)
    have hnew := hrewrites.newRow_le
    rw [hlastRuns] at hget
    rcases getElem?_replacement hnew hget with ⟨hi, hsame, rfl⟩ | ⟨hi, rfl⟩ | ⟨hi, rfl⟩ | rfl
    · intro run hrun
      rcases List.mem_append.mp hrun with hrun | hrun
      · exact inside_headRuns _ (hhead (by omega)) run hrun
      · exact htail (by omega) run hrun
    · exact inside_headRuns _ (hhead (by omega))
    · exact htail (by omega)
    · exact fun _ hrun => absurd hrun List.not_mem_nil

theorem interpolateInPlace_ordered {doc' : CodeDocument} (hkey : key = IndexedRun.start ∨ key = IndexedRun.stop)
    (h : Applies edit doc.text doc'.text) (hone : OnePerLine hl doc) (hordered : RunsOrdered key hl) :
    RunsOrdered key (interpolateInPlace hl doc' edit) := by
  intro runs hmem
  obtain ⟨i, hruns⟩ := List.mem_iff_getElem?.mp hmem
  have hrewrites := Applies.rewrites h
  cases hbefore : rowBefore edit i with
  | some old =>
    obtain ⟨-, hsame, -⟩ := (interpolateInPlace_kept h hone).kept i old hbefore
    exact hordered runs (List.mem_of_getElem? (hsame.symm.trans hruns))
  | none =>
    obtain ⟨-, hget⟩ := written_runs h hone hbefore hruns
    have hfound (found : Option IndexedLineRuns) (hfound : ∀ runs, found = some runs → runs ∈ hl.rows) :
        Ordered key (headRuns found edit.startPoint.column) ∧
          Ordered key (tailRuns found edit.oldEndPoint.column edit.newEndPoint.column) := by
      cases found with
      | none => exact ⟨.nil, .nil⟩
      | some runs =>
        have horder := hordered runs (hfound runs rfl)
        exact ⟨ordered_headRuns hkey horder, ordered_tailRuns hkey horder⟩
    obtain ⟨hhead, -⟩ := hfound hl.rows[edit.startPoint.row]? fun _ => List.mem_of_getElem?
    obtain ⟨-, htail⟩ := hfound hl.rows[edit.oldEndPoint.row]? fun _ => List.mem_of_getElem?
    rcases getElem?_replacement hrewrites.newRow_le hget with ⟨-, hsame, rfl⟩ | ⟨-, rfl⟩ | ⟨-, rfl⟩ | rfl
    · exact ordered_append hkey hhead htail (hrewrites.columns hsame)
    · exact hhead
    · exact htail
    · exact .nil

/-! ### A whole batch -/

theorem interpolateEach_kept (hleads : Leads doc steps) (hone : OnePerLine hl doc) :
    Kept (origin (steps.map Prod.fst)) doc (lastDocument doc steps) hl (interpolateEach hl steps) := by
  induction steps generalizing hl doc with
  | nil =>
    refine ⟨fun row old horigin => ?_, fun _ horigin => nomatch horigin⟩
    obtain rfl := Option.some.inj horigin
    exact ⟨rfl, rfl, rfl⟩
  | cons step steps ih =>
    obtain ⟨edit, doc'⟩ := step
    obtain ⟨happlies, hleads⟩ := hleads
    exact (interpolateInPlace_kept happlies hone).trans (ih hleads (interpolateInPlace_eq happlies hone).2)

theorem interpolateEach_inside (hleads : Leads doc steps) (hone : OnePerLine hl doc) (hinside : RunsInside hl doc) :
    RunsInside (interpolateEach hl steps) (lastDocument doc steps) := by
  induction steps generalizing hl doc with
  | nil => exact hinside
  | cons step steps ih =>
    obtain ⟨edit, doc'⟩ := step
    obtain ⟨happlies, hleads⟩ := hleads
    exact ih hleads (interpolateInPlace_eq happlies hone).2 (interpolateInPlace_inside happlies hone hinside)

theorem interpolateEach_ordered (hkey : key = IndexedRun.start ∨ key = IndexedRun.stop) (hleads : Leads doc steps)
    (hone : OnePerLine hl doc) (hordered : RunsOrdered key hl) : RunsOrdered key (interpolateEach hl steps) := by
  induction steps generalizing hl doc with
  | nil => exact hordered
  | cons step steps ih =>
    obtain ⟨edit, doc'⟩ := step
    obtain ⟨happlies, hleads⟩ := hleads
    exact ih hleads (interpolateInPlace_eq happlies hone).2 (interpolateInPlace_ordered hkey happlies hone hordered)

theorem Kept.fresh {origin : ℕ → Option ℕ} {doc doc' : CodeDocument} {hl hl' : HighlightRows}
    (h : Kept origin doc doc' hl hl') {row : ℕ} (hfresh : hl'.rowStates[row]? = some .fresh) :
    ∃ old, origin row = some old ∧ hl.rowStates[old]? = some .fresh ∧
      (doc'.text.splitOn '\n')[row]? = (doc.text.splitOn '\n')[old]? ∧ hl'.rows[row]? = hl.rows[old]? := by
  cases horigin : origin row with
  | none => exact nomatch (h.stale row horigin).symm.trans hfresh
  | some old =>
    obtain ⟨htext, hruns, hstate⟩ := h.kept row old horigin
    exact ⟨old, rfl, hstate.symm.trans hfresh, htext, hruns⟩

/-- **A batch** does what its edits do one after the other. It gives one entry for each line, a row that stays fresh is
an old one with its text and its runs, and the runs stay inside of the rows and in order. -/
theorem interpolateBatch_spec (hleads : Leads doc steps) (horder : descendsWithoutOverlap (steps.map Prod.fst) = true)
    (hone : OnePerLine hl doc) (hinside : RunsInside hl doc) :
    let doc' := lastDocument doc steps
    let edits := steps.map Prod.fst
    let hl' := interpolateBatch hl doc' edits
    hl' = interpolateEach hl steps ∧
      ((rebuilt hl edits).rows.length = lenLines doc'.text ∧ (rebuilt hl edits).states.length = lenLines doc'.text) ∧
      (∀ row, hl'.rowStates[row]? = some .fresh → ∃ old, origin edits row = some old ∧
        hl.rowStates[old]? = some .fresh ∧ (doc'.text.splitOn '\n')[row]? = (doc.text.splitOn '\n')[old]? ∧
        hl'.rows[row]? = hl.rows[old]?) ∧
      RunsInside hl' doc' ∧
      (RunsOrdered IndexedRun.stop hl → RunsOrdered IndexedRun.stop hl') ∧
      (RunsOrdered IndexedRun.start hl → RunsOrdered IndexedRun.start hl') := by
  obtain ⟨hrows, hstates⟩ := rebuilt_eq hleads horder hone
  obtain ⟨-, hlast⟩ := interpolateEach_eq hleads hone
  dsimp only
  rw [interpolateBatch_eq hleads horder hone, hrows, hstates]
  exact ⟨rfl, hlast, fun row => (interpolateEach_kept hleads hone).fresh, interpolateEach_inside hleads hone hinside,
    interpolateEach_ordered (.inr rfl) hleads hone, interpolateEach_ordered (.inl rfl) hleads hone⟩

def threeRows : HighlightRows :=
  ⟨[[⟨0, 2, ⟨0, 0⟩⟩], [⟨0, 1, ⟨0, 0⟩⟩], [⟨0, 2, ⟨0, 1⟩⟩]], [.fresh, .fresh, .stale]⟩

/-- The last row is split, then the first one made shorter. -/
def twoSteps : List (CodeEdit × CodeDocument) :=
  [(⟨7, 7, 8, ⟨2, 1⟩, ⟨2, 1⟩, ⟨3, 0⟩⟩, .new "ab\ncd\ne\nf".toList),
    (⟨1, 2, 1, ⟨0, 1⟩, ⟨0, 2⟩, ⟨0, 1⟩⟩, .new "a\ncd\ne\nf".toList)]

theorem interpolateBatch_spec_twoSteps :
    let doc := CodeDocument.new "ab\ncd\nef".toList
    let doc' := lastDocument doc twoSteps
    let edits := twoSteps.map Prod.fst
    let hl' := interpolateBatch threeRows doc' edits
    hl' = interpolateEach threeRows twoSteps ∧
      ((rebuilt threeRows edits).rows.length = lenLines doc'.text ∧
        (rebuilt threeRows edits).states.length = lenLines doc'.text) ∧
      (∀ row, hl'.rowStates[row]? = some .fresh → ∃ old, origin edits row = some old ∧
        threeRows.rowStates[old]? = some .fresh ∧ (doc'.text.splitOn '\n')[row]? = (doc.text.splitOn '\n')[old]? ∧
        hl'.rows[row]? = threeRows.rows[old]?) ∧
      RunsInside hl' doc' ∧
      (RunsOrdered IndexedRun.stop threeRows → RunsOrdered IndexedRun.stop hl') ∧
      (RunsOrdered IndexedRun.start threeRows → RunsOrdered IndexedRun.start hl') := by
  have hleads : Leads (.new "ab\ncd\nef".toList) twoSteps :=
    ⟨⟨"ab\ncd\ne".toList, [], ['\n'], ['f'], by decide, by decide, by decide⟩,
      ⟨['a'], ['b'], [], "\ncd\ne\nf".toList, by decide, by decide, by decide⟩, trivial⟩
  have hinside : RunsInside threeRows (.new "ab\ncd\nef".toList) := by
    have hsplit : (CodeDocument.new "ab\ncd\nef".toList).text.splitOn '\n' = [['a', 'b'], ['c', 'd'], ['e', 'f']] := by
      decide
    intro i runs row hruns hrow
    rw [hsplit] at hrow
    match i with
    | 0 | 1 | 2 =>
      obtain rfl := Option.some.inj hruns
      obtain rfl := Option.some.inj hrow
      decide
    | i + 3 => exact nomatch hruns
  exact interpolateBatch_spec hleads (by decide) (by decide) hinside

/-- The way that `interpolate` takes does not matter. -/
theorem interpolate_eq (hleads : Leads doc steps) (horder : descendsWithoutOverlap (steps.map Prod.fst) = true)
    (hone : OnePerLine hl doc) :
    interpolate hl (lastDocument doc steps) (steps.map Prod.fst) = interpolateEach hl steps := by
  match steps with
  | [] => exact interpolateBatch_eq hleads horder hone
  | [_] => rfl
  | _ :: _ :: _ => exact interpolateBatch_eq hleads horder hone

/-! ### A carriage return -/

/-- The runs of every row stand inside of the text that the document gives for its line. -/
def TextInside (hl : HighlightRows) (doc : CodeDocument) : Prop :=
  ∀ (i : ℕ) (runs : IndexedLineRuns) (start stop : ℕ), hl.rows[i]? = some runs →
    doc.lineByteRange i = some (start, stop) → Inside runs (stop - start)

/-- The text of a line is its row without a carriage return at its end. -/
theorem TextInside.runsInside (h : TextInside hl doc) : RunsInside hl doc := by
  intro i runs row hruns hrow
  obtain ⟨hlt, hget⟩ := List.getElem?_eq_some_iff.mp hrow
  have hsplit : doc.text.splitOn '\n' = (doc.text.splitOn '\n').take i ++ row :: (doc.text.splitOn '\n').drop (i + 1) := by
    rw [← hget, List.getElem_cons_drop, List.take_append_drop]
  have hlength : ((doc.text.splitOn '\n').take i).length = i := by
    rw [List.length_take]
    omega
  have hrange := lineByteRange_eq hsplit
  rw [hlength] at hrange
  have hle : size (stripCr row) ≤ size row := by
    unfold stripCr
    split_ifs
    · exact size_le_of_prefix (List.dropLast_prefix row)
    · exact Nat.le_refl _
  intro run hrun
  obtain ⟨hstart, hstop⟩ := h i runs _ _ hruns hrange run hrun
  rw [Nat.add_sub_cancel_left] at hstop
  exact ⟨hstart, hstop.trans hle⟩

/-- The end of a line is removed up to a carriage return in it. -/
def removal : CodeEdit := ⟨3, 5, 3, ⟨0, 3⟩, ⟨0, 5⟩, ⟨0, 3⟩⟩

def oneRun : HighlightRows := ⟨[[⟨0, 5, ⟨0, 0⟩⟩]], [.fresh]⟩

theorem leads_removal : Leads (.new "ab\rcd".toList) [(removal, .new "ab\r".toList)] :=
  ⟨⟨"ab\r".toList, "cd".toList, [], [], by decide, by decide, by decide⟩, trivial⟩

theorem not_textInside : ¬ ∀ (hl : HighlightRows) (doc : CodeDocument) (steps : List (CodeEdit × CodeDocument)),
    Leads doc steps → descendsWithoutOverlap (steps.map Prod.fst) = true → OnePerLine hl doc → TextInside hl doc →
      TextInside (interpolateBatch hl (lastDocument doc steps) (steps.map Prod.fst)) (lastDocument doc steps) := by
  intro hall
  have hbefore : TextInside oneRun (.new "ab\rcd".toList) := by
    intro i runs start stop hruns hrange
    cases i with
    | zero =>
      obtain rfl := Option.some.inj hruns
      have hline : (CodeDocument.new "ab\rcd".toList).lineByteRange 0 = some (0, 5) := by decide
      cases hline.symm.trans hrange
      decide
    | succ i => exact nomatch hruns
  have hafter := hall oneRun _ _ leads_removal rfl (by decide) hbefore 0 [⟨0, 3, ⟨0, 0⟩⟩] 0 2 (by decide)
    (by decide)
  exact absurd hafter (by decide)

end Paneflow.Code.RowRuns
