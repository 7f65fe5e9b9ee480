import Paneflow.Code.DocRows
import Paneflow.Transition

/-!
# The longest line of a document

`CodeDocument` keeps the length of its longest line while it is edited: the rows that an edit leaves are measured, and a
flag says that the longest line may have been cut. A scan of a snapshot clears the flag, when the document has not
changed since. The measure of a row leaves out a carriage return at its end, and the scan counts it.

The system takes one edit, snapshot or measurement at a time. `Bounded` is what the two fields stand for; it holds as
long as no measured row ends with a carriage return (`reach_bounded`).
-/

namespace Paneflow.Code.LongestLine

open Paneflow.Code.Document Paneflow.Code.Points Paneflow.Code.DocRows Paneflow.Rows Paneflow.Transition Paneflow.Utf8

/-! ### The scan -/

def measureLoop : (longest current : ℕ) → Str → ℕ
  | longest, current, [] => max longest current
  | longest, current, c :: text =>
    if c = '\n' then measureLoop (max longest current) 0 text else measureLoop longest (current + 1) text

def measureRopeLines (text : Str) : ℕ := measureLoop 0 0 text

structure Snapshot where
  text : Str
  revision : ℕ
  /-- The number of edits before the snapshot, which the program does not keep. -/
  taken : ℕ
  deriving DecidableEq

def longestLineSnapshot (doc : CodeDocument) (clock : ℕ) : Option Snapshot :=
  if doc.longestLineStale then some ⟨doc.text, doc.revision, clock⟩ else none

def applyLongestLineMeasurement (doc : CodeDocument) (revision longest : ℕ) : CodeDocument :=
  if revision ≠ doc.revision ∨ doc.longestLineStale = false then doc
  else { doc with longestLineChars := longest, longestLineStale := false }

/-! ### Runs -/

structure State where
  doc : CodeDocument
  /-- The snapshots whose measurements have not arrived. -/
  snapshots : List Snapshot
  /-- The number of edits so far. -/
  clock : ℕ
  deriving DecidableEq

inductive Op where
  | insert (offset : ℕ) (text : Str)
  | remove (start stop : ℕ)
  | snapshot
  | measured (snapshot : Snapshot)

/-- The state after an operation of the document that gives an edit, or none. -/
def State.edited (s : State) (outcome : CodeDocument × Option CodeEdit) : State :=
  { s with
    doc := outcome.1
    clock := if outcome.2.isSome then s.clock + 1 else s.clock }

def State.step (s : State) : Op → Option State
  | .insert offset text => some (s.edited (s.doc.insert offset text))
  | .remove start stop => some (s.edited (s.doc.remove start stop))
  | .snapshot => some { s with snapshots := s.snapshots ++ (longestLineSnapshot s.doc s.clock).toList }
  | .measured snapshot =>
    if snapshot ∈ s.snapshots then
      some { s with
        doc := applyLongestLineMeasurement s.doc snapshot.revision (measureRopeLines snapshot.text)
        snapshots := s.snapshots.erase snapshot }
    else none

/-- A document as it is loaded. -/
def Loaded (s : State) : Prop :=
  ∃ raw ending readOnly, s = ⟨{ CodeDocument.new raw with lineEnding := ending, readOnly }, [], 0⟩

/-- The row does not end with a carriage return. -/
def CleanRow (text : Str) (row : ℕ) : Prop := ((text.splitOn '\n')[row]?.bind List.getLast?) ≠ some '\r'

instance (text : Str) (row : ℕ) : Decidable (CleanRow text row) := inferInstanceAs (Decidable (_ ≠ _))

/-- The rows that an insertion measures: those it leaves, and the row it splits. -/
def InsertClean (x y : Str) (edit : CodeEdit) : Prop :=
  (edit.startPoint.row ≠ edit.newEndPoint.row → CleanRow x edit.startPoint.row) ∧
    ∀ row, edit.startPoint.row ≤ row → row ≤ edit.newEndPoint.row → CleanRow y row

/-- The rows that a removal measures: the row it leaves, and the row it shortens. -/
def RemoveClean (x y : Str) (edit : CodeEdit) : Prop :=
  (edit.startPoint.row = edit.oldEndPoint.row → CleanRow x edit.startPoint.row) ∧ CleanRow y edit.startPoint.row

/-- No row that the step measures ends with a carriage return, and a measurement arrives before the revision has come
around. -/
def Clean (s : State) : Op → Prop
  | .insert offset text => ∀ edit, (s.doc.insert offset text).2 = some edit →
      InsertClean s.doc.text (s.doc.insert offset text).1.text edit
  | .remove start stop => ∀ edit, (s.doc.remove start stop).2 = some edit →
      RemoveClean s.doc.text (s.doc.remove start stop).1.text edit
  | .snapshot => True
  | .measured snapshot => s.clock < snapshot.taken + 2 ^ 64

/-- The kept length is at least that of the longest line, and it is that length where the flag is clear. -/
def Bounded (doc : CodeDocument) : Prop :=
  measureRopeLines doc.text ≤ doc.longestLineChars ∧
    (doc.longestLineStale = false → doc.longestLineChars = measureRopeLines doc.text)

/-! ### Lengths of lines -/

/-- No line is longer than `v`. -/
def Within (rows : List Str) (v : ℕ) : Prop := ∀ row ∈ rows, row.length ≤ v

theorem within_append {P Q : List Str} {v : ℕ} : Within (P ++ Q) v ↔ Within P v ∧ Within Q v := List.forall_mem_append

theorem measureLoop_le {longest current v : ℕ} {text : Str} :
    measureLoop longest current text ≤ v ↔ longest ≤ v ∧
      Within ((text.splitOn '\n').modifyHead (List.replicate current 'x' ++ ·)) v := by
  induction text generalizing longest current with
  | nil => simp [measureLoop, Within]
  | cons c text ih =>
    rw [measureLoop, List.splitOn_cons_eq_if_modifyHead]
    by_cases hc : c = '\n'
    · subst hc
      obtain ⟨row, rows, hsplit⟩ := exists_cons '\n' text
      rw [if_pos rfl, ih, if_pos (by simp), hsplit]
      simp [Within, and_assoc]
    · rw [if_neg hc, ih, if_neg (by simpa using hc), List.modifyHead_modifyHead]
      obtain ⟨row, rows, hsplit⟩ := exists_cons '\n' text
      rw [hsplit]
      simp [Within, Nat.add_assoc, Nat.add_comm 1]

/-- **The scan** finds the length of the longest line. -/
theorem measureRopeLines_le {text : Str} {v : ℕ} : measureRopeLines text ≤ v ↔ Within (text.splitOn '\n') v := by
  unfold measureRopeLines
  obtain ⟨row, rows, hsplit⟩ := exists_cons '\n' text
  rw [measureLoop_le, hsplit]
  simp

theorem measureTextLines_eq (text : Str) : measureTextLines text = measureRopeLines text := by
  refine eq_of_forall_ge_iff fun v => ?_
  rw [measureRopeLines_le]
  unfold measureTextLines
  obtain ⟨row, rows, hsplit⟩ := exists_cons '\n' text
  have hne : ((text.splitOn '\n').map List.length) ≠ [] := by simp [hsplit]
  obtain ⟨m, hm⟩ := Option.isSome_iff_exists.1 (List.isSome_max?_of_ne_nil hne)
  rw [hm, Option.getD_some, List.max?_le_iff hm]
  simp [Within]

/-- Measuring rows: the kept length grows to the longest of them. -/
theorem remeasureRows_le (doc : CodeDocument) {first last v : ℕ} (hlast : last < lenLines doc.text) :
    (doc.remeasureRows first last).longestLineChars ≤ v ↔
      doc.longestLineChars ≤ v ∧ ∀ row, first ≤ row → row ≤ last → doc.lineChars row ≤ v := by
  have hfold : ∀ (rows : List ℕ) (n : ℕ), rows.foldl (fun longest row => max longest (doc.lineChars row)) n ≤ v ↔
      n ≤ v ∧ ∀ row ∈ rows, doc.lineChars row ≤ v := by
    intro rows
    induction rows with
    | nil => simp
    | cons row rows ih =>
      intro n
      rw [List.foldl_cons, ih]
      simp [and_assoc]
  unfold CodeDocument.remeasureRows
  dsimp only
  rw [hfold, Nat.min_eq_left (by omega)]
  simp only [List.mem_filter, List.mem_range, decide_eq_true_eq]
  refine and_congr Iff.rfl ⟨fun h row h1 h2 => h row ⟨by omega, h1⟩, fun h row hrow => h row hrow.2 (by omega)⟩

/-! ### One edit -/

variable {doc doc' : CodeDocument} {P M M' Q : List Str}

theorem lineChars_clean {row : Str} (h : doc.text.splitOn '\n' = P ++ row :: Q) (hclean : CleanRow doc.text P.length) :
    doc.lineChars P.length = row.length := by
  rw [lineChars_eq h]
  unfold CleanRow at hclean
  rw [h, List.getElem?_append_right (Nat.le_refl _), Nat.sub_self] at hclean
  unfold stripCr
  rw [if_neg (by simpa using hclean)]

/-- The measures of some rows that do not end with a carriage return. -/
theorem within_measures (h : doc.text.splitOn '\n' = P ++ M ++ Q) {v : ℕ}
    (hclean : ∀ row, P.length ≤ row → row < P.length + M.length → CleanRow doc.text row) :
    (∀ row, P.length ≤ row → row < P.length + M.length → doc.lineChars row ≤ v) ↔ Within M v := by
  have hrow : ∀ M₁ line M₂, M = M₁ ++ line :: M₂ → doc.lineChars (P.length + M₁.length) = line.length := by
    rintro M₁ line M₂ rfl
    have hclean := hclean (P.length + M₁.length) (by omega) (by simp)
    rw [← List.length_append] at hclean ⊢
    exact @lineChars_clean doc (P ++ M₁) (M₂ ++ Q) line (by rw [h]; simp) hclean
  constructor
  · intro hall line hline
    obtain ⟨M₁, M₂, hM⟩ := List.append_of_mem hline
    rw [← hrow M₁ line M₂ hM]
    exact hall _ (by omega) (by rw [hM]; simp)
  · intro hwithin row h1 h2
    have hlt : row - P.length < M.length := by omega
    have hM : M = M.take (row - P.length) ++ M[row - P.length] :: M.drop (row - P.length + 1) := by simp
    have hchars := hrow _ _ _ hM
    rw [List.length_take, Nat.min_eq_left (by omega), Nat.add_sub_cancel' h1] at hchars
    rw [hchars]
    exact hwithin _ (List.getElem_mem hlt)

/-- **An edit** that replaces the rows `M` by `M'` and measures these. The flag stays clear only where one row is
replaced that was not the longest, or that has not become shorter. -/
theorem Bounded.replace (h : Bounded doc) (hx : doc.text.splitOn '\n' = P ++ M ++ Q)
    (hy : doc'.text.splitOn '\n' = P ++ M' ++ Q)
    (hlongest : ∀ v, doc'.longestLineChars ≤ v ↔ doc.longestLineChars ≤ v ∧ Within M' v)
    (hstale : doc'.longestLineStale = false → doc.longestLineStale = false ∧
      ∃ line, M = [line] ∧ (line.length ≠ doc.longestLineChars ∨ ∃ row ∈ M', line.length ≤ row.length)) :
    Bounded doc' := by
  obtain ⟨hle, heq⟩ := h
  have hold : ∀ v, doc.longestLineChars ≤ v → Within P v ∧ Within M v ∧ Within Q v := by
    intro v hv
    have hwithin := measureRopeLines_le.1 (hle.trans hv)
    rw [hx, within_append, within_append, and_assoc] at hwithin
    exact hwithin
  have hgrown : ∀ v, doc'.longestLineChars ≤ v → measureRopeLines doc'.text ≤ v := by
    intro v hv
    obtain ⟨hv, hM'⟩ := (hlongest v).1 hv
    obtain ⟨hP, -, hQ⟩ := hold v hv
    rw [measureRopeLines_le, hy, within_append, within_append]
    exact ⟨⟨hP, hM'⟩, hQ⟩
  refine ⟨hgrown _ (Nat.le_refl _), fun hclear => eq_of_forall_ge_iff fun v => ⟨hgrown v, fun hv => ?_⟩⟩
  obtain ⟨hclear, line, rfl, hline⟩ := hstale hclear
  rw [measureRopeLines_le, hy, within_append, within_append] at hv
  obtain ⟨⟨hP, hM'⟩, hQ⟩ := hv
  refine (hlongest v).2 ⟨?_, hM'⟩
  rcases hline with hne | ⟨row, hrow, hlen⟩
  · -- another row is as long as the longest one
    obtain ⟨-, hlen, -⟩ := hold _ (Nat.le_refl _)
    have hlen := hlen line (by simp)
    by_contra hlt
    have hless : measureRopeLines doc.text ≤ doc.longestLineChars - 1 := by
      rw [measureRopeLines_le, hx, within_append, within_append]
      refine ⟨⟨fun row hrow => ?_, fun row hrow => ?_⟩, fun row hrow => ?_⟩
      · have := hP row hrow
        omega
      · rw [List.mem_singleton.1 hrow]
        omega
      · have := hQ row hrow
        omega
    have hsame := heq hclear
    omega
  · rw [heq hclear, measureRopeLines_le, hx, within_append, within_append]
    refine ⟨⟨hP, fun other hother => ?_⟩, hQ⟩
    rw [List.mem_singleton.1 hother]
    exact hlen.trans (hM' row hrow)

/-- What an insertion does to the measures. -/
theorem insert_measures (hro : doc.readOnly = none) {p q : Str} (htext : doc.text = p ++ q) {offset : ℕ}
    (hoffset : doc.snapToBoundary offset = size p) {text : Str} (hne : normalizeNewlines text ≠ []) :
    ∃ doc' edit, doc.insert offset text = (doc', some edit) ∧ doc'.text = p ++ normalizeNewlines text ++ q ∧
      edit.startPoint.row = p.count '\n' ∧
      edit.newEndPoint.row = p.count '\n' + (normalizeNewlines text).count '\n' ∧
      doc'.revision = nextRevision doc.revision ∧
      doc'.longestLineStale = (doc.longestLineStale ||
        decide ('\n' ∈ normalizeNewlines text ∧ doc.lineChars (p.count '\n') = doc.longestLineChars)) ∧
      ∀ v, doc'.longestLineChars ≤ v ↔ doc.longestLineChars ≤ v ∧ ∀ row, p.count '\n' ≤ row →
        row ≤ p.count '\n' + (normalizeNewlines text).count '\n' → doc'.lineChars row ≤ v := by
  have hstart : (pointOf doc.text (size p)).row = p.count '\n' := by rw [htext, pointOf_row]
  have hchar : byteToChar doc.text (size p) = p.length := by rw [htext, byteToChar_append]
  have hnew : doc.text.take p.length ++ normalizeNewlines text ++ doc.text.drop p.length =
      p ++ normalizeNewlines text ++ q := by
    rw [htext, List.take_left, List.drop_left]
  have hend : (pointOf (p ++ normalizeNewlines text ++ q) (size p + size (normalizeNewlines text))).row =
      p.count '\n' + (normalizeNewlines text).count '\n' := by
    rw [← size_append, pointOf_row, List.count_append]
  unfold CodeDocument.insert
  rw [if_neg (by simp [CodeDocument.isReadOnly, hro]), hoffset]
  dsimp only
  rw [if_neg (by simpa using hne)]
  simp only [hchar, hnew, pointAt_eq, hstart, hend]
  refine ⟨_, _, rfl, rfl, hstart, hend, rfl, rfl, fun v => ?_⟩
  refine remeasureRows_le _ ?_
  simp only [lenLines, List.count_append]
  omega

/-- What a removal does to the measures. -/
theorem remove_measures (hro : doc.readOnly = none) {p r q : Str} (htext : doc.text = p ++ r ++ q) {start stop : ℕ}
    (hstart : doc.snapToBoundary start = size p) (hstop : doc.snapToBoundary stop = size p + size r) (hne : r ≠ []) :
    ∃ doc' edit, doc.remove start stop = (doc', some edit) ∧ doc'.text = p ++ q ∧
      edit.startPoint.row = p.count '\n' ∧ edit.oldEndPoint.row = p.count '\n' + r.count '\n' ∧
      doc'.revision = nextRevision doc.revision ∧
      doc'.longestLineStale = (doc.longestLineStale ||
        decide (p.count '\n' ≠ p.count '\n' + r.count '\n' ∨ doc.lineChars (p.count '\n') = doc.longestLineChars)) ∧
      ∀ v, doc'.longestLineChars ≤ v ↔ doc.longestLineChars ≤ v ∧ ∀ row, p.count '\n' ≤ row →
        row ≤ p.count '\n' → doc'.lineChars row ≤ v := by
  have hpos : size r ≠ 0 := fun hzero => hne (size_eq_zero.1 hzero)
  have hrow : (doc.pointAt (size p)).row = p.count '\n' := by
    rw [pointAt_eq, htext, List.append_assoc, pointOf_row]
  have hend : (doc.pointAt (size p + size r)).row = p.count '\n' + r.count '\n' := by
    rw [pointAt_eq, htext, ← size_append, pointOf_row, List.count_append]
  obtain ⟨-, -, hchar, hchars⟩ := offsets_append htext
  have hnew : doc.text.take p.length ++ doc.text.drop (p.length + r.length) = p ++ q := by
    rw [htext, ← List.length_append, List.drop_left, List.append_assoc, List.take_left]
  unfold CodeDocument.remove
  rw [if_neg (by simp [CodeDocument.isReadOnly, hro]), hstart, hstop]
  dsimp only
  rw [if_neg (by omega)]
  simp only [hchar, hchars, hnew, hrow, hend]
  refine ⟨_, _, rfl, rfl, hrow, hend, rfl, rfl, fun v => ?_⟩
  refine remeasureRows_le _ ?_
  simp only [lenLines, List.count_append]
  omega

/-- What an operation that gives an edit, or none, does to the fields of a document besides its text. -/
def Counted (doc doc' : CodeDocument) (edit : Option CodeEdit) : Prop :=
  match edit with
  | none => doc' = doc
  | some _ => doc'.revision = nextRevision doc.revision

/-- The row that the text around a place is on. -/
theorem rows_at (p q : Str) : ∃ P a b Q, p.splitOn '\n' = P ++ [a] ∧ q.splitOn '\n' = b :: Q ∧
    P.length = p.count '\n' ∧ (p ++ q).splitOn '\n' = P ++ [a ++ b] ++ Q := by
  obtain ⟨P, a, hp⟩ := exists_concat '\n' p
  obtain ⟨b, Q, hq⟩ := exists_cons '\n' q
  have hlength := length_splitOn '\n' p
  rw [hp] at hlength
  exact ⟨P, a, b, Q, hp, hq, by simpa using hlength, by rw [splitOn_append hp hq]; simp⟩

theorem insert_bounded {offset : ℕ} {text : Str} (h : Bounded doc)
    (hclean : ∀ edit, (doc.insert offset text).2 = some edit →
      InsertClean doc.text (doc.insert offset text).1.text edit) :
    Counted doc (doc.insert offset text).1 (doc.insert offset text).2 ∧ Bounded (doc.insert offset text).1 := by
  by_cases hnone : doc.isReadOnly = true ∨ (normalizeNewlines text).isEmpty = true
  · have heq : doc.insert offset text = (doc, none) := by
      unfold CodeDocument.insert
      rcases hnone with h | h <;> simp [h]
    rw [heq]
    exact ⟨rfl, h⟩
  · obtain ⟨hro, hne⟩ := not_or.1 hnone
    obtain ⟨p, q, htext, hsize⟩ := @snapToBoundary_boundary doc offset
    obtain ⟨doc', edit, heq, hnew, hstart, hend, hrevision, hstale, hlongest⟩ := insert_measures
      (by simpa [CodeDocument.isReadOnly] using hro) htext hsize.symm (show normalizeNewlines text ≠ [] by simpa using hne)
    rw [heq] at hclean ⊢
    obtain ⟨hsplit, hrows⟩ := hclean edit rfl
    rw [hstart, hend] at hrows hsplit
    generalize normalizeNewlines text = s at *
    obtain ⟨P, a, b, Q, hp, hq, hlength, hold⟩ := rows_at p q
    obtain ⟨M, hM, hcount⟩ := splitOn_part hp hq s
    rw [← htext] at hold
    rw [← hnew] at hM
    refine ⟨hrevision, h.replace hold hM (fun v => ?_) fun hclear => ?_⟩
    · rw [hlongest, ← within_measures hM fun row h1 h2 => hrows row (by omega) (by omega), hlength, hcount]
      refine and_congr Iff.rfl ⟨fun hall row h1 h2 => hall row h1 (by omega), fun hall row h1 h2 => hall row h1 (by omega)⟩
    · rw [hstale, Bool.or_eq_false_iff, decide_eq_false_iff_not, not_and_or] at hclear
      refine ⟨hclear.1, a ++ b, rfl, ?_⟩
      by_cases hnewline : '\n' ∈ s
      · have hpos := List.count_pos_iff.2 hnewline
        have hchars := lineChars_clean (by simpa using hold) (hlength ▸ hsplit (by omega))
        rw [hlength] at hchars
        exact .inl (hchars ▸ hclear.2.resolve_left (not_not.2 hnewline))
      · -- the row only grows
        have hs : s.splitOn '\n' = [] ++ [s] := List.splitOn_eq_singleton hnewline
        have hfront := splitOn_append hp hs
        have hrow := splitOn_append hfront hq
        rw [← hnew, hM] at hrow
        have hsame : M = [a ++ s ++ b] := by
          have heq : P ++ M = P ++ [a ++ s ++ b] := List.append_cancel_right (hrow.trans (by simp))
          exact List.append_cancel_left heq
        exact .inr ⟨a ++ s ++ b, by simp [hsame], by simp⟩

theorem remove_bounded {start stop : ℕ} (h : Bounded doc)
    (hclean : ∀ edit, (doc.remove start stop).2 = some edit →
      RemoveClean doc.text (doc.remove start stop).1.text edit) :
    Counted doc (doc.remove start stop).1 (doc.remove start stop).2 ∧ Bounded (doc.remove start stop).1 := by
  by_cases hnone : doc.isReadOnly = true ∨ doc.snapToBoundary stop ≤ doc.snapToBoundary start
  · have heq : doc.remove start stop = (doc, none) := by
      unfold CodeDocument.remove
      rcases hnone with h | h <;> simp [h]
    rw [heq]
    exact ⟨rfl, h⟩
  · obtain ⟨hro, hlt⟩ := not_or.1 hnone
    obtain ⟨p, r, q, htext, hp', hr'⟩ := boundary_split (@snapToBoundary_boundary doc start)
      (@snapToBoundary_boundary doc stop) (by omega)
    obtain ⟨doc', edit, heq, hnew, hstart, hend, hrevision, hstale, hlongest⟩ := remove_measures
      (by simpa [CodeDocument.isReadOnly] using hro) htext hp'.symm hr'.symm (by rintro rfl; simp at hr'; omega)
    rw [heq] at hclean ⊢
    obtain ⟨hsame, hrow⟩ := hclean edit rfl
    rw [hstart] at hrow hsame
    rw [hend] at hsame
    obtain ⟨P, a, b, Q, hp, hq, hlength, hM⟩ := rows_at p q
    obtain ⟨M, hold, hcount⟩ := splitOn_part hp hq r
    rw [← htext] at hold
    rw [← hnew] at hM
    refine ⟨hrevision, h.replace hold hM (fun v => ?_) fun hclear => ?_⟩
    · rw [hlongest, ← within_measures hM fun row h1 h2 => ?_, hlength]
      · refine and_congr Iff.rfl ⟨fun hall row h1 h2 => hall row h1 ?_, fun hall row h1 h2 => hall row h1 ?_⟩
        · simp at h2
          omega
        · simp
          omega
      · rw [List.length_singleton] at h2
        obtain rfl : row = p.count '\n' := by omega
        exact hrow
    · rw [hstale, Bool.or_eq_false_iff, decide_eq_false_iff_not, not_or] at hclear
      obtain ⟨hclear, hrows, hchars⟩ := hclear
      obtain ⟨line, rfl⟩ := List.length_eq_one_iff.1 (show M.length = 1 by omega)
      have hline := lineChars_clean (by simpa using hold) (hlength ▸ hsame (by omega))
      rw [hlength] at hline
      exact ⟨hclear, line, rfl, .inl (hline ▸ hchars)⟩

/-! ### Runs -/

structure Inv (s : State) : Prop where
  bounded : Bounded s.doc
  revision : s.doc.revision = s.clock % 2 ^ 64
  snapshots : ∀ snapshot ∈ s.snapshots, snapshot.taken ≤ s.clock ∧ snapshot.revision = snapshot.taken % 2 ^ 64 ∧
    (snapshot.taken = s.clock → snapshot.text = s.doc.text)

variable {s s' : State}

theorem inv_loaded (h : Loaded s) : Inv s := by
  obtain ⟨raw, ending, readOnly, rfl⟩ := h
  have hnew : (CodeDocument.new raw).longestLineChars = measureRopeLines (CodeDocument.new raw).text :=
    measureTextLines_eq _
  exact ⟨⟨hnew.ge, fun _ => hnew⟩, rfl, by simp⟩

theorem Inv.edited (h : Inv s) {outcome : CodeDocument × Option CodeEdit}
    (hcounted : Counted s.doc outcome.1 outcome.2) (hbounded : Bounded outcome.1) : Inv (s.edited outcome) := by
  obtain ⟨doc', _ | edit⟩ := outcome
  · obtain rfl : doc' = s.doc := hcounted
    exact ⟨hbounded, h.revision, h.snapshots⟩
  · refine ⟨hbounded, ?_, fun snapshot hmem => ?_⟩
    · have hrevision : doc'.revision = nextRevision s.doc.revision := hcounted
      show doc'.revision = (s.clock + 1) % 2 ^ 64
      rw [hrevision, h.revision, nextRevision]
      omega
    · obtain ⟨htaken, hrevision, -⟩ := h.snapshots snapshot hmem
      refine ⟨Nat.le_succ_of_le htaken, hrevision, fun heq => ?_⟩
      have hnow : snapshot.taken = s.clock + 1 := heq
      omega

/-- A measurement that is taken over is one of the text that the document still has. -/
theorem Inv.measured (h : Inv s) {snapshot : Snapshot} (hmem : snapshot ∈ s.snapshots)
    (hclock : s.clock < snapshot.taken + 2 ^ 64) :
    Bounded (applyLongestLineMeasurement s.doc snapshot.revision (measureRopeLines snapshot.text)) ∧
      (applyLongestLineMeasurement s.doc snapshot.revision (measureRopeLines snapshot.text)).text = s.doc.text ∧
      (applyLongestLineMeasurement s.doc snapshot.revision (measureRopeLines snapshot.text)).revision =
        s.doc.revision := by
  obtain ⟨htaken, hrevision, htext⟩ := h.snapshots snapshot hmem
  unfold applyLongestLineMeasurement
  split_ifs with hskip
  · exact ⟨h.bounded, rfl, rfl⟩
  · have hsame : snapshot.revision = s.doc.revision := not_not.1 (not_or.1 hskip).1
    rw [hrevision, h.revision] at hsame
    have htext := htext (by omega)
    rw [htext]
    exact ⟨⟨Nat.le_refl _, fun _ => rfl⟩, rfl, rfl⟩

theorem Inv.step (h : Inv s) {op : Op} (hclean : Clean s op) (hstep : s.step op = some s') : Inv s' := by
  cases op with
  | insert offset text =>
    obtain ⟨hcounted, hbounded⟩ := insert_bounded h.bounded hclean
    cases hstep
    exact h.edited hcounted hbounded
  | remove start stop =>
    obtain ⟨hcounted, hbounded⟩ := remove_bounded h.bounded hclean
    cases hstep
    exact h.edited hcounted hbounded
  | snapshot =>
    cases hstep
    refine ⟨h.bounded, h.revision, fun snapshot hmem => ?_⟩
    rcases List.mem_append.1 hmem with hmem | hmem
    · exact h.snapshots snapshot hmem
    · unfold longestLineSnapshot at hmem
      split_ifs at hmem
      · obtain rfl : snapshot = _ := by simpa using hmem
        exact ⟨Nat.le_refl _, h.revision, fun _ => rfl⟩
      · simp at hmem
  | measured snapshot =>
    unfold State.step at hstep
    dsimp only at hstep
    split_ifs at hstep with hmem
    cases hstep
    obtain ⟨hbounded, htext, hrevision⟩ := h.measured hmem hclean
    refine ⟨hbounded, hrevision.trans h.revision, fun other hother => ?_⟩
    obtain ⟨htaken, hother', hsame⟩ := h.snapshots other (List.mem_of_mem_erase hother)
    exact ⟨htaken, hother', fun heq => (hsame heq).trans htext.symm⟩

/-- **The kept length** in every state of every run whose steps measure no row that ends with a carriage return. -/
theorem reach_bounded (h : Reach State.step Loaded Clean s) : Bounded s.doc :=
  (h.invariant (fun _ => inv_loaded) fun _ _ _ hinv hclean hstep => hinv.step hclean hstep).bounded

def abc : State := ⟨CodeDocument.new ['a', 'b', 'c'], [], 0⟩

/-- A line is split, which makes the flag stale, and a snapshot is measured. -/
theorem reach_bounded_split : ∃ s : State, s.doc.longestLineStale = false ∧ s.doc.longestLineChars = 2 ∧
    Bounded s.doc := by
  have hloaded : Loaded abc := ⟨['a', 'b', 'c'], .lf, none, rfl⟩
  have hinsert : Clean abc (.insert 1 ['\n']) := by
    rintro edit hedit
    obtain rfl : (⟨1, 1, 2, ⟨0, 1⟩, ⟨0, 1⟩, ⟨1, 0⟩⟩ : CodeEdit) = edit := by
      have hvalue : (abc.doc.insert 1 ['\n']).2 = some ⟨1, 1, 2, ⟨0, 1⟩, ⟨0, 1⟩, ⟨1, 0⟩⟩ := by decide
      exact Option.some.inj (hvalue.symm.trans hedit)
    refine ⟨fun _ => by decide, fun row _ hrow => ?_⟩
    interval_cases row <;> decide
  have hreach : Reach State.step Loaded Clean _ := .step (.insert 1 ['\n']) (.init hloaded) hinsert rfl
  have hreach : Reach State.step Loaded Clean _ := .step .snapshot hreach trivial rfl
  have hreach : Reach State.step Loaded Clean _ :=
    .step (.measured ⟨['a', '\n', 'b', 'c'], 1, 1⟩) hreach (show 1 < 1 + 2 ^ 64 by norm_num) (by rfl)
  exact ⟨_, by decide, by decide, reach_bounded hreach⟩

/-- A carriage return that is typed at the end of the longest line is not measured. -/
theorem not_reach_bounded : ¬ ∀ s, Reach State.step Loaded (fun _ _ => True) s → Bounded s.doc := by
  intro hall
  have hloaded : Loaded abc := ⟨['a', 'b', 'c'], .lf, none, rfl⟩
  have hbounded := hall _ (Reach.step (.insert 3 ['\r']) (.init hloaded) trivial rfl)
  exact absurd hbounded.1 (by decide)

end Paneflow.Code.LongestLine
