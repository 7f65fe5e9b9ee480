import Paneflow.Code.Document
import Paneflow.Trace

/-!
# Edits and the undo history

`splice` and `UndoHistory` of code/edit.rs. A record keeps the offset of an edit with the text it
removed and the text it inserted, both normalized; undo and redo put one in the place of the other
through the same `raw_splice`, which normalizes what it inserts again.

`Edits record x y` says that a record leads from the text `x` to the text `y` and that normalizing its
texts again changes nothing; `applyForward_edits` and `applyReverse_edits` follow such a record in
both directions, and `splice_edits` says when a splice leaves one. The history is described by
`Timeline`: the transactions to undo lead to the text of the document, those to redo lead on.
-/

namespace Paneflow.Code.Edit

open Paneflow.Code.Document Paneflow.Trace Paneflow.Utf8

structure CodeSelection where
  anchor : ℕ
  head : ℕ
  deriving DecidableEq, Repr

/-- `UNDO_GROUP_INTERVAL`, in nanoseconds. -/
def undoGroupInterval : ℕ := 300 * 10 ^ 6

def maxUndoTransactions : ℕ := 1000

def maxUndoBytes : ℕ := 32 * 1024 * 1024

structure AppliedEdit where
  start : ℕ
  removed : Str
  inserted : Str
  deriving DecidableEq, Repr

structure TrackerWindow where
  startLine : ℕ
  beforeLen : ℕ
  afterLen : ℕ
  deriving DecidableEq, Repr

structure DocChange where
  edit : CodeEdit
  window : TrackerWindow
  deriving DecidableEq, Repr

def newlineBefore (doc : CodeDocument) (offset : ℕ) : Bool :=
  offset = 0 || (bytes doc.text)[offset - 1]? = some 10

def newlineAfter (doc : CodeDocument) (offset : ℕ) : Bool :=
  offset ≥ doc.lenBytes || (bytes doc.text)[offset]? = some 10

/-- A number of lines as the `u32` of a window. -/
def asU32 (n : ℕ) : ℕ := n % 2 ^ 32

/-- The lines an edit replaces and the lines it puts in their place, in the edited document. -/
def trackerWindow (doc : CodeDocument) (edit : CodeEdit) (fragment : Str) : TrackerWindow :=
  let line1 := edit.startPoint.row
  let oldLen := edit.oldEndByte - edit.startByte
  let newLen := edit.newEndByte - edit.startByte
  let line2 := if oldLen = 0 then line1 + 1 else edit.oldEndPoint.row + 1
  let newLine2 := if newLen = 0 then line1 + 1 else edit.newEndPoint.row + 1
  let beforeLen := line2 - line1
  let afterLen := newLine2 - line1
  let wholeLines := (oldLen == 0) != (newLen == 0)
  if wholeLines && fragment.getLast? == some '\n' && newlineBefore doc edit.startByte then
    ⟨asU32 line1, asU32 (beforeLen - 1), asU32 (afterLen - 1)⟩
  else if wholeLines && fragment.head? == some '\n' && newlineAfter doc edit.newEndByte then
    ⟨asU32 (line1 + 1), asU32 (beforeLen - 1), asU32 (afterLen - 1)⟩
  else ⟨asU32 line1, asU32 beforeLen, asU32 afterLen⟩

/-- The removal of a `raw_splice`; the fragment is for the window. -/
def removing (doc : CodeDocument) (start stop : ℕ) (removed : Str) :
    CodeDocument × List DocChange :=
  if stop > start then
    match doc.remove start stop with
    | (doc, some edit) => (doc, [⟨edit, trackerWindow doc edit removed⟩])
    | (doc, none) => (doc, [])
  else (doc, [])

/-- The insertion of a `raw_splice`. -/
def inserting (doc : CodeDocument) (start : ℕ) (inserted : Str) : CodeDocument × List DocChange :=
  if inserted.isEmpty then (doc, [])
  else
    match doc.insert start inserted with
    | (doc, some edit) => (doc, [⟨edit, trackerWindow doc edit inserted⟩])
    | (doc, none) => (doc, [])

def rawSplice (doc : CodeDocument) (start stop : ℕ) (removed inserted : Str) :
    CodeDocument × List DocChange :=
  let (doc, removals) := removing doc start stop removed
  let (doc, insertions) := inserting doc start inserted
  (doc, removals ++ insertions)

def applyForward (doc : CodeDocument) (record : AppliedEdit) : CodeDocument × List DocChange :=
  rawSplice doc record.start (record.start + size record.removed) record.removed record.inserted

def applyReverse (doc : CodeDocument) (record : AppliedEdit) : CodeDocument × List DocChange :=
  rawSplice doc record.start (record.start + size record.inserted) record.inserted record.removed

structure Splice where
  edit : CodeEdit
  windows : List TrackerWindow
  record : AppliedEdit
  deriving DecidableEq, Repr

def replacementEdit : Option CodeEdit → Option CodeEdit → Option CodeEdit
  | some removal, some insertion =>
    some ⟨removal.startByte, removal.oldEndByte, insertion.newEndByte, removal.startPoint,
      removal.oldEndPoint, insertion.newEndPoint⟩
  | some edit, none => some edit
  | none, some edit => some edit
  | none, none => none

def splice (doc : CodeDocument) (start stop : ℕ) (text : Str) : CodeDocument × Option Splice :=
  if doc.isReadOnly then (doc, none)
  else
    let start' := doc.snapToBoundary start
    let stop' := doc.snapToBoundary (max stop start)
    let removed := doc.sliceString start' stop'
    let inserted := normalizeNewlines text
    if removed.isEmpty && inserted.isEmpty then (doc, none)
    else
      let (doc, changes) := rawSplice doc start' stop' removed inserted
      match replacementEdit (changes[0]?.map DocChange.edit) (changes[1]?.map DocChange.edit) with
      | some edit => (doc, some ⟨edit, changes.map DocChange.window, ⟨start', removed, inserted⟩⟩)
      | none => (doc, none)

/-! ### Records between texts -/

/-- The record leads from `x` to `y`, and neither of its texts changes when it is normalized again. -/
def Edits (record : AppliedEdit) (x y : Str) : Prop :=
  ∃ p q, x = p ++ record.removed ++ q ∧ y = p ++ record.inserted ++ q ∧ record.start = size p ∧
    crlfFree record.removed = true ∧ crlfFree record.inserted = true

theorem removing_text {doc : CodeDocument} (hro : doc.readOnly = none) {p r q : Str}
    (h : doc.text = p ++ r ++ q) (removed : Str) : ∃ doc' changes,
      removing doc (size p) (size p + size r) removed = (doc', changes) ∧ doc'.text = p ++ q ∧
      Advanced doc doc' changes.length ∧ (changes = [] ↔ r = []) := by
  unfold removing
  by_cases hr : r = []
  · subst hr
    exact ⟨doc, [], by simp, by simpa using h, .refl doc, by simp⟩
  · obtain ⟨doc', edit, heq, ht, hadv⟩ := remove_text hro h hr
    have hpos : size r ≠ 0 := fun h0 => hr (size_eq_zero.1 h0)
    rw [if_pos (by omega), heq]
    exact ⟨doc', _, rfl, ht, hadv, by simp [hr]⟩

theorem inserting_text {doc : CodeDocument} (hro : doc.readOnly = none) {p q : Str}
    (h : doc.text = p ++ q) (inserted : Str) : ∃ doc' changes,
      inserting doc (size p) inserted = (doc', changes) ∧
      doc'.text = p ++ normalizeNewlines inserted ++ q ∧
      Advanced doc doc' changes.length ∧ (changes = [] ↔ inserted = []) := by
  unfold inserting
  by_cases hi : inserted = []
  · subst hi
    exact ⟨doc, [], rfl, by simpa [normalizeNewlines] using h, .refl doc, by simp⟩
  · obtain ⟨doc', edit, heq, ht, hadv⟩ := insert_text hro h inserted hi
    rw [if_neg (by simpa using hi), heq]
    exact ⟨doc', _, rfl, ht, hadv, by simp [hi]⟩

/-- A `raw_splice` of a part of the text puts the inserted text, normalized again, in its place. -/
theorem rawSplice_text {doc : CodeDocument} (hro : doc.readOnly = none) {p r q : Str}
    (h : doc.text = p ++ r ++ q) (removed inserted : Str) : ∃ doc' changes,
      rawSplice doc (size p) (size p + size r) removed inserted = (doc', changes) ∧
      doc'.text = p ++ normalizeNewlines inserted ++ q ∧
      Advanced doc doc' changes.length ∧ (changes = [] ↔ r = [] ∧ inserted = []) := by
  obtain ⟨doc1, changes1, heq1, ht1, hadv1, hno1⟩ := removing_text hro h removed
  obtain ⟨doc2, changes2, heq2, ht2, hadv2, hno2⟩ :=
    inserting_text (hadv1.readOnly.trans hro) ht1 inserted
  unfold rawSplice
  rw [heq1]
  dsimp only
  rw [heq2]
  refine ⟨doc2, _, rfl, ht2, ?_, ?_⟩
  · rw [List.length_append]
    exact hadv1.trans hadv2
  · rw [List.append_eq_nil_iff, hno1, hno2]

theorem applyForward_edits {doc : CodeDocument} (hro : doc.readOnly = none) {record : AppliedEdit}
    {x y : Str} (h : Edits record x y) (hx : doc.text = x) : ∃ doc' changes,
      applyForward doc record = (doc', changes) ∧ doc'.text = y ∧
      Advanced doc doc' changes.length := by
  obtain ⟨p, q, rfl, rfl, hstart, -, hins⟩ := h
  unfold applyForward
  rw [hstart]
  obtain ⟨doc', changes, heq, ht, hadv, -⟩ :=
    rawSplice_text hro hx record.removed record.inserted
  rw [normalizeNewlines_of_crlfFree hins] at ht
  exact ⟨doc', changes, heq, ht, hadv⟩

theorem applyReverse_edits {doc : CodeDocument} (hro : doc.readOnly = none) {record : AppliedEdit}
    {x y : Str} (h : Edits record x y) (hy : doc.text = y) : ∃ doc' changes,
      applyReverse doc record = (doc', changes) ∧ doc'.text = x ∧
      Advanced doc doc' changes.length := by
  obtain ⟨p, q, rfl, rfl, hstart, hrem, -⟩ := h
  unfold applyReverse
  rw [hstart]
  obtain ⟨doc', changes, heq, ht, hadv, -⟩ :=
    rawSplice_text hro hy record.inserted record.removed
  rw [normalizeNewlines_of_crlfFree hrem] at ht
  exact ⟨doc', changes, heq, ht, hadv⟩

/-- **A splice** of the part `r` between the two offsets: no record when nothing is removed or inserted,
and otherwise the inserted text, normalized twice, in the place of `r`. -/
theorem splice_text {doc : CodeDocument} (hro : doc.readOnly = none) (start stop : ℕ) (text : Str) :
    ∃ p r q, doc.text = p ++ r ++ q ∧ size p = doc.snapToBoundary start ∧
      size p + size r = doc.snapToBoundary (max stop start) ∧
      ((splice doc start stop text = (doc, none) ∧ r = [] ∧ normalizeNewlines text = []) ∨
        ∃ doc' applied, splice doc start stop text = (doc', some applied) ∧
          doc'.text = p ++ normalizeNewlines (normalizeNewlines text) ++ q ∧
          applied.record = ⟨size p, r, normalizeNewlines text⟩ ∧
          Advanced doc doc' applied.windows.length) := by
  unfold splice
  rw [if_neg (by simp [CodeDocument.isReadOnly, hro])]
  dsimp only
  have hstart : Boundary doc.text (doc.snapToBoundary start) := snapToBoundary_boundary start
  obtain ⟨p, r, q, ht, hp, hr⟩ := boundary_split hstart
    (snapToBoundary_boundary (max stop start)) (snapToBoundary_mono (by omega))
  refine ⟨p, r, q, ht, hp, hr, ?_⟩
  rw [← hr, ← hp, sliceString_append ht]
  by_cases hnil : r = [] ∧ normalizeNewlines text = []
  · rw [if_pos (by simp [hnil.1, hnil.2])]
    exact .inl ⟨rfl, hnil⟩
  · rw [if_neg (by simpa using hnil)]
    obtain ⟨doc', changes, heq, ht', hadv, hno⟩ := rawSplice_text hro ht r (normalizeNewlines text)
    rw [heq]
    have hne : changes ≠ [] := fun h => hnil (hno.1 h)
    obtain ⟨change, rest, rfl⟩ := List.exists_cons_of_ne_nil hne
    obtain ⟨edit, hedit⟩ : ∃ edit, replacementEdit ((change :: rest)[0]?.map DocChange.edit)
        ((change :: rest)[1]?.map DocChange.edit) = some edit := by
      cases rest with
      | nil => exact ⟨_, rfl⟩
      | cons c rest => exact ⟨_, rfl⟩
    right
    simp only [hedit]
    refine ⟨doc', _, rfl, ht', rfl, ?_⟩
    simpa using hadv

/-- A splice whose texts are not changed by normalizing them again: the removed part holds no carriage
return before a newline, and the inserted text does not after it has been normalized. -/
def Stable (doc : CodeDocument) (start stop : ℕ) (text : Str) : Prop :=
  crlfFree (doc.sliceString (doc.snapToBoundary start) (doc.snapToBoundary (max stop start))) = true ∧
    crlfFree (normalizeNewlines text) = true

instance (doc : CodeDocument) (start stop : ℕ) (text : Str) :
    Decidable (Stable doc start stop text) :=
  inferInstanceAs (Decidable (_ ∧ _))

/-- **A stable splice** leaves a record between the texts before and after, or no record and the
document as it was. -/
theorem splice_edits {doc : CodeDocument} (hro : doc.readOnly = none) {start stop : ℕ} {text : Str}
    (hs : Stable doc start stop text) :
    splice doc start stop text = (doc, none) ∨ ∃ doc' applied,
      splice doc start stop text = (doc', some applied) ∧
      Edits applied.record doc.text doc'.text ∧ Advanced doc doc' applied.windows.length := by
  obtain ⟨hfree1, hfree2⟩ := hs
  obtain ⟨p, r, q, ht, hp, hr, ⟨heq, -⟩ | ⟨doc', applied, heq, ht', hrec, hadv⟩⟩ :=
    splice_text hro start stop text
  · exact .inl heq
  · right
    rw [← hr, ← hp, sliceString_append ht] at hfree1
    rw [normalizeNewlines_of_crlfFree hfree2] at ht'
    refine ⟨doc', applied, heq, ?_, hadv⟩
    rw [hrec]
    exact ⟨p, q, ht, ht', rfl, hfree1, hfree2⟩

/-- A splice of a part of the text: it is put in its place normalized twice. -/
theorem splice_twice {doc : CodeDocument} (hro : doc.readOnly = none) {p r q : Str}
    (h : doc.text = p ++ r ++ q) (text : Str) :
    (splice doc (size p) (size p + size r) text).1.text =
        p ++ normalizeNewlines (normalizeNewlines text) ++ q ∧
      (splice doc (size p) (size p + size r) text).1.readOnly = none := by
  obtain ⟨hsp, hsr, -, -⟩ := offsets_append h
  obtain ⟨p', r', q', ht, hp', hr', hres⟩ := splice_text hro (size p) (size p + size r) text
  rw [hsp] at hp'
  rw [Nat.max_eq_left (Nat.le_add_right _ _), hsr, hp'] at hr'
  rw [h, List.append_assoc, List.append_assoc] at ht
  obtain rfl : p = p' := split_unique ht hp'.symm
  have ht2 := List.append_cancel_left ht
  obtain rfl : r = r' := split_unique ht2 (by omega)
  obtain rfl : q = q' := List.append_cancel_left ht2
  rcases hres with ⟨heq, rfl, hnil⟩ | ⟨doc', applied, heq, ht', -, hadv⟩
  · rw [heq, hnil]
    exact ⟨h, hro⟩
  · rw [heq]
    exact ⟨ht', hadv.readOnly.trans hro⟩

/-- A splice of a part of the text by a text that is normalized. -/
theorem splice_part {doc : CodeDocument} (hro : doc.readOnly = none) {p r q : Str}
    (h : doc.text = p ++ r ++ q) {text : Str} (hfree : crlfFree text = true) :
    (splice doc (size p) (size p + size r) text).1.text = p ++ text ++ q ∧
      (splice doc (size p) (size p + size r) text).1.readOnly = none := by
  have htwice := splice_twice hro h text
  rwa [normalizeNewlines_of_crlfFree hfree, normalizeNewlines_of_crlfFree hfree] at htwice

end Paneflow.Code.Edit
