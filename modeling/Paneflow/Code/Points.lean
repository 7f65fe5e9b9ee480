import Paneflow.Code.History

/-!
# Edits as changes of a text

A `CodeEdit` says where a text was changed, in bytes and in rows and columns, and not what was inserted. `Applies` says
that an edit describes the step from one text to another; the edits that the document gives out do (`insert_applies`,
`remove_applies`, `splice_applies`), and so do those of a replay, one after the other (`replay_applies`).

The rows before an edit are those of the text before it: `byteToLine_append`.
-/

namespace Paneflow.Code.Points

open Paneflow.Code.Document Paneflow.Code.Edit Paneflow.Code.History Paneflow.Trace Paneflow.Utf8

/-! ### Rows -/

theorem byteToLine_append (p q : Str) {byte : ℕ} (h : byte ≤ size p) :
    byteToLine (p ++ q) byte = byteToLine p byte := by
  unfold byteToLine
  rw [bytes_append, List.take_append_of_le_length h]

theorem byteToLine_mono (text : Str) {a b : ℕ} (h : a ≤ b) : byteToLine text a ≤ byteToLine text b :=
  (List.take_sublist_take_left h).count_le 10

theorem take_size (text : Str) : (bytes text).take (size text) = bytes text := List.take_length

theorem byteToLine_min (text : Str) (byte : ℕ) : byteToLine text (min byte (size text)) = byteToLine text byte := by
  rcases Nat.le_total byte (size text) with h | h
  · rw [Nat.min_eq_left h]
  · rw [Nat.min_eq_right h]
    unfold byteToLine
    rw [take_size, List.take_of_length_le h]

/-- No other character has the byte of a newline. -/
theorem notMem_encode {c : Char} (h : c ≠ '\n') : 10 ∉ String.utf8EncodeChar c := by
  intro hmem
  rcases Nat.lt_or_ge c.toNat 128 with hascii | hascii
  · refine notMem_bytes_ascii (s := [c]) (b := 10) (by simpa using hascii) ?_ (by simpa [bytes] using hmem)
    intro other hother heq
    rw [List.mem_singleton.1 hother] at heq
    exact h (Char.toNat_inj.1 heq)
  · exact absurd (le_of_mem_encode hascii hmem) (by decide)

theorem count_bytes (text : Str) : (bytes text).count 10 = text.count '\n' := by
  induction text with
  | nil => rfl
  | cons c text ih =>
    rw [bytes_cons, List.count_append, ih, List.count_cons]
    by_cases hc : c = '\n'
    · subst hc
      rw [Nat.add_comm]
      rfl
    · rw [List.count_eq_zero.2 (notMem_encode hc), if_neg (by simpa using hc), Nat.zero_add]
      rfl

theorem byteToLine_size (p q : Str) : byteToLine (p ++ q) (size p) = p.count '\n' := by
  rw [byteToLine_append p q (Nat.le_refl _), byteToLine, take_size, count_bytes]

/-- A byte inside of a character is on its row. -/
theorem byteToLine_charToByte (text : Str) (byte : ℕ) :
    byteToLine text (charToByte text (byteToChar text byte)) = byteToLine text byte := by
  induction text generalizing byte with
  | nil => simp [byteToLine]
  | cons c text ih =>
    have hcons : ∀ b, byteToLine (c :: text) (c.utf8Size + b) = [c].count '\n' + byteToLine text b := by
      intro b
      have hencode : (String.utf8EncodeChar c).count 10 = [c].count '\n' := by
        rw [← count_bytes]
        simp [bytes]
      unfold byteToLine
      rw [bytes_cons, ← String.length_utf8EncodeChar, List.take_length_add_append, List.count_append, hencode]
    unfold byteToChar
    split_ifs with hbyte
    · have hzero : byteToLine (c :: text) byte = 0 := by
        by_cases hc : c = '\n'
        · subst hc
          have hone : ('\n' : Char).utf8Size = 1 := by decide
          obtain rfl : byte = 0 := by omega
          rfl
        · refine List.count_eq_zero.2 fun hmem => ?_
          rw [bytes_cons, List.take_append_of_le_length (by rw [String.length_utf8EncodeChar]; omega)] at hmem
          exact notMem_encode hc (List.mem_of_mem_take hmem)
      rw [hzero]
      rfl
    · obtain ⟨rest, rfl⟩ := Nat.exists_eq_add_of_le (Nat.le_of_not_lt hbyte)
      rw [Nat.add_sub_cancel_left, hcons rest, ← ih rest, ← hcons]
      congr 1
      rw [charToByte, Nat.add_comm 1, List.take_succ_cons, size_cons]
      rfl

theorem byteToLine_snapToBoundary (doc : CodeDocument) (byte : ℕ) :
    byteToLine doc.text (doc.snapToBoundary byte) = byteToLine doc.text byte := by
  unfold CodeDocument.snapToBoundary CodeDocument.lenBytes
  rw [byteToLine_charToByte, byteToLine_min]

theorem lineToByte_append (p q : Str) {row : ℕ} (h : row ≤ p.count '\n') :
    lineToByte (p ++ q) row = lineToByte p row := by
  induction p generalizing row with
  | nil =>
    obtain rfl : row = 0 := by simpa using h
    cases q <;> rfl
  | cons c p ih =>
    cases row with
    | zero => rfl
    | succ row =>
      rw [List.cons_append]
      unfold lineToByte
      by_cases hc : c = '\n'
      · subst hc
        rw [if_pos rfl, if_pos rfl, ih (by simpa using h)]
      · rw [if_neg hc, if_neg hc, ih (by simpa [List.count_cons, hc] using h)]

/-! ### Points -/

def pointOf (text : Str) (byte : ℕ) : DocPoint :=
  let byte := min byte (size text)
  let row := byteToLine text byte
  ⟨row, byte - lineToByte text row⟩

theorem pointAt_eq (doc : CodeDocument) (byte : ℕ) : doc.pointAt byte = pointOf doc.text byte := rfl

/-- The point at the end of a part does not depend on what comes behind it. -/
theorem pointOf_append (p q : Str) : pointOf (p ++ q) (size p) = pointOf p (size p) := by
  have hself := byteToLine_size p []
  rw [List.append_nil] at hself
  unfold pointOf
  dsimp only
  rw [size_append, Nat.min_eq_left (Nat.le_add_right _ _), Nat.min_self, byteToLine_size, hself,
    lineToByte_append p q (Nat.le_refl _)]

/-! ### Edits -/

/-- The edit describes the step from `x` to `y`. -/
def Applies (edit : CodeEdit) (x y : Str) : Prop :=
  ∃ p r s q, x = p ++ r ++ q ∧ y = p ++ s ++ q ∧
    edit = ⟨size p, size (p ++ r), size (p ++ s), pointOf x (size p), pointOf x (size (p ++ r)),
      pointOf y (size (p ++ s))⟩

theorem Applies.size_eq {edit : CodeEdit} {x y : Str} (h : Applies edit x y) :
    size y + edit.oldEndByte = size x + edit.newEndByte := by
  obtain ⟨p, r, s, q, rfl, rfl, rfl⟩ := h
  simp only [size_append]
  omega

variable {doc doc' : CodeDocument} {edit : CodeEdit}

/-- An insertion, by the parts of the text around it. -/
theorem insert_at (hro : doc.readOnly = none) {p q : Str} (htext : doc.text = p ++ q) {offset : ℕ}
    (hoffset : doc.snapToBoundary offset = size p) {text : Str} (hne : normalizeNewlines text ≠ []) :
    ∃ doc', doc'.text = p ++ normalizeNewlines text ++ q ∧ doc'.readOnly = doc.readOnly ∧
      doc.insert offset text = (doc', some ⟨size p, size p, size p + size (normalizeNewlines text),
        pointOf doc.text (size p), pointOf doc.text (size p),
        pointOf doc'.text (size p + size (normalizeNewlines text))⟩) := by
  unfold CodeDocument.insert
  rw [if_neg (by simp [CodeDocument.isReadOnly, hro]), hoffset]
  dsimp only
  rw [if_neg (by simpa using hne)]
  refine ⟨_, ?_, ?_, rfl⟩
  · dsimp only [CodeDocument.remeasureRows]
    rw [htext, byteToChar_append, List.take_left, List.drop_left]
  · rfl

/-- A removal, by the parts of the text around it. -/
theorem remove_at (hro : doc.readOnly = none) {p r q : Str} (htext : doc.text = p ++ r ++ q) {start stop : ℕ}
    (hstart : doc.snapToBoundary start = size p) (hstop : doc.snapToBoundary stop = size p + size r) (hne : r ≠ []) :
    ∃ doc', doc'.text = p ++ q ∧ doc'.readOnly = doc.readOnly ∧
      doc.remove start stop = (doc', some ⟨size p, size p + size r, size p, pointOf doc.text (size p),
        pointOf doc.text (size p + size r), pointOf doc.text (size p)⟩) := by
  have hpos : size r ≠ 0 := fun hzero => hne (size_eq_zero.1 hzero)
  have hchars : byteToChar doc.text (size p + size r) = p.length + r.length := by
    rw [htext, ← size_append, byteToChar_append, List.length_append]
  have hchar : byteToChar doc.text (size p) = p.length := by
    rw [htext, List.append_assoc, byteToChar_append]
  unfold CodeDocument.remove
  rw [if_neg (by simp [CodeDocument.isReadOnly, hro]), hstart, hstop]
  dsimp only
  rw [if_neg (by omega)]
  refine ⟨_, ?_, ?_, rfl⟩
  · dsimp only [CodeDocument.remeasureRows]
    rw [hchars, hchar, htext, ← List.length_append, List.drop_left, List.append_assoc, List.take_left]
  · rfl

/-- What an edit of a document that gives no edit, or one, does to the text. -/
def Edited (doc doc' : CodeDocument) (edit : Option CodeEdit) : Prop :=
  doc'.readOnly = doc.readOnly ∧ match edit with
    | none => doc'.text = doc.text
    | some edit => Applies edit doc.text doc'.text

theorem applies_insert {p s q : Str} (hold : doc.text = p ++ q) (hnew : doc'.text = p ++ s ++ q) :
    Applies ⟨size p, size p, size p + size s, pointOf doc.text (size p), pointOf doc.text (size p),
      pointOf doc'.text (size p + size s)⟩ doc.text doc'.text :=
  ⟨p, [], s, q, by rw [hold, List.append_nil], hnew, by rw [List.append_nil, size_append]⟩

theorem applies_remove {p r q : Str} (hold : doc.text = p ++ r ++ q) (hnew : doc'.text = p ++ q) :
    Applies ⟨size p, size p + size r, size p, pointOf doc.text (size p), pointOf doc.text (size p + size r),
      pointOf doc.text (size p)⟩ doc.text doc'.text := by
  have hpoint : pointOf doc'.text (size p) = pointOf doc.text (size p) := by
    rw [hnew, hold, List.append_assoc, pointOf_append, pointOf_append]
  exact ⟨p, r, [], q, hold, by rw [hnew, List.append_nil], by rw [List.append_nil, size_append, hpoint]⟩

theorem insert_applies (doc : CodeDocument) (offset : ℕ) (text : Str) :
    Edited doc (doc.insert offset text).1 (doc.insert offset text).2 := by
  by_cases hnone : doc.isReadOnly = true ∨ (normalizeNewlines text).isEmpty = true
  · have heq : doc.insert offset text = (doc, none) := by
      unfold CodeDocument.insert
      rcases hnone with h | h <;> simp [h]
    rw [heq]
    exact ⟨rfl, rfl⟩
  · obtain ⟨hro, hne⟩ := not_or.1 hnone
    obtain ⟨p, q, htext, hsize⟩ := @snapToBoundary_boundary doc offset
    obtain ⟨doc', hnew, hreadOnly, heq⟩ := insert_at (by simpa [CodeDocument.isReadOnly] using hro) htext hsize.symm
      (show normalizeNewlines text ≠ [] by simpa using hne)
    rw [heq]
    exact ⟨hreadOnly, applies_insert htext hnew⟩

theorem remove_applies (doc : CodeDocument) (start stop : ℕ) :
    Edited doc (doc.remove start stop).1 (doc.remove start stop).2 := by
  by_cases hnone : doc.isReadOnly = true ∨ doc.snapToBoundary stop ≤ doc.snapToBoundary start
  · have heq : doc.remove start stop = (doc, none) := by
      unfold CodeDocument.remove
      rcases hnone with h | h <;> simp [h]
    rw [heq]
    exact ⟨rfl, rfl⟩
  · obtain ⟨hro, hlt⟩ := not_or.1 hnone
    obtain ⟨p, r, q, htext, hp, hr⟩ := boundary_split (@snapToBoundary_boundary doc start)
      (@snapToBoundary_boundary doc stop) (by omega)
    obtain ⟨doc', hnew, hreadOnly, heq⟩ := remove_at (by simpa [CodeDocument.isReadOnly] using hro) htext hp.symm hr.symm
      (by rintro rfl; simp at hr; omega)
    rw [heq]
    exact ⟨hreadOnly, applies_remove htext hnew⟩

/-- The changes of a document, one after the other. -/
def Chain (changes : List DocChange) (doc doc' : CodeDocument) : Prop :=
  doc'.readOnly = doc.readOnly ∧ Path Applies (changes.map (·.edit)) doc.text doc'.text

theorem Chain.refl (doc : CodeDocument) : Chain [] doc doc := ⟨rfl, rfl⟩

theorem Chain.trans {doc'' : CodeDocument} {changes changes' : List DocChange} (h : Chain changes doc doc')
    (h' : Chain changes' doc' doc'') : Chain (changes ++ changes') doc doc'' := by
  refine ⟨h'.1.trans h.1, ?_⟩
  rw [List.map_append, path_append]
  exact ⟨doc'.text, h.2, h'.2⟩

theorem removing_chain (doc : CodeDocument) (start stop : ℕ) (removed : Str) :
    Chain (removing doc start stop removed).2 doc (removing doc start stop removed).1 := by
  unfold removing
  split_ifs
  · have hedited := remove_applies doc start stop
    generalize doc.remove start stop = found at hedited ⊢
    obtain ⟨doc', _ | edit⟩ := found
    · exact ⟨hedited.1, hedited.2.symm⟩
    · exact ⟨hedited.1, path_singleton.2 hedited.2⟩
  · exact .refl doc

theorem inserting_chain (doc : CodeDocument) (start : ℕ) (inserted : Str) :
    Chain (inserting doc start inserted).2 doc (inserting doc start inserted).1 := by
  unfold inserting
  split_ifs
  · exact .refl doc
  · have hedited := insert_applies doc start inserted
    generalize doc.insert start inserted = found at hedited ⊢
    obtain ⟨doc', _ | edit⟩ := found
    · exact ⟨hedited.1, hedited.2.symm⟩
    · exact ⟨hedited.1, path_singleton.2 hedited.2⟩

theorem rawSplice_chain (doc : CodeDocument) (start stop : ℕ) (removed inserted : Str) :
    Chain (rawSplice doc start stop removed inserted).2 doc (rawSplice doc start stop removed inserted).1 :=
  (removing_chain doc start stop removed).trans (inserting_chain _ start inserted)

/-- A replay changes the document by its changes, whatever the records are. -/
theorem replay_chain {apply : CodeDocument → AppliedEdit → CodeDocument × List DocChange}
    (happly : ∀ doc record, Chain (apply doc record).2 doc (apply doc record).1) (doc : CodeDocument)
    (records : List AppliedEdit) : Chain (replay apply doc records).2 doc (replay apply doc records).1 := by
  unfold replay
  suffices hfold : ∀ (base : CodeDocument) (changes : List DocChange), Chain changes base doc →
      Chain (records.foldl (fun (s : CodeDocument × List DocChange) record =>
        ((apply s.1 record).1, s.2 ++ (apply s.1 record).2)) (doc, changes)).2 base
        (records.foldl (fun (s : CodeDocument × List DocChange) record =>
          ((apply s.1 record).1, s.2 ++ (apply s.1 record).2)) (doc, changes)).1 from hfold doc [] (.refl doc)
  induction records generalizing doc with
  | nil => exact fun base changes h => h
  | cons record records ih => exact fun base changes h => ih _ base _ (h.trans (happly doc record))

theorem undoStep_chain (h : UndoHistory) (doc : CodeDocument) :
    Chain (((h.undoStep doc).2.2.map HistoryStep.edits).getD []) doc (h.undoStep doc).2.1 := by
  unfold UndoHistory.undoStep
  dsimp only
  rcases h.undo.getLast? with _ | transaction
  · exact .refl doc
  · exact replay_chain (fun doc record => rawSplice_chain doc _ _ _ _) doc _

theorem redoStep_chain (h : UndoHistory) (doc : CodeDocument) :
    Chain (((h.redoStep doc).2.2.map HistoryStep.edits).getD []) doc (h.redoStep doc).2.1 := by
  unfold UndoHistory.redoStep
  dsimp only
  rcases h.redo.getLast? with _ | transaction
  · exact .refl doc
  · exact replay_chain (fun doc record => rawSplice_chain doc _ _ _ _) doc _

/-! ### Splices -/

theorem snapToBoundary_self (doc : CodeDocument) {byte : ℕ} (h : Boundary doc.text byte) :
    doc.snapToBoundary byte = byte := by
  obtain ⟨p, q, htext, rfl⟩ := h
  exact snapToBoundary_append htext

theorem removing_at (hro : doc.readOnly = none) {p r q : Str} (htext : doc.text = p ++ r ++ q) (removed : Str) :
    (r = [] ∧ removing doc (size p) (size p + size r) removed = (doc, [])) ∨
      ∃ doc' window, doc'.text = p ++ q ∧ doc'.readOnly = doc.readOnly ∧
        removing doc (size p) (size p + size r) removed = (doc', [⟨⟨size p, size p + size r, size p,
          pointOf doc.text (size p), pointOf doc.text (size p + size r), pointOf doc.text (size p)⟩, window⟩]) := by
  unfold removing
  split_ifs with hlt
  · obtain ⟨doc', hnew, hreadOnly, heq⟩ := remove_at hro htext
      (snapToBoundary_self doc ⟨p, r ++ q, by rw [htext, List.append_assoc], rfl⟩)
      (snapToBoundary_self doc ⟨p ++ r, q, htext, size_append p r⟩) (by rintro rfl; simp at hlt)
    rw [heq]
    exact .inr ⟨doc', _, hnew, hreadOnly, rfl⟩
  · exact .inl ⟨size_eq_zero.1 (by omega), rfl⟩

theorem inserting_at (hro : doc.readOnly = none) {p q : Str} (htext : doc.text = p ++ q) (inserted : Str) :
    inserting doc (size p) inserted = (doc, []) ∨
      ∃ doc' s window, doc'.text = p ++ s ++ q ∧ doc'.readOnly = doc.readOnly ∧
        inserting doc (size p) inserted = (doc', [⟨⟨size p, size p, size p + size s, pointOf doc.text (size p),
          pointOf doc.text (size p), pointOf doc'.text (size p + size s)⟩, window⟩]) := by
  unfold inserting
  split_ifs with hempty
  · exact .inl rfl
  · obtain ⟨doc', hnew, hreadOnly, heq⟩ := insert_at hro htext (snapToBoundary_append htext)
      (show normalizeNewlines inserted ≠ [] by simpa [normalizeNewlines_eq_nil] using hempty)
    rw [heq]
    exact .inr ⟨doc', _, _, hnew, hreadOnly, rfl⟩

/-- What a splice gives: the removal, the insertion at its start, both in one or none. -/
theorem rawSplice_applies (hro : doc.readOnly = none) {p r q : Str} (htext : doc.text = p ++ r ++ q)
    (removed inserted : Str) :
    ∃ doc' changes, rawSplice doc (size p) (size p + size r) removed inserted = (doc', changes) ∧
      doc'.readOnly = doc.readOnly ∧
      match replacementEdit (changes[0]?.map DocChange.edit) (changes[1]?.map DocChange.edit) with
      | none => doc'.text = doc.text
      | some edit => Applies edit doc.text doc'.text ∧ edit.startByte = size p ∧ edit.oldEndByte = size p + size r := by
  unfold rawSplice
  rcases removing_at hro htext removed with ⟨rfl, hremoving⟩ | ⟨doc₁, window, hmiddle, hreadOnly, hremoving⟩
  · have hold : doc.text = p ++ q := by rw [htext, List.append_nil]
    rw [hremoving]
    dsimp only
    rcases inserting_at hro hold inserted with hinserting | ⟨doc₂, s, window, hnew, hreadOnly, hinserting⟩
    · rw [hinserting]
      exact ⟨_, _, rfl, rfl, rfl⟩
    · rw [hinserting]
      exact ⟨_, _, rfl, hreadOnly, applies_insert hold hnew, rfl, rfl⟩
  · rw [hremoving]
    dsimp only
    rcases inserting_at (hreadOnly.trans hro) hmiddle inserted with
      hinserting | ⟨doc₂, s, window', hnew, hreadOnly', hinserting⟩
    · rw [hinserting]
      exact ⟨_, _, rfl, hreadOnly, applies_remove htext hmiddle, rfl, rfl⟩
    · rw [hinserting]
      refine ⟨_, _, rfl, hreadOnly'.trans hreadOnly, ⟨p, r, s, q, htext, hnew, ?_⟩, rfl, rfl⟩
      rw [size_append, size_append]

/-- A splice gives the edit that leads from the text before it to the text behind it. -/
theorem splice_applies (doc : CodeDocument) (start stop : ℕ) (text : Str) :
    ∃ doc' applied, splice doc start stop text = (doc', applied) ∧ doc'.readOnly = doc.readOnly ∧
      match applied with
      | none => doc'.text = doc.text
      | some applied => Applies applied.edit doc.text doc'.text ∧
        applied.edit.startByte = doc.snapToBoundary start ∧
        applied.edit.oldEndByte = doc.snapToBoundary (max stop start) := by
  unfold splice
  split_ifs with hreadOnly
  · exact ⟨_, _, rfl, rfl, rfl⟩
  have hro : doc.readOnly = none := by simpa [CodeDocument.isReadOnly] using hreadOnly
  dsimp only
  split_ifs with hempty
  · exact ⟨_, _, rfl, rfl, rfl⟩
  obtain ⟨p, r, q, htext, hp, hr⟩ := boundary_split (@snapToBoundary_boundary doc start)
    (@snapToBoundary_boundary doc (max stop start)) (snapToBoundary_mono (Nat.le_max_right _ _))
  rw [← hp, ← hr]
  obtain ⟨doc', changes, hsplice, hreadOnly', hedit⟩ := rawSplice_applies hro htext
    (doc.sliceString (size p) (size p + size r)) (normalizeNewlines text)
  rw [hsplice]
  dsimp only
  generalize replacementEdit (changes[0]?.map DocChange.edit) (changes[1]?.map DocChange.edit) = edit at hedit ⊢
  rcases edit with _ | edit
  · exact ⟨_, _, rfl, hreadOnly', hedit⟩
  · exact ⟨_, _, rfl, hreadOnly', hedit⟩

end Paneflow.Code.Points
