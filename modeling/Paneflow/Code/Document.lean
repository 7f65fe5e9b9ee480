import Mathlib.Data.Nat.ModEq
import Paneflow.Utf8

/-!
# The code document

`CodeDocument` of code/document.rs: a text with its line ending, edited by byte ranges. The rope is
its list of characters, with the offset conversions of the rope library; only a newline ends a line.

`insert` and `remove` are described by what they do to the text of a document that can be edited:
`insert_text`, `remove_text`. Both move their offsets to the start of the character they fall in
(`snapToBoundary_spec`), and what is inserted is normalized once more on the way.
-/

namespace Paneflow.Code.Document

open Paneflow.Utf8

/-- A text, as its characters. -/
abbrev Str := List Char

inductive LineEnding where
  | lf
  | crlf
  deriving DecidableEq, Repr

/-- The ending of the first line decides. -/
def LineEnding.detect (text : Str) : LineEnding :=
  if '\n' ∈ text ∧ (text.takeWhile (· ≠ '\n')).getLast? = some '\r' then .crlf else .lf

/-- Drops every carriage return that stands before a newline. Both are single bytes and part of no
other character, so the loop of the source over the bytes is this one over the characters. -/
def normalizeNewlines : Str → Str
  | [] => []
  | c :: text =>
    if c = '\r' ∧ text.head? = some '\n' then normalizeNewlines text
    else c :: normalizeNewlines text

/-- No carriage return stands before a newline. -/
def crlfFree : Str → Bool
  | [] => true
  | c :: text => !(c = '\r' ∧ text.head? = some '\n') && crlfFree text

theorem normalizeNewlines_of_crlfFree {text : Str} (h : crlfFree text = true) :
    normalizeNewlines text = text := by
  induction text with
  | nil => rfl
  | cons c text ih =>
    simp only [crlfFree, Bool.and_eq_true, Bool.not_eq_true', decide_eq_false_iff_not] at h
    unfold normalizeNewlines
    rw [if_neg h.1, ih h.2]

/-- A part of a text has no pair that the text does not have. -/
theorem crlfFree_append {a b : Str} (h : crlfFree (a ++ b) = true) :
    crlfFree a = true ∧ crlfFree b = true := by
  induction a with
  | nil => exact ⟨rfl, h⟩
  | cons c a ih =>
    simp only [List.cons_append, crlfFree, Bool.and_eq_true, Bool.not_eq_true',
      decide_eq_false_iff_not] at h ⊢
    refine ⟨⟨fun hc => h.1 ⟨hc.1, ?_⟩, (ih h.2).1⟩, (ih h.2).2⟩
    cases a with
    | nil => simp at hc
    | cons c' a => simpa using hc.2

theorem length_normalizeNewlines_le (text : Str) : (normalizeNewlines text).length ≤ text.length := by
  induction text with
  | nil => exact le_rfl
  | cons c text ih =>
    unfold normalizeNewlines
    split_ifs
    · exact ih.trans (Nat.le_succ _)
    · simpa using ih

/-- A text that does not get shorter has nothing to drop. -/
theorem crlfFree_of_length {text : Str} (h : text.length ≤ (normalizeNewlines text).length) :
    crlfFree text = true := by
  induction text with
  | nil => rfl
  | cons c text ih =>
    unfold normalizeNewlines at h
    split_ifs at h with hc
    · have hshort := length_normalizeNewlines_le text
      rw [List.length_cons] at h
      omega
    · simp only [crlfFree, hc, decide_false, Bool.not_false, Bool.true_and]
      exact ih (by simpa using h)

theorem normalizeNewlines_eq_nil {text : Str} : normalizeNewlines text = [] ↔ text = [] := by
  induction text with
  | nil => simp [normalizeNewlines]
  | cons c text ih =>
    unfold normalizeNewlines
    split_ifs with h
    · have : text ≠ [] := by
        rintro rfl
        simp at h
      simp [ih, this]
    · simp

/-! ### Offsets of the rope -/

/-- The index of the character that the byte falls in. -/
def byteToChar : Str → ℕ → ℕ
  | [], _ => 0
  | c :: text, byte => if byte < c.utf8Size then 0 else 1 + byteToChar text (byte - c.utf8Size)

def charToByte (text : Str) (idx : ℕ) : ℕ := size (text.take idx)

def lenLines (text : Str) : ℕ := text.count '\n' + 1

/-- The number of line breaks before the byte. -/
def byteToLine (text : Str) (byte : ℕ) : ℕ := ((bytes text).take byte).count 10

/-- The offset of the start of a line; the end of the text for the row after the last. -/
def lineToByte : Str → ℕ → ℕ
  | _, 0 => 0
  | [], _ + 1 => 0
  | c :: text, row + 1 =>
    c.utf8Size + if c = '\n' then lineToByte text row else lineToByte text (row + 1)

theorem byteToChar_append (p q : Str) : byteToChar (p ++ q) (size p) = p.length := by
  induction p with
  | nil =>
    cases q with
    | nil => rfl
    | cons c q => simp [byteToChar, c.utf8Size_pos]
  | cons c p ih =>
    simp only [List.cons_append, byteToChar, size_cons]
    rw [if_neg (by omega), Nat.add_sub_cancel_left, ih, List.length_cons]
    omega

/-- The start of the character of a byte is at most the byte. -/
theorem charToByte_byteToChar_le (text : Str) (byte : ℕ) :
    charToByte text (byteToChar text byte) ≤ byte := by
  unfold charToByte
  induction text generalizing byte with
  | nil => simp [byteToChar]
  | cons c text ih =>
    unfold byteToChar
    split_ifs with h
    · simp
    · have := ih (byte - c.utf8Size)
      rw [Nat.add_comm, List.take_succ_cons, size_cons]
      omega

theorem byteToChar_mono (text : Str) {a b : ℕ} (h : a ≤ b) :
    byteToChar text a ≤ byteToChar text b := by
  induction text generalizing a b with
  | nil => simp [byteToChar]
  | cons c text ih =>
    unfold byteToChar
    split_ifs
    · omega
    · omega
    · omega
    · have := ih (Nat.sub_le_sub_right h c.utf8Size)
      omega

/-! ### Documents -/

structure DocPoint where
  row : ℕ
  column : ℕ
  deriving DecidableEq, Repr

structure CodeEdit where
  startByte : ℕ
  oldEndByte : ℕ
  newEndByte : ℕ
  startPoint : DocPoint
  oldEndPoint : DocPoint
  newEndPoint : DocPoint
  deriving DecidableEq, Repr

inductive ReadOnlyReason where
  | permissions
  | giantLine (chars limit : ℕ)
  deriving DecidableEq, Repr

structure CodeDocument where
  text : Str
  lineEnding : LineEnding
  readOnly : Option ReadOnlyReason
  longestLineChars : ℕ
  revision : ℕ
  longestLineStale : Bool
  deriving DecidableEq, Repr

/-- The longest line in characters; in a text of ASCII these are its bytes. -/
def measureTextLines (text : Str) : ℕ :=
  ((text.splitOn '\n').map List.length).max?.getD 0

def CodeDocument.new (raw : Str) : CodeDocument :=
  let normalized := normalizeNewlines raw
  ⟨normalized, .detect raw, none, measureTextLines normalized, 0, false⟩

variable (doc : CodeDocument)

def CodeDocument.isReadOnly : Bool := doc.readOnly.isSome

def CodeDocument.lenBytes : ℕ := size doc.text

/-- The `u64` counter of changes, which wraps around. -/
def nextRevision (revision : ℕ) : ℕ := (revision + 1) % 2 ^ 64

def CodeDocument.lineSpan (row : ℕ) : Option (ℕ × ℕ) :=
  let lines := lenLines doc.text
  if row ≥ lines then none
  else
    some (lineToByte doc.text row,
      if row + 1 < lines then lineToByte doc.text (row + 1) else doc.lenBytes)

/-- Moves the end of a line before its last byte, if this is `byte`. -/
def dropByte (text : Str) (start stop : ℕ) (byte : UInt8) : ℕ :=
  if stop > start ∧ (bytes text)[stop - 1]? = some byte then stop - 1 else stop

/-- The line without its terminator. -/
def CodeDocument.lineByteRange (row : ℕ) : Option (ℕ × ℕ) := do
  let (start, stop) ← doc.lineSpan row
  let stop := dropByte doc.text start stop 10
  let stop := dropByte doc.text start stop 13
  return (start, stop)

def CodeDocument.lineChars (row : ℕ) : ℕ :=
  match doc.lineByteRange row with
  | some (start, stop) => byteToChar doc.text stop - byteToChar doc.text start
  | none => 0

def CodeDocument.pointAt (byte : ℕ) : DocPoint :=
  let byte := min byte doc.lenBytes
  let row := byteToLine doc.text byte
  ⟨row, byte - lineToByte doc.text row⟩

def CodeDocument.snapToBoundary (byte : ℕ) : ℕ :=
  let byte := min byte doc.lenBytes
  charToByte doc.text (byteToChar doc.text byte)

def CodeDocument.remeasureRows (firstRow lastRow : ℕ) : CodeDocument :=
  let last := min lastRow (lenLines doc.text - 1)
  let rows := (List.range (last + 1)).filter (firstRow ≤ ·)
  { doc with
    longestLineChars :=
      rows.foldl (fun longest row => max longest (doc.lineChars row)) doc.longestLineChars }

def CodeDocument.insert (byteOffset : ℕ) (text : Str) : CodeDocument × Option CodeEdit :=
  if doc.isReadOnly then (doc, none)
  else
    let normalized := normalizeNewlines text
    if normalized.isEmpty then (doc, none)
    else
      let startByte := doc.snapToBoundary byteOffset
      let startPoint := doc.pointAt startByte
      let mayShrinkLongest := '\n' ∈ normalized ∧ doc.lineChars startPoint.row = doc.longestLineChars
      let charIdx := byteToChar doc.text startByte
      let doc := { doc with
        text := doc.text.take charIdx ++ normalized ++ doc.text.drop charIdx
        revision := nextRevision doc.revision
        longestLineStale := doc.longestLineStale || mayShrinkLongest }
      let newEndByte := startByte + size normalized
      let newEndPoint := doc.pointAt newEndByte
      let doc := doc.remeasureRows startPoint.row newEndPoint.row
      (doc, some ⟨startByte, startByte, newEndByte, startPoint, startPoint, newEndPoint⟩)

def CodeDocument.remove (start stop : ℕ) : CodeDocument × Option CodeEdit :=
  if doc.isReadOnly then (doc, none)
  else
    let startByte := doc.snapToBoundary start
    let oldEndByte := doc.snapToBoundary stop
    if oldEndByte ≤ startByte then (doc, none)
    else
      let startPoint := doc.pointAt startByte
      let oldEndPoint := doc.pointAt oldEndByte
      let mayShrinkLongest :=
        startPoint.row ≠ oldEndPoint.row ∨ doc.lineChars startPoint.row = doc.longestLineChars
      let startChar := byteToChar doc.text startByte
      let endChar := byteToChar doc.text oldEndByte
      let doc := { doc with
        text := doc.text.take startChar ++ doc.text.drop endChar
        revision := nextRevision doc.revision
        longestLineStale := doc.longestLineStale || mayShrinkLongest }
      let doc := doc.remeasureRows startPoint.row startPoint.row
      (doc, some ⟨startByte, oldEndByte, startByte, startPoint, oldEndPoint, startPoint⟩)

def CodeDocument.sliceString (start stop : ℕ) : Str :=
  let startByte := doc.snapToBoundary start
  let endByte := doc.snapToBoundary (max stop start)
  if endByte ≤ startByte then []
  else
    let startChar := byteToChar doc.text startByte
    let endChar := byteToChar doc.text endByte
    (doc.text.drop startChar).take (endChar - startChar)

/-- What is written to disk: the document's line ending for every newline. -/
def CodeDocument.toDiskString : Str :=
  match doc.lineEnding with
  | .lf => doc.text
  | .crlf => doc.text.flatMap fun c => if c = '\n' then ['\r', '\n'] else [c]

/-! ### What an edit does to the text -/

variable {doc}

theorem snapToBoundary_boundary (byte : ℕ) : Boundary doc.text (doc.snapToBoundary byte) :=
  ⟨_, _, (List.take_append_drop _ _).symm, rfl⟩

theorem snapToBoundary_mono {a b : ℕ} (h : a ≤ b) : doc.snapToBoundary a ≤ doc.snapToBoundary b := by
  unfold CodeDocument.snapToBoundary charToByte
  dsimp only
  have hidx : byteToChar doc.text (min a doc.lenBytes) ≤ byteToChar doc.text (min b doc.lenBytes) :=
    byteToChar_mono _ (by omega)
  obtain ⟨k, hk⟩ := Nat.exists_eq_add_of_le hidx
  rw [hk, List.take_add, size_append]
  omega

theorem snapToBoundary_append {p q : Str} (h : doc.text = p ++ q) :
    doc.snapToBoundary (size p) = size p := by
  unfold CodeDocument.snapToBoundary CodeDocument.lenBytes charToByte
  dsimp only
  rw [h, size_append, Nat.min_eq_left (Nat.le_add_right _ _), byteToChar_append, List.take_left]

/-- The offsets of a part of the text, in bytes and in characters. -/
theorem offsets_append {p r q : Str} (h : doc.text = p ++ r ++ q) :
    doc.snapToBoundary (size p) = size p ∧
    doc.snapToBoundary (size p + size r) = size p + size r ∧
    byteToChar doc.text (size p) = p.length ∧
    byteToChar doc.text (size p + size r) = p.length + r.length := by
  have h' : doc.text = p ++ (r ++ q) := by rw [h, List.append_assoc]
  rw [← size_append, ← List.length_append]
  refine ⟨snapToBoundary_append h', snapToBoundary_append h, ?_, ?_⟩
  · rw [h', byteToChar_append]
  · rw [h, byteToChar_append]

theorem sliceString_append {p r q : Str} (h : doc.text = p ++ r ++ q) :
    doc.sliceString (size p) (size p + size r) = r := by
  obtain ⟨hp, hr, hcp, hcr⟩ := offsets_append h
  unfold CodeDocument.sliceString
  rw [Nat.max_eq_left (Nat.le_add_right _ _), hp, hr]
  by_cases hnil : r = []
  · simp [hnil]
  · have hpos : size r ≠ 0 := fun h0 => hnil (size_eq_zero.1 h0)
    rw [if_neg (by omega)]
    dsimp only
    rw [hcp, hcr, h, Nat.add_sub_cancel_left, List.append_assoc, List.drop_left, List.take_left]

/-- The change that an edit of `n` steps makes to the counter and the flags of a document. -/
structure Advanced (doc doc' : CodeDocument) (n : ℕ) : Prop where
  revision : doc'.revision ≡ doc.revision + n [MOD 2 ^ 64]
  readOnly : doc'.readOnly = doc.readOnly
  still : n = 0 → doc'.text = doc.text

theorem Advanced.refl (doc : CodeDocument) : Advanced doc doc 0 :=
  ⟨Nat.ModEq.refl _, rfl, fun _ => rfl⟩

theorem Advanced.trans {doc doc' doc'' : CodeDocument} {m n : ℕ} (h : Advanced doc doc' m)
    (h' : Advanced doc' doc'' n) : Advanced doc doc'' (m + n) := by
  refine ⟨?_, h'.readOnly.trans h.readOnly, fun h0 => ?_⟩
  · rw [← Nat.add_assoc]
    exact h'.revision.trans (h.revision.add_right n)
  · rw [h'.still (by omega), h.still (by omega)]

theorem nextRevision_modEq (revision : ℕ) : nextRevision revision ≡ revision + 1 [MOD 2 ^ 64] :=
  Nat.mod_modEq _ _

/-- **Insertion** into a document that can be edited. -/
theorem insert_text (hro : doc.readOnly = none) {p q : Str} (h : doc.text = p ++ q) (text : Str)
    (hne : text ≠ []) : ∃ doc' edit, doc.insert (size p) text = (doc', some edit) ∧
      doc'.text = p ++ normalizeNewlines text ++ q ∧ Advanced doc doc' 1 := by
  unfold CodeDocument.insert
  have hne' : ¬ (normalizeNewlines text).isEmpty = true := by
    simpa [normalizeNewlines_eq_nil] using hne
  rw [if_neg (by simp [CodeDocument.isReadOnly, hro])]
  dsimp only
  rw [if_neg hne', snapToBoundary_append h]
  refine ⟨_, _, rfl, ?_, nextRevision_modEq _, rfl, by simp⟩
  dsimp only [CodeDocument.remeasureRows]
  rw [h, byteToChar_append, List.take_left, List.drop_left]

/-- **Removal** from a document that can be edited. -/
theorem remove_text (hro : doc.readOnly = none) {p r q : Str} (h : doc.text = p ++ r ++ q)
    (hne : r ≠ []) : ∃ doc' edit, doc.remove (size p) (size p + size r) = (doc', some edit) ∧
      doc'.text = p ++ q ∧ Advanced doc doc' 1 := by
  obtain ⟨hp, hr, hcp, hcr⟩ := offsets_append h
  have hpos : size r ≠ 0 := fun h0 => hne (size_eq_zero.1 h0)
  unfold CodeDocument.remove
  rw [if_neg (by simp [CodeDocument.isReadOnly, hro]), hp, hr]
  dsimp only
  rw [if_neg (by omega)]
  refine ⟨_, _, rfl, ?_, nextRevision_modEq _, rfl, by simp⟩
  dsimp only [CodeDocument.remeasureRows]
  rw [hcp, hcr, h, List.append_assoc, List.take_left, ← List.append_assoc, ← List.length_append,
    List.drop_left]

end Paneflow.Code.Document
