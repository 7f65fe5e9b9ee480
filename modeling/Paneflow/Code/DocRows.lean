import Paneflow.Code.Points
import Paneflow.Rows

/-!
# The rows of a document

The offsets and the measures of the document's rows, in terms of the rows of its text: `lineToByte_closed`,
`lineByteRange_eq` and `lineChars_eq`.
-/

namespace Paneflow.Code.DocRows

open Paneflow.Code.Document Paneflow.Code.Points Paneflow.Rows Paneflow.Utf8

variable {doc : CodeDocument} {P Q : List Str} {row : Str}

theorem lenLines_eq (text : Str) : lenLines text = (text.splitOn '\n').length := (length_splitOn '\n' text).symm

theorem pointOf_row (p q : Str) : (pointOf (p ++ q) (size p)).row = p.count '\n' := by
  unfold pointOf
  dsimp only
  rw [size_append, Nat.min_eq_left (Nat.le_add_right _ _), byteToLine_size]

theorem size_newline (text : Str) : size ('\n' :: text) = 1 + size text := by
  rw [size_cons]
  rfl

/-- A row starts behind the rows in front of it. -/
theorem lineToByte_closed (hP : ∀ row ∈ P, '\n' ∉ row) (text : Str) :
    lineToByte (closed '\n' P ++ text) P.length = size (closed '\n' P) := by
  induction P with
  | nil => cases text <;> rfl
  | cons first P ih =>
    have hrest := ih fun row hrow => hP row (by simp [hrow])
    have hfirst : '\n' ∉ first := hP first (by simp)
    rw [closed_cons, List.length_cons, List.append_assoc, List.cons_append]
    clear hP ih
    induction first with
    | nil =>
      simp only [List.nil_append, lineToByte, if_true, size_newline, hrest]
      rfl
    | cons c first ih =>
      have hc : c ≠ '\n' := fun h => hfirst (by simp [h])
      rw [List.cons_append, lineToByte, if_neg hc, ih fun h => hfirst (by simp [h])]
      simp

theorem rows_around (h : doc.text.splitOn '\n' = P ++ row :: Q) :
    doc.text = closed '\n' P ++ row ++ opened '\n' Q ∧ (∀ r ∈ P, '\n' ∉ r) ∧ '\n' ∉ row := by
  have hrows := notMem_splitOn '\n' doc.text
  rw [h] at hrows
  exact ⟨eq_around h, fun r hr => hrows r (by simp [hr]), hrows row (by simp)⟩

/-- The last byte of a text that ends with a character. -/
theorem getElem?_bytes_concat {p : Str} {c : Char} (q : Str) (hc : c.toNat < 128) :
    (bytes (p ++ [c] ++ q))[size (p ++ [c]) - 1]? = some c.toNat.toUInt8 := by
  have hone : bytes [c] = [c.toNat.toUInt8] := by simp [bytes, encode_ascii hc]
  have hsize : size [c] = 1 := by rw [size, hone]; rfl
  rw [bytes_append, bytes_append, hone, size_append, hsize, Nat.add_sub_cancel, List.append_assoc]
  show (bytes p ++ _)[(bytes p).length]? = _
  rw [List.getElem?_append_right (Nat.le_refl _), Nat.sub_self]
  rfl

/-- No other character ends with the byte of an ASCII character. -/
theorem getElem?_bytes_concat_ne {p : Str} {c d : Char} (q : Str) (hd : d.toNat < 128) (hne : c ≠ d) :
    (bytes (p ++ [c] ++ q))[size (p ++ [c]) - 1]? ≠ some d.toNat.toUInt8 := by
  intro hget
  have hpos := c.utf8Size_pos
  have hsize : size [c] = c.utf8Size := by simp
  rw [bytes_append, bytes_append, size_append, hsize, List.append_assoc,
    List.getElem?_append_right (by unfold size; omega)] at hget
  rw [List.getElem?_append_left (by show _ < size [c]; rw [hsize]; unfold size; omega)] at hget
  have hmem := List.mem_of_getElem? hget
  have hval : d.toNat.toUInt8.toNat = d.toNat := by
    show d.toNat % 256 = _
    omega
  rcases Nat.lt_or_ge c.toNat 128 with hascii | hascii
  · refine @notMem_bytes_ascii [c] (by simpa using hascii) d.toNat.toUInt8 (fun other hother heq => ?_) (by
      simpa [bytes] using hmem)
    obtain rfl := List.mem_singleton.1 hother
    exact hne (Char.toNat_inj.1 (heq.trans hval))
  · have hle : 128 ≤ d.toNat.toUInt8.toNat := le_of_mem_encode hascii (by simpa [bytes] using hmem)
    omega

/-! ### Lines without their ends -/

/-- A row without a carriage return at its end. -/
def stripCr (row : Str) : Str := if row.getLast? = some '\r' then row.dropLast else row

/-- `dropByte` takes an ASCII character off the end of a part, if it ends with it. -/
theorem dropByte_eq (p row q : Str) {d : Char} (hd : d.toNat < 128) :
    dropByte (p ++ row ++ q) (size p) (size p + size row) d.toNat.toUInt8 =
      size p + size (if row.getLast? = some d then row.dropLast else row) := by
  unfold dropByte
  rcases List.eq_nil_or_concat row with rfl | ⟨front, c, hrow⟩
  · simp
  · rw [List.concat_eq_append] at hrow
    subst hrow
    have hpos := c.utf8Size_pos
    have hlt : size p + size (front ++ [c]) > size p := by
      simp
      omega
    have htext : p ++ (front ++ [c]) ++ q = (p ++ front) ++ [c] ++ q := by simp
    have hsize : size p + size (front ++ [c]) = size ((p ++ front) ++ [c]) := by simp
    rw [htext, hsize, List.getLast?_concat, List.dropLast_concat]
    by_cases hc : c = d
    · subst hc
      have hone : c.utf8Size = 1 := Char.utf8Size_eq_one_iff.2 (by
        show c.toNat ≤ 127
        omega)
      rw [if_pos ⟨hsize ▸ hlt, getElem?_bytes_concat q hd⟩, if_pos rfl]
      simp [hone]
    · rw [if_neg fun h => getElem?_bytes_concat_ne q hd hc h.2, if_neg fun h => hc (Option.some.inj h)]
      simp

theorem lineSpan_eq (h : doc.text.splitOn '\n' = P ++ row :: Q) :
    doc.lineSpan P.length = some (size (closed '\n' P),
      size (closed '\n' P) + size (if Q = [] then row else row ++ ['\n'])) := by
  obtain ⟨htext, hP, hrow⟩ := rows_around h
  have hlines : lenLines doc.text = P.length + 1 + Q.length := by
    rw [lenLines_eq, h]
    simp
    omega
  have hstart : lineToByte doc.text P.length = size (closed '\n' P) := by
    rw [htext, List.append_assoc, lineToByte_closed hP]
  unfold CodeDocument.lineSpan
  rw [hlines, if_neg (by omega), hstart]
  cases Q with
  | nil =>
    rw [if_neg (by simp), if_pos rfl]
    simp [CodeDocument.lenBytes, htext]
  | cons next Q =>
    have hclosed : ∀ r ∈ P ++ [row], '\n' ∉ r := by
      intro r hr
      rcases List.mem_append.1 hr with hr | hr
      · exact hP r hr
      · exact List.mem_singleton.1 hr ▸ hrow
    have hnext : doc.text = closed '\n' (P ++ [row]) ++ (next ++ opened '\n' Q) := by
      rw [htext]
      simp
    have hend := lineToByte_closed hclosed (next ++ opened '\n' Q)
    rw [List.length_append, List.length_singleton, ← hnext] at hend
    rw [if_pos (by simp), if_neg (by simp), hend]
    simp

theorem lineByteRange_eq (h : doc.text.splitOn '\n' = P ++ row :: Q) :
    doc.lineByteRange P.length =
      some (size (closed '\n' P), size (closed '\n' P) + size (stripCr row)) := by
  obtain ⟨htext, hP, hrow⟩ := rows_around h
  unfold CodeDocument.lineByteRange
  rw [lineSpan_eq h]
  simp only [Option.bind_eq_bind, Option.bind_some, Option.pure_def]
  have hnl : dropByte doc.text (size (closed '\n' P))
      (size (closed '\n' P) + size (if Q = [] then row else row ++ ['\n'])) 10 =
        size (closed '\n' P) + size row := by
    cases Q with
    | nil =>
      have hlast : row.getLast? ≠ some '\n' := fun hlast => hrow (List.mem_of_getLast? hlast)
      have hdrop := dropByte_eq (closed '\n' P) row (opened '\n' []) (show ('\n' : Char).toNat < 128 by decide)
      rw [if_neg hlast, ← htext] at hdrop
      rw [if_pos rfl]
      exact hdrop
    | cons next Q =>
      have hdrop := dropByte_eq (closed '\n' P) (row ++ ['\n']) (next ++ opened '\n' Q)
        (show ('\n' : Char).toNat < 128 by decide)
      have hnext : doc.text = closed '\n' P ++ (row ++ ['\n']) ++ (next ++ opened '\n' Q) := by
        rw [htext]
        simp
      rw [List.getLast?_concat, if_pos rfl, List.dropLast_concat, ← hnext] at hdrop
      rw [if_neg (by simp)]
      exact hdrop
  rw [hnl]
  have hcr := dropByte_eq (closed '\n' P) row (opened '\n' Q) (show ('\r' : Char).toNat < 128 by decide)
  rw [← htext] at hcr
  exact congrArg (fun stop => some (size (closed '\n' P), stop)) hcr

/-- **The measure of one row** leaves out a carriage return at its end. -/
theorem lineChars_eq (h : doc.text.splitOn '\n' = P ++ row :: Q) :
    doc.lineChars P.length = (stripCr row).length := by
  obtain ⟨htext, -, -⟩ := rows_around h
  unfold CodeDocument.lineChars
  rw [lineByteRange_eq h]
  obtain ⟨rest, hrest⟩ : ∃ rest, row = stripCr row ++ rest := by
    unfold stripCr
    split_ifs with hlast
    · exact ⟨['\r'], (List.dropLast_append_getLast? _ hlast).symm⟩
    · exact ⟨[], by simp⟩
  have hfront : doc.text = closed '\n' P ++ (stripCr row ++ rest ++ opened '\n' Q) := by
    rw [htext, ← hrest, List.append_assoc]
  have hback : doc.text = (closed '\n' P ++ stripCr row) ++ (rest ++ opened '\n' Q) := by
    rw [hfront]
    simp
  have h1 : byteToChar doc.text (size (closed '\n' P)) = (closed '\n' P).length := by
    rw [hfront, byteToChar_append]
  have h2 : byteToChar doc.text (size (closed '\n' P) + size (stripCr row)) =
      (closed '\n' P ++ stripCr row).length := by
    rw [hback, ← size_append, byteToChar_append]
  dsimp only
  rw [h1, h2, List.length_append, Nat.add_sub_cancel_left]

end Paneflow.Code.DocRows
