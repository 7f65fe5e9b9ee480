import Paneflow.Alignment.Patch
import Paneflow.Code.UndoRun

/-!
# Adopting a text from disk

`disk_splices` of code/edit.rs: the splices that turn the text of a document into the text on disk.
Common lines at both ends are skipped, and what is left is diffed line by line with the histogram
algorithm of `imara_diff`, which is a parameter with the law `HistogramLaw`.

Main result: `spliceAll_diskSplices`, stable splices of a text without a carriage return before its
newlines lead to exactly that text.
-/

namespace Paneflow.Code.DiskSplices

open Paneflow.Alignment.Patch Paneflow.Alignment.Tiling Paneflow.Checked Paneflow.Code.Document Paneflow.Code.Edit
open Paneflow.Code.UndoRun Paneflow.Trace Paneflow.Utf8

/-- The lines of a text with their terminators; `lines` of `imara_diff` -/
def lines : Str → List Str
  | [] => []
  | c :: text =>
    if c = '\n' then [c] :: lines text
    else
      match lines text with
      | [] => [[c]]
      | line :: rest => (c :: line) :: rest

/-- The lines of a rope: after a last newline there is one more, which is empty. -/
def ropeLines : Str → List Str
  | [] => [[]]
  | c :: text =>
    if c = '\n' then [c] :: ropeLines text
    else
      match ropeLines text with
      | [] => [[c]]
      | line :: rest => (c :: line) :: rest

def terminatedLineCount (text : Str) : ℕ :=
  match (ropeLines text).getLast? with
  | some [] => (ropeLines text).length - 1
  | _ => (ropeLines text).length

/-- The number of equal lines at the start, `while … current.line(prefix) == incoming_lines[prefix]`. -/
def commonLines : List Str → List Str → ℕ
  | x :: xs, y :: ys => if x = y then commonLines xs ys + 1 else 0
  | _, _ => 0

def lineOffsets (text : Str) : List ℕ := (lines text).scanl (fun total line => total + size line) 0

/-- The hunks of the histogram diff of two lists of lines. -/
abbrev Histogram := List Str → List Str → List Range

/-- **What is relied on of the histogram diff**: its hunks are ordered and in bounds, and what lies
between them pairs equal lines. -/
def HistogramLaw (histogram : Histogram) : Prop :=
  ∀ before after, Tiled (Gap (At (· == ·) before after)) 0 0 (histogram before after) before.length
    after.length

/-- The diff that replaces everything. -/
def replaceAll : Histogram := fun before after => [⟨0, before.length, 0, after.length⟩]

theorem histogramLaw_replaceAll : HistogramLaw replaceAll := fun _ _ =>
  ⟨(gapRel_gap _).refl 0 0, Nat.zero_le _, Nat.zero_le _, (gapRel_gap _).refl _ _⟩

/-- One splice, from a hunk of the middles of the two texts. -/
def hunkSplice (currentStart : ℕ) (currentMiddle incomingMiddle : Str) (hunk : Range) :
    Option SpliceOp := do
  let beforeStart ← (lineOffsets currentMiddle)[hunk.start1]?
  let beforeEnd ← (lineOffsets currentMiddle)[hunk.end1]?
  let afterStart ← (lineOffsets incomingMiddle)[hunk.start2]?
  let afterEnd ← (lineOffsets incomingMiddle)[hunk.end2]?
  let text ← strSlice incomingMiddle afterStart afterEnd
  return ⟨currentStart + beforeStart, currentStart + beforeEnd, text⟩

def diskSplices (histogram : Histogram) (current incoming : Str) : Option (List SpliceOp) := do
  let incoming := normalizeNewlines incoming
  let incomingLines := lines incoming
  let currentLines := (ropeLines current).take (terminatedLineCount current)
  let front := commonLines currentLines incomingLines
  let back := commonLines (currentLines.drop front).reverse (incomingLines.drop front).reverse
  let currentStart := lineToByte current front
  let currentEnd := lineToByte current (currentLines.length - back)
  let incomingStart := ((incomingLines.take front).map size).sum
  let incomingEnd :=
    size incoming - ((incomingLines.drop (incomingLines.length - back)).map size).sum
  if currentStart = currentEnd ∧ incomingStart = incomingEnd then return []
  else do
    let currentMiddle ← strSlice current currentStart currentEnd
    let incomingMiddle ← strSlice incoming incomingStart incomingEnd
    let splices ← (histogram (lines currentMiddle) (lines incomingMiddle)).mapM
      (hunkSplice currentStart currentMiddle incomingMiddle)
    return splices.reverse

/-! ### Lines and offsets -/

theorem lines_flatten (text : Str) : (lines text).flatten = text := by
  induction text with
  | nil => rfl
  | cons c text ih =>
    unfold lines
    split_ifs
    · rw [List.flatten_cons, ih, List.singleton_append]
    · rcases hl : lines text with _ | ⟨line, rest⟩
      · rw [hl] at ih
        simp [← ih]
      · rw [hl] at ih
        simp [← ih]

/-- A rope has the lines of its text and, if the text is empty or ends with a newline, an empty one. -/
theorem ropeLines_cases (text : Str) :
    ropeLines text = lines text ++ [[]] ∨
      ropeLines text = lines text ∧ ∃ line, (lines text).getLast? = some line ∧ line ≠ [] := by
  induction text with
  | nil => exact .inl rfl
  | cons c text ih =>
    unfold ropeLines lines
    split_ifs with hc
    · rcases ih with ih | ⟨ih, line, hlast, hne⟩
      · exact .inl (by rw [ih]; rfl)
      · exact .inr ⟨by rw [ih], line, by simp [List.getLast?_cons, hlast], hne⟩
    · rcases hl : lines text with _ | ⟨first, rest⟩
      · rcases ih with ih | ⟨ih, line, hlast, hne⟩
        · exact .inr ⟨by rw [ih, hl]; rfl, [c], rfl, by simp⟩
        · simp [hl] at hlast
      · rcases ih with ih | ⟨ih, line, hlast, hne⟩
        · exact .inl (by rw [ih, hl]; rfl)
        · rw [ih, hl]
          rw [hl] at hlast
          refine .inr ⟨rfl, ?_⟩
          cases rest with
          | nil => exact ⟨c :: first, rfl, by simp⟩
          | cons second rest => exact ⟨line, by simpa using hlast, hne⟩

/-- The terminated lines of a rope are the lines of its text. -/
theorem take_terminatedLineCount (text : Str) :
    (ropeLines text).take (terminatedLineCount text) = lines text := by
  unfold terminatedLineCount
  rcases ropeLines_cases text with h | ⟨h, line, hlast, hne⟩
  · rw [h, List.getLast?_concat]
    simp
  · rw [h, hlast]
    cases line with
    | nil => exact absurd rfl hne
    | cons c line => simp

theorem lineToByte_eq (text : Str) (row : ℕ) :
    lineToByte text row = size ((lines text).take row).flatten := by
  induction text generalizing row with
  | nil => cases row <;> rfl
  | cons c text ih =>
    cases row with
    | zero => rfl
    | succ row =>
      unfold lineToByte lines
      split_ifs with hc
      · rw [ih, List.take_succ_cons, List.flatten_cons, size_append]
        simp
      · rcases hl : lines text with _ | ⟨line, rest⟩
        · rw [ih, hl]
          simp
        · rw [ih, hl]
          simp only [List.take_succ_cons, List.flatten_cons, size_append, size_cons]
          omega

theorem scanl_size (total : ℕ) (ls : List Str) (k : ℕ) (hk : k ≤ ls.length) :
    (ls.scanl (fun total line => total + size line) total)[k]? =
      some (total + size (ls.take k).flatten) := by
  induction ls generalizing total k with
  | nil =>
    obtain rfl : k = 0 := by simpa using hk
    rfl
  | cons line ls ih =>
    cases k with
    | zero => simp
    | succ k =>
      rw [List.scanl_cons, List.getElem?_cons_succ, ih _ k (by simpa using hk)]
      simp [Nat.add_assoc]

theorem lineOffsets_eq {text : Str} {k : ℕ} (hk : k ≤ (lines text).length) :
    (lineOffsets text)[k]? = some (size ((lines text).take k).flatten) := by
  unfold lineOffsets
  rw [scanl_size 0 _ k hk, Nat.zero_add]

theorem commonLines_spec (xs ys : List Str) :
    commonLines xs ys ≤ xs.length ∧ commonLines xs ys ≤ ys.length ∧
      xs.take (commonLines xs ys) = ys.take (commonLines xs ys) := by
  induction xs generalizing ys with
  | nil => simp [commonLines]
  | cons x xs ih =>
    cases ys with
    | nil => simp [commonLines]
    | cons y ys =>
      unfold commonLines
      split_ifs with h
      · obtain ⟨h1, h2, h3⟩ := ih ys
        subst h
        simpa using ⟨h1, h2, h3⟩
      · simp

/-- Lists of lines with their common ends taken off. -/
theorem common_ends (xs ys : List Str) :
    let front := commonLines xs ys
    let back := commonLines (xs.drop front).reverse (ys.drop front).reverse
    ∃ as mx my bs, xs = as ++ mx ++ bs ∧ ys = as ++ my ++ bs ∧ as.length = front ∧
      bs.length = back := by
  intro front back
  obtain ⟨hf1, hf2, hf⟩ := commonLines_spec xs ys
  obtain ⟨hb1, hb2, hb⟩ := commonLines_spec (xs.drop front).reverse (ys.drop front).reverse
  rw [List.length_reverse] at hb1 hb2
  rw [List.take_reverse, List.take_reverse, List.reverse_inj] at hb
  refine ⟨xs.take front, (xs.drop front).take ((xs.drop front).length - back),
    (ys.drop front).take ((ys.drop front).length - back),
    (xs.drop front).drop ((xs.drop front).length - back), ?_, ?_, ?_, ?_⟩
  · rw [List.append_assoc, List.take_append_drop, List.take_append_drop]
  · rw [show (xs.drop front).drop ((xs.drop front).length - back) =
      (ys.drop front).drop ((ys.drop front).length - back) from hb, hf, List.append_assoc,
      List.take_append_drop, List.take_append_drop]
  · simpa using hf1
  · rw [List.length_drop]
    exact Nat.sub_sub_self hb1

/-! ### Applying the splices -/

/-- The lines up to `e` are those up to `s` and those between. -/
theorem flatten_take (ls : List Str) {s e : ℕ} (h : s ≤ e) :
    (ls.take e).flatten = (ls.take s).flatten ++ ((ls.drop s).take (e - s)).flatten := by
  obtain ⟨n, rfl⟩ := Nat.exists_eq_add_of_le h
  rw [Nat.add_sub_cancel_left, List.take_add, List.flatten_append]

/-- The lines from `s` on are those between and those from `e` on. -/
theorem flatten_drop (ls : List Str) {s e : ℕ} (h : s ≤ e) :
    (ls.drop s).flatten = ((ls.drop s).take (e - s)).flatten ++ (ls.drop e).flatten := by
  obtain ⟨n, rfl⟩ := Nat.exists_eq_add_of_le h
  rw [Nat.add_sub_cancel_left, ← List.flatten_append, ← List.drop_drop, List.take_append_drop]

/-- The splice of a hunk, in terms of the lines of the two middles. -/
def lineSplice (currentStart : ℕ) (mx my : List Str) (r : Range) : SpliceOp :=
  ⟨currentStart + size (mx.take r.start1).flatten, currentStart + size (mx.take r.end1).flatten,
    ((my.drop r.start2).take (r.end2 - r.start2)).flatten⟩

theorem hunkSplice_eq {currentStart : ℕ} {currentMiddle incomingMiddle : Str} {r : Range}
    (h1 : r.start1 ≤ r.end1) (he1 : r.end1 ≤ (lines currentMiddle).length)
    (h2 : r.start2 ≤ r.end2) (he2 : r.end2 ≤ (lines incomingMiddle).length) :
    hunkSplice currentStart currentMiddle incomingMiddle r =
      some (lineSplice currentStart (lines currentMiddle) (lines incomingMiddle) r) := by
  have hslice : strSlice incomingMiddle (size ((lines incomingMiddle).take r.start2).flatten)
      (size ((lines incomingMiddle).take r.end2).flatten) =
        some (((lines incomingMiddle).drop r.start2).take (r.end2 - r.start2)).flatten := by
    have hsplit : incomingMiddle = ((lines incomingMiddle).take r.start2).flatten ++
        (((lines incomingMiddle).drop r.start2).take (r.end2 - r.start2)).flatten ++
          ((lines incomingMiddle).drop r.end2).flatten := by
      rw [List.append_assoc, ← flatten_drop _ h2, ← List.flatten_append, List.take_append_drop,
        lines_flatten]
    rw [flatten_take _ h2, size_append]
    nth_rewrite 1 [hsplit]
    exact strSlice_append _ _ _
  unfold hunkSplice
  rw [lineOffsets_eq (h1.trans he1), lineOffsets_eq he1, lineOffsets_eq (h2.trans he2),
    lineOffsets_eq he2]
  simp only [Option.bind_eq_bind, Option.bind_some, hslice]
  rfl

theorem spliceAll_doc (doc : CodeDocument) (ops : List SpliceOp) :
    (spliceAll doc ops).1 =
      ops.foldl (fun doc op => (splice doc op.start op.stop op.text).1) doc := by
  induction ops generalizing doc with
  | nil => rfl
  | cons op ops ih =>
    unfold spliceAll
    rw [List.foldl_cons, ← ih]
    rcases splice doc op.start op.stop op.text with ⟨doc', _ | applied⟩
    · rfl
    · rfl

/-- The lines a hunk puts in. -/
def insertedLines (my : List Str) (r : Range) : Str :=
  ((my.drop r.start2).take (r.end2 - r.start2)).flatten

/-- What the document holds when the hunks from the cursor on are applied: what they put in is not longer than the
incoming lines, and it is these lines just if `exact` holds. -/
structure Spliced (pre post : Str) (mx my : List Str) (i j : ℕ) (exact : Prop) (doc : CodeDocument) :
    Prop where
  readOnly : doc.readOnly = none
  text : ∃ tail, doc.text = pre ++ (mx.take i).flatten ++ (tail ++ post) ∧
    tail.length ≤ (my.drop j).flatten.length ∧ (tail = (my.drop j).flatten ↔ exact)

section Splices
variable {pre post : Str} {mx my : List Str} {exact : Prop} {doc : CodeDocument}

/-- Equal lines are the same on both sides. -/
theorem Spliced.gap {s1 e1 s2 e2 : ℕ} (hgap : Gap (At (· == ·) mx my) s1 e1 s2 e2)
    (h : Spliced pre post mx my e1 e2 exact doc) : Spliced pre post mx my s1 s2 exact doc := by
  obtain ⟨tail, htext, hlength, hexact⟩ := h.text
  have hsame := congrArg List.flatten (patched_gap hgap)
  obtain ⟨n, rfl, rfl, -⟩ := hgap
  rw [List.flatten_append, List.flatten_append, flatten_take mx (Nat.le_add_right s1 n), List.append_assoc,
    List.append_cancel_left_eq] at hsame
  refine ⟨h.readOnly, ((mx.drop s1).take (s1 + n - s1)).flatten ++ tail, ?_, ?_, ?_⟩
  · rw [htext, flatten_take mx (Nat.le_add_right s1 n)]
    simp only [List.append_assoc]
  · rw [← hsame, List.length_append, List.length_append]
    omega
  · rw [← hsame, List.append_cancel_left_eq]
    exact hexact

/-- One hunk. -/
theorem Spliced.hunk {r : Range} (h1 : r.start1 ≤ r.end1) (h2 : r.start2 ≤ r.end2)
    (h : Spliced pre post mx my r.end1 r.end2 exact doc) :
    Spliced pre post mx my r.start1 r.start2 (crlfFree (insertedLines my r) = true ∧ exact)
      (splice doc (lineSplice (size pre) mx my r).start (lineSplice (size pre) mx my r).stop
        (lineSplice (size pre) mx my r).text).1 := by
  obtain ⟨tail, htext, hlength, hexact⟩ := h.text
  have hsplit : doc.text = (pre ++ (mx.take r.start1).flatten) ++
      ((mx.drop r.start1).take (r.end1 - r.start1)).flatten ++ (tail ++ post) := by
    rw [htext, flatten_take mx h1]
    simp only [List.append_assoc]
  have hstop : size (pre ++ (mx.take r.start1).flatten) +
      size ((mx.drop r.start1).take (r.end1 - r.start1)).flatten =
        size pre + size (mx.take r.end1).flatten := by
    rw [flatten_take mx h1]
    simp only [size_append]
    omega
  obtain ⟨htext', hro'⟩ := splice_twice h.readOnly hsplit (insertedLines my r)
  rw [hstop, size_append] at htext' hro'
  have hshort := (length_normalizeNewlines_le (normalizeNewlines (insertedLines my r))).trans
    (length_normalizeNewlines_le (insertedLines my r))
  have hdrop : (my.drop r.start2).flatten = insertedLines my r ++ (my.drop r.end2).flatten :=
    flatten_drop my h2
  refine ⟨hro', normalizeNewlines (normalizeNewlines (insertedLines my r)) ++ tail, ?_, ?_, ?_⟩
  · exact htext'.trans (by simp only [List.append_assoc])
  · rw [hdrop, List.length_append, List.length_append]
    omega
  · rw [hdrop]
    constructor
    · -- nothing is longer than it should be, so all of it is as it should be
      intro heq
      have hlengths := congrArg List.length heq
      rw [List.length_append, List.length_append] at hlengths
      obtain ⟨hseg, htail⟩ := List.append_inj heq (by omega)
      refine ⟨crlfFree_of_length ?_, hexact.1 htail⟩
      have htwice := length_normalizeNewlines_le (normalizeNewlines (insertedLines my r))
      rwa [hseg] at htwice
    · rintro ⟨hfree, hrest⟩
      rw [normalizeNewlines_of_crlfFree hfree, normalizeNewlines_of_crlfFree hfree, hexact.2 hrest]

/-- All hunks, from the last to the first. -/
theorem spliced_hunks (hdoc : Spliced pre post mx my mx.length my.length True doc) :
    ∀ {hunks : List Range} {i j : ℕ}, Tiled (Gap (At (· == ·) mx my)) i j hunks mx.length my.length →
      Spliced pre post mx my i j (∀ r ∈ hunks, crlfFree (insertedLines my r) = true)
        (hunks.foldr (fun r doc => (splice doc (lineSplice (size pre) mx my r).start
          (lineSplice (size pre) mx my r).stop (lineSplice (size pre) mx my r).text).1) doc)
  | [], _, _, hgap => by
    have hnone : (∀ r ∈ ([] : List Range), crlfFree (insertedLines my r) = true) ↔ True := by simp
    rw [propext hnone]
    exact hdoc.gap hgap
  | r :: hunks, _, _, ⟨hgap, h1, h2, ht⟩ => by
    rw [propext List.forall_mem_cons]
    exact ((spliced_hunks hdoc ht).hunk h1 h2).gap hgap

/-- The splices of all hunks, from the last to the first, put the incoming lines in place just if no carriage return
stands before a newline in what a hunk puts in. -/
theorem patched_iff {hunks : List Range}
    (ht : Tiled (Gap (At (· == ·) mx my)) 0 0 hunks mx.length my.length) (hro : doc.readOnly = none)
    (hdoc : doc.text = pre ++ mx.flatten ++ post) :
    (spliceAll doc (hunks.map (lineSplice (size pre) mx my)).reverse).1.text = pre ++ my.flatten ++ post ↔
      ∀ r ∈ hunks, crlfFree (insertedLines my r) = true := by
  rw [spliceAll_doc, List.foldl_reverse, List.foldr_map]
  have hstart : Spliced pre post mx my mx.length my.length True doc :=
    ⟨hro, [], by simpa using hdoc, Nat.zero_le _, by simp⟩
  obtain ⟨tail, htext, -, hexact⟩ := (spliced_hunks hstart ht).text
  rw [htext, ← hexact]
  simp

end Splices

/-- The lines a hunk puts in hold no carriage return before a newline if all lines hold none. -/
theorem crlfFree_insertedLines {my : List Str} (hfree : crlfFree my.flatten = true) {r : Range}
    (h : r.start2 ≤ r.end2) : crlfFree (insertedLines my r) = true := by
  have hmy : my.flatten = (my.take r.start2).flatten ++ (my.drop r.start2).flatten := by
    rw [← List.flatten_append, List.take_append_drop]
  rw [hmy, flatten_drop my h] at hfree
  exact (crlfFree_append (crlfFree_append hfree).2).1

/-- The splices of all hunks, from the last to the first, put the incoming lines in place. -/
theorem patched_splices (pre post : Str) {mx my : List Str} {hunks : List Range}
    (ht : Tiled (Gap (At (· == ·) mx my)) 0 0 hunks mx.length my.length)
    (hfree : crlfFree my.flatten = true) {doc : CodeDocument} (hro : doc.readOnly = none)
    (hdoc : doc.text = pre ++ mx.flatten ++ post) :
    (spliceAll doc (hunks.map (lineSplice (size pre) mx my)).reverse).1.text =
      pre ++ my.flatten ++ post := by
  refine (patched_iff ht hro hdoc).2 fun r hr => crlfFree_insertedLines hfree ?_
  obtain ⟨-, -, -, -, h2, -⟩ := ht.bounds (gapRel_gap _) r hr
  exact h2

theorem sum_size (ls : List Str) : (ls.map size).sum = size ls.flatten := by
  induction ls with
  | nil => rfl
  | cons line ls ih => simp [ih]

/-- **The splices of a reload**, by the lines at the start and at the end that both texts have, and those between. -/
theorem diskSplices_eq {histogram : Histogram} (hl : HistogramLaw histogram) {current incoming text : Str}
    (hnormal : normalizeNewlines incoming = text) :
    ∃ as mx my bs, lines current = as ++ mx ++ bs ∧ lines text = as ++ my ++ bs ∧
      as.length = commonLines (lines current) (lines text) ∧
      bs.length = commonLines ((lines current).drop as.length).reverse ((lines text).drop as.length).reverse ∧
      diskSplices histogram current incoming =
        some (if mx.flatten = [] ∧ my.flatten = [] then []
          else ((histogram (lines mx.flatten) (lines my.flatten)).map
            (lineSplice (size as.flatten) (lines mx.flatten) (lines my.flatten))).reverse) := by
  obtain ⟨as, mx, my, bs, hx, hy, hfront, hback⟩ := common_ends (lines current) (lines text)
  refine ⟨as, mx, my, bs, hx, hy, hfront, by rw [hfront]; exact hback, ?_⟩
  have hcur : current = as.flatten ++ mx.flatten ++ bs.flatten := by
    rw [← lines_flatten current, hx, List.flatten_append, List.flatten_append]
  have hinc : text = as.flatten ++ my.flatten ++ bs.flatten := by
    rw [← lines_flatten text, hy, List.flatten_append, List.flatten_append]
  unfold diskSplices
  rw [hnormal, take_terminatedLineCount]
  dsimp only
  rw [← hback, ← hfront]
  -- the four offsets, in terms of the three parts of each text
  have hcs : lineToByte current as.length = size as.flatten := by
    rw [lineToByte_eq, hx, List.append_assoc, List.take_left]
  have hce : lineToByte current ((lines current).length - bs.length) =
      size as.flatten + size mx.flatten := by
    rw [lineToByte_eq, hx, List.length_append, Nat.add_sub_cancel, List.take_left,
      List.flatten_append, size_append]
  have his : (((lines text).take as.length).map size).sum = size as.flatten := by
    rw [sum_size, hy, List.append_assoc, List.take_left]
  have hie : size text -
      (((lines text).drop ((lines text).length - bs.length)).map size).sum =
        size as.flatten + size my.flatten := by
    rw [sum_size, hy, List.length_append, Nat.add_sub_cancel, List.drop_left, hinc]
    simp only [size_append]
    omega
  rw [hcs, hce, his, hie]
  by_cases hsame : mx.flatten = [] ∧ my.flatten = []
  · rw [if_pos hsame, if_pos (by simp [hsame.1, hsame.2])]
    rfl
  · have hsizes : ¬(size as.flatten = size as.flatten + size mx.flatten ∧
        size as.flatten = size as.flatten + size my.flatten) :=
      fun h => hsame ⟨size_eq_zero.1 (by omega), size_eq_zero.1 (by omega)⟩
    rw [if_neg hsame, if_neg hsizes]
    have hmx : strSlice current (size as.flatten) (size as.flatten + size mx.flatten) =
        some mx.flatten := by
      rw [hcur]
      exact strSlice_append _ _ _
    have hmy : strSlice text (size as.flatten) (size as.flatten + size my.flatten) =
        some my.flatten := by
      rw [hinc]
      exact strSlice_append _ _ _
    have ht := hl (lines mx.flatten) (lines my.flatten)
    have hmap : (histogram (lines mx.flatten) (lines my.flatten)).mapM
        (hunkSplice (size as.flatten) mx.flatten my.flatten) =
          some ((histogram (lines mx.flatten) (lines my.flatten)).map
            (lineSplice (size as.flatten) (lines mx.flatten) (lines my.flatten))) := by
      refine mapM_of_forall fun r hr => ?_
      obtain ⟨-, h1, he1, -, h2, he2⟩ := ht.bounds (gapRel_gap _) r hr
      exact hunkSplice_eq h1 he1 h2 he2
    simp only [hmx, hmy, hmap, Option.bind_eq_bind, Option.bind_some]
    rfl

/-- **Splicing** leads to the incoming text, if its lines between the common ends hold no carriage return before a
newline. -/
theorem spliceAll_middle {histogram : Histogram} (hl : HistogramLaw histogram) {as mx my bs : List Str}
    (hfree : crlfFree my.flatten = true) {doc : CodeDocument} (hro : doc.readOnly = none)
    (hdoc : doc.text = as.flatten ++ mx.flatten ++ bs.flatten) :
    (spliceAll doc (if mx.flatten = [] ∧ my.flatten = [] then []
      else ((histogram (lines mx.flatten) (lines my.flatten)).map
        (lineSplice (size as.flatten) (lines mx.flatten) (lines my.flatten))).reverse)).1.text =
      as.flatten ++ my.flatten ++ bs.flatten := by
  split_ifs with hsame
  · show doc.text = _
    rw [hdoc, hsame.1, hsame.2]
  · have hpatch := patched_splices as.flatten bs.flatten (hl (lines mx.flatten) (lines my.flatten))
      (by rwa [lines_flatten]) hro (by rw [lines_flatten, hdoc])
    rw [hpatch, lines_flatten]

/-- **Adopting a text**: the splices exist, and they lead from the current text to the normalized
incoming one if that holds no carriage return before a newline. -/
theorem spliceAll_diskSplices {histogram : Histogram} (hl : HistogramLaw histogram)
    {current incoming : Str} (hfree : crlfFree (normalizeNewlines incoming) = true) :
    ∃ ops, diskSplices histogram current incoming = some ops ∧
      ∀ doc : CodeDocument, doc.readOnly = none → doc.text = current →
        (spliceAll doc ops).1.text = normalizeNewlines incoming := by
  obtain ⟨as, mx, my, bs, hx, hy, -, -, hops⟩ := @diskSplices_eq histogram hl current incoming _ rfl
  have hcur : current = as.flatten ++ mx.flatten ++ bs.flatten := by
    rw [← lines_flatten current, hx, List.flatten_append, List.flatten_append]
  have hinc : normalizeNewlines incoming = as.flatten ++ my.flatten ++ bs.flatten := by
    rw [← lines_flatten (normalizeNewlines incoming), hy, List.flatten_append, List.flatten_append]
  have hmid : crlfFree my.flatten = true := by
    rw [hinc] at hfree
    exact (crlfFree_append (crlfFree_append hfree).1).2
  refine ⟨_, hops, fun doc hro hdoc => ?_⟩
  rw [hinc]
  exact spliceAll_middle hl hmid hro (hdoc.trans hcur)

end Paneflow.Code.DiskSplices
