import Paneflow.Alignment.Patch
import Paneflow.Code.DocRows
import Paneflow.Code.UndoRun
import Paneflow.Textdiff.Tracker

/-!
# Reverting a changed block

`revert_splice` of view/change_markers.rs: the splice that puts the base lines of a changed block in the place of
its document lines. A row in the middle of the document takes its newline along behind it; at the end of the document
there is none behind the last row, so the one in front of the rows is inserted or removed instead.

`revert_rows` says for all four cases what the splice does to the rows, and `reverted_blocks` follows it through all
blocks, from the last to the first.
-/

namespace Paneflow.Code.Revert

open Paneflow.Alignment.Patch Paneflow.Alignment.Tiling Paneflow.Code.DocRows Paneflow.Code.Document
open Paneflow.Code.Edit Paneflow.Code.UndoRun Paneflow.Rows Paneflow.Utf8
open Paneflow.Textdiff.LineChunks (EqualAt)
open Paneflow.Textdiff.Tracker (Block ValidBlocks)

def byteAt (doc : CodeDocument) (line : ℕ) : ℕ :=
  if line < lenLines doc.text then lineToByte doc.text line else doc.lenBytes

def revertSplice (doc : CodeDocument) (baseLines : List Str) (block : Block) : SpliceOp :=
  let lineCount := lenLines doc.text
  let len := doc.lenBytes
  let start := min block.lines.start lineCount
  let stop := max (min block.lines.stop lineCount) start
  let baseStart := min block.baseLines.start baseLines.length
  let baseEnd := max (min block.baseLines.stop baseLines.length) baseStart
  let base := (baseLines.take baseEnd).drop baseStart
  if stop < lineCount then
    ⟨byteAt doc start, byteAt doc stop, base.flatMap fun line => line ++ ['\n']⟩
  else if start = stop then ⟨len, len, base.flatMap fun line => '\n' :: line⟩
  else if base.isEmpty then ⟨byteAt doc start - (if start > 0 then 1 else 0), len, []⟩
  else ⟨byteAt doc start, len, join '\n' base⟩

/-- The document with the splice of a block applied. -/
def revert (baseLines : List Str) (doc : CodeDocument) (block : Block) : CodeDocument :=
  let op := revertSplice doc baseLines block
  (splice doc op.start op.stop op.text).1

/-- The base lines of a block. -/
def baseRows (baseLines : List Str) (block : Block) : List Str :=
  (baseLines.take block.baseLines.stop).drop block.baseLines.start

variable {doc : CodeDocument} {P M Q B baseLines : List Str} {block : Block}

/-! ### One block -/

theorem byteAt_closed (h : doc.text.splitOn '\n' = P ++ Q) (hQ : Q ≠ []) :
    byteAt doc P.length = size (closed '\n' P) := by
  have hrows := notMem_splitOn '\n' doc.text
  have htext : doc.text = closed '\n' P ++ join '\n' Q := by
    rw [← join_append_left P hQ, ← h, join_splitOn]
  have hlines : P.length < lenLines doc.text := by
    have hpos := List.length_pos_iff.2 hQ
    rw [lenLines_eq, h, List.length_append]
    omega
  rw [h] at hrows
  unfold byteAt
  rw [if_pos hlines, htext, lineToByte_closed fun row hrow => hrows row (by simp [hrow])]

/-- A text without a carriage return has none before a newline. -/
theorem crlfFree_of_notMem {text : Str} (h : '\r' ∉ text) : crlfFree text = true := by
  induction text with
  | nil => rfl
  | cons c text ih =>
    obtain ⟨hc, hrest⟩ := not_or.1 (List.mem_cons.not.1 h)
    simp [crlfFree, ih hrest, Ne.symm hc]

/-- Replacing a part of the text by one without a carriage return. -/
theorem splice_rows (hro : doc.readOnly = none) {p r q text : Str} (h : doc.text = p ++ r ++ q)
    (hfree : '\r' ∉ text) {start stop : ℕ} (hstart : start = size p) (hstop : stop = size p + size r) :
    (splice doc start stop text).1.text = p ++ text ++ q ∧ (splice doc start stop text).1.readOnly = none := by
  subst hstart hstop
  exact splice_part hro h (crlfFree_of_notMem hfree)

/-- **The rows of a reverted block**: its rows `M` are replaced by the base rows `B`, unless nothing at all would be
left. -/
theorem revert_rows (hro : doc.readOnly = none) (h : doc.text.splitOn '\n' = P ++ M ++ Q)
    (hbase : baseRows baseLines block = B) (hB : ∀ row ∈ B, '\n' ∉ row ∧ '\r' ∉ row)
    (hstart : block.lines.start = P.length) (hstop : block.lines.stop = P.length + M.length)
    (hbounds : block.baseLines.start ≤ block.baseLines.stop ∧ block.baseLines.stop ≤ baseLines.length)
    (hne : P ++ B ++ Q ≠ []) :
    (revert baseLines doc block).text.splitOn '\n' = P ++ B ++ Q ∧
      (revert baseLines doc block).readOnly = none := by
  have hrows := notMem_splitOn '\n' doc.text
  rw [h] at hrows
  have hnew : ∀ row ∈ P ++ B ++ Q, '\n' ∉ row := by
    intro row hrow
    rcases List.mem_append.1 hrow with hrow | hrow
    · rcases List.mem_append.1 hrow with hrow | hrow
      · exact hrows row (by simp [hrow])
      · exact (hB row hrow).1
    · exact hrows row (by simp [hrow])
  suffices hsplice : (revert baseLines doc block).text = join '\n' (P ++ B ++ Q) ∧
      (revert baseLines doc block).readOnly = none by
    rw [hsplice.1, splitOn_join hnew hne]
    exact ⟨rfl, hsplice.2⟩
  have hdoc : doc.text = join '\n' (P ++ M ++ Q) := by rw [← h, join_splitOn]
  have hcount : lenLines doc.text = P.length + M.length + Q.length := by
    rw [lenLines_eq, h, List.length_append, List.length_append]
  have hlen : doc.lenBytes = size (join '\n' (P ++ M ++ Q)) := by rw [← hdoc]; rfl
  have hfree : ∀ row ∈ B, '\r' ∉ row := fun row hrow => (hB row hrow).2
  have hsep : '\r' ≠ '\n' := by decide
  unfold revert revertSplice
  dsimp only
  rw [hstart, hstop, hcount, Nat.min_eq_left (show P.length ≤ P.length + M.length + Q.length by omega),
    Nat.min_eq_left (show P.length + M.length ≤ P.length + M.length + Q.length by omega),
    Nat.max_eq_left (Nat.le_add_right _ _), Nat.min_eq_left (hbounds.1.trans hbounds.2),
    Nat.min_eq_left hbounds.2, Nat.max_eq_left hbounds.1]
  rw [show (baseLines.take block.baseLines.stop).drop block.baseLines.start = B from hbase]
  by_cases hQ : Q = []
  · subst hQ
    rw [List.append_nil] at h hdoc hlen hne ⊢
    rw [if_neg (by simp)]
    by_cases hM : M = []
    · -- rows are inserted at the end, each with the newline in front of it
      subst hM
      rw [List.append_nil] at h hdoc hlen
      have hP : P ≠ [] := by
        rw [← h]
        exact List.splitOn_ne_nil _ _
      rw [if_pos (by simp), join_append_right hP, ← hdoc]
      have hsplice := @splice_rows doc hro doc.text [] [] _ (by simp) (notMem_opened hsep hfree)
        doc.lenBytes doc.lenBytes rfl rfl
      rwa [List.append_nil] at hsplice
    · have hpos := List.length_pos_iff.2 hM
      rw [if_neg (by omega), byteAt_closed h hM]
      by_cases hBnil : B = []
      · -- the last rows are removed, with the newline in front of them
        subst hBnil
        rw [List.append_nil] at hne ⊢
        have hP : 0 < P.length := List.length_pos_iff.2 hne
        have hlast : closed '\n' P = join '\n' P ++ ['\n'] := by
          obtain ⟨front, row, rfl⟩ := List.eq_nil_or_concat P |>.resolve_left hne
          rw [List.concat_eq_append, join_around]
          simp
        have hpart : doc.text = join '\n' P ++ opened '\n' M ++ [] := by
          rw [hdoc, join_append_right hne, List.append_nil]
        rw [if_pos (by simp), if_pos hP]
        have hsplice := @splice_rows doc hro _ _ [] [] hpart (by simp) (size (closed '\n' P) - 1) doc.lenBytes
          (by rw [hlast, size_append]; rfl) (by rw [hlen, ← hdoc, hpart]; simp)
        simpa using hsplice
      · -- the last rows are replaced
        have hpart : doc.text = closed '\n' P ++ join '\n' M ++ [] := by
          rw [hdoc, join_append_left P hM, List.append_nil]
        rw [if_neg (by simpa using hBnil)]
        have hsplice := @splice_rows doc hro _ _ [] _ hpart (notMem_join hsep hfree)
          (size (closed '\n' P)) doc.lenBytes rfl (by rw [hlen, ← hdoc, hpart]; simp)
        rw [join_append_left P hBnil]
        simpa using hsplice
  · -- rows in the middle, each with the newline behind it
    have hpos := List.length_pos_iff.2 hQ
    have hfront : byteAt doc P.length = size (closed '\n' P) := by
      rw [List.append_assoc] at h
      exact byteAt_closed h (by simp [hQ])
    have hback : byteAt doc (P.length + M.length) = size (closed '\n' P) + size (closed '\n' M) := by
      have hboth := byteAt_closed h hQ
      rwa [List.length_append, closed_append, size_append] at hboth
    have hpart : doc.text = closed '\n' P ++ closed '\n' M ++ join '\n' Q := by
      rw [hdoc, join_append_left _ hQ, closed_append]
    rw [if_pos (by omega), hfront, hback]
    have hsplice := @splice_rows doc hro _ _ _ _ hpart (notMem_closed hsep hfree) _ _ rfl rfl
    rwa [join_append_left _ hQ, closed_append]

/-- A reverted block of a document with the rows `L`. -/
theorem revert_block (hro : doc.readOnly = none) {L : List Str} (h : doc.text.splitOn '\n' = L) {base : Str}
    (hbase : '\r' ∉ base) (hlines : block.lines.start ≤ block.lines.stop ∧ block.lines.stop ≤ L.length)
    (hbounds : block.baseLines.start ≤ block.baseLines.stop ∧
      block.baseLines.stop ≤ (base.splitOn '\n').length)
    (hne : L.take block.lines.start ++ baseRows (base.splitOn '\n') block ++ L.drop block.lines.stop ≠ []) :
    (revert (base.splitOn '\n') doc block).text.splitOn '\n' =
        L.take block.lines.start ++ baseRows (base.splitOn '\n') block ++ L.drop block.lines.stop ∧
      (revert (base.splitOn '\n') doc block).readOnly = none := by
  have hcut : doc.text.splitOn '\n' = L.take block.lines.start ++
      (L.drop block.lines.start).take (block.lines.stop - block.lines.start) ++ L.drop block.lines.stop := by
    obtain ⟨n, hn⟩ := Nat.exists_eq_add_of_le hlines.1
    rw [h, hn, Nat.add_sub_cancel_left, ← List.take_add, List.take_append_drop]
  refine revert_rows hro hcut rfl (fun row hrow => ?_) ?_ ?_ hbounds hne
  · have hrow' : row ∈ base.splitOn '\n' := List.mem_of_mem_take (List.mem_of_mem_drop hrow)
    refine ⟨notMem_splitOn '\n' base row hrow', fun hmem => hbase ?_⟩
    obtain ⟨front, back, hsplit⟩ := List.append_of_mem hrow'
    rw [eq_around hsplit]
    simp [hmem]
  · rw [List.length_take]
    omega
  · rw [List.length_take, List.length_take, List.length_drop]
    omega

/-! ### All blocks -/

section Blocks
variable {base : Str} {blocks : List Block}

/-- Across a gap the base lines are the document's. -/
theorem gap_rows {base lines : List Str} {s1 e1 s2 e2 : ℕ}
    (h : Gap (EqualAt .default base lines) s1 e1 s2 e2) :
    lines.take e2 ++ base.drop e1 = lines.take s2 ++ base.drop s1 := by
  obtain ⟨n, h1, h2, heq⟩ := h
  refine @patched_gap _ lines base s2 e2 s1 e1 _ _ ⟨n, h2, h1, fun k hk => ?_⟩
  obtain ⟨x, y, hx, hy, hxy⟩ := heq k hk
  obtain rfl : x = y := by simpa [Paneflow.Textdiff.Text.isEquals] using hxy
  exact ⟨x, x, hy, hx, by simp⟩

/-- A reverted block of a document that holds the base behind the block already. -/
theorem revert_front (hro : doc.readOnly = none) {L : List Str} (hbase : '\r' ∉ base)
    (hlines : block.lines.start ≤ block.lines.stop ∧ block.lines.stop ≤ L.length)
    (hbounds : block.baseLines.start ≤ block.baseLines.stop ∧
      block.baseLines.stop ≤ (base.splitOn '\n').length)
    (hfirst : block.lines.start = 0 → block.baseLines.start = 0)
    (h : doc.text.splitOn '\n' =
      L.take block.lines.stop ++ (base.splitOn '\n').drop block.baseLines.stop) :
    (revert (base.splitOn '\n') doc block).readOnly = none ∧
      (revert (base.splitOn '\n') doc block).text.splitOn '\n' =
        L.take block.lines.start ++ (base.splitOn '\n').drop block.baseLines.start := by
  have htake : (L.take block.lines.stop).length = block.lines.stop := List.length_take_of_le hlines.2
  have hfront : (L.take block.lines.stop ++ (base.splitOn '\n').drop block.baseLines.stop).take
      block.lines.start = L.take block.lines.start := by
    rw [List.take_append_of_le_length (by omega), List.take_take, Nat.min_eq_left hlines.1]
  have hback : (L.take block.lines.stop ++ (base.splitOn '\n').drop block.baseLines.stop).drop
      block.lines.stop = (base.splitOn '\n').drop block.baseLines.stop := List.drop_left' htake
  have hrejoin : baseRows (base.splitOn '\n') block ++ (base.splitOn '\n').drop block.baseLines.stop =
      (base.splitOn '\n').drop block.baseLines.start := by
    obtain ⟨n, hn⟩ := Nat.exists_eq_add_of_le hbounds.1
    unfold baseRows
    rw [hn, List.drop_take, Nat.add_sub_cancel_left, ← List.drop_drop, List.take_append_drop]
  have hone := @revert_block doc block hro _ h base hbase
    ⟨hlines.1, by rw [List.length_append, htake]; exact Nat.le_add_right _ _⟩ hbounds
  rw [hfront, hback, List.append_assoc, hrejoin] at hone
  obtain ⟨hrows, hro'⟩ := hone fun hnil => by
    -- the base has at least one line
    have hpos : 0 < (base.splitOn '\n').length := List.length_pos_iff.2 (List.splitOn_ne_nil _ _)
    have hlength := congrArg List.length hnil
    simp only [List.length_append, List.length_take, List.length_drop, List.length_nil] at hlength
    omega
  exact ⟨hro', hrows⟩

/-- **Reverting blocks of a document that is compared with its base.** Reverting one block replaces its lines by its
base lines and nothing else, and reverting all blocks, from the last to the first, leads to the base text. -/
theorem reverted_blocks (hbase : '\r' ∉ base) (hro : doc.readOnly = none)
    (hv : ValidBlocks .default (base.splitOn '\n') (doc.text.splitOn '\n') blocks) :
    (∀ block ∈ blocks, (revert (base.splitOn '\n') doc block).text.splitOn '\n' =
      (doc.text.splitOn '\n').take block.lines.start ++ baseRows (base.splitOn '\n') block ++
        (doc.text.splitOn '\n').drop block.lines.stop) ∧
      (blocks.foldr (fun block doc => revert (base.splitOn '\n') doc block) doc).text = base := by
  generalize hL : doc.text.splitOn '\n' = L at hv ⊢
  have hpos : 0 < (base.splitOn '\n').length := List.length_pos_iff.2 (List.splitOn_ne_nil _ _)
  have hapart : (blocks.map Block.range).Pairwise Range.Before :=
    List.pairwise_map.2 (hv.separated.imp fun h => ⟨h.2, h.1⟩)
  have hfirst : ∀ block ∈ blocks, block.lines.start = 0 → block.baseLines.start = 0 := fun block hblock =>
    hv.gaps.start_eq hapart block.range (List.mem_map_of_mem hblock)
  have hlast : ∀ block ∈ blocks, block.lines.stop = L.length →
      block.baseLines.stop = (base.splitOn '\n').length := fun block hblock =>
    hv.gaps.end_eq hapart block.range (List.mem_map_of_mem hblock)
  constructor
  · intro block hblock
    obtain ⟨h1, h2, h3, h4⟩ := hv.bounds block hblock
    refine (revert_block hro hL hbase ⟨h1, h2⟩ ⟨h3, h4⟩ fun hnil => ?_).1
    -- a block with all lines of the document has all base lines
    have hlength := congrArg List.length hnil
    simp only [baseRows, List.length_append, List.length_take, List.length_drop, List.length_nil] at hlength
    have hstart := hfirst block hblock
    have hstop := hlast block hblock
    omega
  · have hdone := @foldr_tiled CodeDocument _ _ _
      (fun r doc => revert (base.splitOn '\n') doc ⟨⟨r.start2, r.end2⟩, ⟨r.start1, r.end1⟩, false, false⟩)
      (fun i j doc => doc.readOnly = none ∧ doc.text.splitOn '\n' = L.take j ++ (base.splitOn '\n').drop i)
      ?_ _ 0 0 doc hv.gaps ?_ ?_
    · rw [List.foldr_map] at hdone
      have hrows := hdone.2
      rw [List.take_zero, List.drop_zero, List.nil_append] at hrows
      have htext := congrArg (join '\n') hrows
      rwa [join_splitOn, join_splitOn] at htext
    · rintro s1 e1 s2 e2 d hgap ⟨hd, hrows⟩
      exact ⟨hd, hrows.trans (gap_rows hgap)⟩
    · rintro r hr d - - ⟨hd, hrows⟩
      obtain ⟨block, hblock, rfl⟩ := List.mem_map.1 hr
      obtain ⟨h1, h2, h3, h4⟩ := hv.bounds block hblock
      exact revert_front hd hbase ⟨h1, h2⟩ ⟨h3, h4⟩ (hfirst block hblock) hrows
    · exact ⟨hro, by simp [hL]⟩

/-- A line that was added at the end of the file. -/
theorem reverted_blocks_added :
    ([⟨⟨2, 3⟩, ⟨2, 2⟩, false, false⟩].foldr
      (fun block doc => revert (['a', '\n', 'b'].splitOn '\n') doc block)
        (CodeDocument.new ['a', '\n', 'b', '\n', 'c'])).text = ['a', '\n', 'b'] := by
  refine (@reverted_blocks (.new ['a', '\n', 'b', '\n', 'c']) ['a', '\n', 'b'] _ (by decide) rfl
    ⟨by decide, List.pairwise_singleton _ _, ⟨2, rfl, rfl, fun k hk => ?_⟩, by decide, by decide, 0, by decide,
      by decide, by simp⟩).2
  match k with
  | 0 => exact ⟨['a'], ['a'], by decide, by decide, by decide⟩
  | 1 => exact ⟨['b'], ['b'], by decide, by decide, by decide⟩

end Blocks

end Paneflow.Code.Revert
