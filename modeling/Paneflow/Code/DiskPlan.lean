import Paneflow.Code.DiskSplices

/-!
# The plan of a reload

`disk_splices` of code/edit.rs and the text that its splices lead to. The plan is always in order
(`inOrder_plan`): the splices are in bounds, and each one ends before the one in front of it begins.
What they lead to is the text of a new document of the incoming text only if no hunk puts in a carriage
return before a newline, because a splice normalizes what it inserts and a new document is normalized once.
-/

namespace Paneflow.Code.DiskPlan

open Paneflow.Alignment.Tiling Paneflow.Code.DiskSplices Paneflow.Code.Document Paneflow.Code.Edit
open Paneflow.Code.UndoRun Paneflow.Utf8

/-- The lines of the current and of the incoming text between those that they have in common at the start and at
the end. -/
def middles (current incoming : Str) : List Str × List Str :=
  let xs := lines current
  let ys := lines (normalizeNewlines incoming)
  let front := commonLines xs ys
  let back := commonLines (xs.drop front).reverse (ys.drop front).reverse
  ((xs.take (xs.length - back)).drop front, (ys.take (ys.length - back)).drop front)

/-- The hunks of a reload, between the lines that the texts have in common. -/
def hunks (histogram : Histogram) (current incoming : Str) : List Range :=
  histogram (lines (middles current incoming).1.flatten) (lines (middles current incoming).2.flatten)

/-- **What is relied on of the histogram diff** here: also, there are equal lines between two hunks. -/
structure HunkLaw (histogram : Histogram) : Prop where
  tiled : HistogramLaw histogram
  apart : ∀ before after, (histogram before after).Pairwise Range.Before

/-- The splices lie in a text of this size, and each one begins and ends before the one in front of it. -/
structure InOrder (ops : List SpliceOp) (length : ℕ) : Prop where
  bounds : ∀ op ∈ ops, op.start ≤ op.stop ∧ op.stop ≤ length
  descending : ops.Pairwise fun op next => next.stop ≤ op.start ∧ next.start < op.start

/-- The plan of a reload leads to the text of a new document, and its splices are in order. -/
def Adopts (histogram : Histogram) (current incoming : Str) : Prop :=
  ∃ ops, diskSplices histogram current incoming = some ops ∧ InOrder ops (size current) ∧
    ∀ doc : CodeDocument, doc.readOnly = none → doc.text = current →
      (spliceAll doc ops).1.text = (CodeDocument.new incoming).text

/-- A document that can be edited and holds the text. -/
def holding (text : Str) : CodeDocument := { CodeDocument.new [] with text := text }

theorem hunkLaw_replaceAll : HunkLaw replaceAll := ⟨histogramLaw_replaceAll, fun _ _ => List.pairwise_singleton _ _⟩

theorem lines_ne_nil (text : Str) : ∀ line ∈ lines text, line ≠ [] := by
  induction text with
  | nil => simp [lines]
  | cons c text ih =>
    unfold lines
    split_ifs
    · simpa using ih
    · rcases hl : lines text with _ | ⟨line, rest⟩
      · simp
      · rw [hl] at ih
        simpa using fun l hl => ih l (List.mem_cons_of_mem _ hl)

theorem size_flatten_take_lt {ls : List Str} (hne : ∀ line ∈ ls, line ≠ []) {s e : ℕ} (hlt : s < e)
    (he : e ≤ ls.length) : size (ls.take s).flatten < size (ls.take e).flatten := by
  rw [flatten_take ls hlt.le, size_append]
  have hpart : (ls.drop s).take (e - s) = ls[s] :: (ls.drop (s + 1)).take (e - s - 1) := by
    rw [List.drop_eq_getElem_cons (by omega), List.take_cons (by omega)]
  have hpos : 0 < size ls[s] := by
    rw [Nat.pos_iff_ne_zero, Ne, size_eq_zero]
    exact hne _ (List.getElem_mem _)
  rw [hpart, List.flatten_cons, size_append]
  omega

theorem size_flatten_take_le (ls : List Str) {s e : ℕ} (h : s ≤ e) :
    size (ls.take s).flatten ≤ size (ls.take e).flatten := by
  rw [flatten_take ls h, size_append]
  exact Nat.le_add_right _ _

/-- **The splices of the hunks** of two lists of lines are in order. -/
theorem inOrder_hunks {Q : ℕ → ℕ → ℕ → ℕ → Prop} (hQ : GapRel Q) {mx my : List Str} {rs : List Range}
    (ht : Tiled Q 0 0 rs mx.length my.length) (hapart : rs.Pairwise Range.Before)
    (hne : ∀ line ∈ mx, line ≠ []) (start : ℕ) {length : ℕ} (hlength : start + size mx.flatten ≤ length) :
    InOrder (rs.map (lineSplice start mx my)).reverse length := by
  have hbounds := ht.bounds hQ
  constructor
  · intro op hop
    obtain ⟨r, hr, rfl⟩ := List.mem_map.1 (List.mem_reverse.1 hop)
    obtain ⟨-, h1, he1, -⟩ := hbounds r hr
    have hle := size_flatten_take_le mx h1
    have hend := size_flatten_take_le mx he1
    rw [List.take_length] at hend
    exact ⟨Nat.add_le_add_left hle start, (Nat.add_le_add_left hend start).trans hlength⟩
  · rw [List.pairwise_reverse, List.pairwise_map]
    refine hapart.imp_of_mem fun {r s} hr hs hrs => ?_
    obtain ⟨-, h1, -⟩ := hbounds r hr
    obtain ⟨-, h1', he1', -⟩ := hbounds s hs
    have hle := size_flatten_take_le mx h1
    have hlt := size_flatten_take_lt hne hrs.1 (h1'.trans he1')
    show start + _ ≤ start + _ ∧ start + _ < start + _
    omega

theorem drop_take_middle (as ms bs : List Str) :
    ((as ++ ms ++ bs).take ((as ++ ms ++ bs).length - bs.length)).drop as.length = ms := by
  rw [List.length_append, Nat.add_sub_cancel, List.take_left, List.drop_left]

/-- **The plan of a reload**: it is in order, and it leads to the incoming text just if no hunk puts in a carriage
return before a newline. -/
theorem plan_spec {histogram : Histogram} (hlaw : HunkLaw histogram) (current incoming : Str) :
    ∃ ops, diskSplices histogram current incoming = some ops ∧ InOrder ops (size current) ∧
      ∀ doc : CodeDocument, doc.readOnly = none → doc.text = current →
        ((spliceAll doc ops).1.text = normalizeNewlines incoming ↔
          ∀ r ∈ hunks histogram current incoming,
            crlfFree (insertedLines (lines (middles current incoming).2.flatten) r) = true) := by
  obtain ⟨as, mx, my, bs, hx, hy, hfront, hback, hops⟩ := @diskSplices_eq histogram hlaw.tiled current incoming _ rfl
  have hmiddles : middles current incoming = (mx, my) := by
    unfold middles
    dsimp only
    rw [← hfront, ← hback, hx, hy, drop_take_middle, drop_take_middle]
  have hcur : current = as.flatten ++ mx.flatten ++ bs.flatten := by
    rw [← lines_flatten current, hx, List.flatten_append, List.flatten_append]
  have hinc : normalizeNewlines incoming = as.flatten ++ my.flatten ++ bs.flatten := by
    rw [← lines_flatten (normalizeNewlines incoming), hy, List.flatten_append, List.flatten_append]
  unfold hunks
  rw [hmiddles]
  dsimp only
  have ht := hlaw.tiled (lines mx.flatten) (lines my.flatten)
  have hfit : size as.flatten + size (lines mx.flatten).flatten ≤ size current := by
    rw [lines_flatten, hcur, size_append, size_append]
    omega
  have horder := inOrder_hunks (gapRel_gap _) ht (hlaw.apart _ _) (lines_ne_nil _) (size as.flatten) hfit
  refine ⟨_, hops, ?_, fun doc hro hdoc => ?_⟩
  · split_ifs
    · exact ⟨by simp, List.Pairwise.nil⟩
    · exact horder
  · have hpatch := @patched_iff as.flatten bs.flatten _ _ doc _ ht hro
      (by rw [hdoc, lines_flatten, hcur])
    rw [lines_flatten, ← hinc] at hpatch
    rw [← hpatch]
    split_ifs with hsame
    · -- there is nothing between the common lines, and nothing to put in
      have hall : ∀ r ∈ histogram (lines mx.flatten) (lines my.flatten),
          crlfFree (insertedLines (lines my.flatten) r) = true := by
        intro r hr
        obtain ⟨-, -, -, -, h2, -⟩ := ht.bounds (gapRel_gap _) r hr
        exact crlfFree_insertedLines (by rw [lines_flatten, hsame.2]; rfl) h2
      have hunchanged : (spliceAll doc []).1.text = normalizeNewlines incoming := by
        show doc.text = _
        rw [hdoc, hcur, hinc, hsame.1, hsame.2]
      exact iff_of_true hunchanged (hpatch.2 hall)
    · rfl

/-- **Adopting a text from disk.** The plan of a reload leads from the current text to the text of a new document just
if no hunk puts in a line with a carriage return before its newline. Whatever the diff is, that is so if there is
no such line between those that both texts have in common, and only then. -/
theorem adopts_iff (current incoming : Str) :
    (∀ histogram, HunkLaw histogram → (Adopts histogram current incoming ↔
      ∀ r ∈ hunks histogram current incoming,
        crlfFree (insertedLines (lines (middles current incoming).2.flatten) r) = true)) ∧
    ((∀ histogram, HunkLaw histogram → Adopts histogram current incoming) ↔
      crlfFree (middles current incoming).2.flatten = true) := by
  have hone : ∀ histogram, HunkLaw histogram → (Adopts histogram current incoming ↔
      ∀ r ∈ hunks histogram current incoming,
        crlfFree (insertedLines (lines (middles current incoming).2.flatten) r) = true) := by
    intro histogram hlaw
    obtain ⟨ops, hops, horder, hspec⟩ := plan_spec hlaw current incoming
    constructor
    · rintro ⟨ops', hops', -, hadopts⟩
      obtain rfl : ops = ops' := Option.some.inj (hops.symm.trans hops')
      exact (hspec (holding current) rfl rfl).1 (hadopts _ rfl rfl)
    · exact fun hfree => ⟨ops, hops, horder, fun doc hro hdoc => (hspec doc hro hdoc).2 hfree⟩
  refine ⟨hone, fun hall => ?_, fun hfree histogram hlaw => (hone histogram hlaw).2 fun r hr => ?_⟩
  · -- the diff that replaces everything puts all the lines in
    have hadopts := (hone replaceAll hunkLaw_replaceAll).1 (hall _ hunkLaw_replaceAll)
      _ List.mem_cons_self
    simpa [insertedLines, lines_flatten] using hadopts
  · obtain ⟨-, -, -, -, h2, -⟩ := (hlaw.tiled _ _).bounds (gapRel_gap _) r hr
    exact crlfFree_insertedLines (by rwa [lines_flatten]) h2

/-- A line that was changed on disk. -/
theorem adopts_iff_line : Adopts replaceAll ['a', '\n', 'b'] ['a', '\r', '\n', 'c', '\n'] :=
  ((adopts_iff _ _).1 replaceAll hunkLaw_replaceAll).2 (by decide)

/-- A file with two carriage returns before its newline is adopted with none, and opened with one. -/
theorem not_adopts : ¬ ∀ (histogram : Histogram) (current incoming : Str), HunkLaw histogram →
    Adopts histogram current incoming := by
  intro hall
  obtain ⟨ops, hops, -, hadopts⟩ := hall replaceAll [] ['\r', '\r', '\n'] hunkLaw_replaceAll
  obtain rfl : [⟨0, 0, ['\r', '\n']⟩] = ops := Option.some.inj hops
  have htext := hadopts (holding []) rfl rfl
  revert htext
  decide

end Paneflow.Code.DiskPlan
