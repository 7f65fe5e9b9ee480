import Paneflow.Code.DiskPlan
import Paneflow.Patches

/-!
# Where an offset goes when a text is reloaded

`shift_offset_for_splices` of code/edit.rs moves the ends of the selection along with the splices of a reload. The loop
goes over the splices from the first place to the last and adds up by how much they move what stands behind them.

* `shiftFrom_mono`: the order of two offsets is kept.
* `shiftFrom_kept`: an offset outside all splices is moved by those in front of it.
* `shiftOffset_spec`: for the splices of `disk_splices`, with the bound on what comes out, and the byte that is found
  there.
-/

namespace Paneflow.Code.SpliceOffsets

open Paneflow.Alignment.Patch Paneflow.Alignment.Tiling Paneflow.Checked Paneflow.Code.DiskPlan Paneflow.Code.DiskSplices
open Paneflow.Code.Document Paneflow.Code.Edit Paneflow.Code.UndoRun Paneflow.Patches Paneflow.Utf8

/-- The loop of `shift_offset_for_splices`, before the result is cut off at zero. -/
def shiftFrom (offset : ℕ) : (delta : ℤ) → List SpliceOp → ℤ
  | delta, [] => offset + delta
  | delta, op :: ops =>
    if op.start = op.stop then
      shiftFrom offset (if op.start ≤ offset then delta + size op.text else delta) ops
    else if offset ≤ op.start then offset + delta
    else if op.stop ≤ offset then shiftFrom offset (delta + (size op.text - ((op.stop : ℤ) - op.start))) ops
    else op.start + delta + min (offset - op.start) (size op.text)

def shiftOffsetForSplices (offset : ℕ) (splicesDescending : List SpliceOp) : ℕ :=
  (shiftFrom offset 0 splicesDescending.reverse).toNat

def shiftSelectionForSplices (selection : CodeSelection) (splicesDescending : List SpliceOp) : CodeSelection :=
  { anchor := shiftOffsetForSplices selection.anchor splicesDescending
    head := shiftOffsetForSplices selection.head splicesDescending }

/-! ### What splices do to the bytes -/

/-- The splices put in bytes. -/
def bytesPlan : Plan SpliceOp UInt8 := ⟨SpliceOp.start, SpliceOp.stop, fun op => bytes op.text⟩

/-- The splices put in bytes that come from nowhere in the old text. -/
def originsPlan : Plan SpliceOp (Option ℕ) := ⟨SpliceOp.start, SpliceOp.stop, fun op => List.replicate (size op.text) none⟩

/-- For each byte of the new text, where it stood in the old one. -/
def origins (ops : List SpliceOp) (length : ℕ) : List (Option ℕ) :=
  originsPlan.apply ops ((List.range length).map some)

/-! ### The loop -/

/-- Splices in order, the first one from `low` on. -/
def Ascending : ℕ → List SpliceOp → Prop
  | _, [] => True
  | low, op :: ops => low ≤ op.start ∧ op.start ≤ op.stop ∧ Ascending op.stop ops

section
variable {low offset a b : ℕ} {delta : ℤ} {ops : List SpliceOp}

/-- In front of all splices nothing moves. -/
theorem shiftFrom_before (h : Ascending low ops) (hlt : offset < low) : shiftFrom offset delta ops = offset + delta := by
  induction ops generalizing low with
  | nil => rfl
  | cons op ops ih =>
    obtain ⟨hlow, hle, hrest⟩ := h
    rw [shiftFrom]
    split_ifs with hempty hstart hbefore hstop
    · omega
    · exact ih hrest (by omega)
    · rfl
    · omega
    · omega

/-- Behind `low` everything stays behind it. -/
theorem le_shiftFrom (delta : ℤ) (h : Ascending low ops) (hlow : low ≤ offset) : low + delta ≤ shiftFrom offset delta ops := by
  induction ops generalizing low delta with
  | nil =>
    rw [shiftFrom]
    omega
  | cons op ops ih =>
    obtain ⟨hop, hle, hrest⟩ := h
    rw [shiftFrom]
    split_ifs with hempty hstart hbefore hstop
    · have := ih (delta + size op.text) hrest (show op.stop ≤ offset by omega)
      omega
    · rw [shiftFrom_before hrest (by omega)]
      omega
    · omega
    · have := ih (delta + (size op.text - ((op.stop : ℤ) - op.start))) hrest hstop
      omega
    · omega

/-- **The order is kept**, through every splice. -/
theorem shiftFrom_mono (h : Ascending low ops) (hab : a ≤ b) : shiftFrom a delta ops ≤ shiftFrom b delta ops := by
  induction ops generalizing low delta with
  | nil =>
    rw [shiftFrom, shiftFrom]
    omega
  | cons op ops ih =>
    obtain ⟨hop, hle, hrest⟩ := h
    rw [shiftFrom, shiftFrom]
    by_cases hempty : op.start = op.stop
    · -- an insertion moves what stands at its place or behind it
      rw [if_pos hempty, if_pos hempty]
      by_cases ha : op.start ≤ a
      · rw [if_pos ha, if_pos (ha.trans hab)]
        exact ih hrest
      · rw [if_neg ha]
        split_ifs with hb
        · have hbehind := le_shiftFrom (delta + size op.text) hrest (show op.stop ≤ b by omega)
          rw [shiftFrom_before hrest (by omega)]
          omega
        · exact ih hrest
    · rw [if_neg hempty, if_neg hempty]
      by_cases ha : op.stop ≤ a
      · rw [if_neg (by omega), if_pos ha, if_neg (by omega), if_pos (ha.trans hab)]
        exact ih hrest
      · -- `a` is in the range or in front of it, so it stays in front of what follows the range
        by_cases hb : op.stop ≤ b
        · have hbehind := le_shiftFrom (delta + (size op.text - ((op.stop : ℤ) - op.start))) hrest hb
          rw [if_neg (show ¬b ≤ op.start by omega), if_pos hb]
          split_ifs <;> omega
        · split_ifs <;> omega

/-- **Outside all splices** an offset is moved by the splices in front of it. -/
theorem shiftFrom_kept (h : Ascending low ops) (hkept : ∀ op ∈ ops, offset < op.start ∨ op.stop ≤ offset) :
    shiftFrom offset delta ops =
      offset + delta + ((ops.filter fun op => op.stop ≤ offset).map bytesPlan.gain).sum := by
  induction ops generalizing low delta with
  | nil => simp [shiftFrom]
  | cons op ops ih =>
    obtain ⟨hlow, hle, hrest⟩ := h
    obtain ⟨hop, hkeep⟩ := List.forall_mem_cons.mp hkept
    have hgain : bytesPlan.gain op = size op.text - ((op.stop : ℤ) - op.start) := rfl
    rcases hop with hlt | hge
    · -- nothing behind moves the offset either
      rw [List.filter_cons_of_neg (by rw [decide_eq_true_iff]; omega), ← ih hrest hkeep,
        shiftFrom_before hrest (by omega), shiftFrom_before (show Ascending op.start (op :: ops) from ⟨le_rfl, hle, hrest⟩) hlt]
    · rw [List.filter_cons_of_pos (by rwa [decide_eq_true_iff]), List.map_cons, List.sum_cons, hgain, shiftFrom]
      by_cases hempty : op.start = op.stop
      · rw [if_pos hempty, if_pos (hempty.trans_le hge), ih hrest hkeep, hempty]
        omega
      · rw [if_neg hempty, if_neg (by omega), if_pos hge, ih hrest hkeep]
        omega

end

/-! ### Splices from the last place to the first -/

section
variable {ops : List SpliceOp} {length offset : ℕ}

theorem ascending_append {op : SpliceOp} : ∀ {low : ℕ} {ops : List SpliceOp}, Ascending low ops →
    low ≤ op.start → (∀ other ∈ ops, other.stop ≤ op.start) → op.start ≤ op.stop → Ascending low (ops ++ [op])
  | _, [], _, hlow, _, hle => ⟨hlow, hle, trivial⟩
  | _, first :: _, ⟨hlow, hfirst, hrest⟩, _, hall, hle =>
    ⟨hlow, hfirst, ascending_append hrest (hall first List.mem_cons_self)
      (fun other hother => hall other (List.mem_cons_of_mem _ hother)) hle⟩

theorem ascending_reverse (h : InOrder ops length) : Ascending 0 ops.reverse := by
  induction ops with
  | nil => trivial
  | cons op ops ih =>
    obtain ⟨hop, hbounds⟩ := List.forall_mem_cons.mp h.bounds
    obtain ⟨hfirst, hrest⟩ := List.pairwise_cons.mp h.descending
    rw [List.reverse_cons]
    exact ascending_append (ih ⟨hbounds, hrest⟩) (Nat.zero_le _)
      (fun other hother => (hfirst other (List.mem_reverse.mp hother)).1) hop.1

theorem below_of_inOrder {α : Type} {plan : Plan SpliceOp α} (hstart : plan.start = SpliceOp.start)
    (hstop : plan.stop = SpliceOp.stop) (h : InOrder ops length) : Below length (ops.map plan.toPatch) := by
  induction ops generalizing length with
  | nil => trivial
  | cons op ops ih =>
    obtain ⟨hop, hbounds⟩ := List.forall_mem_cons.mp h.bounds
    obtain ⟨hfirst, hrest⟩ := List.pairwise_cons.mp h.descending
    have hpatch : (plan.toPatch op).start = op.start ∧ (plan.toPatch op).stop = op.stop :=
      ⟨congrFun hstart op, congrFun hstop op⟩
    refine ⟨by rw [hpatch.1, hpatch.2]; exact hop.1, by rw [hpatch.2]; exact hop.2, ?_⟩
    rw [hpatch.1]
    exact ih ⟨fun other hother => ⟨(hbounds other hother).1, (hfirst other hother).1⟩, hrest⟩

theorem shiftOffset_mono (h : InOrder ops length) {a b : ℕ} (hab : a ≤ b) :
    shiftOffsetForSplices a ops ≤ shiftOffsetForSplices b ops :=
  Int.toNat_le_toNat (shiftFrom_mono (ascending_reverse h) hab)

/-- A selection is not turned around. -/
theorem shiftSelection_order (h : InOrder ops length) {selection : CodeSelection}
    (hle : selection.anchor ≤ selection.head) :
    (shiftSelectionForSplices selection ops).anchor ≤ (shiftSelectionForSplices selection ops).head :=
  shiftOffset_mono h hle

/-- An offset outside all splices goes where the splices in front of it move its place. -/
theorem shiftOffset_kept (h : InOrder ops length) (hkept : ∀ op ∈ ops, offset < op.start ∨ op.stop ≤ offset) :
    (shiftOffsetForSplices offset ops : ℤ) = bytesPlan.moved ops offset := by
  have hascending := ascending_reverse h
  have hnonneg := le_shiftFrom 0 hascending (Nat.zero_le offset)
  rw [shiftOffsetForSplices, Int.toNat_of_nonneg (by omega),
    shiftFrom_kept hascending (fun op hop => hkept op (List.mem_reverse.mp hop)), add_zero,
    List.filter_reverse, List.map_reverse, List.sum_reverse]
  rfl

/-- What is outside no splice of the plan is at the length of the new text. -/
theorem shiftOffset_length (h : InOrder ops length) {rows : List UInt8} (hrows : rows.length = length) :
    shiftOffsetForSplices length ops = (bytesPlan.apply ops rows).length := by
  have hkept := shiftOffset_kept h fun op hop => .inr (h.bounds op hop).2
  have hlength := Plan.length_apply bytesPlan (below_of_inOrder rfl rfl h) hrows.ge
  rw [Plan.moved_of_le bytesPlan fun op hop => (h.bounds op hop).2] at hkept
  omega

end

/-! ### The splices of a reload -/

/-- The bytes of a text in which a segment is replaced. -/
theorem apply_bytes (front middle rest : Str) {op : SpliceOp} (hstart : op.start = size front)
    (hstop : op.stop = size front + size middle) :
    (bytesPlan.toPatch op).apply (bytes (front ++ middle ++ rest)) = bytes (front ++ op.text ++ rest) := by
  have htake : (bytes (front ++ middle ++ rest)).take op.start = bytes front := by
    rw [hstart, bytes_append, bytes_append, List.append_assoc]
    exact List.take_left
  have hdrop : (bytes (front ++ middle ++ rest)).drop op.stop = bytes rest := by
    rw [hstop, bytes_append, ← size_append]
    exact List.drop_left
  change List.take op.start _ ++ bytes op.text ++ List.drop op.stop _ = _
  rw [htake, hdrop, bytes_append, bytes_append]

/-- **The splices of all hunks** put the bytes of the incoming lines in place. -/
theorem apply_hunks (pre post : Str) {mx my : List Str} {hunks : List Range}
    (ht : Tiled (Gap (At (· == ·) mx my)) 0 0 hunks mx.length my.length) :
    bytesPlan.apply (hunks.map (lineSplice (size pre) mx my)).reverse (bytes (pre ++ mx.flatten ++ post)) =
      bytes (pre ++ my.flatten ++ post) := by
  rw [Plan.apply, List.foldl_reverse, List.foldr_map]
  have hdone := @foldr_tiled (List UInt8) _ _ _
    (fun r rows => (bytesPlan.toPatch (lineSplice (size pre) mx my r)).apply rows)
    (fun i j rows => rows = bytes (pre ++ (mx.take i ++ my.drop j).flatten ++ post))
    (fun s1 e1 s2 e2 rows hgap hrows => by rw [hrows, patched_gap hgap]) hunks 0 0
    (bytes (pre ++ mx.flatten ++ post)) ht ?_ (by rw [List.take_length, List.drop_length, List.append_nil])
  · simpa using hdone
  · -- one hunk
    intro r hr rows h1 h2 hrows
    have hsplit : pre ++ (mx.take r.end1 ++ my.drop r.end2).flatten ++ post =
        (pre ++ (mx.take r.start1).flatten) ++ ((mx.drop r.start1).take (r.end1 - r.start1)).flatten ++
          ((my.drop r.end2).flatten ++ post) := by
      rw [List.flatten_append, flatten_take mx h1]
      simp only [List.append_assoc]
    rw [hrows, hsplit, apply_bytes]
    · rw [List.flatten_append, flatten_drop my h2]
      simp only [lineSplice, List.append_assoc]
    · rw [size_append]
      rfl
    · rw [← size_append, List.append_assoc, ← flatten_take mx h1, size_append]
      rfl

/-- **Moving an offset along with a reload.** For the splices that `disk_splices` makes, which lie apart from each other
and lead from the old text to the new one: the order of two offsets is kept, no offset leaves the new text, and an
offset outside the splices becomes the offset of the same byte. -/
theorem shiftOffset_spec {histogram : Histogram} (hlaw : HunkLaw histogram) (current incoming : Str) :
    ∃ ops, diskSplices histogram current incoming = some ops ∧ InOrder ops (size current) ∧
      bytesPlan.apply ops (bytes current) = bytes (normalizeNewlines incoming) ∧
      (∀ a b, a ≤ b → b ≤ size current → shiftOffsetForSplices a ops ≤ shiftOffsetForSplices b ops) ∧
      (∀ a ≤ size current, shiftOffsetForSplices a ops ≤ size (normalizeNewlines incoming)) ∧
      ∀ a < size current, (∀ op ∈ ops, a < op.start ∨ op.stop ≤ a) →
        (origins ops (size current))[shiftOffsetForSplices a ops]? = some (some a) ∧
          (bytes (normalizeNewlines incoming))[shiftOffsetForSplices a ops]? = (bytes current)[a]? := by
  obtain ⟨ops, hops, horder, -⟩ := plan_spec hlaw current incoming
  have hnew : bytesPlan.apply ops (bytes current) = bytes (normalizeNewlines incoming) := by
    obtain ⟨as, mx, my, bs, hx, hy, -, -, hops'⟩ := @diskSplices_eq histogram hlaw.tiled current incoming _ rfl
    obtain rfl := Option.some.inj (hops'.symm.trans hops)
    have hcur : current = as.flatten ++ mx.flatten ++ bs.flatten := by
      rw [← lines_flatten current, hx, List.flatten_append, List.flatten_append]
    have hinc : normalizeNewlines incoming = as.flatten ++ my.flatten ++ bs.flatten := by
      rw [← lines_flatten (normalizeNewlines incoming), hy, List.flatten_append, List.flatten_append]
    rw [hinc, hcur]
    split_ifs with hsame
    · rw [hsame.1, hsame.2]
      rfl
    · have hhunks := apply_hunks as.flatten bs.flatten (hlaw.tiled (lines mx.flatten) (lines my.flatten))
      rwa [lines_flatten, lines_flatten] at hhunks
  refine ⟨ops, hops, horder, hnew, fun a b hab _ => shiftOffset_mono horder hab, fun a ha => ?_,
    fun a ha hkept => ?_⟩
  · have hlength := shiftOffset_length horder (show (bytes current).length = size current from rfl)
    rw [hnew] at hlength
    exact (shiftOffset_mono horder ha).trans_eq hlength
  · have hmoved := shiftOffset_kept horder hkept
    obtain ⟨i, hi, horigin⟩ := Plan.getElem?_apply originsPlan (below_of_inOrder rfl rfl horder)
      (show size current ≤ ((List.range (size current)).map some).length by simp) hkept
    obtain ⟨j, hj, hbyte⟩ := Plan.getElem?_apply bytesPlan (below_of_inOrder rfl rfl horder)
      (show size current ≤ (bytes current).length from le_rfl) hkept
    have hsame : originsPlan.moved ops a = bytesPlan.moved ops a := by
      have hgain : originsPlan.gain = bytesPlan.gain := by
        funext op
        simp [Plan.gain, originsPlan, bytesPlan, size]
      rw [Plan.moved, Plan.moved, hgain]
      rfl
    obtain rfl : i = shiftOffsetForSplices a ops := by omega
    obtain rfl : j = shiftOffsetForSplices a ops := by omega
    constructor
    · rw [origins, horigin, List.getElem?_map, List.getElem?_range ha]
      rfl
    · rw [← hnew, hbyte]

/-- The text `a`, newline, `c` becomes `a`, newline, `bc`: the offset of the newline stays where it is. -/
theorem shiftOffset_spec_lastLine :
    shiftOffsetForSplices 1 [⟨2, 3, ['b', 'c']⟩] = 1 ∧ ∃ ops,
      diskSplices replaceAll ['a', '\n', 'c'] ['a', '\n', 'b', 'c'] = some ops ∧
        ∀ a ≤ 3, shiftOffsetForSplices a ops ≤ 4 := by
  refine ⟨by decide, ?_⟩
  obtain ⟨ops, hops, -, -, -, hle, -⟩ := shiftOffset_spec hunkLaw_replaceAll ['a', '\n', 'c'] ['a', '\n', 'b', 'c']
  exact ⟨ops, hops, hle⟩

end Paneflow.Code.SpliceOffsets
