import Paneflow.Textdiff.ByLine

/-! # The blocks of an edited document: `tracker.rs`

A `BlockTracker` keeps the changed blocks between a base text and a document while the document is
edited. `rangeChanged` merges the blocks that an edit touches into a dirty one and moves those after
it; `refreshDirty` compares the dirty blocks again. Line numbers are unsigned 32-bit integers.

* `Tracked`: the invariant, an alignment of base and document whose clean blocks are sharp.
* `tracked_fresh`, `Tracked.rangeChanged`, `Tracked.refreshDirty`: every operation keeps it.
* `reach_valid`: **the blocks of every reachable tracker are valid**, and a refresh leaves no dirty
  block. -/

namespace Paneflow.Textdiff.Tracker

open Paneflow.Alignment.Tiling Paneflow.Checked Paneflow.Textdiff.Text Paneflow.Textdiff.Iterable
open Paneflow.Textdiff.LineChunks Paneflow.Textdiff.ByLine

def u32Max : ℕ := 2 ^ 32 - 1

/-- `value as u32` -/
def asU32 (value : ℕ) : ℕ := value % 2 ^ 32

/-- Dirty blocks with more lines than this on a side are trimmed only. -/
def tooBigBlockLines : ℕ := 100000

/-- A `std::ops::Range` of lines. -/
structure Span where
  start : ℕ
  stop : ℕ
deriving DecidableEq, Repr

def Span.isEmpty (span : Span) : Bool := decide (span.stop ≤ span.start)

structure Block where
  lines : Span
  baseLines : Span
  dirty : Bool
  tooBig : Bool
deriving DecidableEq, Repr

def Block.isEmpty (block : Block) : Bool := block.lines.isEmpty && block.baseLines.isEmpty

def Block.touches (block next : Block) : Bool :=
  decide (next.lines.start ≤ block.lines.stop) || decide (next.baseLines.start ≤ block.baseLines.stop)

structure TrackerStats where
  rediffs : ℕ
  fullRediffs : ℕ
  diffedLines : ℕ
deriving DecidableEq, Repr

structure BlockTracker where
  active : Bool
  blocks : List Block
  stats : TrackerStats
deriving DecidableEq, Repr

def BlockTracker.isDirty (tracker : BlockTracker) : Bool := tracker.blocks.any Block.dirty

def BlockTracker.reset (tracker : BlockTracker) (docLines baseLines : ℕ) : BlockTracker :=
  if !tracker.active then tracker
  else { tracker with blocks := [⟨⟨0, docLines⟩, ⟨0, baseLines⟩, true, false⟩] }

def BlockTracker.fresh (docLines baseLines : ℕ) : BlockTracker :=
  BlockTracker.reset ⟨true, [], ⟨0, 0, 0⟩⟩ docLines baseLines

/-! ### Edits -/

def clampLine (value : ℤ) : ℕ := min (max value 0).toNat u32Max

def shiftRange (range : Span) (delta : ℤ) : Span :=
  ⟨clampLine (range.start + delta), clampLine (range.stop + delta)⟩

theorem clampLine_of_le {value : ℤ} {n : ℕ} (h : value = n) (hn : n ≤ u32Max) :
    clampLine value = n := by
  subst h
  unfold clampLine
  omega

theorem asU32_of_le {n : ℕ} (h : n ≤ u32Max) : asU32 n = n := by
  unfold asU32
  unfold u32Max at h
  exact Nat.mod_eq_of_lt (by omega)

/-- The blocks that `rangeChanged` has looked at: those before the edit, the first and the last
affected one, and those after it. -/
structure Scan where
  next : List Block
  affected : Option (Block × Block)
  shiftBefore : ℤ
  affectedAnyTooBig : Bool
  after : List Block

def Scan.visit (startLine endLine : ℕ) (scan : Scan) (block : Block) : Scan :=
  if block.lines.stop < startLine then
    { scan with
      shiftBefore := (block.baseLines.stop : ℤ) - block.lines.stop
      next := scan.next ++ [block] }
  else if block.lines.start > endLine then { scan with after := scan.after ++ [block] }
  else
    { scan with
      affectedAnyTooBig := scan.affectedAnyTooBig || block.tooBig
      affected := match scan.affected with
        | none => some (block, block)
        | some (first, _) => some (first, block) }

/-- The start of the block that an edit makes dirty, in the document and in the base. -/
def dirtyStart (scan : Scan) (startLine : ℕ) : ℤ × ℤ :=
  match scan.affected with
  | none => (startLine, startLine + scan.shiftBefore)
  | some (first, _) =>
    if first.lines.start ≤ startLine then (first.lines.start, first.baseLines.start)
    else (startLine, (startLine : ℤ) + first.baseLines.start - first.lines.start)

/-- Its end, in the edited document and in the base. -/
def dirtyEnd (scan : Scan) (endLine : ℕ) (delta : ℤ) : ℤ × ℤ :=
  match scan.affected with
  | none => (endLine + delta, endLine + scan.shiftBefore)
  | some (_, last) =>
    if last.lines.stop ≥ endLine then (last.lines.stop + delta, last.baseLines.stop)
    else (endLine + delta, (endLine : ℤ) + last.baseLines.stop - last.lines.stop)

def BlockTracker.rangeChanged (tracker : BlockTracker) (startLine beforeLen afterLen : ℕ) :
    BlockTracker :=
  if !tracker.active then tracker
  else
    let endLine := asU32 (startLine + beforeLen)
    let delta : ℤ := afterLen - beforeLen
    let scan := tracker.blocks.foldl (Scan.visit startLine endLine) ⟨[], none, 0, false, []⟩
    let (rangeStart, baseStart) := dirtyStart scan startLine
    let (rangeEnd, baseEnd) := dirtyEnd scan endLine delta
    let dirty : Block :=
      ⟨⟨clampLine rangeStart, clampLine (max rangeEnd rangeStart)⟩,
        ⟨clampLine baseStart, clampLine (max baseEnd baseStart)⟩, true, scan.affectedAnyTooBig⟩
    { tracker with
      blocks := scan.next ++ [dirty] ++
        scan.after.map fun block => { block with lines := shiftRange block.lines delta } }

/-! ### Refreshing -/

/-- The bounds of a range in a list of `len` lines. -/
def clampRange (range : Span) (len : ℕ) : Span :=
  let stop := min range.stop len
  ⟨min range.start stop, stop⟩

/-- The block without the equal lines at its two ends, `none` inside if nothing is left. -/
def trimmedBlock (docSlice baseSlice : List Str) (docRange baseRange : Span)
    (policy : ComparisonPolicy) : Option (Option Block) := do
  let test := fun line1 line2 => isEquals line1 line2 policy
  let forward ← scanForward test docSlice baseSlice 0 0 docSlice.length baseSlice.length
  let backward ←
    scanBackward test docSlice baseSlice forward forward docSlice.length baseSlice.length
  let block : Block :=
    ⟨⟨asU32 (docRange.start + forward), asU32 (← checkedSub docRange.stop backward)⟩,
      ⟨asU32 (baseRange.start + forward), asU32 (← checkedSub baseRange.stop backward)⟩, false, true⟩
  return if block.isEmpty then none else some block

section Refresh
variable (myers : Myers) (docLines baseLines : List Str) (policy : ComparisonPolicy)

/-- One group of touching blocks, compared again if one of them is dirty. -/
def flushGroup (group : List Block) (stats : TrackerStats) (out : List Block) :
    Option (TrackerStats × List Block) :=
  match group with
  | [] => some (stats, out)
  | first :: rest =>
    if !(group.any Block.dirty) then some (stats, out ++ group)
    else
      let last := rest.getLastD first
      let merged : Block :=
        ⟨⟨first.lines.start, max last.lines.stop first.lines.start⟩,
          ⟨first.baseLines.start, max last.baseLines.stop first.baseLines.start⟩, true,
          group.any Block.tooBig⟩
      if merged.isEmpty then some (stats, out)
      else do
        let docRange := clampRange merged.lines docLines.length
        let baseRange := clampRange merged.baseLines baseLines.length
        let docSlice ← slice docLines docRange.start docRange.stop
        let baseSlice ← slice baseLines baseRange.start baseRange.stop
        if merged.tooBig ∨ docSlice.length > tooBigBlockLines ∨
            baseSlice.length > tooBigBlockLines then
          match ← trimmedBlock docSlice baseSlice docRange baseRange policy with
          | some block => return (stats, out ++ [block])
          | none => return (stats, out)
        else
          let full := docRange.stop - docRange.start = docLines.length ∧
            baseRange.stop - baseRange.start = baseLines.length
          let stats : TrackerStats :=
            ⟨asU32 (stats.rediffs + 1),
              if full then asU32 (stats.fullRediffs + 1) else stats.fullRediffs,
              (stats.diffedLines + (docSlice.length + baseSlice.length)) % 2 ^ 64⟩
          let ranges ← compareLines myers baseSlice docSlice policy
          return (stats, out ++ ranges.map fun range =>
            ⟨⟨asU32 (docRange.start + range.start2), asU32 (docRange.start + range.end2)⟩,
              ⟨asU32 (baseRange.start + range.start1), asU32 (baseRange.start + range.end1)⟩,
              false, false⟩)

/-- The body of the loop over the blocks, on the statistics, the group and the refreshed blocks. -/
def regroup : TrackerStats × List Block × List Block → Block →
    Option (TrackerStats × List Block × List Block)
  | (stats, group, refreshed), block => do
    if group.getLast?.any fun last => !last.touches block then
      let (stats, refreshed) ← flushGroup myers docLines baseLines policy group stats refreshed
      return (stats, [block], refreshed)
    else return (stats, group ++ [block], refreshed)

/-- The tracker after the refresh, and whether it did anything. -/
def BlockTracker.refreshDirty (tracker : BlockTracker) : Option (BlockTracker × Bool) :=
  if !tracker.active || !tracker.isDirty then some (tracker, false)
  else
    let allDirty := tracker.blocks.all Block.dirty
    if allDirty && docLines.length == baseLines.length && docLines == baseLines then
      some ({ tracker with blocks := [] }, true)
    else do
      let (stats, group, refreshed) ← tracker.blocks.foldlM
        (regroup myers docLines baseLines policy) (tracker.stats, [], [])
      let (stats, refreshed) ← flushGroup myers docLines baseLines policy group stats refreshed
      return ({ tracker with stats := stats, blocks := refreshed }, true)

end Refresh

/-! ### The invariant -/

/-- A block as a range of base and document. -/
def Block.range (block : Block) : Range :=
  ⟨block.baseLines.start, block.baseLines.stop, block.lines.start, block.lines.stop⟩

/-- **The blocks are an alignment of base and document**, and those that are not dirty are nonempty
and neither start nor end with equal lines. -/
structure Tracked (policy : ComparisonPolicy) (base doc : List Str) (blocks : List Block) : Prop where
  tiled : Tiled (Gap (EqualAt policy base doc)) 0 0 (blocks.map Block.range) base.length doc.length
  apart : (blocks.map Block.range).Pairwise Range.Before
  clean : ∀ b ∈ blocks, b.dirty = false →
    b.range.isEmpty = false ∧ Sharp (EqualAt policy base doc) b.range

theorem tracked_fresh (policy : ComparisonPolicy) (base doc : List Str) :
    Tracked policy base doc (BlockTracker.fresh doc.length base.length).blocks := by
  refine ⟨⟨(gapRel_gap _).refl 0 0, Nat.zero_le _, Nat.zero_le _, (gapRel_gap _).refl _ _⟩,
    List.pairwise_singleton _ _, fun b hb hd => ?_⟩
  rw [List.mem_singleton.mp hb] at hd
  simp at hd

/-! ### What an edit scans -/

section Scan
variable {startLine endLine : ℕ}

theorem foldl_visit_before : ∀ {blocks : List Block} (scan : Scan),
    (∀ b ∈ blocks, b.lines.stop < startLine) →
      blocks.foldl (Scan.visit startLine endLine) scan =
        { scan with
          next := scan.next ++ blocks
          shiftBefore := (blocks.getLast?.map fun b =>
            (b.baseLines.stop : ℤ) - b.lines.stop).getD scan.shiftBefore }
  | [], scan, _ => by simp
  | b :: blocks, scan, h => by
    have hb := h b List.mem_cons_self
    have hvisit : Scan.visit startLine endLine scan b =
        { scan with
          shiftBefore := (b.baseLines.stop : ℤ) - b.lines.stop
          next := scan.next ++ [b] } := if_pos hb
    rw [List.foldl_cons, hvisit,
      foldl_visit_before _ fun c hc => h c (List.mem_cons_of_mem _ hc)]
    cases blocks with
    | nil => simp
    | cons c blocks =>
      obtain ⟨l, hl⟩ : ∃ l, (c :: blocks).getLast? = some l := ⟨_, List.getLast?_eq_some_getLast (by simp)⟩
      simp [hl, List.getLast?_cons_cons]

theorem foldl_visit_after : ∀ {blocks : List Block} (scan : Scan),
    (∀ b ∈ blocks, startLine ≤ b.lines.stop ∧ endLine < b.lines.start) →
      blocks.foldl (Scan.visit startLine endLine) scan =
        { scan with after := scan.after ++ blocks }
  | [], scan, _ => by simp
  | b :: blocks, scan, h => by
    obtain ⟨hb1, hb2⟩ := h b List.mem_cons_self
    have hvisit : Scan.visit startLine endLine scan b =
        { scan with after := scan.after ++ [b] } := by
      unfold Scan.visit
      rw [if_neg (by omega), if_pos hb2]
    rw [List.foldl_cons, hvisit, foldl_visit_after _ fun c hc => h c (List.mem_cons_of_mem _ hc)]
    simp

/-- The first and the last of the affected blocks. -/
def ends : List Block → Option (Block × Block)
  | [] => none
  | b :: blocks => some (b, blocks.getLastD b)

theorem foldl_visit_affected : ∀ {blocks : List Block} (scan : Scan) {first last : Block},
    (∀ b ∈ blocks, startLine ≤ b.lines.stop ∧ b.lines.start ≤ endLine) →
      scan.affected = some (first, last) →
      blocks.foldl (Scan.visit startLine endLine) scan =
        { scan with
          affected := some (first, blocks.getLastD last)
          affectedAnyTooBig := scan.affectedAnyTooBig || blocks.any Block.tooBig }
  | [], scan, first, last, _, hs => by
    obtain ⟨next, affected, shift, tooBig, after⟩ := scan
    obtain rfl : affected = some (first, last) := hs
    simp
  | b :: blocks, scan, first, last, h, hs => by
    obtain ⟨hb1, hb2⟩ := h b List.mem_cons_self
    have hvisit : Scan.visit startLine endLine scan b =
        { scan with
          affectedAnyTooBig := scan.affectedAnyTooBig || b.tooBig
          affected := some (first, b) } := by
      unfold Scan.visit
      rw [if_neg (by omega), if_neg (by omega), hs]
    rw [List.foldl_cons, hvisit,
      foldl_visit_affected _ (fun c hc => h c (List.mem_cons_of_mem _ hc)) rfl]
    simp only [List.getLastD_cons, List.any_cons, Bool.or_assoc]

/-- **The scan sorts the blocks** into those before, at and after the edit. -/
theorem foldl_visit {before mid after : List Block}
    (hb : ∀ b ∈ before, b.lines.stop < startLine)
    (hm : ∀ b ∈ mid, startLine ≤ b.lines.stop ∧ b.lines.start ≤ endLine)
    (ha : ∀ b ∈ after, startLine ≤ b.lines.stop ∧ endLine < b.lines.start) :
    (before ++ mid ++ after).foldl (Scan.visit startLine endLine) ⟨[], none, 0, false, []⟩ =
      ⟨before, ends mid, (before.getLast?.map fun b =>
        (b.baseLines.stop : ℤ) - b.lines.stop).getD 0, mid.any Block.tooBig, after⟩ := by
  rw [List.foldl_append, List.foldl_append, foldl_visit_before _ hb]
  cases mid with
  | nil => simp [foldl_visit_after _ ha, ends]
  | cons b mid =>
    obtain ⟨hb1, hb2⟩ := hm b List.mem_cons_self
    rw [List.foldl_cons]
    have hvisit : ∀ scan : Scan, scan.affected = none → Scan.visit startLine endLine scan b =
        { scan with
          affectedAnyTooBig := scan.affectedAnyTooBig || b.tooBig
          affected := some (b, b) } := by
      intro scan hs
      unfold Scan.visit
      rw [if_neg (by omega), if_neg (by omega), hs]
    rw [hvisit _ rfl, foldl_visit_affected _ (fun c hc => hm c (List.mem_cons_of_mem _ hc)) rfl,
      foldl_visit_after _ ha]
    simp [ends]

/-- Blocks in order fall into three runs around an edit. -/
theorem exists_runs (hse : startLine ≤ endLine) : ∀ {blocks : List Block},
    (∀ b ∈ blocks, b.lines.start ≤ b.lines.stop) →
      blocks.Pairwise (fun b c => b.lines.stop < c.lines.start) →
      ∃ before mid after, blocks = before ++ mid ++ after ∧
        (∀ b ∈ before, b.lines.stop < startLine) ∧
        (∀ b ∈ mid, startLine ≤ b.lines.stop ∧ b.lines.start ≤ endLine) ∧
        ∀ b ∈ after, startLine ≤ b.lines.stop ∧ endLine < b.lines.start
  | [], _, _ => ⟨[], [], [], rfl, by simp, by simp, by simp⟩
  | b :: blocks, ho, hp => by
    obtain ⟨hpb, hp'⟩ := List.pairwise_cons.mp hp
    have hob := ho b List.mem_cons_self
    have ho' : ∀ c ∈ blocks, c.lines.start ≤ c.lines.stop := fun c hc =>
      ho c (List.mem_cons_of_mem _ hc)
    obtain ⟨before, mid, after, rfl, hb, hm, ha⟩ := exists_runs hse ho' hp'
    by_cases h1 : b.lines.stop < startLine
    · refine ⟨b :: before, mid, after, rfl, fun c hc => ?_, hm, ha⟩
      rcases List.mem_cons.mp hc with rfl | hc
      · exact h1
      · exact hb c hc
    -- nothing after a block that is not before the edit is before it
    have hbefore : before = [] := by
      rw [List.eq_nil_iff_forall_not_mem]
      intro c hc
      have := hpb c (by simp [hc])
      have := hb c hc
      have := ho' c (by simp [hc])
      omega
    subst hbefore
    by_cases h2 : b.lines.start ≤ endLine
    · refine ⟨[], b :: mid, after, rfl, by simp, fun c hc => ?_, ha⟩
      rcases List.mem_cons.mp hc with rfl | hc
      · exact ⟨by omega, h2⟩
      · exact hm c hc
    have hmid : mid = [] := by
      rw [List.eq_nil_iff_forall_not_mem]
      intro c hc
      have := hpb c (by simp [hc])
      have := hm c hc
      omega
    subst hmid
    refine ⟨[], [], b :: after, rfl, by simp, by simp, fun c hc => ?_⟩
    rcases List.mem_cons.mp hc with rfl | hc
    · exact ⟨by omega, by omega⟩
    · exact ha c hc

end Scan

/-! ### Where the dirty block of an edit lies -/

section Window
variable {E : ℕ → ℕ → Prop} {n1 n2 startLine endLine : ℕ} {before mid after : List Block}

/-- Where the dirty block starts: at `(p₁, p₂)`, not after the edit, with equal pairs before it. -/
theorem exists_dirtyStart {scan : Scan} (haff : scan.affected = ends mid)
    (hshift : scan.shiftBefore = (before.getLast?.map fun b =>
      (b.baseLines.stop : ℤ) - b.lines.stop).getD 0)
    (ht : Tiled (Gap E) 0 0 ((before ++ (mid ++ after)).map Block.range) n1 n2)
    (hp : (before ++ (mid ++ after)).Pairwise fun b c => b.lines.stop < c.lines.start)
    (hb : ∀ b ∈ before, b.lines.stop < startLine)
    (ha : ∀ b ∈ after, startLine < b.lines.start) (hn : startLine ≤ n2) :
    ∃ p1 p2 : ℕ, dirtyStart scan startLine = ((p2 : ℤ), (p1 : ℤ)) ∧ p2 ≤ startLine ∧
      (mid = [] → p2 = startLine ∧ (p1 : ℤ) = startLine + scan.shiftBefore) ∧
      Tiled (Gap E) 0 0 (before.map Block.range) p1 p2 ∧
      Tiled (Gap E) p1 p2 ((mid ++ after).map Block.range) n1 n2 ∧
      ∀ b ∈ before, b.lines.stop < p2 := by
  rw [List.map_append] at ht
  obtain ⟨c1, c2, hbt, hrest, hnil, hlast⟩ := ht.split (gapRel_gap E)
  -- the cursor after the blocks before the edit
  have hcursor : c2 ≤ startLine ∧ (c1 : ℤ) - c2 = scan.shiftBefore := by
    rw [hshift]
    cases hl : before.getLast? with
    | none =>
      obtain rfl := List.getLast?_eq_none_iff.mp hl
      obtain ⟨rfl, rfl⟩ := hnil rfl
      simp
    | some l =>
      obtain ⟨rfl, rfl⟩ := hlast l.range (by rw [List.getLast?_map, hl]; rfl)
      have := hb l (List.mem_of_getLast? hl)
      exact ⟨by simp only [Block.range]; omega, by simp [Block.range]⟩
  obtain ⟨hc2, hcshift⟩ := hcursor
  -- the start of the edit, if it lies in the gap before the next block
  have hedit : (∀ b ∈ mid ++ after, startLine ≤ b.lines.start) →
      Tiled (Gap E) 0 0 (before.map Block.range) (c1 + (startLine - c2)) startLine ∧
        Tiled (Gap E) (c1 + (startLine - c2)) startLine ((mid ++ after).map Block.range) n1 n2 := by
    intro hstarts
    obtain ⟨hg, htail⟩ := hrest.cut hc2 (by
      intro r hr
      obtain ⟨b, hb, rfl⟩ := List.mem_map.mp hr
      exact hstarts b hb) hn
    exact ⟨hbt.extend (gapRel_gap E) hg, htail⟩
  unfold dirtyStart
  rw [haff]
  cases mid with
  | nil =>
    obtain ⟨h1, h2⟩ := hedit fun b hb => (ha b (by simpa using hb)).le
    exact ⟨c1 + (startLine - c2), startLine, Prod.ext rfl (by simp only [ends]; omega), le_rfl,
      fun _ => ⟨rfl, by omega⟩, h1, h2, hb⟩
  | cons m ms =>
    obtain ⟨hgap, hm1, hm2, htail⟩ := id hrest
    simp only [ends]
    by_cases hm : m.lines.start ≤ startLine
    · rw [if_pos hm]
      refine ⟨m.baseLines.start, m.lines.start, rfl, hm, by simp, hbt.extend (gapRel_gap E) hgap,
        ⟨(gapRel_gap E).refl _ _, hm1, hm2, htail⟩, fun b hb => ?_⟩
      exact (List.pairwise_append.mp hp).2.2 b hb m (by simp)
    · rw [if_neg hm]
      have hstarts : ∀ b ∈ m :: ms ++ after, startLine ≤ b.lines.start := by
        intro b hb
        rcases List.mem_cons.mp hb with rfl | hb
        · omega
        · have := (List.pairwise_cons.mp (List.pairwise_append.mp hp).2.1).1 b hb
          have : m.lines.start ≤ m.lines.stop := hm2
          omega
      obtain ⟨h1, h2⟩ := hedit hstarts
      refine ⟨c1 + (startLine - c2), startLine, ?_, le_rfl, by simp, h1, h2, hb⟩
      obtain ⟨n, hn1, hn2, -⟩ := hgap
      have hn1' : m.baseLines.start = c1 + n := hn1
      have hn2' : m.lines.start = c2 + n := hn2
      exact Prod.ext rfl (by simp only; omega)

/-- Where the dirty block ends: at `(q₁, q₂)` before the edit, not before the end of what the edit
replaces, with equal pairs after it. -/
theorem exists_dirtyEnd {scan : Scan} (haff : scan.affected = ends mid) {p1 p2 : ℕ}
    (hnil : mid = [] → p2 = startLine ∧ (p1 : ℤ) = startLine + scan.shiftBefore)
    (ht : Tiled (Gap E) p1 p2 ((mid ++ after).map Block.range) n1 n2)
    (hp : (mid ++ after).Pairwise fun b c => b.lines.stop < c.lines.start)
    (ha : ∀ b ∈ after, endLine < b.lines.start) (hse : startLine ≤ endLine) (hn : endLine ≤ n2)
    (delta : ℤ) :
    ∃ q1 q2 : ℕ, dirtyEnd scan endLine delta = ((q2 : ℤ) + delta, (q1 : ℤ)) ∧ endLine ≤ q2 ∧
      p1 ≤ q1 ∧ Tiled (Gap E) q1 q2 (after.map Block.range) n1 n2 ∧
      ∀ b ∈ after, q2 < b.lines.start := by
  rw [List.map_append] at ht
  obtain ⟨c1, c2, hmt, hat, hmnil, hlast⟩ := ht.split (gapRel_gap E)
  have hle := hmt.le (gapRel_gap E)
  -- the end of the edit, if it lies in the gap before the next block
  have hedit : c2 ≤ endLine →
      Tiled (Gap E) (c1 + (endLine - c2)) endLine (after.map Block.range) n1 n2 := by
    intro hc
    refine (hat.cut hc (fun r hr => ?_) hn).2
    obtain ⟨b, hb, rfl⟩ := List.mem_map.mp hr
    exact (ha b hb).le
  unfold dirtyEnd
  rw [haff]
  cases mid with
  | nil =>
    obtain ⟨rfl, rfl⟩ := hmnil rfl
    obtain ⟨rfl, hshift⟩ := hnil rfl
    exact ⟨c1 + (endLine - c2), endLine, Prod.ext rfl (by simp only [ends]; omega), le_rfl,
      by omega, hedit hse, ha⟩
  | cons m ms =>
    have hmem : ms.getLastD m ∈ m :: ms := List.getLastD_mem_cons
    obtain ⟨hc1, hc2⟩ := hlast (ms.getLastD m).range (by
      rw [List.getLast?_map, List.getLast?_cons]
      simp)
    simp only [ends]
    generalize ms.getLastD m = l at *
    have hc1' : c1 = l.baseLines.stop := hc1
    have hc2' : c2 = l.lines.stop := hc2
    by_cases hl : l.lines.stop ≥ endLine
    · rw [if_pos hl]
      refine ⟨c1, c2, by simp [hc1', hc2'], by omega, by omega, hat, fun b hb => ?_⟩
      rw [hc2']
      exact (List.pairwise_append.mp hp).2.2 l hmem b hb
    · rw [if_neg hl]
      refine ⟨c1 + (endLine - c2), endLine, ?_, le_rfl, ?_, hedit (by omega), ha⟩
      · exact Prod.ext rfl (by simp only; omega)
      · omega

end Window

/-! ### Edits keep the invariant -/

/-- The document with `before` lines from `start` on replaced. -/
def editLines (doc : List Str) (start before : ℕ) (after : List Str) : List Str :=
  doc.take start ++ after ++ doc.drop (start + before)

section Edit
variable {policy : ComparisonPolicy} {base doc after : List Str} {start before : ℕ}

theorem length_editLines (h : start + before ≤ doc.length) :
    (editLines doc start before after).length = doc.length - before + after.length := by
  simp only [editLines, List.length_append, List.length_take, List.length_drop]
  omega

theorem getElem?_editLines_lt (h : start + before ≤ doc.length) {j : ℕ} (hj : j < start) :
    (editLines doc start before after)[j]? = doc[j]? := by
  rw [editLines, List.append_assoc, List.getElem?_append_left
    (by rw [List.length_take]; omega), List.getElem?_take_of_lt hj]

theorem getElem?_editLines_ge (h : start + before ≤ doc.length) {j : ℕ} (hj : start + before ≤ j) :
    (editLines doc start before after)[j - before + after.length]? = doc[j]? := by
  rw [editLines, List.getElem?_append_right
    (by rw [List.length_append, List.length_take]; omega), List.getElem?_drop]
  congr 1
  rw [List.length_append, List.length_take]
  omega

theorem equalAt_edit_lt (h : start + before ≤ doc.length) {i j : ℕ} (hj : j < start) :
    EqualAt policy base (editLines doc start before after) i j ↔ EqualAt policy base doc i j := by
  unfold EqualAt At
  rw [getElem?_editLines_lt h hj]

theorem equalAt_edit_ge (h : start + before ≤ doc.length) {i j : ℕ} (hj : start + before ≤ j) :
    EqualAt policy base (editLines doc start before after) i (j - before + after.length) ↔
      EqualAt policy base doc i j := by
  unfold EqualAt At
  rw [getElem?_editLines_ge h hj]

/-- The block after an edit that replaces `before` lines before it by `after`. -/
def Block.moved (before after : ℕ) (b : Block) : Block :=
  { b with lines := ⟨b.lines.start - before + after, b.lines.stop - before + after⟩ }

theorem sharp_moved {b : Block} (h : start + before ≤ doc.length)
    (hb : start + before ≤ b.lines.start) (hs : Sharp (EqualAt policy base doc) b.range) :
    Sharp (EqualAt policy base (editLines doc start before after))
      (b.moved before after.length).range := by
  intro hlt1 hlt2
  have hlt2' : b.lines.start - before + after.length < b.lines.stop - before + after.length := hlt2
  obtain ⟨h1, h2⟩ := hs hlt1 (show b.lines.start < b.lines.stop by omega)
  refine ⟨fun he => h1 ((equalAt_edit_ge h hb).mp he), fun he => h2 ?_⟩
  have hstop : start + before ≤ b.lines.stop - 1 := by omega
  refine (equalAt_edit_ge h hstop).mp (?_ : EqualAt _ _ (editLines doc start before after) _ _)
  have hcast : b.lines.stop - 1 - before + after.length =
      b.lines.stop - before + after.length - 1 := by omega
  rw [hcast]
  exact he

theorem sharp_kept {b : Block} (h : start + before ≤ doc.length) (hb : b.lines.stop < start)
    (hs : Sharp (EqualAt policy base doc) b.range) :
    Sharp (EqualAt policy base (editLines doc start before after)) b.range := by
  intro hlt1 hlt2
  have hlt2' : b.lines.start < b.lines.stop := hlt2
  obtain ⟨h1, h2⟩ := hs hlt1 hlt2
  refine ⟨fun he => h1 ((equalAt_edit_lt h ?_).mp he), fun he => h2 ((equalAt_edit_lt h ?_).mp he)⟩
  · show b.lines.start < start
    omega
  · show b.lines.stop - 1 < start
    omega

/-- The blocks after an edit: those before it, the dirty one, and those after it, moved. -/
theorem rangeChanged_blocks {tracker : BlockTracker} (hact : tracker.active = true)
    (h : Tracked policy base doc tracker.blocks) (hs : start + before ≤ doc.length)
    (hdoc : doc.length ≤ u32Max) (hbase : base.length ≤ u32Max)
    (hfit : (editLines doc start before after).length ≤ u32Max) :
    ∃ (blocks1 blocks2 : List Block) (p1 p2 q1 q2 : ℕ) (tooBig : Bool),
      (tracker.rangeChanged start before after.length).blocks =
        blocks1 ++ [⟨⟨p2, q2 - before + after.length⟩, ⟨p1, q1⟩, true, tooBig⟩] ++
          blocks2.map (Block.moved before after.length) ∧
      (∀ b ∈ blocks1 ++ blocks2, b ∈ tracker.blocks) ∧ p1 ≤ q1 ∧ p2 ≤ start ∧ start + before ≤ q2 ∧
      Tiled (Gap (EqualAt policy base doc)) 0 0 (blocks1.map Block.range) p1 p2 ∧
      Tiled (Gap (EqualAt policy base doc)) q1 q2 (blocks2.map Block.range) base.length doc.length ∧
      (blocks1.map Block.range).Pairwise Range.Before ∧
      (blocks2.map Block.range).Pairwise Range.Before ∧
      (∀ b ∈ blocks1, b.lines.stop < p2) ∧ ∀ b ∈ blocks2, q2 < b.lines.start := by
  obtain ⟨active, blocks, stats⟩ := tracker
  obtain rfl : active = true := hact
  obtain ⟨ht, hp, -⟩ := h
  simp only at ht hp
  have horder : ∀ b ∈ blocks, b.lines.start ≤ b.lines.stop ∧ b.lines.stop ≤ doc.length := by
    intro b hb
    have := ht.bounds (gapRel_gap _) b.range (List.mem_map_of_mem hb)
    simp only [Block.range] at this
    omega
  have hsep : blocks.Pairwise fun b c => b.lines.stop < c.lines.start :=
    (List.pairwise_map.mp hp).imp fun h => h.2
  obtain ⟨blocks1, mid, blocks2, rfl, hb, hm, ha⟩ :=
    exists_runs (Nat.le_add_right start before) (fun b hb => (horder b hb).1) hsep
  generalize hscan : (blocks1 ++ mid ++ blocks2).foldl (Scan.visit start (start + before))
    ⟨[], none, 0, false, []⟩ = scan
  have hsorted := hscan.symm.trans (foldl_visit hb hm ha)
  have haff : scan.affected = ends mid := by rw [hsorted]
  have hshift : scan.shiftBefore = (blocks1.getLast?.map fun b =>
      (b.baseLines.stop : ℤ) - b.lines.stop).getD 0 := by rw [hsorted]
  have hend : asU32 (start + before) = start + before := asU32_of_le (hs.trans hdoc)
  have hassoc : blocks1 ++ mid ++ blocks2 = blocks1 ++ (mid ++ blocks2) := List.append_assoc _ _ _
  have hstart2 : ∀ b ∈ blocks2, start < b.lines.start := fun b hb => by have := (ha b hb).2; omega
  rw [hassoc] at ht hsep hp
  obtain ⟨p1, p2, hps, hp2, hpnil, ht1, ht2, hbp⟩ :=
    exists_dirtyStart haff hshift ht hsep hb hstart2 (by omega)
  obtain ⟨q1, q2, hqs, hq2, hpq, ht3, hbq⟩ := exists_dirtyEnd haff hpnil ht2
    (List.pairwise_append.mp hsep).2.1 (fun b hb => (ha b hb).2) (Nat.le_add_right start before) hs
    ((after.length : ℤ) - before)
  have hle := ht3.le (gapRel_gap _)
  rw [length_editLines hs] at hfit
  rw [List.map_append, List.map_append, List.pairwise_append, List.pairwise_append] at hp
  refine ⟨blocks1, blocks2, p1, p2, q1, q2, scan.affectedAnyTooBig, ?_, ?_, hpq, hp2, hq2, ht1, ht3,
    hp.1, hp.2.1.2.1, hbp, hbq⟩
  · simp only [BlockTracker.rangeChanged, Bool.not_true, Bool.false_eq_true, if_false, hend, hscan,
      hps, hqs]
    have h1 : clampLine (p2 : ℤ) = p2 := clampLine_of_le rfl (by omega)
    have h2 : clampLine (max ((q2 : ℤ) + ((after.length : ℤ) - before)) p2) =
        q2 - before + after.length := clampLine_of_le (by omega) (by omega)
    have h3 : clampLine (p1 : ℤ) = p1 := clampLine_of_le rfl (by omega)
    have h4 : clampLine (max (q1 : ℤ) p1) = q1 := clampLine_of_le (by omega) (by omega)
    have h5 : blocks2.map (fun block =>
          { block with lines := shiftRange block.lines ((after.length : ℤ) - before) }) =
        blocks2.map (Block.moved before after.length) := by
      refine List.map_congr_left fun b hb2 => ?_
      have hb' := horder b (by simp [hb2])
      have hb'' := (ha b hb2).2
      have h6 : clampLine ((b.lines.start : ℤ) + ((after.length : ℤ) - before)) =
          b.lines.start - before + after.length := clampLine_of_le (by omega) (by omega)
      have h7 : clampLine ((b.lines.stop : ℤ) + ((after.length : ℤ) - before)) =
          b.lines.stop - before + after.length := clampLine_of_le (by omega) (by omega)
      simp only [Block.moved, shiftRange, h6, h7]
    rw [h1, h2, h3, h4, hsorted, h5]
  · intro b hb
    rcases List.mem_append.mp hb with hb | hb
    · exact List.mem_append_left _ (List.mem_append_left _ hb)
    · exact List.mem_append_right _ hb

/-- **An edit keeps the invariant.** -/
theorem Tracked.rangeChanged {tracker : BlockTracker} (hact : tracker.active = true)
    (h : Tracked policy base doc tracker.blocks) (hs : start + before ≤ doc.length)
    (hdoc : doc.length ≤ u32Max) (hbase : base.length ≤ u32Max)
    (hfit : (editLines doc start before after).length ≤ u32Max) :
    Tracked policy base (editLines doc start before after)
      (tracker.rangeChanged start before after.length).blocks := by
  obtain ⟨blocks1, blocks2, p1, p2, q1, q2, tooBig, hblocks, hmem, hpq, hp2, hq2, ht1, ht2, hap1,
    hap2, hbp, hbq⟩ := rangeChanged_blocks hact h hs hdoc hbase hfit
  have hq2' : before ≤ start + before := Nat.le_add_left before start
  have hrange : (blocks2.map (Block.moved before after.length)).map Block.range =
      (blocks2.map Block.range).map (Range.move2 before after.length) := by
    rw [List.map_map, List.map_map]
    rfl
  -- the parts before and after the dirty block
  have hE1 : ∀ i j, j < start → EqualAt policy base doc i j →
      EqualAt policy base (editLines doc start before after) i j :=
    fun i j hj => (equalAt_edit_lt hs hj).mpr
  have hE2 : ∀ i j, start + before ≤ j → EqualAt policy base doc i j →
      EqualAt policy base (editLines doc start before after) i (j - before + after.length) :=
    fun i j hj => (equalAt_edit_ge hs hj).mpr
  have ht1' := ht1.congr_lt hE1 hp2
  have ht2' := ht2.move2 hq2' hE2 hq2
  rw [← length_editLines hs] at ht2'
  have hlt1 := ht1.end_lt (by
    intro r hr
    obtain ⟨b, hb, rfl⟩ := List.mem_map.mp hr
    exact hbp b hb)
  have hlt2 := ht2.start_lt (by
    intro r hr
    obtain ⟨b, hb, rfl⟩ := List.mem_map.mp hr
    exact hbq b hb)
  rw [hblocks]
  refine ⟨?_, ?_, ?_⟩
  · rw [List.map_append, List.map_append, hrange]
    refine Tiled.append (gapRel_gap _) ht2' (Tiled.append (gapRel_gap _) ?_ ht1')
    exact ⟨(gapRel_gap _).refl _ _, hpq, by simp only [Block.range]; omega, (gapRel_gap _).refl _ _⟩
  · rw [List.map_append, List.map_append, hrange, List.pairwise_append, List.pairwise_append]
    have hmid1 : ∀ r ∈ blocks1.map Block.range, r.end1 < p1 ∧ r.end2 < p2 := by
      intro r hr
      obtain ⟨b, hb, rfl⟩ := List.mem_map.mp hr
      exact ⟨hlt1 _ hr, hbp b hb⟩
    have hmid2 : ∀ r ∈ (blocks2.map Block.range).map (Range.move2 before after.length),
        q1 < r.start1 ∧ q2 - before + after.length < r.start2 := by
      intro t ht
      obtain ⟨r, hr, rfl⟩ := List.mem_map.mp ht
      obtain ⟨b, hb, rfl⟩ := List.mem_map.mp hr
      have := hbq b hb
      exact ⟨hlt2 b.range hr, by simp only [Range.move2, Block.range]; omega⟩
    refine ⟨⟨hap1, List.pairwise_singleton _ _, fun r hr t ht => ?_⟩, ?_, fun r hr t ht => ?_⟩
    · rw [List.mem_singleton.mp ht]
      exact hmid1 r hr
    · refine List.pairwise_map.mpr (hap2.imp_of_mem fun {r t} hr ht h => ?_)
      have hr2 := ht2.bounds (gapRel_gap _) r hr
      exact ⟨h.1, by have := h.2; simp only [Range.move2]; omega⟩
    · have ht' := hmid2 t ht
      rcases List.mem_append.mp hr with hr | hr
      · have := hmid1 r hr
        exact ⟨by omega, by omega⟩
      · rw [List.mem_singleton.mp hr]
        exact ht'
  · intro b hb hd
    rcases List.mem_append.mp hb with hb | hb
    · rcases List.mem_append.mp hb with hb | hb
      · obtain ⟨hne, hsharp⟩ := h.clean b (hmem b (List.mem_append_left _ hb)) hd
        exact ⟨hne, sharp_kept hs (by have := hbp b hb; omega) hsharp⟩
      · rw [List.mem_singleton.mp hb] at hd
        simp at hd
    · obtain ⟨c, hc, rfl⟩ := List.mem_map.mp hb
      obtain ⟨hne, hsharp⟩ := h.clean c (hmem c (List.mem_append_right _ hc)) hd
      have hcq := hbq c hc
      have hcb := ht2.bounds (gapRel_gap _) c.range (List.mem_map_of_mem hc)
      refine ⟨?_, sharp_moved hs (by omega) hsharp⟩
      rw [Range.isEmpty_false] at hne ⊢
      simp only [Block.range, Block.moved] at hne hcb ⊢
      omega

end Edit

/-! ### A refresh keeps the invariant -/

/-- What a block is replaced by when it is refreshed: clean blocks inside it that leave equal pairs. -/
structure Refreshed (E : ℕ → ℕ → Prop) (b : Block) (out : List Block) : Prop where
  tiled : Tiled (Gap E) b.range.start1 b.range.start2 (out.map Block.range) b.range.end1 b.range.end2
  apart : (out.map Block.range).Pairwise Range.Before
  clean : ∀ c ∈ out, c.dirty = false ∧ c.range.isEmpty = false ∧ Sharp E c.range

section Refresh
variable {policy : ComparisonPolicy} {base doc : List Str} {myers : Myers}

/-- The lines of a block that lies in bounds. -/
structure InBounds (base doc : List Str) (b : Block) : Prop where
  le1 : b.baseLines.start ≤ b.baseLines.stop
  in1 : b.baseLines.stop ≤ base.length
  le2 : b.lines.start ≤ b.lines.stop
  in2 : b.lines.stop ≤ doc.length
  fits1 : base.length ≤ u32Max
  fits2 : doc.length ≤ u32Max

theorem clampRange_of_le {range : Span} {len : ℕ} (h1 : range.start ≤ range.stop)
    (h2 : range.stop ≤ len) : clampRange range len = range := by
  obtain ⟨start, stop⟩ := range
  simp only at h1 h2
  simp only [clampRange, Span.mk.injEq]
  omega

theorem Block.isEmpty_iff {b : Block} (h : InBounds base doc b) :
    b.isEmpty = true ↔ b.range.isEmpty = true := by
  have := h.le1
  have := h.le2
  simp only [Block.isEmpty, Span.isEmpty, Block.range, Range.mk_isEmpty_iff, Bool.and_eq_true,
    decide_eq_true_eq]
  omega

/-- The slices of base and document that a block covers. -/
def baseSlice (base : List Str) (b : Block) : List Str :=
  (base.drop b.baseLines.start).take (b.baseLines.stop - b.baseLines.start)

def docSlice (doc : List Str) (b : Block) : List Str :=
  (doc.drop b.lines.start).take (b.lines.stop - b.lines.start)

theorem equalAt_slice {b : Block} {i j : ℕ}
    (hi : i < b.baseLines.stop - b.baseLines.start) (hj : j < b.lines.stop - b.lines.start) :
    EqualAt policy (baseSlice base b) (docSlice doc b) i j ↔
      EqualAt policy base doc (b.baseLines.start + i) (b.lines.start + j) := by
  unfold EqualAt At baseSlice docSlice
  rw [List.getElem?_take_of_lt hi, List.getElem?_take_of_lt hj, List.getElem?_drop,
    List.getElem?_drop]

/-- Equal lines of the two slices, the document's first, are equal lines of base and document. -/
theorem equalAt_of_slices {b : Block} (h : InBounds base doc b) {i j : ℕ}
    (hi : i < (docSlice doc b).length) (hj : j < (baseSlice base b).length) :
    At (fun line1 line2 => isEquals line1 line2 policy) (docSlice doc b) (baseSlice base b) i j ↔
      EqualAt policy base doc (b.baseLines.start + j) (b.lines.start + i) := by
  have hl1 : (baseSlice base b).length = b.baseLines.stop - b.baseLines.start := length_slice h.in1
  have hl2 : (docSlice doc b).length = b.lines.stop - b.lines.start := length_slice h.in2
  rw [← equalAt_slice (hl1 ▸ hj) (hl2 ▸ hi)]
  constructor
  · rintro ⟨x, y, hx, hy, hxy⟩
    exact ⟨y, x, hy, hx, isEquals_symm hxy⟩
  · rintro ⟨y, x, hy, hx, hxy⟩
    exact ⟨x, y, hx, hy, isEquals_symm hxy⟩

/-- The scans of a trimmed block, as facts about base and document: `f` equal lines at the start, `m`
at the end, and unequal ones after and before them. -/
theorem trim_scans {b : Block} (h : InBounds base doc b) (policy : ComparisonPolicy) :
    ∃ f m, scanForward (fun line1 line2 => isEquals line1 line2 policy) (docSlice doc b)
        (baseSlice base b) 0 0 (docSlice doc b).length (baseSlice base b).length = some f ∧
      scanBackward (fun line1 line2 => isEquals line1 line2 policy) (docSlice doc b)
        (baseSlice base b) f f (docSlice doc b).length (baseSlice base b).length = some m ∧
      b.baseLines.start + f + m ≤ b.baseLines.stop ∧ b.lines.start + f + m ≤ b.lines.stop ∧
      Gap (EqualAt policy base doc) b.baseLines.start (b.baseLines.start + f)
        b.lines.start (b.lines.start + f) ∧
      Gap (EqualAt policy base doc) (b.baseLines.stop - m) b.baseLines.stop (b.lines.stop - m)
        b.lines.stop ∧
      Sharp (EqualAt policy base doc)
        ⟨b.baseLines.start + f, b.baseLines.stop - m, b.lines.start + f, b.lines.stop - m⟩ := by
  have hl1 : (baseSlice base b).length = b.baseLines.stop - b.baseLines.start := length_slice h.in1
  have hl2 : (docSlice doc b).length = b.lines.stop - b.lines.start := length_slice h.in2
  have h1 := h.le1
  have h2 := h.le2
  obtain ⟨f, hf, hf1, hf2, hfk, hfn⟩ := scanForward_spec
    (fun line1 line2 => isEquals line1 line2 policy) (Nat.zero_le _) (Nat.zero_le _)
    (le_refl (docSlice doc b).length) (le_refl (baseSlice base b).length)
  simp only [Nat.zero_add] at hf1 hf2 hfk hfn
  obtain ⟨m, hm, hm1, hm2, hmk, hmn⟩ := scanBackward_spec
    (fun line1 line2 => isEquals line1 line2 policy) hf1 hf2
    (le_refl (docSlice doc b).length) (le_refl (baseSlice base b).length)
  have hpair : ∀ k, f + k < (docSlice doc b).length → f + k < (baseSlice base b).length →
      (At (fun line1 line2 => isEquals line1 line2 policy) (docSlice doc b) (baseSlice base b)
          ((docSlice doc b).length - k - 1) ((baseSlice base b).length - k - 1) ↔
        EqualAt policy base doc (b.baseLines.stop - k - 1) (b.lines.stop - k - 1)) := by
    intro k hk1 hk2
    rw [equalAt_of_slices h (by omega) (by omega), hl1, hl2]
    rw [show b.baseLines.start + (b.baseLines.stop - b.baseLines.start - k - 1) =
        b.baseLines.stop - k - 1 by omega,
      show b.lines.start + (b.lines.stop - b.lines.start - k - 1) = b.lines.stop - k - 1 by omega]
  refine ⟨f, m, hf, hm, by omega, by omega, ⟨f, rfl, rfl, fun k hk => ?_⟩,
    gap_of_backward (by omega) (by omega) fun k hk => ?_, fun hlt1 hlt2 => ⟨fun he => ?_, fun he => ?_⟩⟩
  · exact (equalAt_of_slices h (by omega) (by omega)).mp (hfk k hk)
  · exact (hpair k (by omega) (by omega)).mp (hmk k hk)
  · simp only at hlt1 hlt2
    exact hfn (by omega) (by omega) ((equalAt_of_slices h (by omega) (by omega)).mpr he)
  · simp only at hlt1 hlt2
    exact hmn (by omega) (by omega) ((hpair m (by omega) (by omega)).mpr he)

/-- **A block that is trimmed** keeps what is between the equal lines at its ends. -/
theorem trimmedBlock_spec {b : Block} (h : InBounds base doc b) (policy : ComparisonPolicy) :
    ∃ r, trimmedBlock (docSlice doc b) (baseSlice base b) b.lines b.baseLines policy = some r ∧
      Refreshed (EqualAt policy base doc) b r.toList := by
  obtain ⟨f, m, hf, hm, hle1, hle2, hfront, hback, hsharp⟩ := trim_scans h policy
  have hfit1 := h.in1.trans h.fits1
  have hfit2 := h.in2.trans h.fits2
  have hu1 : asU32 (b.lines.start + f) = b.lines.start + f := asU32_of_le (by omega)
  have hu2 : asU32 (b.lines.stop - m) = b.lines.stop - m := asU32_of_le (by omega)
  have hu3 : asU32 (b.baseLines.start + f) = b.baseLines.start + f := asU32_of_le (by omega)
  have hu4 : asU32 (b.baseLines.stop - m) = b.baseLines.stop - m := asU32_of_le (by omega)
  have hc1 : checkedSub b.lines.stop m = some (b.lines.stop - m) := checkedSub_of_le (by omega)
  have hc2 : checkedSub b.baseLines.stop m = some (b.baseLines.stop - m) :=
    checkedSub_of_le (by omega)
  simp only [trimmedBlock, hf, hm, hc1, hc2, hu1, hu2, hu3, hu4, Option.bind_eq_bind,
    Option.bind_some]
  clear hu1 hu2 hu3 hu4 hc1 hc2 hf hm
  refine ⟨_, rfl, ?_⟩
  split_ifs with hemp
  · -- nothing is left between the equal lines
    simp only [Block.isEmpty, Span.isEmpty, Bool.and_eq_true, decide_eq_true_eq] at hemp
    refine ⟨?_, by simp, by simp⟩
    have hmid1 : b.baseLines.stop - m = b.baseLines.start + f := by omega
    have hmid2 : b.lines.stop - m = b.lines.start + f := by omega
    rw [hmid1, hmid2] at hback
    exact hfront.trans hback
  · simp only [Block.isEmpty, Span.isEmpty, Bool.and_eq_true, decide_eq_true_eq] at hemp
    refine ⟨⟨hfront, ?_, ?_, hback⟩, List.pairwise_singleton _ _, ?_⟩
    · show b.baseLines.start + f ≤ b.baseLines.stop - m
      omega
    · show b.lines.start + f ≤ b.lines.stop - m
      omega
    · intro c hc
      rw [List.mem_singleton.mp hc]
      have hne : b.baseLines.start + f ≠ b.baseLines.stop - m ∨
          b.lines.start + f ≠ b.lines.stop - m := by omega
      exact ⟨rfl, Range.mk_isEmpty_false hne, hsharp⟩

/-- **A block that is compared again** is replaced by the changes of its lines. -/
theorem rediffed_spec (hm : MyersLaw myers) (hbase : ∀ line ∈ base, '\n' ∉ line)
    (hdoc : ∀ line ∈ doc, '\n' ∉ line) {b : Block} (h : InBounds base doc b) :
    ∃ ranges, compareLines myers (baseSlice base b) (docSlice doc b) policy = some ranges ∧
      Refreshed (EqualAt policy base doc) b (ranges.map fun range =>
        ⟨⟨asU32 (b.lines.start + range.start2), asU32 (b.lines.start + range.end2)⟩,
          ⟨asU32 (b.baseLines.start + range.start1), asU32 (b.baseLines.start + range.end1)⟩,
          false, false⟩) := by
  have hl1 : (baseSlice base b).length = b.baseLines.stop - b.baseLines.start := length_slice h.in1
  have hl2 : (docSlice doc b).length = b.lines.stop - b.lines.start := length_slice h.in2
  obtain ⟨h1, h2, h3, h4, h5, h6⟩ := id h
  have hbase' : ∀ line ∈ baseSlice base b, '\n' ∉ line := fun line hl =>
    hbase line (List.mem_of_mem_drop (List.mem_of_mem_take hl))
  have hdoc' : ∀ line ∈ docSlice doc b, '\n' ∉ line := fun line hl =>
    hdoc line (List.mem_of_mem_drop (List.mem_of_mem_take hl))
  obtain ⟨ranges, hr, ha, hsharp⟩ := compareLines_alignment hm policy (fun _ => hbase') fun _ => hdoc'
  refine ⟨ranges, hr, ?_⟩
  have hbounds : ∀ r ∈ ranges, r.start1 ≤ r.end1 ∧ r.end1 ≤ b.baseLines.stop - b.baseLines.start ∧
      r.start2 ≤ r.end2 ∧ r.end2 ≤ b.lines.stop - b.lines.start := by
    intro r hr
    have := ha.tiled.bounds (gapRel_gap _) r hr
    omega
  have hmap : (ranges.map fun range => (⟨⟨asU32 (b.lines.start + range.start2),
          asU32 (b.lines.start + range.end2)⟩, ⟨asU32 (b.baseLines.start + range.start1),
          asU32 (b.baseLines.start + range.end1)⟩, false, false⟩ : Block)).map Block.range =
      ranges.map (Range.shift b.baseLines.start b.lines.start) := by
    rw [List.map_map]
    refine List.map_congr_left fun r hr => ?_
    have := hbounds r hr
    simp only [Function.comp_apply, Block.range, Range.shift]
    rw [asU32_of_le (by omega), asU32_of_le (by omega), asU32_of_le (by omega),
      asU32_of_le (by omega)]
  have ht := ha.tiled
  rw [hl1, hl2] at ht
  have ht' := ht.shift fun i j hi hj => (equalAt_slice hi hj).mp
  refine ⟨?_, ?_, ?_⟩
  · rw [hmap]
    simp only [Nat.add_zero] at ht'
    rwa [show b.baseLines.start + (b.baseLines.stop - b.baseLines.start) = b.baseLines.stop by omega,
      show b.lines.start + (b.lines.stop - b.lines.start) = b.lines.stop by omega] at ht'
  · rw [hmap]
    exact before_shift ha.apart
  · intro c hc
    have hcr : c.range ∈ ranges.map (Range.shift b.baseLines.start b.lines.start) :=
      hmap ▸ List.mem_map_of_mem hc
    obtain ⟨range, hrange, rfl⟩ := List.mem_map.mp hc
    refine ⟨rfl, ?_⟩
    obtain ⟨r, hr, heq⟩ := List.mem_map.mp hcr
    rw [← heq]
    have hne := Range.isEmpty_false.mp (ha.nonempty r hr)
    have hb := hbounds r hr
    refine ⟨Range.mk_isEmpty_false (by omega), fun hlt1 hlt2 => ?_⟩
    have hlt1' : b.baseLines.start + r.start1 < b.baseLines.start + r.end1 := hlt1
    have hlt2' : b.lines.start + r.start2 < b.lines.start + r.end2 := hlt2
    obtain ⟨hfirst, hlast⟩ := hsharp r hr (by omega) (by omega)
    refine ⟨fun he => hfirst ((equalAt_slice (by omega) (by omega)).mpr he), fun he => hlast ?_⟩
    refine (equalAt_slice (by omega) (by omega)).mpr ?_
    rw [show b.baseLines.start + (r.end1 - 1) = b.baseLines.start + r.end1 - 1 by omega,
      show b.lines.start + (r.end2 - 1) = b.lines.start + r.end2 - 1 by omega]
    exact he

/-- **A group of one block.** -/
theorem flushGroup_singleton (hm : MyersLaw myers) (hbase : ∀ line ∈ base, '\n' ∉ line)
    (hdoc : ∀ line ∈ doc, '\n' ∉ line) {b : Block} (h : InBounds base doc b)
    (hclean : b.dirty = false → b.range.isEmpty = false ∧ Sharp (EqualAt policy base doc) b.range)
    (stats : TrackerStats) (out : List Block) :
    ∃ stats' out', flushGroup myers doc base policy [b] stats out = some (stats', out ++ out') ∧
      Refreshed (EqualAt policy base doc) b out' := by
  have hmax1 : max b.lines.stop b.lines.start = b.lines.stop := max_eq_left h.le2
  have hmax2 : max b.baseLines.stop b.baseLines.start = b.baseLines.stop := max_eq_left h.le1
  have hslice1 : slice doc b.lines.start b.lines.stop = some (docSlice doc b) :=
    slice_of_le h.le2 h.in2
  have hslice2 : slice base b.baseLines.start b.baseLines.stop = some (baseSlice base b) :=
    slice_of_le h.le1 h.in1
  cases hd : b.dirty with
  | false =>
    refine ⟨stats, [b], by simp [flushGroup, hd], ⟨?_, List.pairwise_singleton _ _, ?_⟩⟩
    · exact ⟨(gapRel_gap _).refl _ _, h.le1, h.le2, (gapRel_gap _).refl _ _⟩
    · intro c hc
      rw [List.mem_singleton.mp hc]
      exact ⟨hd, hclean hd⟩
  | true =>
    simp only [flushGroup, List.any_cons, List.any_nil, Bool.or_false, hd, Bool.not_true,
      Bool.false_eq_true, if_false, List.getLastD_nil, hmax1, hmax2,
      clampRange_of_le h.le1 h.in1, clampRange_of_le h.le2 h.in2, hslice1, hslice2,
      Option.bind_eq_bind, Option.bind_some]
    have hmerged : (⟨⟨b.lines.start, b.lines.stop⟩, ⟨b.baseLines.start, b.baseLines.stop⟩, true,
        b.tooBig⟩ : Block).isEmpty = b.isEmpty := rfl
    rw [hmerged]
    by_cases hemp : b.isEmpty = true
    · -- an empty dirty block vanishes
      refine ⟨stats, [], by rw [if_pos hemp, List.append_nil], ?_, List.Pairwise.nil, by simp⟩
      obtain ⟨he1, he2⟩ := Range.isEmpty_iff.mp ((Block.isEmpty_iff h).mp hemp)
      rw [he1, he2]
      exact (gapRel_gap _).refl _ _
    rw [if_neg hemp]
    by_cases hbig : b.tooBig = true ∨ (docSlice doc b).length > tooBigBlockLines ∨
        (baseSlice base b).length > tooBigBlockLines
    · obtain ⟨r, hr, href⟩ := trimmedBlock_spec h policy
      rw [if_pos hbig, hr]
      cases r with
      | none => exact ⟨stats, [], by simp, href⟩
      | some c => exact ⟨stats, [c], rfl, href⟩
    · obtain ⟨ranges, hr, href⟩ := rediffed_spec hm hbase hdoc h
      rw [if_neg hbig, hr]
      exact ⟨_, _, rfl, href⟩

/-- A block refreshed by itself. -/
def flushOne (myers : Myers) (doc base : List Str) (policy : ComparisonPolicy)
    (state : TrackerStats × List Block) (b : Block) : Option (TrackerStats × List Block) :=
  flushGroup myers doc base policy [b] state.1 state.2

/-- Blocks that lie apart are refreshed one by one. -/
theorem foldlM_regroup : ∀ {blocks : List Block} {b : Block} (stats : TrackerStats)
    (out : List Block), (b :: blocks).Pairwise (fun b c => b.touches c = false) →
      (do
        let (stats, group, refreshed) ←
          blocks.foldlM (regroup myers doc base policy) (stats, [b], out)
        flushGroup myers doc base policy group stats refreshed) =
      (b :: blocks).foldlM (flushOne myers doc base policy) (stats, out)
  | [], b, stats, out, _ => by simp [flushOne]
  | c :: blocks, b, stats, out, hp => by
    obtain ⟨hb, hp'⟩ := List.pairwise_cons.mp hp
    have htouch := hb c List.mem_cons_self
    rw [List.foldlM_cons, List.foldlM_cons]
    simp only [regroup, flushOne, List.getLast?_singleton, Option.any_some, htouch, Bool.not_false,
      if_true, Option.bind_eq_bind]
    cases hflush : flushGroup myers doc base policy [b] stats out with
    | none => rfl
    | some r =>
      obtain ⟨stats', out'⟩ := r
      simpa using foldlM_regroup stats' out' hp'

/-- The blocks refreshed one by one. -/
theorem foldlM_flush (hm : MyersLaw myers) (hbase : ∀ line ∈ base, '\n' ∉ line)
    (hdoc : ∀ line ∈ doc, '\n' ∉ line) :
    ∀ {blocks : List Block}, (∀ b ∈ blocks, InBounds base doc b) →
      (∀ b ∈ blocks, b.dirty = false →
        b.range.isEmpty = false ∧ Sharp (EqualAt policy base doc) b.range) →
      ∀ (stats : TrackerStats) (out : List Block), ∃ stats' outs,
        blocks.foldlM (flushOne myers doc base policy) (stats, out) =
          some (stats', out ++ outs.flatten) ∧
        List.Forall₂ (Refreshed (EqualAt policy base doc)) blocks outs
  | [], _, _, stats, out => ⟨stats, [], by simp, List.Forall₂.nil⟩
  | b :: blocks, hin, hclean, stats, out => by
    obtain ⟨stats1, out1, h1, hr1⟩ := flushGroup_singleton hm hbase hdoc (hin b List.mem_cons_self)
      (hclean b List.mem_cons_self) stats out
    obtain ⟨stats2, outs, h2, hr2⟩ := foldlM_flush hm hbase hdoc
      (fun c hc => hin c (List.mem_cons_of_mem _ hc))
      (fun c hc => hclean c (List.mem_cons_of_mem _ hc)) stats1 (out ++ out1)
    refine ⟨stats2, out1 :: outs, ?_, List.Forall₂.cons hr1 hr2⟩
    rw [List.foldlM_cons, flushOne, h1]
    simpa [List.append_assoc] using h2

/-- Blocks that are refreshed one by one stay an alignment. -/
theorem Tracked.refresh {blocks : List Block} {outs : List (List Block)}
    (h : Tracked policy base doc blocks)
    (hall : List.Forall₂ (Refreshed (EqualAt policy base doc)) blocks outs) :
    Tiled (Gap (EqualAt policy base doc)) 0 0 (outs.flatten.map Block.range) base.length
        doc.length ∧
      (outs.flatten.map Block.range).Pairwise Range.Before ∧
      ∀ c ∈ outs.flatten, c.dirty = false ∧ c.range.isEmpty = false ∧
        Sharp (EqualAt policy base doc) c.range := by
  have hranges : List.Forall₂ (fun r ss => Tiled (Gap (EqualAt policy base doc)) r.start1 r.start2
      ss r.end1 r.end2 ∧ ss.Pairwise Range.Before) (blocks.map Block.range)
      (outs.map (List.map Block.range)) := by
    rw [List.forall₂_map_left_iff, List.forall₂_map_right_iff]
    exact hall.imp fun b out hr => ⟨hr.tiled, hr.apart⟩
  have hclean : ∀ {blocks : List Block} {outs : List (List Block)},
      List.Forall₂ (Refreshed (EqualAt policy base doc)) blocks outs → ∀ out ∈ outs, ∀ c ∈ out,
        c.dirty = false ∧ c.range.isEmpty = false ∧ Sharp (EqualAt policy base doc) c.range := by
    intro blocks outs hall
    induction hall with
    | nil => simp
    | cons hr _ ih =>
      intro out hout
      rcases List.mem_cons.mp hout with rfl | hout
      · exact hr.clean
      · exact ih out hout
  rw [List.map_flatten]
  refine ⟨h.tiled.refine (gapRel_gap _) (hranges.imp fun _ _ h => h.1),
    (before_refine (gapRel_gap _) hranges h.apart).1, fun c hc => ?_⟩
  obtain ⟨out, hout, hc⟩ := List.mem_flatten.mp hc
  exact hclean hall out hout c hc

/-- **A refresh keeps the invariant and leaves no dirty block.** -/
theorem Tracked.refreshDirty (hm : MyersLaw myers) (hbase : ∀ line ∈ base, '\n' ∉ line)
    (hdoc : ∀ line ∈ doc, '\n' ∉ line) (hfit1 : base.length ≤ u32Max)
    (hfit2 : doc.length ≤ u32Max) {tracker : BlockTracker} (hact : tracker.active = true)
    (h : Tracked policy base doc tracker.blocks) :
    ∃ tracker' changed, tracker.refreshDirty myers doc base policy = some (tracker', changed) ∧
      tracker'.active = true ∧ Tracked policy base doc tracker'.blocks ∧
      ∀ b ∈ tracker'.blocks, b.dirty = false := by
  obtain ⟨active, blocks, stats⟩ := tracker
  obtain rfl : active = true := hact
  simp only at h
  have hin : ∀ b ∈ blocks, InBounds base doc b := by
    intro b hb
    have := h.tiled.bounds (gapRel_gap _) b.range (List.mem_map_of_mem hb)
    simp only [Block.range] at this
    exact ⟨by omega, by omega, by omega, by omega, hfit1, hfit2⟩
  unfold BlockTracker.refreshDirty
  by_cases hdirty : (BlockTracker.mk true blocks stats).isDirty = true
  · rw [if_neg (by simp [hdirty])]
    by_cases hsame : (blocks.all Block.dirty && doc.length == base.length && doc == base) = true
    · -- the same texts
      obtain rfl : doc = base := by
        simp only [Bool.and_eq_true, beq_iff_eq] at hsame
        exact hsame.2
      refine ⟨_, true, if_pos hsame, rfl, ⟨(alignment_refl policy doc).aligned.tiled,
        List.Pairwise.nil, by simp⟩, by simp⟩
    · rw [if_neg hsame]
      cases blocks with
      | nil => simp [BlockTracker.isDirty] at hdirty
      | cons b blocks =>
        have happart : (b :: blocks).Pairwise fun b c => b.touches c = false := by
          refine (List.pairwise_map.mp h.apart).imp fun {b c} hbc => ?_
          have h1 : b.baseLines.stop < c.baseLines.start := hbc.1
          have h2 : b.lines.stop < c.lines.start := hbc.2
          simp [Block.touches, h1, h2]
        obtain ⟨stats', outs, hfold, hall⟩ := foldlM_flush hm hbase hdoc hin h.clean stats []
        have hregroup := (foldlM_regroup stats [] happart).trans hfold
        obtain ⟨⟨stats1, group, refreshed⟩, hgroup, hlast⟩ := Option.bind_eq_some_iff.mp hregroup
        simp only [List.nil_append] at hlast
        have hfirst : (b :: blocks).foldlM (regroup myers doc base policy) (stats, [], []) =
            some (stats1, group, refreshed) := by
          rw [List.foldlM_cons, ← hgroup]
          rfl
        obtain ⟨htiled, hapart, hclean⟩ := h.refresh hall
        refine ⟨⟨true, outs.flatten, stats'⟩, true, ?_, rfl, ⟨htiled, hapart, fun c hc _ => ?_⟩,
          fun c hc => (hclean c hc).1⟩
        · simp only [hfirst, hlast, Option.bind_eq_bind, Option.bind_some]
          rfl
        · exact (hclean c hc).2
  · refine ⟨_, false, if_pos (by simp [hdirty]), rfl, h, ?_⟩
    simpa [BlockTracker.isDirty] using hdirty

end Refresh

/-! ### Every run of the tracker -/

/-- The lines of a text whose number is an unsigned 32-bit integer. -/
structure Doc where
  lines : List Str
  noNewline : ∀ line ∈ lines, '\n' ∉ line
  fits : lines.length ≤ u32Max

/-- The documents and trackers that a run reaches from a fresh tracker by line edits that are reported
to it and refreshes on the current document, in any order. -/
inductive Reach (myers : Myers) (base : Doc) (policy : ComparisonPolicy) : Doc → BlockTracker → Prop
  | fresh (doc : Doc) :
    Reach myers base policy doc (BlockTracker.fresh doc.lines.length base.lines.length)
  | edit {doc : Doc} {tracker : BlockTracker} (doc' : Doc) (start before : ℕ) (after : List Str) :
    Reach myers base policy doc tracker → start + before ≤ doc.lines.length →
    doc'.lines = editLines doc.lines start before after →
    Reach myers base policy doc' (tracker.rangeChanged start before after.length)
  | refresh {doc : Doc} {tracker tracker' : BlockTracker} (changed : Bool) :
    Reach myers base policy doc tracker →
    tracker.refreshDirty myers doc.lines base.lines policy = some (tracker', changed) →
    Reach myers base policy doc tracker'

/-- The blocks are in bounds, sorted and strictly separated on both sides, and every gap between them
has the same length on both sides and pairs equal lines. -/
structure ValidBlocks (policy : ComparisonPolicy) (base doc : List Str) (blocks : List Block) :
    Prop where
  bounds : ∀ b ∈ blocks, b.lines.start ≤ b.lines.stop ∧ b.lines.stop ≤ doc.length ∧
    b.baseLines.start ≤ b.baseLines.stop ∧ b.baseLines.stop ≤ base.length
  separated : blocks.Pairwise fun b c =>
    b.lines.stop < c.lines.start ∧ b.baseLines.stop < c.baseLines.start
  gaps : Tiled (Gap (EqualAt policy base doc)) 0 0 (blocks.map Block.range) base.length doc.length

theorem Tracked.valid {policy : ComparisonPolicy} {base doc : List Str} {blocks : List Block}
    (h : Tracked policy base doc blocks) : ValidBlocks policy base doc blocks := by
  refine ⟨fun b hb => ?_, (List.pairwise_map.mp h.apart).imp fun hbc => ⟨hbc.2, hbc.1⟩, h.tiled⟩
  have := h.tiled.bounds (gapRel_gap _) b.range (List.mem_map_of_mem hb)
  simp only [Block.range] at this
  omega

section Run
variable {myers : Myers} {base doc : Doc} {policy : ComparisonPolicy} {tracker : BlockTracker}

/-- The invariant holds along every run. -/
theorem Reach.tracked (hm : MyersLaw myers) (h : Reach myers base policy doc tracker) :
    tracker.active = true ∧ Tracked policy base.lines doc.lines tracker.blocks := by
  induction h with
  | fresh doc => exact ⟨rfl, tracked_fresh policy base.lines doc.lines⟩
  | @edit doc tracker doc' start before after _ hs hdoc ih =>
    obtain ⟨hact, ht⟩ := ih
    have hfit : (editLines doc.lines start before after).length ≤ u32Max := hdoc ▸ doc'.fits
    refine ⟨by simp [BlockTracker.rangeChanged, hact], ?_⟩
    rw [hdoc]
    exact ht.rangeChanged hact hs doc.fits base.fits hfit
  | @refresh doc tracker tracker' changed _ hr ih =>
    obtain ⟨hact, ht⟩ := ih
    obtain ⟨tracker1, changed1, hr1, hact1, ht1, -⟩ :=
      ht.refreshDirty hm base.noNewline doc.noNewline base.fits doc.fits hact
    rw [hr] at hr1
    cases hr1
    exact ⟨hact1, ht1⟩

/-- **The blocks of a tracker are valid at every point of every run**, and a refresh at that point
succeeds and leaves valid blocks that are neither dirty nor empty and neither start nor end with a
pair of equal lines. -/
theorem reach_valid (hm : MyersLaw myers) (h : Reach myers base policy doc tracker) :
    ValidBlocks policy base.lines doc.lines tracker.blocks ∧
      ∃ tracker' changed, tracker.refreshDirty myers doc.lines base.lines policy =
          some (tracker', changed) ∧
        ValidBlocks policy base.lines doc.lines tracker'.blocks ∧
        ∀ b ∈ tracker'.blocks, b.dirty = false ∧ b.isEmpty = false ∧
          (b.lines.isEmpty = false → b.baseLines.isEmpty = false →
            ¬ EqualAt policy base.lines doc.lines b.baseLines.start b.lines.start ∧
            ¬ EqualAt policy base.lines doc.lines (b.baseLines.stop - 1) (b.lines.stop - 1)) := by
  obtain ⟨hact, ht⟩ := h.tracked hm
  obtain ⟨tracker', changed, hr, -, ht', hclean⟩ :=
    ht.refreshDirty hm base.noNewline doc.noNewline base.fits doc.fits hact
  refine ⟨ht.valid, tracker', changed, hr, ht'.valid, fun b hb => ?_⟩
  obtain ⟨hne, hsharp⟩ := ht'.clean b hb (hclean b hb)
  have hbounds := ht'.valid.bounds b hb
  have hin : InBounds base.lines doc.lines b :=
    ⟨hbounds.2.2.1, hbounds.2.2.2, hbounds.1, hbounds.2.1, base.fits, doc.fits⟩
  refine ⟨hclean b hb, Bool.eq_false_iff.mpr fun he => ?_, fun h2 h1 => hsharp ?_ ?_⟩
  · rw [(Block.isEmpty_iff hin).mp he] at hne
    simp at hne
  · show b.baseLines.start < b.baseLines.stop
    simpa [Span.isEmpty] using h1
  · show b.lines.start < b.lines.stop
    simpa [Span.isEmpty] using h2

end Run

/-- A tracker of the one-line document `a`, whose line is then replaced by `b`. -/
theorem reach_valid_one_edit :
    ((BlockTracker.fresh 1 1).rangeChanged 0 1 1).blocks = [⟨⟨0, 1⟩, ⟨0, 1⟩, true, false⟩] ∧
      ValidBlocks .default [['a']] [['b']] ((BlockTracker.fresh 1 1).rangeChanged 0 1 1).blocks := by
  refine ⟨by decide, ?_⟩
  have hfresh : Reach wholeHunk ⟨[['a']], by decide, by decide⟩ .default
      ⟨[['a']], by decide, by decide⟩ (BlockTracker.fresh 1 1) := Reach.fresh _
  exact (reach_valid wholeHunk_law
    (hfresh.edit ⟨[['b']], by decide, by decide⟩ 0 1 [['b']] (by decide) rfl)).1

end Paneflow.Textdiff.Tracker
