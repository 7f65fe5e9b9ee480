import Paneflow.Textdiff.ChunkOptimizer

/-! # Lines and their first comparison: the first half of `by_line.rs`

A line carries its hash and its number of non-space characters. `compareSmart` pairs the lines that
are big enough by `lcs` and then matches what lies between two pairs; `optimizeLineChunks` moves the
borders of the unchanged blocks to unimportant lines; `expandRanges` cuts the equal pairs off the ends
of every change.

* `at_lines`: the equality of lines is the equality of their texts under the policy.
* `compareSmart_aligned`, `optimizeLineChunks_aligned`, `expandRanges_aligned`: each step yields an
  alignment. -/

namespace Paneflow.Textdiff.LineChunks

open Paneflow.Alignment.Tiling Paneflow.Checked Paneflow.Textdiff.Text Paneflow.Textdiff.Iterable
open Paneflow.Textdiff.ChunkOptimizer

/-- A line that is compared under a policy. The policy is a field of the line in the source and an
index here, since only lines of one policy are ever compared. -/
structure Line (policy : ComparisonPolicy) where
  content : Str
  hash : UInt64
  nonSpaceChars : ℕ
  hash_eq : hash = Text.hash content policy
  nonSpaceChars_eq : nonSpaceChars = countNonSpaceChars content

variable {policy : ComparisonPolicy}

def Line.new (content : Str) (policy : ComparisonPolicy) : Line policy :=
  ⟨content, Text.hash content policy, countNonSpaceChars content, rfl, rfl⟩

/-- The line under another policy. If it is the same policy the source keeps the line, whose fields
are these. -/
def Line.withPolicy (line : Line policy) (policy' : ComparisonPolicy) : Line policy' :=
  Line.new line.content policy'

instance : BEq (Line policy) where
  beq line1 line2 := line1.hash == line2.hash && isEquals line1.content line2.content policy

theorem Line.beq_iff {line1 line2 : Line policy} : (line1 == line2) = true ↔
    line1.hash = line2.hash ∧ isEquals line1.content line2.content policy = true := by
  show (line1.hash == line2.hash && isEquals line1.content line2.content policy) = true ↔ _
  rw [Bool.and_eq_true, beq_iff_eq]

instance : EquivBEq (Line policy) where
  rfl := Line.beq_iff.mpr ⟨rfl, isEquals_refl _ _⟩
  symm h := by
    obtain ⟨h1, h2⟩ := Line.beq_iff.mp h
    exact Line.beq_iff.mpr ⟨h1.symm, isEquals_symm h2⟩
  trans h h' := by
    obtain ⟨h1, h2⟩ := Line.beq_iff.mp h
    obtain ⟨h1', h2'⟩ := Line.beq_iff.mp h'
    exact Line.beq_iff.mpr ⟨h1.trans h1', isEquals_trans h2 h2'⟩

/-- The texts at `i` and `j` are equal under the policy. -/
def EqualAt (policy : ComparisonPolicy) (lines1 lines2 : List Str) (i j : ℕ) : Prop :=
  At (fun line1 line2 => isEquals line1 line2 policy) lines1 lines2 i j

/-- The lines of a list of texts. -/
def newLines (lines : List Str) (policy : ComparisonPolicy) : List (Line policy) :=
  lines.map fun line => Line.new line policy

theorem at_map {lines1 lines2 : List Str} {α : Type} {test : α → α → Bool} {f g : Str → α}
    {i j : ℕ} : At test (lines1.map f) (lines2.map g) i j ↔
      At (fun line1 line2 => test (f line1) (g line2)) lines1 lines2 i j := by
  simp only [At, List.getElem?_map, Option.map_eq_some_iff]
  constructor
  · rintro ⟨_, _, ⟨x, hx, rfl⟩, ⟨y, hy, rfl⟩, ht⟩
    exact ⟨x, y, hx, hy, ht⟩
  · rintro ⟨x, y, hx, hy, ht⟩
    exact ⟨_, _, ⟨x, hx, rfl⟩, ⟨y, hy, rfl⟩, ht⟩

/-- **Lines without newline are equal exactly if their texts are equal under the policy.** -/
theorem at_lines {lines1 lines2 : List Str}
    (h1 : policy = .trimWhitespaces → ∀ line ∈ lines1, '\n' ∉ line)
    (h2 : policy = .trimWhitespaces → ∀ line ∈ lines2, '\n' ∉ line) {i j : ℕ} :
    At (· == ·) (newLines lines1 policy) (newLines lines2 policy) i j ↔
      EqualAt policy lines1 lines2 i j := by
  unfold newLines EqualAt
  rw [at_map]
  constructor
  · exact At.mono fun x y h => (Line.beq_iff.mp h).2
  · rintro ⟨x, y, hx, hy, h⟩
    have hhash := hash_eq_of_isEquals (fun htrim => h1 htrim x (List.mem_of_getElem? hx))
      (fun htrim => h2 htrim y (List.mem_of_getElem? hy)) h
    exact ⟨x, y, hx, hy, Line.beq_iff.mpr ⟨hhash, h⟩⟩

/-! ### The comparison of big lines -/

def bigLines (lines : List (Line policy)) (threshold : ℕ) : List (Line policy) × List ℕ :=
  let big := lines.zipIdx.filter fun (line, _) => line.nonSpaceChars > threshold
  (big.map Prod.fst, big.map Prod.snd)

def matchLineGap (myers : Myers) (builder : ChangeBuilder) (lines1 lines2 : List (Line policy))
    (start1 end1 start2 end2 : ℕ) : Option ChangeBuilder := do
  let expanded ← expand lines1 lines2 start1 start2 end1 end2
  let inner1 ← slice lines1 expanded.start1 expanded.end1
  let inner2 ← slice lines2 expanded.start2 expanded.end2
  let innerChanges := lcs myers inner1 inner2
  let builder := builder.markEqual start1 start2 expanded.start1 expanded.start2
  let builder ← innerChanges.unchanged.foldlM (fun builder chunk => do
    return builder.markEqualCount (expanded.start1 + chunk.start1) (expanded.start2 + chunk.start2)
      (← checkedSub chunk.end1 chunk.start1)) builder
  return builder.markEqual expanded.end1 expanded.end2 end1 end2

section Correction
variable (myers : Myers) (indexes1 indexes2 : List ℕ) (lines1 lines2 : List (Line policy))

/-- The body of the loop of `smartLineChangeCorrection`, on the builder with `last1` and `last2`. -/
def correctPair : ChangeBuilder × ℕ × ℕ → ℕ × ℕ → Option (ChangeBuilder × ℕ × ℕ)
  | (builder, last1, last2), (i, j) => do
    let start1 ← indexes1[i]?
    let start2 ← indexes2[j]?
    let end1 := start1 + 1
    let end2 := start2 + 1
    let builder ← matchLineGap myers builder lines1 lines2 last1 start1 last2 start2
    return (builder.markEqual start1 start2 end1 end2, end1, end2)

def smartLineChangeCorrection (changes : Changes) : Option Changes := do
  let builder := ChangeBuilder.new lines1.length lines2.length
  let (builder, last1, last2) ← (← pairs changes.unchanged).foldlM
    (correctPair myers indexes1 indexes2 lines1 lines2) (builder, 0, 0)
  let builder ← matchLineGap myers builder lines1 lines2 last1 lines1.length last2 lines2.length
  return builder.finish

end Correction

def compareSmart (myers : Myers) (lines1 lines2 : List (Line policy)) : Option Changes :=
  let threshold := unimportantLineCharCount
  let (bigLines1, indexes1) := bigLines lines1 threshold
  let (bigLines2, indexes2) := bigLines lines2 threshold
  let changes := lcs myers bigLines1 bigLines2
  smartLineChangeCorrection myers indexes1 indexes2 lines1 lines2 changes

/-! ### Moving borders to unimportant lines -/

def nextUnimportantLine (lines : List (Line policy)) (offset count threshold : ℕ) :
    Option (Option ℕ) :=
  (List.range count).findM? fun i => do
    let line ← lines[offset + i]?
    return line.nonSpaceChars ≤ threshold

def prevUnimportantLine (lines : List (Line policy)) (offset count threshold : ℕ) :
    Option (Option ℕ) :=
  (List.range count).findM? fun i => do
    let line ← lines[← checkedSub offset i]?
    return line.nonSpaceChars ≤ threshold

def combineShift : Option ℕ → Option ℕ → Option ℤ
  | none, none => none
  | some 0, _ => some 0
  | _, some 0 => some 0
  | some forward, _ => some forward
  | none, some backward => some (-backward)

section Shift
variable (lines1 lines2 : List (Line policy)) (touchLeft : Bool) (equalForward equalBackward : ℕ)
  (range1 range2 : Range)

def unchangedBoundaryShift (threshold : ℕ) : Option (Option ℤ) := do
  let touchLines := select touchLeft lines1 lines2
  let touchStart := select touchLeft range2.start1 range2.start2
  let forward ← nextUnimportantLine touchLines touchStart (equalForward + 1) threshold
  let backward ← prevUnimportantLine touchLines (← checkedSub touchStart 1) (equalBackward + 1)
    threshold
  return combineShift forward backward

def changedBoundaryShift (threshold : ℕ) : Option (Option ℤ) := do
  let nonTouchLines := select touchLeft lines2 lines1
  let changeStart := select touchLeft range1.end2 range1.end1
  let changeEnd := select touchLeft range2.start2 range2.start1
  let forward ← nextUnimportantLine nonTouchLines changeStart (equalForward + 1) threshold
  let backward ← prevUnimportantLine nonTouchLines (← checkedSub changeEnd 1) (equalBackward + 1)
    threshold
  return combineShift forward backward

/-- The shift to the first threshold that has one. -/
def shiftAmong : List ℕ → Option ℤ
  | [] => some 0
  | threshold :: thresholds => do
    match ← unchangedBoundaryShift lines1 lines2 touchLeft equalForward equalBackward range2
      threshold with
    | some shift => return shift
    | none =>
      match ← changedBoundaryShift lines1 lines2 touchLeft equalForward equalBackward range1 range2
        threshold with
      | some shift => return shift
      | none => shiftAmong thresholds

end Shift

/-- `LineBoundaryShift` -/
def lineBoundaryShift (lines1 lines2 : List (Line policy)) : BoundaryShift :=
  fun touchLeft equalForward equalBackward range1 range2 =>
    shiftAmong lines1 lines2 touchLeft equalForward equalBackward range1 range2
      [0, unimportantLineCharCount]

def optimizeLineChunks (lines1 lines2 : List (Line policy)) (changes : Changes) : Option Changes :=
  optimizeChunks lines1 lines2 (lineBoundaryShift lines1 lines2) changes

def expandRanges (lines1 lines2 : List (Line policy)) (changes : Changes) : Option Changes := do
  let expanded ← changes.changed.mapM fun range =>
    expand lines1 lines2 range.start1 range.start2 range.end1 range.end2
  return ⟨expanded.filter fun range => !range.isEmpty, lines1.length, lines2.length⟩

/-! ### Each step yields an alignment -/

variable {myers : Myers} {lines1 lines2 : List (Line policy)}

/-- The indices of the big lines come in order and point at them. -/
theorem bigLines_spec (lines : List (Line policy)) (threshold : ℕ) :
    (bigLines lines threshold).2.Pairwise (· < ·) ∧
      ∀ (k : ℕ) line, (bigLines lines threshold).1[k]? = some line →
        ∃ i : ℕ, (bigLines lines threshold).2[k]? = some i ∧ lines[i]? = some line := by
  unfold bigLines
  constructor
  · have hidx : (lines.zipIdx.map Prod.snd).Pairwise (· < ·) := by
      rw [List.zipIdx_map_snd]
      exact List.pairwise_lt_range'
    exact hidx.sublist (List.filter_sublist.map _)
  · intro k line hk
    simp only [List.getElem?_map, Option.map_eq_some_iff] at hk ⊢
    obtain ⟨⟨line', i⟩, hki, rfl⟩ := hk
    refine ⟨i, ⟨_, hki, rfl⟩, ?_⟩
    have hmem := (List.mem_filter.mp (List.mem_of_getElem? hki)).1
    exact List.mem_zipIdx_iff_getElem?.mp hmem

section Gap
variable {builder : ChangeBuilder} {start1 start2 end1 end2 n1 n2 : ℕ}

/-- **Matching between two pairs** moves the cursor at most to the end of the gap. -/
theorem matchLineGap_spec (hm : MyersLaw myers)
    (hb : Built (At (· == ·) lines1 lines2) n1 n2 builder) (hi1 : builder.index1 ≤ start1)
    (hi2 : builder.index2 ≤ start2) (hs1 : start1 ≤ end1) (hs2 : start2 ≤ end2)
    (h1 : end1 ≤ lines1.length) (h2 : end2 ≤ lines2.length) :
    ∃ builder', matchLineGap myers builder lines1 lines2 start1 end1 start2 end2 = some builder' ∧
      Built (At (· == ·) lines1 lines2) n1 n2 builder' ∧ builder'.index1 ≤ end1 ∧
      builder'.index2 ≤ end2 := by
  obtain ⟨r, hr, he⟩ := expand_spec hs1 hs2 h1 h2
  have hback1 := (gapRel_gap _).le1 he.back
  have hback2 := (gapRel_gap _).le2 he.back
  have hr1 : r.end1 ≤ lines1.length := by omega
  have hr2 : r.end2 ≤ lines2.length := by omega
  obtain ⟨hl1, hl2, ht, -⟩ := lcs_tiled hm ((lines1.drop r.start1).take (r.end1 - r.start1))
    ((lines2.drop r.start2).take (r.end2 - r.start2))
  have ht' := ht.mono fun _ _ _ _ hg => hg.mono fun _ _ => At.of_slice
  rw [← hl1, ← hl2] at ht'
  obtain ⟨hblocks, hmatched⟩ := unchanged_blocks ht'
  rw [hl1, hl2, length_slice hr1, length_slice hr2] at hblocks
  obtain ⟨hb1, hb11, hb12⟩ := hb.markEqual hi1 hi2 he.front
  obtain ⟨b2, hf, hb2, hb21, hb22⟩ := Built.foldlM (f := fun builder chunk => do
      return builder.markEqualCount (r.start1 + chunk.start1) (r.start2 + chunk.start2)
        (← checkedSub chunk.end1 chunk.start1)) (by
      rintro b u ⟨-, n, hn1, hn2, -⟩
      simp [ChangeBuilder.markEqualCount, hn1, hn2, Nat.add_assoc])
    hblocks hmatched hb1 hb11 hb12
  have hle1 := he.le1
  have hle2 := he.le2
  obtain ⟨hb3, hb31, hb32⟩ := hb2.markEqual (by omega) (by omega) he.back
  refine ⟨_, ?_, hb3, hb31, hb32⟩
  simp only [Option.bind_eq_bind] at hf
  simp only [matchLineGap, hr, slice_of_le hle1 hr1, slice_of_le hle2 hr2, Option.bind_eq_bind,
    Option.bind_some, hf]
  rfl

/-- What holds before the pairs from `(a₁, a₂)` on of the big lines are treated: the lines before
`last1` and `last2` are done, and no big line from there on is among them. -/
structure Corrected (lines1 lines2 : List (Line policy)) (indexes1 indexes2 : List ℕ) (a1 a2 : ℕ)
    (state : ChangeBuilder × ℕ × ℕ) : Prop where
  built : Built (At (· == ·) lines1 lines2) lines1.length lines2.length state.1
  index1 : state.1.index1 ≤ state.2.1
  index2 : state.1.index2 ≤ state.2.2
  last1 : state.2.1 ≤ lines1.length
  last2 : state.2.2 ≤ lines2.length
  rest1 : ∀ k i, a1 ≤ k → indexes1[k]? = some i → state.2.1 ≤ i
  rest2 : ∀ k i, a2 ≤ k → indexes2[k]? = some i → state.2.2 ≤ i

/-- One pair of big lines. -/
theorem Corrected.step {indexes1 indexes2 : List ℕ} (hm : MyersLaw myers)
    (hp1 : indexes1.Pairwise (· < ·)) (hp2 : indexes2.Pairwise (· < ·)) {a1 a2 : ℕ}
    {state : ChangeBuilder × ℕ × ℕ} (h : Corrected lines1 lines2 indexes1 indexes2 a1 a2 state)
    {i j s1 s2 : ℕ} (hi : a1 ≤ i) (hj : a2 ≤ j) (hs1 : indexes1[i]? = some s1)
    (hs2 : indexes2[j]? = some s2) (hE : At (· == ·) lines1 lines2 s1 s2) :
    ∃ state', correctPair myers indexes1 indexes2 lines1 lines2 state (i, j) = some state' ∧
      Corrected lines1 lines2 indexes1 indexes2 (i + 1) (j + 1) state' := by
  obtain ⟨b, hg, hb, hb1, hb2⟩ := matchLineGap_spec hm h.built h.index1 h.index2
    (h.rest1 i s1 hi hs1) (h.rest2 j s2 hj hs2) hE.lt1.le hE.lt2.le
  obtain ⟨hb', hb1', hb2'⟩ := hb.markEqual hb1 hb2 (Gap.one hE)
  refine ⟨(b.markEqual s1 s2 (s1 + 1) (s2 + 1), s1 + 1, s2 + 1), ?_, hb', hb1', hb2', hE.lt1, hE.lt2,
    ?_, ?_⟩
  · obtain ⟨builder, last1, last2⟩ := state
    simp only [correctPair, hs1, hs2, Option.bind_eq_bind, Option.bind_some]
    rw [hg]
    rfl
  · intro k l hk hl
    obtain ⟨hlt, rfl⟩ := List.getElem?_eq_some_iff.mp hl
    obtain ⟨hlt', rfl⟩ := List.getElem?_eq_some_iff.mp hs1
    exact List.pairwise_iff_getElem.mp hp1 i k hlt' hlt (by omega)
  · intro k l hk hl
    obtain ⟨hlt, rfl⟩ := List.getElem?_eq_some_iff.mp hl
    obtain ⟨hlt', rfl⟩ := List.getElem?_eq_some_iff.mp hs2
    exact List.pairwise_iff_getElem.mp hp2 j k hlt' hlt (by omega)

end Gap

/-- The lines between matched big lines are matched too. -/
theorem smartLineChangeCorrection_aligned (hm : MyersLaw myers) {big1 big2 : List (Line policy)}
    {indexes1 indexes2 : List ℕ} (hp1 : indexes1.Pairwise (· < ·))
    (hp2 : indexes2.Pairwise (· < ·))
    (hbig1 : ∀ (k : ℕ) line, big1[k]? = some line →
      ∃ i : ℕ, indexes1[k]? = some i ∧ lines1[i]? = some line)
    (hbig2 : ∀ (k : ℕ) line, big2[k]? = some line →
      ∃ i : ℕ, indexes2[k]? = some i ∧ lines2[i]? = some line) {changes : Changes}
    (ht : Tiled (Gap (At (· == ·) big1 big2)) 0 0 changes.changed changes.len1 changes.len2) :
    ∃ changes', smartLineChangeCorrection myers indexes1 indexes2 lines1 lines2 changes =
        some changes' ∧ changes'.len1 = lines1.length ∧ changes'.len2 = lines2.length ∧
      Aligned (At (· == ·) lines1 lines2) 0 0 changes'.changed lines1.length lines2.length := by
  obtain ⟨hblocks, hmatched⟩ := unchanged_blocks ht
  obtain ⟨ps, hps, hinc⟩ := pairs_spec hblocks hmatched
  have hinit : Corrected lines1 lines2 indexes1 indexes2 0 0
      (ChangeBuilder.new lines1.length lines2.length, 0, 0) :=
    ⟨built_new _ _, le_rfl, le_rfl, Nat.zero_le _, Nat.zero_le _, fun _ _ _ _ => Nat.zero_le _,
      fun _ _ _ _ => Nat.zero_le _⟩
  obtain ⟨⟨builder, last1, last2⟩, b1, b2, hfold, hcor, -, -⟩ :=
    foldlM_increasing (correctPair myers indexes1 indexes2 lines1 lines2)
      (Corrected lines1 lines2 indexes1 indexes2) (by
        rintro a1 a2 state i j h hi hj - - ⟨line1, line2, hx, hy, heq⟩
        obtain ⟨s1, hs1, hx'⟩ := hbig1 i line1 hx
        obtain ⟨s2, hs2, hy'⟩ := hbig2 j line2 hy
        exact h.step hm hp1 hp2 hi hj hs1 hs2 ⟨line1, line2, hx', hy', heq⟩) hinc hinit
  obtain ⟨b, hg, hb, hb1, hb2⟩ := matchLineGap_spec hm hcor.built hcor.index1 hcor.index2
    hcor.last1 hcor.last2 le_rfl le_rfl
  obtain ⟨hlen1, hlen2, hal⟩ := hb.finish hb1 hb2
  refine ⟨_, ?_, hlen1, hlen2, hal⟩
  simp only at hg
  simp only [smartLineChangeCorrection, hps, hfold, hg, Option.bind_eq_bind, Option.bind_some]
  rfl

/-- **The comparison by big lines** is an alignment. -/
theorem compareSmart_aligned (hm : MyersLaw myers) (lines1 lines2 : List (Line policy)) :
    ∃ changes, compareSmart myers lines1 lines2 = some changes ∧
      changes.len1 = lines1.length ∧ changes.len2 = lines2.length ∧
      Aligned (At (· == ·) lines1 lines2) 0 0 changes.changed lines1.length lines2.length := by
  obtain ⟨hp1, hbig1⟩ := bigLines_spec lines1 unimportantLineCharCount
  obtain ⟨hp2, hbig2⟩ := bigLines_spec lines2 unimportantLineCharCount
  obtain ⟨hl1, hl2, ht, -⟩ := lcs_tiled hm (bigLines lines1 unimportantLineCharCount).1
    (bigLines lines2 unimportantLineCharCount).1
  rw [← hl1, ← hl2] at ht
  exact smartLineChangeCorrection_aligned hm hp1 hp2 hbig1 hbig2 ht

/-! ### The shift and the expansion -/

theorem nextUnimportantLine_spec {lines : List (Line policy)} {offset count : ℕ} (threshold : ℕ)
    (h : offset + count ≤ lines.length) :
    ∃ r, nextUnimportantLine lines offset count threshold = some r ∧ ∀ i, r = some i → i < count := by
  have htest : ∀ i ∈ List.range count, ∃ b, (do
      let line ← lines[offset + i]?
      return decide (line.nonSpaceChars ≤ threshold) : Option Bool) = some b := by
    intro i hi
    have hlt : offset + i < lines.length := by have := List.mem_range.mp hi; omega
    simp [List.getElem?_eq_getElem hlt]
  obtain ⟨r, hr, hmem⟩ := findM_spec _ htest
  exact ⟨r, hr, fun i hi => List.mem_range.mp (hmem i hi)⟩

theorem prevUnimportantLine_spec {lines : List (Line policy)} {offset count : ℕ} (threshold : ℕ)
    (h : offset < lines.length) (hc : count ≤ offset + 1) :
    ∃ r, prevUnimportantLine lines offset count threshold = some r ∧ ∀ i, r = some i → i < count := by
  have htest : ∀ i ∈ List.range count, ∃ b, (do
      let line ← lines[← checkedSub offset i]?
      return decide (line.nonSpaceChars ≤ threshold) : Option Bool) = some b := by
    intro i hi
    have hle : i ≤ offset := by have := List.mem_range.mp hi; omega
    have hlt : offset - i < lines.length := by omega
    simp [checkedSub_of_le hle, List.getElem?_eq_getElem hlt]
  obtain ⟨r, hr, hmem⟩ := findM_spec _ htest
  exact ⟨r, hr, fun i hi => List.mem_range.mp (hmem i hi)⟩

theorem combineShift_bounds {forward backward : Option ℕ} {f b : ℕ} {delta : ℤ}
    (hf : ∀ i, forward = some i → i < f + 1) (hb : ∀ i, backward = some i → i < b + 1)
    (h : combineShift forward backward = some delta) : -(b : ℤ) ≤ delta ∧ delta ≤ f := by
  revert h
  fun_cases combineShift forward backward with
  | case1 => simp
  | case2 => rintro ⟨rfl⟩; omega
  | case3 => rintro ⟨rfl⟩; omega
  | case4 i => rintro ⟨rfl⟩; have := hf _ rfl; omega
  | case5 i => rintro ⟨rfl⟩; have := hb _ rfl; omega

/-- A search forwards from one border and backwards from another, among the equal lines. -/
theorem searchShift {lines : List (Line policy)} {start stop f b : ℕ} (threshold : ℕ)
    (hf : start + f < lines.length) (hb : b < stop) (hs : stop ≤ lines.length) :
    ∃ r : Option ℤ, (do
        let forward ← nextUnimportantLine lines start (f + 1) threshold
        let backward ← prevUnimportantLine lines (← checkedSub stop 1) (b + 1) threshold
        return combineShift forward backward : Option (Option ℤ)) = some r ∧
      ∀ delta, r = some delta → -(b : ℤ) ≤ delta ∧ delta ≤ f := by
  have hpos : 1 ≤ stop := by omega
  have hlt : stop - 1 < lines.length := by omega
  have hf1 : start + (f + 1) ≤ lines.length := by omega
  obtain ⟨rf, hrf, hf'⟩ := nextUnimportantLine_spec threshold hf1
  obtain ⟨rb, hrb, hb'⟩ := prevUnimportantLine_spec threshold hlt (by omega : b + 1 ≤ stop - 1 + 1)
  refine ⟨_, ?_, fun delta hd => combineShift_bounds hf' hb' hd⟩
  simp [hrf, hrb, checkedSub_of_le hpos]

section Law
variable {touchLeft : Bool} {f b : ℕ} {range1 range2 : Range}

theorem unchangedBoundaryShift_spec
    (h : Touching lines1.length lines2.length touchLeft f b range1 range2) (threshold : ℕ) :
    ∃ r, unchangedBoundaryShift lines1 lines2 touchLeft f b range2 threshold = some r ∧
      ∀ delta, r = some delta → -(b : ℤ) ≤ delta ∧ delta ≤ f := by
  obtain ⟨hb1, hb2, hle1, hle2, hf1, hf2, hin1, hin2, -, -⟩ := h
  cases touchLeft with
  | true =>
    have hf : range2.start1 + f < lines1.length := by omega
    exact searchShift threshold hf (by simp only [select_true]; omega)
      (by simp only [select_true]; omega)
  | false =>
    have hf : range2.start2 + f < lines2.length := by omega
    exact searchShift threshold hf (by simp only [select_false]; omega)
      (by simp only [select_false]; omega)

theorem changedBoundaryShift_spec
    (h : Touching lines1.length lines2.length touchLeft f b range1 range2) (threshold : ℕ) :
    ∃ r, changedBoundaryShift lines1 lines2 touchLeft f b range1 range2 threshold = some r ∧
      ∀ delta, r = some delta → -(b : ℤ) ≤ delta ∧ delta ≤ f := by
  obtain ⟨hb1, hb2, hle1, hle2, hf1, hf2, hin1, hin2, -, -⟩ := h
  cases touchLeft with
  | true =>
    have hf : range1.end2 + f < lines2.length := by omega
    exact searchShift threshold hf (by simp only [select_true]; omega)
      (by simp only [select_true]; omega)
  | false =>
    have hf : range1.end1 + f < lines1.length := by omega
    exact searchShift threshold hf (by simp only [select_false]; omega)
      (by simp only [select_false]; omega)

theorem shiftAmong_spec (h : Touching lines1.length lines2.length touchLeft f b range1 range2) :
    ∀ thresholds, ∃ delta : ℤ,
      shiftAmong lines1 lines2 touchLeft f b range1 range2 thresholds = some delta ∧
        -(b : ℤ) ≤ delta ∧ delta ≤ f
  | [] => ⟨0, rfl, by omega, by omega⟩
  | threshold :: thresholds => by
    obtain ⟨r, hr, hbound⟩ := unchangedBoundaryShift_spec h threshold
    obtain ⟨r', hr', hbound'⟩ := changedBoundaryShift_spec h threshold
    obtain ⟨delta, hdelta, hrest⟩ := shiftAmong_spec h thresholds
    rw [shiftAmong, hr]
    cases r with
    | some delta => exact ⟨delta, rfl, hbound delta rfl⟩
    | none =>
      simp only [Option.bind_eq_bind, Option.bind_some, hr']
      cases r' with
      | some delta => exact ⟨delta, rfl, hbound' delta rfl⟩
      | none => exact ⟨delta, hdelta, hrest⟩

end Law

theorem lineBoundaryShift_law (lines1 lines2 : List (Line policy)) :
    ShiftLaw lines1.length lines2.length (lineBoundaryShift lines1 lines2) :=
  fun _ _ _ _ _ h => shiftAmong_spec h _

/-- **Moving the borders** keeps an alignment, by any relation that equal lines satisfy. -/
theorem optimizeLineChunks_aligned {E : ℕ → ℕ → Prop}
    (hE : ∀ i j, At (· == ·) lines1 lines2 i j → E i j) {changes : Changes}
    (h1 : changes.len1 = lines1.length) (h2 : changes.len2 = lines2.length)
    (ha : Aligned E 0 0 changes.changed lines1.length lines2.length) :
    ∃ changes', optimizeLineChunks lines1 lines2 changes = some changes' ∧
      changes'.len1 = lines1.length ∧ changes'.len2 = lines2.length ∧
      Aligned E 0 0 changes'.changed lines1.length lines2.length :=
  optimizeChunks_aligned hE (lineBoundaryShift_law lines1 lines2) h1 h2 ha.tiled

/-- **Expanding every change** keeps an alignment, and no change starts or ends with an equal pair. -/
theorem expandRanges_aligned {changes : Changes}
    (ha : Aligned (At (· == ·) lines1 lines2) 0 0 changes.changed lines1.length lines2.length) :
    ∃ changes', expandRanges lines1 lines2 changes = some changes' ∧
      changes'.len1 = lines1.length ∧ changes'.len2 = lines2.length ∧
      Aligned (At (· == ·) lines1 lines2) 0 0 changes'.changed lines1.length lines2.length ∧
      ∀ r ∈ changes'.changed, Sharp (At (· == ·) lines1 lines2) r := by
  have hexpand : ∀ r ∈ changes.changed, ∃ e,
      expand lines1 lines2 r.start1 r.start2 r.end1 r.end2 = some e ∧
        Expanded (At (· == ·) lines1 lines2) r.start1 r.start2 r.end1 r.end2 e := by
    intro r hr
    have := ha.tiled.bounds (gapRel_gap _) r hr
    exact expand_spec (by omega) (by omega) (by omega) (by omega)
  obtain ⟨es, hes, hfilter⟩ := mapM_filter (fun range : Range => !range.isEmpty)
    fun r hr => (hexpand r hr).imp fun e he => he.1
  have hshrinks : ∀ r ∈ changes.changed, Shrinks (Gap (At (· == ·) lines1 lines2)) r
      ((expand lines1 lines2 r.start1 r.start2 r.end1 r.end2).filter fun range =>
        !range.isEmpty) := by
    intro r hr
    obtain ⟨e, he, hE⟩ := hexpand r hr
    rw [he]
    cases hemp : e.isEmpty with
    | false =>
      rw [Option.filter_some_pos (by simp [hemp])]
      exact ⟨hE.front, hE.le1, hE.le2, hE.back⟩
    | true =>
      rw [Option.filter_some_neg (by simp [hemp])]
      obtain ⟨h1, h2⟩ := Range.isEmpty_iff.mp hemp
      have hfront := hE.front
      rw [h1, h2] at hfront
      exact hfront.trans hE.back
  refine ⟨⟨es.filter fun range => !range.isEmpty, lines1.length, lines2.length⟩,
    by simp [expandRanges, hes], rfl, rfl, ⟨?_, ?_, ?_⟩, ?_⟩
  · rw [hfilter]
    exact ha.tiled.filterMap (gapRel_gap _) _ hshrinks
  · rw [hfilter]
    exact before_filterMap (gapRel_gap _) hshrinks ha.apart
  · intro r hr
    simpa using (List.mem_filter.mp hr).2
  · intro e he
    simp only [hfilter, List.mem_filterMap, Option.filter_eq_some_iff] at he
    obtain ⟨r, hr, he, -⟩ := he
    obtain ⟨e', he', hE⟩ := hexpand r hr
    rw [he] at he'
    cases he'
    exact hE.sharp

end Paneflow.Textdiff.LineChunks
