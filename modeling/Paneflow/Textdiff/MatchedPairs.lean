import Paneflow.Textdiff.LineChunks
import Paneflow.Textdiff.WordChunks

/-! # Matched pairs under `optimize_chunks`

Merging two blocks and moving the border between them take from one block what they give to the
other, so that the number of matched pairs stays as it is.

* `processLastRanges_total`: for one round on the stack.
* `optimizeChunks_spec`: with what `ChunkOptimizer` says of the result, and for the shifts of the
  lines and of the words. -/

namespace Paneflow.Textdiff.MatchedPairs

open Paneflow.Alignment.Tiling Paneflow.Checked Paneflow.Textdiff.ChunkOptimizer
open Paneflow.Textdiff.Iterable Paneflow.Textdiff.LineChunks Paneflow.Textdiff.Text
open Paneflow.Textdiff.WordChunks

/-- The number of pairs in matched blocks. -/
def pairCount (us : List Range) : ℕ := (us.map fun u => u.end1 - u.start1).sum

/-- The number of matched pairs of two sequences with some changes. -/
def matchedPairs (changes : Changes) : ℕ := pairCount changes.unchanged

/-- The lengths of ranges on the first side, as the loops compute with them. -/
def total (us : List Range) : ℤ := (us.map fun u => (u.end1 : ℤ) - u.start1).sum

@[simp] theorem total_nil : total [] = 0 := rfl

@[simp] theorem total_cons (u : Range) (us : List Range) : total (u :: us) = (u.end1 : ℤ) - u.start1 + total us :=
  rfl

theorem total_reverse (us : List Range) : total us.reverse = total us := by
  unfold total
  rw [List.map_reverse, List.sum_reverse]

theorem pairCount_eq {us : List Range} (h : ∀ u ∈ us, u.start1 ≤ u.end1) : (pairCount us : ℤ) = total us := by
  induction us with
  | nil => rfl
  | cons u us ih =>
    have hu := h u List.mem_cons_self
    have hus := ih fun v hv => h v (List.mem_cons_of_mem _ hv)
    unfold pairCount at hus ⊢
    rw [List.map_cons, List.sum_cons, total_cons]
    omega

/-! ### Complements -/

/-- What is between ranges is what they leave of the sequence. -/
theorem total_complementFrom (n1 n2 : ℕ) (rs : List Range) (a1 a2 : ℕ) :
    total (complementFrom n1 n2 a1 a2 rs) = (n1 : ℤ) - a1 - total rs := by
  induction rs generalizing a1 a2 with
  | nil =>
    simp only [complementFrom]
    split_ifs with hempty
    · obtain ⟨rfl, -⟩ := Range.mk_isEmpty_iff.mp hempty
      simp
    · simp
  | cons r rs ih =>
    simp only [complementFrom]
    split_ifs with hempty
    · obtain ⟨rfl, -⟩ := Range.mk_isEmpty_iff.mp hempty
      rw [ih, total_cons]
      omega
    · rw [total_cons, ih, total_cons]
      dsimp only
      omega

theorem total_fromUnchanged (us : List Range) (n1 n2 : ℕ) : total (Changes.fromUnchanged us n1 n2).unchanged = total us := by
  have hinner := total_complementFrom n1 n2 us 0 0
  have houter := total_complementFrom n1 n2 (complementFrom n1 n2 0 0 us) 0 0
  change total (complementFrom n1 n2 0 0 (complementFrom n1 n2 0 0 us)) = _
  omega

/-! ### The loop -/

theorem checkedSub_eq {a b k : ℕ} (h : checkedSub a b = some k) : b ≤ a ∧ k = a - b := by
  unfold checkedSub at h
  split_ifs at h with hle
  cases h
  exact ⟨hle, rfl⟩

theorem offset_eq {index k : ℕ} {delta : ℤ} (h : offset index delta = some k) : (k : ℤ) = index + delta := by
  unfold offset at h
  split_ifs at h with hpos
  · cases h
    omega
  · obtain ⟨hle, hk⟩ := checkedSub_eq h
    omega

section
variable {α : Type} [BEq α] {data1 data2 : List α} {shift : BoundaryShift}

/-- **One round** gives one block what it takes from another. -/
theorem processLastRanges_total {ranges : List Range} {range2 : Range} {ranges' : List Range}
    (h : processLastRanges data1 data2 shift range2 ranges = some ranges') :
    total ranges' = total (range2 :: ranges) := by
  induction ranges generalizing range2 ranges' with
  | nil =>
    cases h
    rfl
  | cons range1 ranges ih =>
    rw [processLastRanges] at h
    split_ifs at h with htouch
    · cases h
      rfl
    · simp only [Option.bind_eq_bind, Option.bind_eq_some_iff] at h
      obtain ⟨count1, hcount1, count2, hcount2, forward, -, start1, hstart1, start2, -, backward, -, h⟩ := h
      have hc1 := checkedSub_eq hcount1
      have hc2 := checkedSub_eq hcount2
      have hs1 := checkedSub_eq hstart1
      split_ifs at h with hzero hforward hbackward
      · cases h
        rfl
      · -- the upper block moves down as a whole
        have hmerged := ih h
        simp only [total_cons] at hmerged ⊢
        omega
      · -- the lower block moves up as a whole
        have hmerged := ih h
        simp only [total_cons] at hmerged ⊢
        omega
      · obtain ⟨delta, -, h⟩ := Option.bind_eq_some_iff.mp h
        split_ifs at h with hdelta
        · cases h
          rfl
        · -- both ends of the border move by `delta`
          simp only [Option.bind_eq_some_iff] at h
          obtain ⟨s1, hs1, s2, -, e1, he1, e2, -, h⟩ := h
          cases h
          have hlower := offset_eq he1
          have hupper := offset_eq hs1
          simp only [total_cons]
          omega

/-- **The loop** keeps what was on the stack and adds the blocks it is given. -/
theorem foldlM_total {us ranges ranges' : List Range}
    (h : us.foldlM (fun ranges range => processLastRanges data1 data2 shift range ranges) ranges = some ranges') :
    total ranges' = total ranges + total us := by
  induction us generalizing ranges with
  | nil =>
    cases h
    simp
  | cons u us ih =>
    rw [List.foldlM_cons] at h
    obtain ⟨next, hnext, h⟩ := Option.bind_eq_some_iff.mp h
    have hround := processLastRanges_total hnext
    have hrest := ih h
    rw [total_cons] at hround ⊢
    omega

theorem optimizeChunks_total {iterable changes : Changes}
    (h : optimizeChunks data1 data2 shift iterable = some changes) :
    total changes.unchanged = total iterable.unchanged := by
  obtain ⟨ranges, hranges, h⟩ := Option.bind_eq_some_iff.mp h
  cases h
  rw [total_fromUnchanged, total_reverse, foldlM_total hranges, total_nil, zero_add]

/-- The blocks of changes that tile both sequences run forwards. -/
theorem forwards {E : ℕ → ℕ → Prop} {changes : Changes}
    (ht : Tiled (Gap E) 0 0 changes.changed changes.len1 changes.len2) :
    ∀ u ∈ changes.unchanged, u.start1 ≤ u.end1 := fun u hu => ((unchanged_blocks ht).2 u hu).1.le

theorem optimizeChunks_matchedPairs {E : ℕ → ℕ → Prop} {iterable changes : Changes}
    (h : optimizeChunks data1 data2 shift iterable = some changes)
    (ht : Tiled (Gap E) 0 0 iterable.changed iterable.len1 iterable.len2)
    (ht' : Tiled (Gap E) 0 0 changes.changed changes.len1 changes.len2) :
    matchedPairs changes = matchedPairs iterable := by
  have hbefore := pairCount_eq (forwards ht)
  have hafter := pairCount_eq (forwards ht')
  have hsame := optimizeChunks_total h
  unfold matchedPairs
  omega

end

/-- The items at two positions are there and related. -/
def Related {α : Type} (R : α → α → Prop) (data1 data2 : List α) (i j : ℕ) : Prop :=
  ∃ a b, data1[i]? = some a ∧ data2[j]? = some b ∧ R a b

/-- **Optimizing** an alignment whose pairs are related by anything coarser than the equality of the
items yields an alignment of the same kind with as many pairs. No index is out of bounds, for every
shift that stays among the equal items; those of the lines and of the words do, and read only what is
there. -/
theorem optimizeChunks_spec :
    (∀ {α : Type} [BEq α] (data1 data2 : List α) (R : α → α → Prop) (shift : BoundaryShift) (iterable : Changes),
      (∀ a b, (a == b) = true → R a b) → ShiftLaw data1.length data2.length shift →
      iterable.len1 = data1.length → iterable.len2 = data2.length →
      Aligned (Related R data1 data2) 0 0 iterable.changed data1.length data2.length →
      ∃ changes, optimizeChunks data1 data2 shift iterable = some changes ∧
        changes.len1 = data1.length ∧ changes.len2 = data2.length ∧
        Aligned (Related R data1 data2) 0 0 changes.changed data1.length data2.length ∧
        matchedPairs changes = matchedPairs iterable) ∧
    (∀ (policy : ComparisonPolicy) (lines1 lines2 : List (Line policy)),
      ShiftLaw lines1.length lines2.length (lineBoundaryShift lines1 lines2)) ∧
    ∀ (isAlphabetic : Char → Bool) (text1 text2 : Str),
      let words1 := inlineChunks isAlphabetic text1
      let words2 := inlineChunks isAlphabetic text2
      (∀ view ∈ views text1 words1, view.token.isSome = true) ∧
        (∀ view ∈ views text2 words2, view.token.isSome = true) ∧
        ShiftLaw words1.length words2.length (wordBoundaryShift text1 text2 words1 words2) := by
  refine ⟨?_, fun policy lines1 lines2 => lineBoundaryShift_law lines1 lines2, fun isAlphabetic text1 text2 => ?_⟩
  · intro α _ data1 data2 R shift iterable hR hshift h1 h2 ha
    have hE : ∀ i j, At (· == ·) data1 data2 i j → Related R data1 data2 i j := by
      rintro i j ⟨a, b, hi, hj, heq⟩
      exact ⟨a, b, hi, hj, hR a b heq⟩
    obtain ⟨changes, hrun, h1', h2', ha'⟩ := optimizeChunks_aligned hE hshift h1 h2 ha.tiled
    have hbefore : Tiled (Gap (Related R data1 data2)) 0 0 iterable.changed iterable.len1 iterable.len2 := by
      rw [h1, h2]
      exact ha.tiled
    have hafter : Tiled (Gap (Related R data1 data2)) 0 0 changes.changed changes.len1 changes.len2 := by
      rw [h1', h2']
      exact ha'.tiled
    exact ⟨changes, hrun, h1', h2', ha', optimizeChunks_matchedPairs hrun hbefore hafter⟩
  · exact ⟨token_views (inlineChunks_ordered isAlphabetic text1), token_views (inlineChunks_ordered isAlphabetic text2),
      wordBoundaryShift_law isAlphabetic text1 text2⟩

/-- Two blocks that touch on the first side are matched by a relation coarser than the equality. -/
theorem optimizeChunks_spec_touching : ∃ changes,
    optimizeChunks [1, 3] [5, 3, 5] (fun _ _ _ _ _ => some 0) ⟨[⟨1, 1, 1, 2⟩], 2, 3⟩ = some changes ∧
      changes.len1 = 2 ∧ changes.len2 = 3 ∧
      Aligned (Related (fun a b : ℕ => a % 2 = b % 2) [1, 3] [5, 3, 5]) 0 0 changes.changed 2 3 ∧
      matchedPairs changes = 2 := by
  refine optimizeChunks_spec.1 [1, 3] [5, 3, 5] (fun a b : ℕ => a % 2 = b % 2) (fun _ _ _ _ _ => some 0)
    ⟨[⟨1, 1, 1, 2⟩], 2, 3⟩ ?_ ?_ rfl rfl ⟨?_, ?_, ?_⟩
  · intro a b heq
    rw [beq_iff_eq.mp heq]
  · exact fun _ forward backward _ _ _ => ⟨0, rfl, by omega, by omega⟩
  · refine ⟨⟨1, rfl, rfl, fun k hk => ?_⟩, by decide, by decide, ⟨1, rfl, rfl, fun k hk => ?_⟩⟩
    · obtain rfl : k = 0 := by omega
      exact ⟨1, 5, rfl, rfl, rfl⟩
    · obtain rfl : k = 0 := by omega
      exact ⟨3, 5, rfl, rfl, rfl⟩
  · exact List.pairwise_singleton _ _
  · intro r hr
    rw [List.mem_singleton.mp hr]
    rfl

end Paneflow.Textdiff.MatchedPairs
