import Paneflow.Textdiff.Iterable

/-! # Shifting unchanged blocks: `chunk_optimizer.rs`

Two unchanged blocks that touch on one side can often be merged, or the border between them moved,
because the items next to the border are equal too. `optimizeChunks` walks over the unchanged blocks
with a stack of the blocks treated so far; which of the possible borders is taken is left to a
`BoundaryShift`.

* `processLastRanges_spec`: one round keeps a stack of matched blocks.
* `optimizeChunks_aligned`: the optimized changes are an alignment for every relation that the equal
  items satisfy, not only for the one that produced the changes. -/

namespace Paneflow.Textdiff.ChunkOptimizer

open Paneflow.Alignment.Tiling Paneflow.Checked Paneflow.Textdiff.Text Paneflow.Textdiff.Iterable

/-- How far to move the border between two blocks, from `touch_left`, `equal_forward`,
`equal_backward` and the blocks. -/
abbrev BoundaryShift := Bool → ℕ → ℕ → Range → Range → Option ℤ

def offset (index : ℕ) (delta : ℤ) : Option ℕ :=
  if 0 ≤ delta then some (index + delta.toNat) else checkedSub index delta.natAbs

def select {α : Type} (left : Bool) (a b : α) : α := if left then a else b

@[simp] theorem select_true {α : Type} (a b : α) : select true a b = a := rfl

@[simp] theorem select_false {α : Type} (a b : α) : select false a b = b := rfl

section Optimize
variable {α : Type} [BEq α] (data1 data2 : List α) (shift : BoundaryShift)

/-- The block `range2` goes on top of the stack, whose topmost block comes first. -/
def processLastRanges : Range → List Range → Option (List Range)
  | range2, [] => some [range2]
  | range2, range1 :: ranges =>
    if range1.end1 ≠ range2.start1 ∧ range1.end2 ≠ range2.start2 then
      some (range2 :: range1 :: ranges)
    else do
      let count1 ← checkedSub range1.end1 range1.start1
      let count2 ← checkedSub range2.end1 range2.start1
      let equalForward ← expandForward data1 data2 range1.end1 range1.end2
        (range1.end1 + count2) (range1.end2 + count2)
      let start1 ← checkedSub range2.start1 count1
      let start2 ← checkedSub range2.start2 count1
      let equalBackward ← expandBackward data1 data2 start1 start2 range2.start1 range2.start2
      if equalForward = 0 ∧ equalBackward = 0 then
        return range2 :: range1 :: ranges
      else if equalForward = count2 then
        processLastRanges
          ⟨range1.start1, range1.end1 + count2, range1.start2, range1.end2 + count2⟩ ranges
      else if equalBackward = count1 then
        processLastRanges ⟨start1, range2.end1, start2, range2.end2⟩ ranges
      else
        let touchLeft := range1.end1 == range2.start1
        let delta ← shift touchLeft equalForward equalBackward range1 range2
        if delta = 0 then return range2 :: range1 :: ranges
        else
          return ⟨← offset range2.start1 delta, range2.end1, ← offset range2.start2 delta,
              range2.end2⟩ ::
            ⟨range1.start1, ← offset range1.end1 delta, range1.start2,
              ← offset range1.end2 delta⟩ :: ranges

def optimizeChunks (iterable : Changes) : Option Changes := do
  let ranges ← iterable.unchanged.foldlM
    (fun ranges range => processLastRanges data1 data2 shift range ranges) []
  return Changes.fromUnchanged ranges.reverse data1.length data2.length

end Optimize

/-- Two blocks in bounds that touch on the side `touchLeft`, with fewer equal items on each side of
the border than the block there has. -/
structure Touching (len1 len2 : ℕ) (touchLeft : Bool) (equalForward equalBackward : ℕ)
    (range1 range2 : Range) : Prop where
  backward1 : range1.start1 + equalBackward < range1.end1
  backward2 : range1.start2 + equalBackward < range1.end2
  le1 : range1.end1 ≤ range2.start1
  le2 : range1.end2 ≤ range2.start2
  forward1 : range2.start1 + equalForward < range2.end1
  forward2 : range2.start2 + equalForward < range2.end2
  in1 : range2.end1 ≤ len1
  in2 : range2.end2 ≤ len2
  left : touchLeft = true → range1.end1 = range2.start1
  right : touchLeft = false → range1.end2 = range2.start2

/-- **What is asked of a boundary shift**: it stays among the equal items. -/
def ShiftLaw (len1 len2 : ℕ) (shift : BoundaryShift) : Prop :=
  ∀ touchLeft forward backward range1 range2,
    Touching len1 len2 touchLeft forward backward range1 range2 →
    ∃ delta : ℤ, shift touchLeft forward backward range1 range2 = some delta ∧
      -(backward : ℤ) ≤ delta ∧ delta ≤ forward

/-- A stack of matched blocks, the topmost first, below the given cursor. -/
def Stack (E : ℕ → ℕ → Prop) : ℕ → ℕ → List Range → Prop
  | _, _, [] => True
  | n1, n2, u :: us => u.end1 ≤ n1 ∧ u.end2 ≤ n2 ∧ Matched E u ∧ Stack E u.start1 u.start2 us

section Stack
variable {E : ℕ → ℕ → Prop} {n1 n2 m1 m2 : ℕ}

theorem Stack.mono (h1 : n1 ≤ m1) (h2 : n2 ≤ m2) :
    ∀ {us : List Range}, Stack E n1 n2 us → Stack E m1 m2 us
  | [], _ => trivial
  | _ :: _, ⟨hu1, hu2, hu⟩ => ⟨hu1.trans h1, hu2.trans h2, hu⟩

/-- A stack, read from the bottom, is a list of matched blocks in order. -/
theorem Stack.blocks : ∀ {us : List Range} {n1 n2 : ℕ}, Stack E n1 n2 us →
    Tiled Le 0 0 us.reverse n1 n2 ∧ ∀ u ∈ us.reverse, Matched E u
  | [], _, _, _ => ⟨⟨Nat.zero_le _, Nat.zero_le _⟩, by simp⟩
  | u :: us, n1, n2, ⟨h1, h2, hu, hs⟩ => by
    obtain ⟨ht, hm⟩ := hs.blocks
    rw [List.reverse_cons]
    refine ⟨(ht.snoc gapRel_le hu.1.le hu.lt2.le).extend gapRel_le ⟨h1, h2⟩, fun v hv => ?_⟩
    rcases List.mem_append.mp hv with hv | hv
    · exact hm v hv
    · rw [List.mem_singleton.mp hv]
      exact hu

end Stack

section Spec
variable {α : Type} [BEq α] {data1 data2 : List α} {shift : BoundaryShift} {E : ℕ → ℕ → Prop}
  {n1 n2 : ℕ}

/-- Moving the border between two blocks of the stack by fewer items than are equal. -/
theorem Stack.moveBorder {range1 range2 : Range} {ranges : List Range} {forward backward : ℕ}
    {delta : ℤ} (hs : Stack E n1 n2 (range2 :: range1 :: ranges))
    (hf1 : range2.start1 + forward < range2.end1) (hb1 : range1.start1 + backward < range1.end1)
    (hf : ∀ k < forward, E (range1.end1 + k) (range1.end2 + k))
    (hb : ∀ k < backward, E (range2.start1 - k - 1) (range2.start2 - k - 1))
    (hd1 : -(backward : ℤ) ≤ delta) (hd2 : delta ≤ forward) :
    ∃ s1 s2 e1 e2, offset range2.start1 delta = some s1 ∧ offset range2.start2 delta = some s2 ∧
      offset range1.end1 delta = some e1 ∧ offset range1.end2 delta = some e2 ∧
      Stack E n1 n2 (⟨s1, range2.end1, s2, range2.end2⟩ ::
        ⟨range1.start1, e1, range1.start2, e2⟩ :: ranges) := by
  obtain ⟨h1, h2, hu2, h3, h4, hu1, hrest⟩ := hs
  have hlt1 := hu1.lt2
  unfold offset
  by_cases hd : 0 ≤ delta
  · -- forwards: the lower block takes the first items of the upper one
    obtain ⟨d, rfl⟩ := Int.eq_ofNat_of_zero_le hd
    have hdf : d ≤ forward := by omega
    simp only [if_pos hd, Int.toNat_natCast]
    refine ⟨_, _, _, _, rfl, rfl, rfl, rfl, h1, h2, ⟨by simp only; omega, hu2.2.drop (by omega)⟩,
      by simp only; omega, by simp only; omega, ?_, hrest⟩
    exact hu1.append ⟨d, rfl, rfl, fun k hk => hf k (by omega)⟩
  · -- backwards: the upper block takes the last items of the lower one
    obtain ⟨d, rfl⟩ : ∃ d : ℕ, delta = -d := ⟨delta.natAbs, by omega⟩
    have hdb : d ≤ backward := by omega
    obtain ⟨m, hm1, hm2, -⟩ := hu1.2
    simp only [if_neg hd, Int.natAbs_neg, Int.natAbs_natCast]
    refine ⟨_, _, _, _, checkedSub_of_le (by omega), checkedSub_of_le (by omega),
      checkedSub_of_le (by omega), checkedSub_of_le (by omega), h1, h2, ?_, by simp only; omega,
      by simp only; omega, ⟨by simp only; omega, hu1.2.dropEnd (by omega)⟩, hrest⟩
    exact hu2.prepend (gap_of_backward (by omega) (by omega) fun k hk => hb k (by omega))

/-- **One round on the stack**: a matched block goes on top, the blocks stay matched, and no index is
out of bounds. -/
theorem processLastRanges_spec (hE : ∀ i j, At (· == ·) data1 data2 i j → E i j)
    (hshift : ShiftLaw data1.length data2.length shift) (hn1 : n1 ≤ data1.length)
    (hn2 : n2 ≤ data2.length) :
    ∀ {ranges : List Range} {range2 : Range}, Stack E n1 n2 (range2 :: ranges) →
      ∃ ranges', processLastRanges data1 data2 shift range2 ranges = some ranges' ∧
        Stack E n1 n2 ranges'
  | [], range2, hs => ⟨_, rfl, hs⟩
  | range1 :: ranges, range2, hs => by
    obtain ⟨h1, h2, hu2, h3, h4, hu1, hrest⟩ := hs
    have hs : Stack E n1 n2 (range2 :: range1 :: ranges) := ⟨h1, h2, hu2, h3, h4, hu1, hrest⟩
    have hlt1 := hu1.1
    have hlt2 := hu2.1
    obtain ⟨c1, hc1, hc1', -⟩ := hu1.2
    obtain ⟨c2, hc2, hc2', -⟩ := hu2.2
    rw [processLastRanges]
    split_ifs with htouch
    · exact ⟨_, rfl, hs⟩
    have hfw1 : range1.end1 + c2 ≤ data1.length := by omega
    have hfw2 : range1.end2 + c2 ≤ data2.length := by omega
    have hbw1 : range2.start1 ≤ data1.length := by omega
    have hbw2 : range2.start2 ≤ data2.length := by omega
    obtain ⟨f, hf, hf1, hf2, hfk, -⟩ := scanForward_spec (fun x y : α => x == y)
      (Nat.le_add_right range1.end1 c2) (Nat.le_add_right range1.end2 c2) hfw1 hfw2
    obtain ⟨b, hb, hb1, hb2, hbk, -⟩ := scanBackward_spec (fun x y : α => x == y)
      (Nat.sub_le range2.start1 c1) (Nat.sub_le range2.start2 c1) hbw1 hbw2
    have hfE : ∀ k < f, E (range1.end1 + k) (range1.end2 + k) := fun k hk => hE _ _ (hfk k hk)
    have hbE : ∀ k < b, E (range2.start1 - k - 1) (range2.start2 - k - 1) := fun k hk =>
      hE _ _ (hbk k hk)
    have hcount1 : checkedSub range1.end1 range1.start1 = some c1 := by rw [hc1, checkedSub_add]
    have hcount2 : checkedSub range2.end1 range2.start1 = some c2 := by rw [hc2, checkedSub_add]
    have hstart1 : checkedSub range2.start1 c1 = some (range2.start1 - c1) :=
      checkedSub_of_le (by omega)
    have hstart2 : checkedSub range2.start2 c1 = some (range2.start2 - c1) :=
      checkedSub_of_le (by omega)
    simp only [hcount1, hcount2, hstart1, hstart2, expandForward, expandBackward, hf, hb,
      Option.bind_eq_bind, Option.bind_some]
    split_ifs with hzero hff hbb
    · exact ⟨_, rfl, hs⟩
    · -- the whole upper block moves down to the lower one
      subst hff
      refine processLastRanges_spec hE hshift hn1 hn2 ⟨?_, ?_, ?_, hrest⟩
      · show range1.end1 + f ≤ n1; omega
      · show range1.end2 + f ≤ n2; omega
      · exact hu1.append ⟨f, rfl, rfl, hfE⟩
    · -- the whole lower block moves up to the upper one
      subst hbb
      refine processLastRanges_spec hE hshift hn1 hn2 ⟨h1, h2, ?_, hrest.mono ?_ ?_⟩
      · exact hu2.prepend (gap_of_backward (by omega) (by omega) hbE)
      · show range1.start1 ≤ range2.start1 - b; omega
      · show range1.start2 ≤ range2.start2 - b; omega
    · have hT : Touching data1.length data2.length (range1.end1 == range2.start1) f b range1
          range2 := by
        refine ⟨by omega, by omega, h3, h4, by omega, by omega, by omega, by omega, ?_, ?_⟩
        · simp
        · intro hne
          have : range1.end1 ≠ range2.start1 := by simpa using hne
          omega
      obtain ⟨delta, hdelta, hd1, hd2⟩ := hshift _ _ _ _ _ hT
      obtain ⟨s1, s2, e1, e2, ho1, ho2, ho3, ho4, hmoved⟩ :=
        hs.moveBorder hT.forward1 hT.backward1 hfE hbE hd1 hd2
      simp only [hdelta, Option.bind_some]
      split_ifs with hd
      · exact ⟨_, rfl, hs⟩
      · simp only [ho1, ho2, ho3, ho4, Option.bind_some]
        exact ⟨_, rfl, hmoved⟩

/-- The loop over the unchanged blocks. -/
theorem foldlM_processLastRanges (hE : ∀ i j, At (· == ·) data1 data2 i j → E i j)
    (hshift : ShiftLaw data1.length data2.length shift) :
    ∀ {us : List Range} {a1 a2 : ℕ} {ranges : List Range},
      Tiled Le a1 a2 us data1.length data2.length → (∀ u ∈ us, Matched E u) →
      Stack E a1 a2 ranges →
      ∃ ranges', us.foldlM
          (fun ranges range => processLastRanges data1 data2 shift range ranges) ranges =
        some ranges' ∧ Stack E data1.length data2.length ranges'
  | [], _, _, ranges, ht, _, hs => ⟨ranges, rfl, hs.mono ht.1 ht.2⟩
  | u :: us, a1, a2, ranges, ⟨h1, _, _, h4⟩, hu, hs => by
    have hle := h4.le gapRel_le
    have hpush : Stack E u.end1 u.end2 (u :: ranges) :=
      ⟨le_rfl, le_rfl, hu u List.mem_cons_self, hs.mono h1.1 h1.2⟩
    obtain ⟨ranges', hr, hs'⟩ := processLastRanges_spec hE hshift hle.1 hle.2 hpush
    rw [List.foldlM_cons, hr]
    exact foldlM_processLastRanges hE hshift h4 (fun v hv => hu v (List.mem_cons_of_mem _ hv)) hs'

/-- **The optimized changes**: if the changes tile the two sequences by a relation that equal items
satisfy, so do the optimized ones, which are an alignment. -/
theorem optimizeChunks_aligned (hE : ∀ i j, At (· == ·) data1 data2 i j → E i j)
    (hshift : ShiftLaw data1.length data2.length shift) {iterable : Changes}
    (h1 : iterable.len1 = data1.length) (h2 : iterable.len2 = data2.length)
    (ht : Tiled (Gap E) 0 0 iterable.changed data1.length data2.length) :
    ∃ changes, optimizeChunks data1 data2 shift iterable = some changes ∧
      changes.len1 = data1.length ∧ changes.len2 = data2.length ∧
      Aligned E 0 0 changes.changed data1.length data2.length := by
  rw [← h1, ← h2] at ht
  obtain ⟨hblocks, hmatched⟩ := unchanged_blocks ht
  rw [h1, h2] at hblocks
  have hnil : Stack E 0 0 [] := trivial
  obtain ⟨ranges, hr, hs⟩ := foldlM_processLastRanges hE hshift hblocks hmatched hnil
  obtain ⟨hblocks', hmatched'⟩ := hs.blocks
  refine ⟨_, ?_, rfl, rfl, fromUnchanged_aligned hblocks' hmatched'⟩
  rw [optimizeChunks, hr]
  rfl

end Spec

end Paneflow.Textdiff.ChunkOptimizer
