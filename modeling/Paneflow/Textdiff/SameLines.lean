import Paneflow.Textdiff.ByLine

/-! # Lines without a change

`compareLines_eq_nil_iff`: the comparison of lines finds no change exactly when the lines are equal one by
one. Of two such lists `lcs` sees the same tokens (`lcs_same`), so that nothing of them is changed before
the borders are moved, and no step after that has anything to correct: what `expand` leaves between
two places of the same index is empty (`expand_same`). -/

namespace Paneflow.Textdiff.ByLine

open Paneflow.Alignment.Tiling Paneflow.Checked Paneflow.Textdiff.Text Paneflow.Textdiff.Iterable
open Paneflow.Textdiff.LineChunks Paneflow.Textdiff.ChunkOptimizer

/-- **What is relied on for equal sequences**: the Myers diff has no hunk of a sequence and itself. -/
def SameLaw (myers : Myers) : Prop :=
  ∀ tokens numTokens, tokens ≠ [] → (∀ token ∈ tokens, token < numTokens) →
    myers tokens tokens numTokens = []

/-- The items are equal, one by one. -/
def Same {α : Type} [BEq α] (items1 items2 : List α) : Prop :=
  List.Forall₂ (fun item1 item2 => (item1 == item2) = true) items1 items2

/-! ### The tokens of equal items -/

section Lcs
variable {α : Type} [BEq α] [EquivBEq α] {items1 items2 : List α}

theorem findIdx?_congr {x y : α} (h : (x == y) = true) (table : List α) :
    table.findIdx? (· == y) = table.findIdx? (· == x) := by
  congr 1
  funext z
  rw [Bool.eq_iff_iff]
  exact ⟨fun hz => BEq.trans hz (BEq.symm h), fun hz => BEq.trans hz h⟩

/-- Once it is interned, an item has its token in every larger table. -/
theorem intern_again (table : List α) {x y : α} (h : (x == y) = true) (ext : List α) :
    intern ((intern table x).1 ++ ext) y = ((intern table x).1 ++ ext, (intern table x).2) := by
  have hfind : (intern table x).1.findIdx? (· == x) = some (intern table x).2 := by
    unfold intern
    cases hf : table.findIdx? (· == x) with
    | some token => exact hf
    | none => simp [List.findIdx?_append, hf]
  have hlarger : ((intern table x).1 ++ ext).findIdx? (· == y) = some (intern table x).2 := by
    rw [findIdx?_congr h, List.findIdx?_append, hfind]
    rfl
  rw [intern, hlarger]

theorem internAll_again (h : Same items1 items2) (table ext : List α) :
    internAll ((internAll table items1).1 ++ ext) items2 =
      ((internAll table items1).1 ++ ext, (internAll table items1).2) := by
  induction h generalizing table with
  | nil => rfl
  | @cons x y items1 items2 hxy _ ih =>
    rw [internAll_cons]
    obtain ⟨more, hmore⟩ := (internAll_spec items1 (intern table x).1).1
    rw [internAll_cons]
    dsimp only
    have hfirst : intern ((internAll (intern table x).1 items1).1 ++ ext) y =
        ((internAll (intern table x).1 items1).1 ++ ext, (intern table x).2) := by
      rw [hmore, List.append_assoc]
      exact intern_again table hxy _
    rw [hfirst, ih]

/-- **Nothing is changed** between equal items. -/
theorem lcs_same {myers : Myers} (hm : SameLaw myers) (h : Same items1 items2) :
    lcs myers items1 items2 = ⟨[], items1.length, items2.length⟩ := by
  have hagain := internAll_again h [] []
  rw [List.append_nil] at hagain
  obtain ⟨-, htokens⟩ := internAll_spec items1 []
  have hlength : (internAll [] items1).2.length = items1.length := List.Forall₂.length_eq htokens
  have hlength' : items1.length = items2.length := List.Forall₂.length_eq h
  unfold lcs
  dsimp only
  rw [hagain]
  dsimp only
  split_ifs with hzero hempty
  · rw [hlength, ← hlength']
  · exact absurd (Range.mk_isEmpty_iff.mpr (by omega)) hempty
  · rw [hm _ _ (fun hnil => hzero (.inl (by rw [hnil]; rfl))) htokens.lt, hlength, ← hlength']

omit [EquivBEq α] in
theorem Same.at (h : Same items1 items2) {i : ℕ} (hi : i < items1.length) :
    At (· == ·) items1 items2 i i := by
  have hi' : i < items2.length := List.Forall₂.length_eq h ▸ hi
  exact ⟨_, _, List.getElem?_eq_getElem hi, List.getElem?_eq_getElem hi', List.Forall₂.get h hi hi'⟩

omit [EquivBEq α] in
/-- What is left of a stretch of equal items is empty. -/
theorem expand_same (h : Same items1 items2) {start stop : ℕ} (hle : start ≤ stop)
    (hstop : stop ≤ items1.length) :
    ∃ m, expand items1 items2 start start stop stop = some ⟨m, m, m, m⟩ ∧ start ≤ m ∧ m ≤ stop := by
  obtain ⟨r, hr, hexpanded⟩ := expand_spec hle hle hstop (List.Forall₂.length_eq h ▸ hstop)
  obtain ⟨front, hfront1, hfront2, -⟩ := hexpanded.front
  obtain ⟨back, hback1, hback2, -⟩ := hexpanded.back
  have hle1 := hexpanded.le1
  have hempty : r.end1 ≤ r.start1 := by
    by_contra hlt
    have hsame : r.start2 = r.start1 := by omega
    obtain ⟨hfirst, -⟩ := hexpanded.sharp (by omega) (by omega)
    rw [hsame] at hfirst
    exact hfirst (h.at (by omega))
  refine ⟨r.start1, ?_, by omega, by omega⟩
  rw [hr]
  obtain ⟨start1, end1, start2, end2⟩ := r
  dsimp only at hempty hle1 hfront1 hfront2 hback1 hback2
  obtain rfl : end1 = start1 := by omega
  obtain rfl : start2 = end1 := by omega
  obtain rfl : end2 = start2 := by omega
  rfl

end Lcs

/-! ### The steps on equal lines -/

section Steps
variable {policy : ComparisonPolicy} {myers : Myers} {lines1 lines2 : List (Line policy)}

/-- The builder has no change up to the index. -/
structure Still (len index : ℕ) (builder : ChangeBuilder) : Prop where
  len1 : builder.len1 = len
  len2 : builder.len2 = len
  index1 : builder.index1 = index
  index2 : builder.index2 = index
  changes : builder.changes = []

theorem Still.markEqual {len index stop : ℕ} {builder : ChangeBuilder} (h : Still len index builder) :
    Still len stop (builder.markEqual index index stop stop) := by
  unfold ChangeBuilder.markEqual
  split_ifs with hstop hmoved
  · obtain ⟨rfl, -⟩ := hstop
    exact h
  · exact absurd h.index2 (hmoved.resolve_left (not_not.2 h.index1))
  · exact ⟨h.len1, h.len2, rfl, rfl, h.changes⟩

theorem Still.finish {len : ℕ} {builder : ChangeBuilder} (h : Still len len builder) :
    builder.finish = ⟨[], len, len⟩ := by
  unfold ChangeBuilder.finish
  rw [h.len1, h.len2, h.index1, h.index2, h.changes]
  simp

theorem slice_self (lines : List (Line policy)) {index : ℕ} (h : index ≤ lines.length) :
    slice lines index index = some [] := by
  rw [slice_of_le le_rfl h, Nat.sub_self, List.take_zero]

theorem matchLineGap_same (myers : Myers) (h : Same lines1 lines2) {len start stop : ℕ}
    {builder : ChangeBuilder}
    (hb : Still len start builder) (hle : start ≤ stop) (hstop : stop ≤ lines1.length) :
    ∃ builder', matchLineGap myers builder lines1 lines2 start stop start stop = some builder' ∧
      Still len stop builder' := by
  obtain ⟨m, hm, -, hle'⟩ := expand_same h hle hstop
  have hlength := List.Forall₂.length_eq h
  refine ⟨(builder.markEqual start start m m).markEqual m m stop stop, ?_, hb.markEqual.markEqual⟩
  unfold matchLineGap
  simp only [hm, slice_self lines1 (hle'.trans hstop), slice_self lines2 (hlength ▸ hle'.trans hstop),
    Option.bind_eq_bind, Option.bind_some]
  rfl

/-- Equal lines are of the same size. -/
theorem nonSpaceChars_eq {line1 line2 : Line policy} (h : (line1 == line2) = true) :
    line1.nonSpaceChars = line2.nonSpaceChars := by
  have hignore := isEquals_ignore (Line.beq_iff.mp h).2
  have hbytes : Utf8.bytes (nonSpace line1.content) = Utf8.bytes (nonSpace line2.content) := by
    simpa only [isEquals, equalsIgnoreWhitespaces, filter_bytes_eq, beq_iff_eq] using hignore
  have hchars : nonSpace line1.content = nonSpace line2.content := by
    have hdecoded := Utf8.fromUtf8_bytes (nonSpace line1.content)
    rw [hbytes, Utf8.fromUtf8_bytes] at hdecoded
    exact (Option.some.inj hdecoded).symm
  rw [line1.nonSpaceChars_eq, line2.nonSpaceChars_eq]
  exact congrArg List.length hchars

theorem bigLines_same (h : Same lines1 lines2) (threshold : ℕ) :
    Same (bigLines lines1 threshold).1 (bigLines lines2 threshold).1 ∧
      (bigLines lines1 threshold).2 = (bigLines lines2 threshold).2 := by
  have hbig (start : ℕ) :
      Same (((lines1.zipIdx start).filter fun entry => entry.1.nonSpaceChars > threshold).map Prod.fst)
        (((lines2.zipIdx start).filter fun entry => entry.1.nonSpaceChars > threshold).map Prod.fst) ∧
      ((lines1.zipIdx start).filter fun entry => entry.1.nonSpaceChars > threshold).map Prod.snd =
        ((lines2.zipIdx start).filter fun entry => entry.1.nonSpaceChars > threshold).map Prod.snd := by
    induction h generalizing start with
    | nil => exact ⟨List.Forall₂.nil, rfl⟩
    | @cons line1 line2 lines1 lines2 hline _ ih =>
      obtain ⟨hrest, hindexes⟩ := ih (start + 1)
      have hsize := nonSpaceChars_eq hline
      simp only [List.zipIdx_cons, List.filter_cons, hsize]
      split_ifs
      · exact ⟨List.Forall₂.cons hline hrest, congrArg (List.cons start) hindexes⟩
      · exact ⟨hrest, hindexes⟩
  exact hbig 0

/-- What holds before the pairs of big lines from `k` on are treated. -/
structure Settled (len : ℕ) (indexes : List ℕ) (k : ℕ) (state : ChangeBuilder × ℕ × ℕ) : Prop where
  builder : Still len state.2.1 state.1
  same : state.2.2 = state.2.1
  last : state.2.1 ≤ len
  rest : ∀ (l i : ℕ), k ≤ l → indexes[l]? = some i → state.2.1 ≤ i

theorem unchanged_none (n : ℕ) :
    ∃ ps, pairs (Changes.unchanged ⟨[], n, n⟩) = some ps ∧ Increasing (fun i j => j = i) 0 0 ps n n := by
  have htiled : Tiled (Gap fun i j => j = i) 0 0 [] n n :=
    ⟨n, (Nat.zero_add n).symm, (Nat.zero_add n).symm, fun _ _ => rfl⟩
  obtain ⟨hblocks, hmatched⟩ := @unchanged_blocks _ ⟨[], n, n⟩ htiled
  exact pairs_spec hblocks hmatched

theorem compareSmart_same (hm : SameLaw myers) (h : Same lines1 lines2) :
    compareSmart myers lines1 lines2 = some ⟨[], lines1.length, lines1.length⟩ := by
  obtain ⟨hbig, hindexes⟩ := bigLines_same h unimportantLineCharCount
  obtain ⟨hincreasing, hplaces⟩ := bigLines_spec lines1 unimportantLineCharCount
  unfold compareSmart
  dsimp only
  generalize bigLines lines1 unimportantLineCharCount = big1 at *
  generalize bigLines lines2 unimportantLineCharCount = big2 at *
  rw [lcs_same hm hbig, ← List.Forall₂.length_eq hbig, ← hindexes]
  obtain ⟨ps, hps, hinc⟩ := unchanged_none big1.1.length
  have hstep : ∀ {a1 a2 : ℕ} {state : ChangeBuilder × ℕ × ℕ} {i j : ℕ},
      Settled lines1.length big1.2 a1 state → a1 ≤ i → a2 ≤ j → i < big1.1.length →
      j < big1.1.length → j = i →
      ∃ state', correctPair myers big1.2 big1.2 lines1 lines2 state (i, j) = some state' ∧
        Settled lines1.length big1.2 (i + 1) state' := by
    rintro a1 a2 ⟨builder, last1, last2⟩ i j ⟨hstill, hsame, hlast, hrest⟩ hi - hlt - rfl
    obtain rfl : last2 = last1 := hsame
    obtain ⟨place, hplace, hline⟩ := hplaces j _ (List.getElem?_eq_getElem hlt)
    have hin : place < lines1.length := (List.getElem?_eq_some_iff.mp hline).1
    obtain ⟨builder', hgap, hstill'⟩ := matchLineGap_same myers h hstill
      (hrest j place hi hplace) hin.le
    refine ⟨(builder'.markEqual place place (place + 1) (place + 1), place + 1, place + 1), ?_,
      hstill'.markEqual, rfl, hin, fun l later hl hlater => ?_⟩
    · simp only [correctPair, hplace, Option.bind_eq_bind, Option.bind_some, hgap]
      rfl
    · obtain ⟨hlt, rfl⟩ := List.getElem?_eq_some_iff.mp hlater
      obtain ⟨hlt', rfl⟩ := List.getElem?_eq_some_iff.mp hplace
      exact List.pairwise_iff_getElem.mp hincreasing j l hlt' hlt (by omega)
  have hstart : Settled lines1.length big1.2 0 (ChangeBuilder.new lines1.length lines1.length, 0, 0) :=
    ⟨⟨rfl, rfl, rfl, rfl, rfl⟩, rfl, Nat.zero_le _, fun _ _ _ _ => Nat.zero_le _⟩
  obtain ⟨⟨builder, last1, last2⟩, b1, b2, hfold, hsettled, -, -⟩ :=
    foldlM_increasing (correctPair myers big1.2 big1.2 lines1 lines2)
      (fun a1 _ state => Settled lines1.length big1.2 a1 state) hstep hinc hstart
  obtain ⟨hstill, hsame, hlast, -⟩ := hsettled
  obtain rfl : last2 = last1 := hsame
  obtain ⟨builder', hgap, hstill'⟩ := matchLineGap_same myers h hstill hlast le_rfl
  unfold smartLineChangeCorrection
  rw [← List.Forall₂.length_eq h]
  simp only [hps, hfold, hgap, Option.bind_eq_bind, Option.bind_some]
  exact congrArg some hstill'.finish

theorem optimizeLineChunks_same (hlength : lines1.length = lines2.length) :
    optimizeLineChunks lines1 lines2 ⟨[], lines1.length, lines1.length⟩ =
      some ⟨[], lines1.length, lines1.length⟩ := by
  unfold optimizeLineChunks optimizeChunks
  rw [← hlength]
  by_cases hempty : lines1.length = 0
  · simp [Changes.unchanged, Changes.fromUnchanged, complement, complementFrom, Range.isEmpty, hempty]
  · have hsome : ¬ 0 = lines1.length := fun hzero => hempty hzero.symm
    simp [Changes.unchanged, Changes.fromUnchanged, complement, complementFrom, Range.isEmpty, hsome,
      processLastRanges]

/-- The builder that expands has no change up to the index. -/
structure Calm (lines1 lines2 : List (Line policy)) (index : ℕ)
    (builder : ExpandChangeBuilder (Line policy)) : Prop where
  items1 : builder.items1 = lines1
  items2 : builder.items2 = lines2
  same : builder.index2 = builder.index1
  le : builder.index1 ≤ index
  changes : builder.changes = []

theorem Calm.addChange (h : Same lines1 lines2) {index : ℕ} {builder : ExpandChangeBuilder (Line policy)}
    (hb : Calm lines1 lines2 index builder) (hindex : index ≤ lines1.length) :
    builder.addChange builder.index1 builder.index2 index index = some builder := by
  obtain ⟨m, hm, -, -⟩ := expand_same h hb.le hindex
  unfold ExpandChangeBuilder.addChange
  rw [hb.items1, hb.items2, hb.same, hm]
  simp [Range.isEmpty]

theorem Calm.markEqualOne (h : Same lines1 lines2) {index : ℕ}
    {builder : ExpandChangeBuilder (Line policy)} (hb : Calm lines1 lines2 index builder)
    (hindex : index < lines1.length) :
    ∃ builder', builder.markEqualOne index index = some builder' ∧
      Calm lines1 lines2 (index + 1) builder' := by
  refine ⟨{ builder with index1 := index + 1, index2 := index + 1 }, ?_,
    hb.items1, hb.items2, rfl, le_rfl, hb.changes⟩
  unfold ExpandChangeBuilder.markEqualOne
  split_ifs
  · rw [hb.addChange h hindex.le]
    rfl
  · rfl

theorem Calm.finish (h : Same lines1 lines2) {builder : ExpandChangeBuilder (Line policy)}
    (hb : Calm lines1 lines2 lines1.length builder) :
    builder.finish = some ⟨[], lines1.length, lines1.length⟩ := by
  have hadd := hb.addChange h le_rfl
  unfold ExpandChangeBuilder.finish
  rw [hb.items1, hb.items2, ← List.Forall₂.length_eq h]
  simp only [hadd, ite_self, Option.bind_eq_bind, Option.bind_some]
  rw [hb.changes]
  rfl

/-- **The second step** has nothing to withhold: every pair that it visits is of equal lines. -/
theorem correctChangesSecondStep_same (h : Same lines1 lines2) :
    correctChangesSecondStep lines1 lines2 ⟨[], lines1.length, lines1.length⟩ =
      some ⟨[], lines1.length, lines1.length⟩ := by
  obtain ⟨ps, hps, hinc⟩ := unchanged_none lines1.length
  have hstep : ∀ {a1 a2 : ℕ} {step : SecondStep policy} {i j : ℕ},
      step.sample = none ∧ Calm lines1 lines2 a1 step.builder → a1 ≤ i → a2 ≤ j → i < lines1.length →
      j < lines1.length → j = i →
      ∃ step', step.visit lines1 lines2 (i, j) = some step' ∧
        step'.sample = none ∧ Calm lines1 lines2 (i + 1) step'.builder := by
    rintro a1 a2 ⟨builder, sample, last1, last2⟩ i j ⟨hsample, hcalm⟩ hi - hlt - rfl
    obtain rfl : sample = none := hsample
    obtain ⟨line1, line2, hline1, hline2, heq⟩ := h.at hlt
    obtain ⟨builder', hmark, hcalm'⟩ :=
      Calm.markEqualOne h ⟨hcalm.items1, hcalm.items2, hcalm.same, hcalm.le.trans hi, hcalm.changes⟩ hlt
    refine ⟨⟨builder', none, last1, last2⟩, ?_, rfl, hcalm'⟩
    simp only [SecondStep.visit, SecondStep.flush, hline1, hline2, heq, hmark, Option.any_none,
      Bool.false_eq_true, if_false, if_true, Option.bind_eq_bind, Option.bind_some]
    rfl
  obtain ⟨⟨builder, sample, last1, last2⟩, b1, b2, hfold, ⟨hsample, hcalm⟩, hle, -⟩ :=
    foldlM_increasing (SecondStep.visit lines1 lines2)
      (fun a1 _ step => step.sample = none ∧ Calm lines1 lines2 a1 step.builder) hstep hinc
      (s := (⟨ExpandChangeBuilder.new lines1 lines2, none, 0, 0⟩ : SecondStep policy))
      ⟨rfl, rfl, rfl, rfl, Nat.zero_le _, rfl⟩
  obtain rfl : sample = none := hsample
  have hfinish := Calm.finish h ⟨hcalm.items1, hcalm.items2, hcalm.same, hcalm.le.trans hle, hcalm.changes⟩
  simp only [correctChangesSecondStep, hps, hfold, SecondStep.flush, Option.bind_eq_bind,
    Option.bind_some]
  exact hfinish

end Steps

/-! ### The whole comparison -/

section Compare
variable {myers : Myers} {lines1 lines2 : List Str} {policy : ComparisonPolicy}

/-- Texts that are equal one by one make equal lines. -/
theorem same_newLines (h1 : policy = .trimWhitespaces → ∀ line ∈ lines1, '\n' ∉ line)
    (h2 : policy = .trimWhitespaces → ∀ line ∈ lines2, '\n' ∉ line)
    (h : List.Forall₂ (fun line1 line2 => isEquals line1 line2 policy = true) lines1 lines2) :
    Same (newLines lines1 policy) (newLines lines2 policy) := by
  unfold Same newLines
  rw [List.forall₂_map_left_iff, List.forall₂_map_right_iff]
  induction h with
  | nil => exact .nil
  | @cons line1 line2 lines1 lines2 hline _ ih =>
    refine .cons (Line.beq_iff.mpr ⟨hash_eq_of_isEquals (fun htrim => ?_) (fun htrim => ?_) hline, hline⟩)
      (ih (fun htrim => ?_) fun htrim => ?_)
    · exact h1 htrim line1 List.mem_cons_self
    · exact h2 htrim line2 List.mem_cons_self
    · exact fun line hline => h1 htrim line (List.mem_cons_of_mem _ hline)
    · exact fun line hline => h2 htrim line (List.mem_cons_of_mem _ hline)

theorem compare_same (hm : SameLaw myers) (h1 : policy = .trimWhitespaces → ∀ line ∈ lines1, '\n' ∉ line)
    (h2 : policy = .trimWhitespaces → ∀ line ∈ lines2, '\n' ∉ line)
    (h : List.Forall₂ (fun line1 line2 => isEquals line1 line2 policy = true) lines1 lines2) :
    compare myers lines1 lines2 policy = some ⟨[], lines1.length, lines1.length⟩ := by
  have hsame := same_newLines h1 h2 h
  have hlength (policy : ComparisonPolicy) : (newLines lines1 policy).length = lines1.length := by
    simp [newLines]
  have hlength' : (newLines lines1 policy).length = (newLines lines2 policy).length :=
    List.Forall₂.length_eq hsame
  unfold compare doCompare
  split_ifs with hpolicy
  · simp only [compareSmart_same hm hsame, optimizeLineChunks_same hlength', Option.bind_eq_bind,
      Option.bind_some]
    simp [expandRanges, newLines, List.Forall₂.length_eq h]
  · have hiw (lines : List Str) : (newLines lines policy).map
        (fun line => line.withPolicy .ignoreWhitespaces) = newLines lines .ignoreWhitespaces := by
      rw [newLines, List.map_map]
      rfl
    have hignore : List.Forall₂ (fun line1 line2 => isEquals line1 line2 .ignoreWhitespaces = true)
        lines1 lines2 := h.imp fun _ _ => isEquals_ignore
    have hsame' : Same (newLines lines1 .ignoreWhitespaces) (newLines lines2 .ignoreWhitespaces) :=
      same_newLines (fun htrim => by cases htrim) (fun htrim => by cases htrim) hignore
    have hsmart := compareSmart_same hm hsame'
    have hoptimized := optimizeLineChunks_same hlength'
    have hsecond := correctChangesSecondStep_same hsame
    rw [hlength] at hsmart hoptimized hsecond
    simp only [hiw, hsmart, hoptimized, hsecond, Option.bind_eq_bind, Option.bind_some]

/-- **The comparison of lines finds no change exactly when the lines are equal one by one** under the
policy; where the policy is about lines, the texts have to be lines. -/
theorem compareLines_eq_nil_iff (hm : MyersLaw myers) (hsame : SameLaw myers) (lines1 lines2 : List Str)
    (policy : ComparisonPolicy) (h1 : policy = .trimWhitespaces → ∀ line ∈ lines1, '\n' ∉ line)
    (h2 : policy = .trimWhitespaces → ∀ line ∈ lines2, '\n' ∉ line) :
    compareLines myers lines1 lines2 policy = some [] ↔
      lines1.length = lines2.length ∧ ∀ (i : ℕ) (line1 line2 : Str), lines1[i]? = some line1 →
        lines2[i]? = some line2 → isEquals line1 line2 policy = true := by
  constructor
  · intro hempty
    obtain ⟨ranges, hranges, hal, -⟩ := compareLines_alignment hm policy h1 h2
    obtain rfl : ranges = [] := Option.some.inj (hranges.symm.trans hempty)
    obtain ⟨n, hn1, hn2, hequal⟩ := hal.tiled
    refine ⟨by omega, fun i line1 line2 hline1 hline2 => ?_⟩
    have hlt := (List.getElem?_eq_some_iff.mp hline1).1
    have hat := hequal i (by omega)
    rw [Nat.zero_add] at hat
    exact (at_iff hline1 hline2).mp hat
  · rintro ⟨hlength, hequal⟩
    unfold compareLines
    split_ifs
    · rfl
    · have hforall : List.Forall₂ (fun line1 line2 => isEquals line1 line2 policy = true) lines1 lines2 :=
        List.forall₂_iff_get.mpr ⟨hlength, fun i hi hi' =>
          hequal i _ _ (List.getElem?_eq_getElem hi) (List.getElem?_eq_getElem hi')⟩
      rw [compare_same hsame h1 h2 hforall]
      rfl

end Compare

/-- The hunk of two sequences that share nothing, unless they are the same. -/
def unlessSame : Myers := fun before after numTokens =>
  if before = after then [] else wholeHunk before after numTokens

theorem unlessSame_law : MyersLaw unlessSame := by
  intro before after numTokens hbefore hafter hlt hlt'
  unfold unlessSame
  split_ifs with heq
  · subst heq
    refine ⟨⟨before.length, by omega, by omega, fun k hk => ?_⟩, by simp⟩
    rw [Nat.zero_add]
    exact ⟨_, _, List.getElem?_eq_getElem hk, List.getElem?_eq_getElem hk, beq_self_eq_true _⟩
  · exact wholeHunk_law before after numTokens hbefore hafter hlt hlt'

theorem compareLines_eq_nil_iff_trimmed :
    compareLines unlessSame [[' ', 'a', 'b', 'c', 'd'], ['x']] [['a', 'b', 'c', 'd'], ['x', ' ']]
        .trimWhitespaces = some [] ∧
      compareLines unlessSame [[' ', 'a', 'b', 'c', 'd']] [['a', ' ', 'b', 'c', 'd']] .trimWhitespaces ≠
        some [] := by
  have hsame : SameLaw unlessSame := fun _ _ _ _ => if_pos rfl
  constructor
  · refine (compareLines_eq_nil_iff unlessSame_law hsame _ _ _ (fun _ => by decide)
      fun _ => by decide).mpr ⟨rfl, fun i line1 line2 hline1 hline2 => ?_⟩
    have hi : i < 2 := (List.getElem?_eq_some_iff.mp hline1).1
    interval_cases i
    · obtain rfl := Option.some.inj hline1
      obtain rfl := Option.some.inj hline2
      decide
    · obtain rfl := Option.some.inj hline1
      obtain rfl := Option.some.inj hline2
      decide
  · intro hempty
    obtain ⟨-, hequal⟩ := (compareLines_eq_nil_iff unlessSame_law hsame _ _ _ (fun _ => by decide)
      fun _ => by decide).mp hempty
    exact absurd (hequal 0 _ _ rfl rfl) (by decide)

end Paneflow.Textdiff.ByLine
