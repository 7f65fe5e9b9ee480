import Paneflow.Textdiff.LineChunks

/-! # The comparison of lines: the second half of `by_line.rs`

Under `ignoreWhitespaces` the lines are compared directly. Under the other policies they are compared
ignoring whitespace first; the second step walks over the pairs found that way, collects the lines
that look like a sample line, and pairs those of them that are equal under the policy.

* `bestMatchingAlignment_spec`: the best matching is strictly increasing and in bounds.
* `flush_spec`: flushing a sample keeps the alignment built so far.
* `compareLines_valid`: **`compareLines` returns a valid alignment and never fails.** -/

namespace Paneflow.Textdiff.ByLine

open Paneflow.Alignment.Tiling Paneflow.Checked Paneflow.Textdiff.Text Paneflow.Textdiff.Iterable
open Paneflow.Textdiff.LineChunks

variable {policy : ComparisonPolicy}

/-! ### The best matching of two lists of lines -/

/-- Calls `process` with every strictly increasing sequence of indices up to `n` in the places from
`k` on, the first at least `start`. The first argument counts the places left. -/
def combinations {σ : Type} (process : σ → List ℕ → Option σ) (n : ℕ) :
    ℕ → ℕ → ℕ → List ℕ × σ → Option (List ℕ × σ)
  | 0, _, _, (comb, state) => do return (comb, ← process state comb)
  | places + 1, start, k, state =>
    (List.range' start (n + 1 - start)).foldlM
      (fun (comb, state) i => do
        combinations process n places (i + 1) (k + 1) (← store comb k i, state)) state

section Matching
variable (subLines1 subLines2 : List ℕ) (lines1 lines2 : List (Line policy))

/-- Counts the place `i` if the combination pairs equal lines there. -/
def weighPlace (comb : List ℕ) (weight i : ℕ) : Option ℕ := do
  let line1 ← lines1[← subLines1[i]?]?
  let line2 ← lines2[← subLines2[← comb[i]?]?]?
  return if line1 == line2 then weight + 1 else weight

/-- The closure that `bestMatchingAlignment` calls with every combination, on the best combination so
far and its weight. -/
def keepBest : List ℕ × ℕ → List ℕ → Option (List ℕ × ℕ)
  | (best, bestWeight), comb => do
    let weight ← (List.range subLines1.length).foldlM
      (weighPlace subLines1 subLines2 lines1 lines2 comb) 0
    return if weight > bestWeight then (comb, weight) else (best, bestWeight)

def bestMatchingAlignment : Option (List ℕ) := do
  let size := subLines1.length
  let comb := List.replicate size 0
  let best := List.range size
  let (_, best, _) ← combinations (keepBest subLines1 subLines2 lines1 lines2)
    (← checkedSub subLines2.length 1) size 0 0 (comb, best, 0)
  return best

end Matching

/-! ### The second step -/

section SecondStep
variable (lines1 lines2 : List (Line policy))

/-- Marks the pair at place `i` of a matching, if its lines are equal. -/
def markPlace (index1 index2 : ℕ → Option ℕ) (builder : ExpandChangeBuilder (Line policy))
    (i : ℕ) : Option (ExpandChangeBuilder (Line policy)) := do
  let index1 ← index1 i
  let index2 ← index2 i
  let line1 ← lines1[index1]?
  let line2 ← lines2[index2]?
  if line1 == line2 then builder.markEqualOne index1 index2 else return builder

/-- The loop over the places of a matching. -/
def markMatching (builder : ExpandChangeBuilder (Line policy)) (count : ℕ)
    (index1 index2 : ℕ → Option ℕ) : Option (ExpandChangeBuilder (Line policy)) :=
  (List.range count).foldlM (markPlace lines1 lines2 index1 index2) builder

def alignExactMatching (builder : ExpandChangeBuilder (Line policy)) (subLines1 subLines2 : List ℕ) :
    Option (ExpandChangeBuilder (Line policy)) :=
  let n := max subLines1.length subLines2.length
  let skipAligning := n > 10 ∨ subLines1.length = subLines2.length
  if skipAligning then
    markMatching lines1 lines2 builder (min subLines1.length subLines2.length)
      (fun i => subLines1[i]?) (fun i => subLines2[i]?)
  else if subLines1.length < subLines2.length then do
    let matching ← bestMatchingAlignment subLines1 subLines2 lines1 lines2
    markMatching lines1 lines2 builder subLines1.length
      (fun i => subLines1[i]?) (fun i => do subLines2[← matching[i]?]?)
  else do
    let matching ← bestMatchingAlignment subLines2 subLines1 lines2 lines1
    markMatching lines1 lines2 builder subLines2.length
      (fun i => do subLines1[← matching[i]?]?) (fun i => subLines2[i]?)

structure SecondStep (policy : ComparisonPolicy) where
  builder : ExpandChangeBuilder (Line policy)
  sample : Option Str
  last1 : ℕ
  last2 : ℕ

/-- Those of the given lines that look like the sample, and the index after the last of them. -/
def sampleLines (lines : List (Line policy)) (sample : Str) : List ℕ → ℕ → Option (List ℕ × ℕ)
  | [], last => some ([], last)
  | i :: is, last => do
    let line ← lines[i]?
    if isEquals sample line.content .ignoreWhitespaces then
      let (subLines, last) ← sampleLines lines sample is (i + 1)
      return (i :: subLines, last)
    else sampleLines lines sample is last

def SecondStep.flush (step : SecondStep policy) (line1 line2 : ℕ) : Option (SecondStep policy) :=
  match step.sample with
  | none => some step
  | some sample => do
    let start1 := max step.last1 step.builder.index1
    let start2 := max step.last2 step.builder.index2
    let (subLines1, last1) ←
      sampleLines lines1 sample (List.range' start1 (line1 - start1)) step.last1
    let (subLines2, last2) ←
      sampleLines lines2 sample (List.range' start2 (line2 - start2)) step.last2
    let builder ← alignExactMatching lines1 lines2 step.builder subLines1 subLines2
    return ⟨builder, none, last1, last2⟩

/-- The body of the loop of `correctChangesSecondStep`. -/
def SecondStep.visit (step : SecondStep policy) : ℕ × ℕ → Option (SecondStep policy)
  | (index1, index2) => do
    let line1 ← lines1[index1]?
    let line2 ← lines2[index2]?
    let sameAsSample := step.sample.any fun sample =>
      isEquals sample line1.content .ignoreWhitespaces
    if sameAsSample then return step
    else if line1 == line2 then
      let step ← step.flush lines1 lines2 index1 index2
      return { step with builder := ← step.builder.markEqualOne index1 index2 }
    else
      let step ← step.flush lines1 lines2 index1 index2
      return { step with sample := some line1.content }

def correctChangesSecondStep (changes : Changes) : Option Changes := do
  let step : SecondStep policy := ⟨ExpandChangeBuilder.new lines1 lines2, none, 0, 0⟩
  let step ← (← pairs changes.unchanged).foldlM (SecondStep.visit lines1 lines2) step
  let step ← step.flush lines1 lines2 changes.len1 changes.len2
  step.builder.finish

end SecondStep

/-! ### The whole comparison -/

def doCompare (myers : Myers) (lines1 lines2 : List (Line policy)) : Option Changes :=
  if policy = .ignoreWhitespaces then do
    let changes ← compareSmart myers lines1 lines2
    let changes ← optimizeLineChunks lines1 lines2 changes
    expandRanges lines1 lines2 changes
  else do
    let iwLines1 := lines1.map fun line => line.withPolicy .ignoreWhitespaces
    let iwLines2 := lines2.map fun line => line.withPolicy .ignoreWhitespaces
    let iwChanges ← compareSmart myers iwLines1 iwLines2
    let iwChanges ← optimizeLineChunks lines1 lines2 iwChanges
    correctChangesSecondStep lines1 lines2 iwChanges

def compare (myers : Myers) (lines1 lines2 : List Str) (policy : ComparisonPolicy) :
    Option Changes :=
  doCompare myers (newLines lines1 policy) (newLines lines2 policy)

/-- `compare_lines` of `lib.rs` -/
def compareLines (myers : Myers) (lines1 lines2 : List Str) (policy : ComparisonPolicy) :
    Option (List Range) :=
  if lines1 == lines2 then some []
  else do return (← compare myers lines1 lines2 policy).changed

/-! ### What the best matching guarantees -/

/-- Strictly increasing indices below `bound`, one for each of `size` places. -/
structure Choice (size bound : ℕ) (comb : List ℕ) : Prop where
  length : comb.length = size
  increasing : comb.Pairwise (· < ·)
  lt : ∀ i ∈ comb, i < bound

/-- The first `k` places of a combination are chosen, below `start`. -/
structure Chosen (size n start k : ℕ) (comb : List ℕ) : Prop where
  length : comb.length = size
  increasing : (comb.take k).Pairwise (· < ·)
  lt : ∀ i ∈ comb.take k, i < start ∧ i ≤ n

theorem Chosen.store {size n start k i : ℕ} {comb : List ℕ} (h : Chosen size n start k comb)
    (hk : k < size) (hi : start ≤ i) (hn : i ≤ n) :
    ∃ comb', store comb k i = some comb' ∧ Chosen size n (i + 1) (k + 1) comb' ∧
      comb'.take (k + 1) = comb.take k ++ [i] := by
  have hlt : k < comb.length := h.length ▸ hk
  have htake : (comb.set k i).take (k + 1) = comb.take k ++ [i] := by
    rw [List.take_add_one, List.take_set_of_le le_rfl, List.getElem?_set_self hlt]
    rfl
  refine ⟨comb.set k i, if_pos hlt, ⟨by simp [h.length], ?_, ?_⟩, htake⟩
  · rw [htake, List.pairwise_append]
    refine ⟨h.increasing, List.pairwise_singleton _ _, fun a ha b hb => ?_⟩
    rw [List.mem_singleton.mp hb]
    have := h.lt a ha
    omega
  · intro a ha
    rw [htake] at ha
    rcases List.mem_append.mp ha with ha | ha
    · have := h.lt a ha
      omega
    · rw [List.mem_singleton.mp ha]
      omega

/-- **Every combination that is processed is a choice**, and the places already chosen are kept. -/
theorem combinations_spec {σ : Type} {process : σ → List ℕ → Option σ} {Inv : σ → Prop}
    {size n : ℕ}
    (hp : ∀ s comb, Inv s → Choice size (n + 1) comb → ∃ s', process s comb = some s' ∧ Inv s') :
    ∀ places {start k : ℕ} {comb : List ℕ} {s : σ}, k + places = size →
      Chosen size n start k comb → Inv s →
      ∃ comb' s', combinations process n places start k (comb, s) = some (comb', s') ∧ Inv s' ∧
        comb'.length = size ∧ comb'.take k = comb.take k
  | 0, start, k, comb, s, hk, hc, hs => by
    have htake : comb.take k = comb := List.take_of_length_le (by rw [hc.length]; omega)
    have hchoice : Choice size (n + 1) comb := by
      refine ⟨hc.length, htake ▸ hc.increasing, fun i hi => ?_⟩
      have := hc.lt i (htake.symm ▸ hi)
      omega
    obtain ⟨s', hs', hinv⟩ := hp s comb hs hchoice
    exact ⟨comb, s', by simp [combinations, hs'], hinv, hc.length, rfl⟩
  | places + 1, start, k, comb, s, hk, hc, hs => by
    have hstep : ∀ st : List ℕ × σ, ∀ i ∈ List.range' start (n + 1 - start),
        Inv st.2 ∧ st.1.length = size ∧ st.1.take k = comb.take k →
        ∃ st', (do combinations process n places (i + 1) (k + 1) (← Checked.store st.1 k i, st.2)) =
            some st' ∧ Inv st'.2 ∧ st'.1.length = size ∧ st'.1.take k = comb.take k := by
      rintro ⟨comb1, s1⟩ i hi ⟨hs1, hlen1, htake1⟩
      simp only at hs1 hlen1 htake1
      have hi' := List.mem_range'_1.mp hi
      have hc1 : Chosen size n start k comb1 := ⟨hlen1, htake1 ▸ hc.increasing, htake1 ▸ hc.lt⟩
      obtain ⟨comb2, hstore, hc2, htake2⟩ := hc1.store (by omega) hi'.1 (by omega)
      obtain ⟨comb3, s3, hrec, hs3, hlen3, htake3⟩ :=
        combinations_spec hp places (by omega) hc2 hs1
      refine ⟨(comb3, s3), by simp only [hstore, Option.bind_eq_bind, Option.bind_some, hrec],
        hs3, hlen3, ?_⟩
      -- the first `k` places of the first `k + 1` places
      have hsplit := congrArg (List.take k) (htake3.trans htake2)
      rw [List.take_take, min_eq_left (Nat.le_succ k), List.take_append_of_le_length
        (by rw [List.length_take, hlen1]; omega), List.take_take, min_self] at hsplit
      exact hsplit.trans htake1
    obtain ⟨⟨comb', s'⟩, hfold, hinv, hlen, htake⟩ := foldlM_inv hstep
      (show Inv (comb, s).2 ∧ _ ∧ _ from ⟨hs, hc.length, rfl⟩)
    exact ⟨comb', s', hfold, hinv, hlen, htake⟩

section BestMatching
variable {subLines1 subLines2 : List ℕ} {lines1 lines2 : List (Line policy)}

theorem weighPlace_some (h1 : ∀ i ∈ subLines1, i < lines1.length)
    (h2 : ∀ i ∈ subLines2, i < lines2.length) {comb : List ℕ}
    (hc : Choice subLines1.length subLines2.length comb) (weight : ℕ) {i : ℕ}
    (hi : i < subLines1.length) :
    ∃ weight', weighPlace subLines1 subLines2 lines1 lines2 comb weight i = some weight' := by
  have hci : i < comb.length := by rw [hc.length]; exact hi
  have hi2 : comb[i] < subLines2.length := hc.lt _ (List.getElem_mem hci)
  have hl1 := h1 _ (List.getElem_mem hi)
  have hl2 := h2 _ (List.getElem_mem hi2)
  simp [weighPlace, List.getElem?_eq_getElem hi, List.getElem?_eq_getElem hci,
    List.getElem?_eq_getElem hi2, List.getElem?_eq_getElem hl1, List.getElem?_eq_getElem hl2]

/-- **The best matching is a choice.** -/
theorem bestMatchingAlignment_spec (h1 : ∀ i ∈ subLines1, i < lines1.length)
    (h2 : ∀ i ∈ subLines2, i < lines2.length) (hlt : subLines1.length < subLines2.length) :
    ∃ best, bestMatchingAlignment subLines1 subLines2 lines1 lines2 = some best ∧
      Choice subLines1.length subLines2.length best := by
  have hn : subLines2.length - 1 + 1 = subLines2.length := by omega
  have hrange : Choice subLines1.length subLines2.length (List.range subLines1.length) :=
    ⟨List.length_range, List.pairwise_lt_range, fun i hi => by
      have := List.mem_range.mp hi
      omega⟩
  have hinit : Chosen subLines1.length (subLines2.length - 1) 0 0
      (List.replicate subLines1.length 0) := ⟨by simp, by simp, by simp⟩
  have hkeep : ∀ (st : List ℕ × ℕ) comb, Choice subLines1.length subLines2.length st.1 →
      Choice subLines1.length (subLines2.length - 1 + 1) comb →
      ∃ st', keepBest subLines1 subLines2 lines1 lines2 st comb = some st' ∧
        Choice subLines1.length subLines2.length st'.1 := by
    rintro ⟨best, bestWeight⟩ comb hbest hc
    rw [hn] at hc
    obtain ⟨weight, hw, -⟩ := foldlM_inv (s := 0) (fun weight i hi (_ : True) =>
      (weighPlace_some h1 h2 hc weight (List.mem_range.mp hi)).imp fun _ h => ⟨h, trivial⟩) trivial
    refine ⟨if weight > bestWeight then (comb, weight) else (best, bestWeight), ?_, ?_⟩
    · simp [keepBest, hw]
    · split_ifs
      · exact hc
      · exact hbest
  obtain ⟨comb, ⟨best, weight⟩, hcomb, hbest, -, -⟩ :=
    combinations_spec hkeep subLines1.length (Nat.zero_add _) hinit
      (s := (List.range subLines1.length, 0)) hrange
  refine ⟨best, ?_, hbest⟩
  have hone : 1 ≤ subLines2.length := by omega
  simp only [bestMatchingAlignment, checkedSub_of_le hone, Option.bind_eq_bind, Option.bind_some,
    hcomb]
  rfl

end BestMatching

/-! ### The second step keeps an alignment -/

/-- Strictly increasing indices between `lo` and `hi`, for at least `count` places. -/
structure Picks (count lo hi : ℕ) (index : ℕ → Option ℕ) : Prop where
  some : ∀ i < count, ∃ x, index i = some x
  bound : ∀ {i x}, index i = .some x → lo ≤ x ∧ x < hi
  mono : ∀ {i j x y}, i < j → index i = .some x → index j = .some y → x < y

theorem picks_getElem {count lo hi : ℕ} {subLines : List ℕ} (hp : subLines.Pairwise (· < ·))
    (hb : ∀ i ∈ subLines, lo ≤ i ∧ i < hi) (hc : count ≤ subLines.length) :
    Picks count lo hi fun i => subLines[i]? := by
  refine ⟨fun i hi => ?_, fun {i x} hx => hb x (List.mem_of_getElem? hx),
    fun {i j x y} hij hx hy => ?_⟩
  · exact ⟨_, List.getElem?_eq_getElem (by omega)⟩
  · obtain ⟨hi, rfl⟩ := List.getElem?_eq_some_iff.mp hx
    obtain ⟨hj, rfl⟩ := List.getElem?_eq_some_iff.mp hy
    exact List.pairwise_iff_getElem.mp hp i j hi hj hij

theorem picks_matching {size lo hi : ℕ} {subLines matching : List ℕ}
    (hp : subLines.Pairwise (· < ·)) (hb : ∀ i ∈ subLines, lo ≤ i ∧ i < hi)
    (hm : Choice size subLines.length matching) :
    Picks size lo hi (fun i => do subLines[← matching[i]?]?) := by
  have hsub := picks_getElem hp hb le_rfl
  have hmatch := picks_getElem hm.increasing (fun i hi => ⟨Nat.zero_le i, hm.lt i hi⟩)
    hm.length.ge
  refine ⟨fun i hi => ?_, fun {i x} hx => ?_, fun {i j x y} hij hx hy => ?_⟩
  · obtain ⟨k, hk⟩ := hmatch.some i hi
    obtain ⟨x, hx⟩ := hsub.some k (hmatch.bound hk).2
    exact ⟨x, Option.bind_eq_some_iff.mpr ⟨k, hk, hx⟩⟩
  · obtain ⟨k, hk, hx⟩ := Option.bind_eq_some_iff.mp hx
    exact hsub.bound hx
  · obtain ⟨k, hk, hx⟩ := Option.bind_eq_some_iff.mp hx
    obtain ⟨l, hl, hy⟩ := Option.bind_eq_some_iff.mp hy
    exact hsub.mono (hmatch.mono hij hk hl) hx hy

section Step
variable {lines1 lines2 : List (Line policy)} {builder : ExpandChangeBuilder (Line policy)}
  {line1 line2 : ℕ}

/-- A builder that keeps its invariant, with the cursor at most at the given lines. -/
structure Within (lines1 lines2 : List (Line policy)) (line1 line2 : ℕ)
    (builder : ExpandChangeBuilder (Line policy)) : Prop where
  expanding : Expanding lines1 lines2 builder
  index1 : builder.index1 ≤ line1
  index2 : builder.index2 ≤ line2

theorem Within.mono {line1' line2' : ℕ} (h : Within lines1 lines2 line1 line2 builder)
    (h1 : line1 ≤ line1') (h2 : line2 ≤ line2') : Within lines1 lines2 line1' line2' builder :=
  ⟨h.expanding, h.index1.trans h1, h.index2.trans h2⟩

/-- One place of a matching. -/
theorem markPlace_spec (h : Within lines1 lines2 line1 line2 builder) {index1 index2 : ℕ → Option ℕ}
    {i x y : ℕ} (hx : index1 i = some x) (hy : index2 i = some y) (h1 : builder.index1 ≤ x)
    (h2 : builder.index2 ≤ y) (hx1 : x < line1) (hy2 : y < line2) (hl1 : line1 ≤ lines1.length)
    (hl2 : line2 ≤ lines2.length) :
    ∃ builder', markPlace lines1 lines2 index1 index2 builder i = some builder' ∧
      Within lines1 lines2 line1 line2 builder' ∧ builder'.index1 ≤ x + 1 ∧
      builder'.index2 ≤ y + 1 := by
  have hxlt : x < lines1.length := by omega
  have hylt : y < lines2.length := by omega
  simp only [markPlace, hx, hy, List.getElem?_eq_getElem hxlt, List.getElem?_eq_getElem hylt,
    Option.bind_eq_bind, Option.bind_some]
  split_ifs with heq
  · obtain ⟨builder', hb, hexp, hi1, hi2⟩ := h.expanding.markEqualOne h1 h2
      ⟨_, _, List.getElem?_eq_getElem hxlt, List.getElem?_eq_getElem hylt, heq⟩
    exact ⟨builder', hb, ⟨hexp, by omega, by omega⟩, by omega, by omega⟩
  · exact ⟨builder, rfl, h, by omega, by omega⟩

/-- **Marking a matching** of lines from the cursor on. -/
theorem markMatching_spec {count lo1 lo2 : ℕ} {index1 index2 : ℕ → Option ℕ}
    (hp1 : Picks count lo1 line1 index1) (hp2 : Picks count lo2 line2 index2)
    (hl1 : line1 ≤ lines1.length) (hl2 : line2 ≤ lines2.length)
    (h : Within lines1 lines2 line1 line2 builder) (h1 : builder.index1 ≤ lo1)
    (h2 : builder.index2 ≤ lo2) :
    ∃ builder', markMatching lines1 lines2 builder count index1 index2 = some builder' ∧
      Within lines1 lines2 line1 line2 builder' := by
  -- from place `a` on, with the cursor before what the places from `a` on pick
  have hloop : ∀ n a (builder : ExpandChangeBuilder (Line policy)), a + n = count →
      Within lines1 lines2 line1 line2 builder →
      (∀ j x, a ≤ j → index1 j = some x → builder.index1 ≤ x) →
      (∀ j y, a ≤ j → index2 j = some y → builder.index2 ≤ y) →
      ∃ builder', (List.range' a n).foldlM (markPlace lines1 lines2 index1 index2) builder =
        some builder' ∧ Within lines1 lines2 line1 line2 builder' := by
    intro n
    induction n with
    | zero => exact fun a builder _ h _ _ => ⟨builder, rfl, h⟩
    | succ n ih =>
      intro a builder ha h hr1 hr2
      obtain ⟨x, hx⟩ := hp1.some a (by omega)
      obtain ⟨y, hy⟩ := hp2.some a (by omega)
      obtain ⟨builder', hb, hw, hi1, hi2⟩ := markPlace_spec h hx hy (hr1 a x le_rfl hx)
        (hr2 a y le_rfl hy) (hp1.bound hx).2 (hp2.bound hy).2 hl1 hl2
      rw [List.range'_succ, List.foldlM_cons, hb]
      refine ih (a + 1) builder' (by omega) hw (fun j z hj hz => ?_) (fun j z hj hz => ?_)
      · have := hp1.mono (by omega : a < j) hx hz
        omega
      · have := hp2.mono (by omega : a < j) hy hz
        omega
  rw [markMatching, List.range_eq_range']
  exact hloop count 0 builder (Nat.zero_add _) h (fun j x _ hx => h1.trans (hp1.bound hx).1)
    (fun j y _ hy => h2.trans (hp2.bound hy).1)

/-- **Aligning the lines of a sample.** -/
theorem alignExactMatching_spec (h : Within lines1 lines2 line1 line2 builder)
    (hl1 : line1 ≤ lines1.length) (hl2 : line2 ≤ lines2.length) {subLines1 subLines2 : List ℕ}
    (hp1 : subLines1.Pairwise (· < ·)) (hp2 : subLines2.Pairwise (· < ·))
    (hb1 : ∀ i ∈ subLines1, builder.index1 ≤ i ∧ i < line1)
    (hb2 : ∀ i ∈ subLines2, builder.index2 ≤ i ∧ i < line2) :
    ∃ builder', alignExactMatching lines1 lines2 builder subLines1 subLines2 = some builder' ∧
      Within lines1 lines2 line1 line2 builder' := by
  have hlt1 : ∀ i ∈ subLines1, i < lines1.length := fun i hi => (hb1 i hi).2.trans_le hl1
  have hlt2 : ∀ i ∈ subLines2, i < lines2.length := fun i hi => (hb2 i hi).2.trans_le hl2
  unfold alignExactMatching
  simp only
  split_ifs with hskip hlt
  · exact markMatching_spec (picks_getElem hp1 hb1 (min_le_left _ _))
      (picks_getElem hp2 hb2 (min_le_right _ _)) hl1 hl2 h le_rfl le_rfl
  · obtain ⟨matching, hm, hchoice⟩ := bestMatchingAlignment_spec hlt1 hlt2 hlt
    rw [hm]
    exact markMatching_spec (picks_getElem hp1 hb1 le_rfl) (picks_matching hp2 hb2 hchoice)
      hl1 hl2 h le_rfl le_rfl
  · have hlt' : subLines2.length < subLines1.length := by omega
    obtain ⟨matching, hm, hchoice⟩ := bestMatchingAlignment_spec hlt2 hlt1 hlt'
    rw [hm]
    exact markMatching_spec (picks_matching hp1 hb1 hchoice) (picks_getElem hp2 hb2 le_rfl)
      hl1 hl2 h le_rfl le_rfl

theorem sampleLines_spec (lines : List (Line policy)) (sample : Str) :
    ∀ (is : List ℕ) (last : ℕ), (∀ i ∈ is, i < lines.length) →
      ∃ subLines last', sampleLines lines sample is last = some (subLines, last') ∧
        subLines.Sublist is
  | [], last, _ => ⟨[], last, rfl, List.Sublist.refl _⟩
  | i :: is, last, h => by
    have hi := h i List.mem_cons_self
    have hrest : ∀ j ∈ is, j < lines.length := fun j hj => h j (List.mem_cons_of_mem _ hj)
    simp only [sampleLines, List.getElem?_eq_getElem hi, Option.bind_eq_bind, Option.bind_some]
    split_ifs with heq
    · obtain ⟨sub, last', hs, hsub⟩ := sampleLines_spec lines sample is (i + 1) hrest
      rw [hs]
      exact ⟨i :: sub, last', rfl, hsub.cons_cons i⟩
    · obtain ⟨sub, last', hs, hsub⟩ := sampleLines_spec lines sample is last hrest
      exact ⟨sub, last', hs, hsub.cons i⟩

/-- The lines of a sample between two cursors. -/
theorem sampleLines_range (lines : List (Line policy)) (sample : Str) (last : ℕ)
    {start start' stop : ℕ} (hs : start ≤ start') (hstop : stop ≤ lines.length) :
    ∃ subLines last', sampleLines lines sample (List.range' start' (stop - start')) last =
        some (subLines, last') ∧
      subLines.Pairwise (· < ·) ∧ ∀ i ∈ subLines, start ≤ i ∧ i < stop := by
  have hrange : ∀ i ∈ List.range' start' (stop - start'), start ≤ i ∧ i < stop := fun i hi => by
    have := List.mem_range'_1.mp hi
    omega
  obtain ⟨sub, last', h, hsub⟩ := sampleLines_spec lines sample
    (List.range' start' (stop - start')) last fun i hi => (hrange i hi).2.trans_le hstop
  exact ⟨sub, last', h, (List.pairwise_lt_range' ).sublist hsub,
    fun i hi => hrange i (hsub.subset hi)⟩

/-- **Flushing the sample** keeps the alignment, and the cursor does not pass the given lines. -/
theorem flush_spec {step : SecondStep policy} (h : Within lines1 lines2 line1 line2 step.builder)
    (hl1 : line1 ≤ lines1.length) (hl2 : line2 ≤ lines2.length) :
    ∃ step', step.flush lines1 lines2 line1 line2 = some step' ∧
      Within lines1 lines2 line1 line2 step'.builder := by
  unfold SecondStep.flush
  cases step.sample with
  | none => exact ⟨step, rfl, h⟩
  | some sample =>
    obtain ⟨sub1, last1, hs1, hp1, hb1⟩ := sampleLines_range lines1 sample step.last1
      (le_max_right step.last1 step.builder.index1) hl1
    obtain ⟨sub2, last2, hs2, hp2, hb2⟩ := sampleLines_range lines2 sample step.last2
      (le_max_right step.last2 step.builder.index2) hl2
    obtain ⟨builder, hal, hw⟩ := alignExactMatching_spec h hl1 hl2 hp1 hp2 hb1 hb2
    refine ⟨⟨builder, none, last1, last2⟩, ?_, hw⟩
    simp only [hs1, hs2, hal, Option.bind_eq_bind, Option.bind_some]
    rfl

/-- One pair of the second step. -/
theorem visit_spec {step : SecondStep policy} {a1 a2 i j : ℕ}
    (h : Within lines1 lines2 a1 a2 step.builder) (hi : a1 ≤ i) (hj : a2 ≤ j)
    (h1 : i < lines1.length) (h2 : j < lines2.length) :
    ∃ step', step.visit lines1 lines2 (i, j) = some step' ∧
      Within lines1 lines2 (i + 1) (j + 1) step'.builder := by
  simp only [SecondStep.visit, List.getElem?_eq_getElem h1, List.getElem?_eq_getElem h2,
    Option.bind_eq_bind, Option.bind_some]
  obtain ⟨step', hf, hw⟩ := flush_spec (h.mono hi hj) h1.le h2.le
  split_ifs with hsame heq
  · exact ⟨step, rfl, h.mono (by omega) (by omega)⟩
  · obtain ⟨builder, hb, hexp, hi1, hi2⟩ := hw.expanding.markEqualOne hw.index1 hw.index2
      ⟨_, _, List.getElem?_eq_getElem h1, List.getElem?_eq_getElem h2, heq⟩
    simp only [hf, hb, Option.bind_some]
    exact ⟨_, rfl, hexp, hi1.le, hi2.le⟩
  · simp only [hf, Option.bind_some]
    exact ⟨_, rfl, hw.mono (by omega) (by omega)⟩

/-- **The second step** turns any alignment into one by equal lines. -/
theorem correctChangesSecondStep_aligned {E : ℕ → ℕ → Prop} {changes : Changes}
    (h1 : changes.len1 = lines1.length) (h2 : changes.len2 = lines2.length)
    (ha : Aligned E 0 0 changes.changed lines1.length lines2.length) :
    ∃ changed, correctChangesSecondStep lines1 lines2 changes =
        some ⟨changed, lines1.length, lines2.length⟩ ∧
      Aligned (At (· == ·) lines1 lines2) 0 0 changed lines1.length lines2.length ∧
      ∀ r ∈ changed, Sharp (At (· == ·) lines1 lines2) r := by
  have ht := ha.tiled
  rw [← h1, ← h2] at ht
  obtain ⟨hblocks, hmatched⟩ := unchanged_blocks ht
  obtain ⟨ps, hps, hinc⟩ := pairs_spec hblocks hmatched
  rw [h1, h2] at hinc
  have hinit : Within lines1 lines2 0 0
      (⟨ExpandChangeBuilder.new lines1 lines2, none, 0, 0⟩ : SecondStep policy).builder :=
    ⟨expanding_new _ _, le_rfl, le_rfl⟩
  obtain ⟨step, b1, b2, hfold, hw, hb1, hb2⟩ := foldlM_increasing (SecondStep.visit lines1 lines2)
    (fun a1 a2 step => Within lines1 lines2 a1 a2 step.builder)
    (fun h hi hj hi1 hj2 _ => visit_spec h hi hj hi1 hj2) hinc hinit
  obtain ⟨step', hflush, hw'⟩ := flush_spec (hw.mono hb1 hb2) le_rfl le_rfl
  obtain ⟨changed, hfin, hal, hsharp⟩ := hw'.expanding.finish hw'.index1 hw'.index2
  refine ⟨changed, ?_, hal, hsharp⟩
  simp only [correctChangesSecondStep, hps, hfold, h1, h2, hflush, hfin, Option.bind_eq_bind,
    Option.bind_some]

end Step

/-! ### The result of the comparison -/

/-- **A valid alignment of two texts' lines under a policy**: changed ranges with pairs of equal lines
between them, none of which starts or ends with such a pair. -/
structure Alignment (policy : ComparisonPolicy) (lines1 lines2 : List Str) (ranges : List Range) :
    Prop where
  aligned : Aligned (EqualAt policy lines1 lines2) 0 0 ranges lines1.length lines2.length
  sharp : ∀ r ∈ ranges, Sharp (EqualAt policy lines1 lines2) r

section Compare
variable {myers : Myers} {lines1 lines2 : List Str}

theorem doCompare_aligned (hm : MyersLaw myers) (policy : ComparisonPolicy)
    (h1 : policy = .trimWhitespaces → ∀ line ∈ lines1, '\n' ∉ line)
    (h2 : policy = .trimWhitespaces → ∀ line ∈ lines2, '\n' ∉ line) :
    ∃ changes, compare myers lines1 lines2 policy = some changes ∧
      changes.len1 = (newLines lines1 policy).length ∧
      changes.len2 = (newLines lines2 policy).length ∧
      Aligned (At (· == ·) (newLines lines1 policy) (newLines lines2 policy)) 0 0 changes.changed
        (newLines lines1 policy).length (newLines lines2 policy).length ∧
      ∀ r ∈ changes.changed,
        Sharp (At (· == ·) (newLines lines1 policy) (newLines lines2 policy)) r := by
  unfold compare doCompare
  split_ifs with hp
  · obtain ⟨c1, hc1, hl11, hl12, ha1⟩ :=
      compareSmart_aligned hm (newLines lines1 policy) (newLines lines2 policy)
    obtain ⟨c2, hc2, -, -, ha2⟩ := optimizeLineChunks_aligned (fun _ _ h => h) hl11 hl12 ha1
    obtain ⟨c3, hc3, h3⟩ := expandRanges_aligned ha2
    refine ⟨c3, ?_, h3⟩
    simp only [hc1, hc2, hc3, Option.bind_eq_bind, Option.bind_some]
  · have hiw : ∀ lines : List Str, (newLines lines policy).map
        (fun line => line.withPolicy .ignoreWhitespaces) = newLines lines .ignoreWhitespaces := by
      intro lines
      rw [newLines, List.map_map]
      rfl
    have hlen : ∀ lines : List Str, (newLines lines .ignoreWhitespaces).length =
        (newLines lines policy).length := by simp [newLines]
    obtain ⟨c1, hc1, hl11, hl12, ha1⟩ :=
      compareSmart_aligned hm (newLines lines1 .ignoreWhitespaces) (newLines lines2 .ignoreWhitespaces)
    rw [hlen, hlen] at ha1
    rw [hlen] at hl11 hl12
    -- the borders move by lines that are equal under the policy, hence equal ignoring whitespace
    have hE : ∀ i j, At (· == ·) (newLines lines1 policy) (newLines lines2 policy) i j →
        At (· == ·) (newLines lines1 .ignoreWhitespaces) (newLines lines2 .ignoreWhitespaces) i j := by
      intro i j h
      exact (at_lines (fun h => by cases h) (fun h => by cases h)).mpr
        (((at_lines h1 h2).mp h).mono fun _ _ => isEquals_ignore)
    obtain ⟨c2, hc2, hl21, hl22, ha2⟩ := optimizeLineChunks_aligned hE hl11 hl12 ha1
    obtain ⟨changed, hc3, ha3, hsharp⟩ := correctChangesSecondStep_aligned hl21 hl22 ha2
    refine ⟨⟨changed, _, _⟩, ?_, rfl, rfl, ha3, hsharp⟩
    simp only [hiw, hc1, hc2, hc3, Option.bind_eq_bind, Option.bind_some]

/-- **`compare` returns a valid alignment.** -/
theorem compare_alignment (hm : MyersLaw myers) (policy : ComparisonPolicy)
    (h1 : policy = .trimWhitespaces → ∀ line ∈ lines1, '\n' ∉ line)
    (h2 : policy = .trimWhitespaces → ∀ line ∈ lines2, '\n' ∉ line) :
    ∃ changes, compare myers lines1 lines2 policy = some changes ∧
      Alignment policy lines1 lines2 changes.changed := by
  obtain ⟨changes, hc, -, -, ha, hs⟩ := doCompare_aligned hm policy h1 h2
  have hlen : ∀ lines : List Str, (newLines lines policy).length = lines.length := by
    simp [newLines]
  rw [hlen, hlen] at ha
  refine ⟨changes, hc, ha.mono fun i j => (at_lines h1 h2).mp, fun r hr hlt1 hlt2 => ?_⟩
  obtain ⟨hfirst, hlast⟩ := hs r hr hlt1 hlt2
  exact ⟨fun h => hfirst ((at_lines h1 h2).mpr h), fun h => hlast ((at_lines h1 h2).mpr h)⟩

/-- Texts that are the same, line by line, have the empty alignment. -/
theorem alignment_refl (policy : ComparisonPolicy) (lines : List Str) :
    Alignment policy lines lines [] := by
  refine ⟨⟨⟨lines.length, by omega, by omega, fun k hk => ?_⟩, List.Pairwise.nil, by simp⟩, by simp⟩
  rw [Nat.zero_add]
  exact ⟨_, _, List.getElem?_eq_getElem hk, List.getElem?_eq_getElem hk, isEquals_refl _ _⟩

/-- **`compareLines` returns a valid alignment.** -/
theorem compareLines_alignment (hm : MyersLaw myers) (policy : ComparisonPolicy)
    (h1 : policy = .trimWhitespaces → ∀ line ∈ lines1, '\n' ∉ line)
    (h2 : policy = .trimWhitespaces → ∀ line ∈ lines2, '\n' ∉ line) :
    ∃ ranges, compareLines myers lines1 lines2 policy = some ranges ∧
      Alignment policy lines1 lines2 ranges := by
  unfold compareLines
  split_ifs with heq
  · obtain rfl : lines1 = lines2 := by simpa using heq
    exact ⟨[], rfl, alignment_refl policy lines1⟩
  · obtain ⟨changes, hc, ha⟩ := compare_alignment hm policy h1 h2
    rw [hc]
    exact ⟨_, rfl, ha⟩

/-- **The comparison of lines is a valid alignment.** For any lines without newline `compareLines`
returns ranges that are nonempty and in bounds, come in order with at least one pair of lines between
two of them, leave gaps of the same length on both sides that pair equal lines, and neither start nor
end with equal lines; no index is out of bounds on the way. -/
theorem compareLines_valid (hm : MyersLaw myers) (lines1 lines2 : List Str)
    (h1 : ∀ line ∈ lines1, '\n' ∉ line) (h2 : ∀ line ∈ lines2, '\n' ∉ line) (policy : ComparisonPolicy) :
    ∃ ranges, compareLines myers lines1 lines2 policy = some ranges ∧
      (∀ r ∈ ranges, r.isEmpty = false ∧ r.start1 ≤ r.end1 ∧ r.end1 ≤ lines1.length ∧
        r.start2 ≤ r.end2 ∧ r.end2 ≤ lines2.length) ∧
      ranges.Pairwise (fun r s => r.end1 < s.start1 ∧ r.end2 < s.start2) ∧
      Tiled (Gap fun i j => ∃ line1 line2, lines1[i]? = some line1 ∧ lines2[j]? = some line2 ∧
        isEquals line1 line2 policy = true) 0 0 ranges lines1.length lines2.length ∧
      ∀ r ∈ ranges, r.start1 < r.end1 → r.start2 < r.end2 → ∀ line1 line2,
        (lines1[r.start1]? = some line1 → lines2[r.start2]? = some line2 →
          isEquals line1 line2 policy = false) ∧
        (lines1[r.end1 - 1]? = some line1 → lines2[r.end2 - 1]? = some line2 →
          isEquals line1 line2 policy = false) := by
  obtain ⟨ranges, hr, ha, hsharp⟩ := compareLines_alignment hm policy (fun _ => h1) fun _ => h2
  refine ⟨ranges, hr, fun r hr => ?_, ha.apart, ha.tiled, fun r hr hlt1 hlt2 line1 line2 => ?_⟩
  · have := ha.tiled.bounds (gapRel_gap _) r hr
    exact ⟨ha.nonempty r hr, by omega, by omega, by omega, by omega⟩
  · obtain ⟨hfirst, hlast⟩ := hsharp r hr hlt1 hlt2
    constructor
    · intro hl1 hl2
      exact Bool.eq_false_iff.mpr fun h => hfirst ⟨_, _, hl1, hl2, h⟩
    · intro hl1 hl2
      exact Bool.eq_false_iff.mpr fun h => hlast ⟨_, _, hl1, hl2, h⟩

end Compare

/-- The hunk of two sequences that share nothing. -/
def wholeHunk : Myers := fun before after _ => [⟨0, before.length, 0, after.length⟩]

theorem wholeHunk_law : MyersLaw wholeHunk := by
  intro before after numTokens hbefore hafter _ _
  refine ⟨⟨(gapRel_gap _).refl 0 0, Nat.zero_le _, Nat.zero_le _, (gapRel_gap _).refl _ _⟩, ?_⟩
  intro r hr
  rw [List.mem_singleton.mp hr]
  have := List.length_pos_of_ne_nil hbefore
  exact Range.mk_isEmpty_false (by omega)

theorem compareLines_valid_changed_second_line :
    MyersLaw wholeHunk ∧ compareLines wholeHunk [['a'], ['x']] [['a'], ['y']] .default =
        some [⟨1, 2, 1, 2⟩] ∧
      ∃ ranges, compareLines wholeHunk [['a'], ['x']] [['a'], ['y']] .default = some ranges ∧
        ranges.Pairwise fun r s => r.end1 < s.start1 ∧ r.end2 < s.start2 := by
  refine ⟨wholeHunk_law, by decide, ?_⟩
  obtain ⟨ranges, hr, -, hp, -, -⟩ := compareLines_valid wholeHunk_law [['a'], ['x']] [['a'], ['y']]
    (by decide) (by decide) .default
  exact ⟨ranges, hr, hp⟩

end Paneflow.Textdiff.ByLine
