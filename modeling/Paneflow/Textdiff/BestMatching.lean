import Paneflow.Textdiff.ByLine

/-! # The best matching is the best of all choices

`combinations` writes every choice into one list that it keeps changing, and calls the closure with
it. `choices` lists what is written there, so a run of `combinations` is a loop over that list.

* `mem_choices`: the list has every strictly increasing choice.
* `combinations_foldlM`: `combinations` is the loop over the list.
* `keepBest_foldlM`: the closure keeps a choice that weighs at least as much as each one before it.
* `bestMatchingAlignment_max`: **the best matching pairs as many equal lines as any choice.** -/

namespace Paneflow.Textdiff.ByLine

open Paneflow.Checked Paneflow.Textdiff.Text Paneflow.Textdiff.LineChunks

/-! ### The choices, in the order they are made -/

/-- Every strictly increasing list of `places` indices from `start` to `n`. -/
def choices (n : ℕ) : ℕ → ℕ → List (List ℕ)
  | 0, _ => [[]]
  | places + 1, start =>
    (List.range' start (n + 1 - start)).flatMap fun i => (choices n places (i + 1)).map (i :: ·)

theorem mem_choices {n : ℕ} : ∀ {places start : ℕ} {comb : List ℕ},
    comb ∈ choices n places start ↔ Choice places (n + 1) comb ∧ ∀ i ∈ comb, start ≤ i
  | 0, start, comb => by
    constructor
    · intro h
      obtain rfl : comb = [] := List.mem_singleton.mp h
      exact ⟨⟨rfl, List.Pairwise.nil, by simp⟩, by simp⟩
    · rintro ⟨hc, -⟩
      exact List.mem_singleton.mpr (List.length_eq_zero_iff.mp hc.length)
  | places + 1, start, comb => by
    simp only [choices, List.mem_flatMap, List.mem_map, List.mem_range'_1]
    constructor
    · rintro ⟨i, hi, rest, hrest, rfl⟩
      obtain ⟨hc, hlow⟩ := mem_choices.mp hrest
      refine ⟨⟨by simp [hc.length], List.pairwise_cons.mpr ⟨hlow, hc.increasing⟩, ?_⟩, ?_⟩
      · intro j hj
        rcases List.mem_cons.mp hj with rfl | hj
        · omega
        · exact hc.lt j hj
      · intro j hj
        rcases List.mem_cons.mp hj with rfl | hj
        · exact hi.1
        · have := hlow j hj
          omega
    · rintro ⟨hc, hlow⟩
      obtain ⟨i, rest, rfl⟩ := List.exists_cons_of_length_eq_add_one hc.length
      obtain ⟨hfirst, hincreasing⟩ := List.pairwise_cons.mp hc.increasing
      have hlength : rest.length = places := Nat.succ.inj hc.length
      have hi := hlow i List.mem_cons_self
      have hin := hc.lt i List.mem_cons_self
      refine ⟨i, by omega, rest, mem_choices.mpr ⟨⟨hlength, hincreasing, ?_⟩, hfirst⟩, rfl⟩
      exact fun j hj => hc.lt j (List.mem_cons_of_mem _ hj)

/-- **A run of `combinations` is a loop over the choices**, which keeps the places before `k`. -/
theorem combinations_foldlM {σ : Type} {process : σ → List ℕ → Option σ} {n : ℕ} :
    ∀ (places start k : ℕ) (comb : List ℕ) (s s' : σ), comb.length = k + places →
      ((choices n places start).map (comb.take k ++ ·)).foldlM process s = some s' →
      ∃ comb', combinations process n places start k (comb, s) = some (comb', s') ∧
        comb'.length = comb.length ∧ comb'.take k = comb.take k
  | 0, start, k, comb, s, s', hlen, h => by
    have htake : comb.take k = comb := List.take_of_length_le (by omega)
    have hprocess : process s comb = some s' := by
      simpa [choices, htake] using h
    exact ⟨comb, by simp [combinations, hprocess], rfl, rfl⟩
  | places + 1, start, k, comb, s, s', hlen, h => by
    -- one index after the other in place `k`
    have hloop : ∀ (is : List ℕ) (comb' : List ℕ) (t : σ), comb'.length = comb.length →
        comb'.take k = comb.take k →
        ((is.flatMap fun i => (choices n places (i + 1)).map (i :: ·)).map
          (comb.take k ++ ·)).foldlM process t = some s' →
        ∃ comb'', is.foldlM (fun (st : List ℕ × σ) i => do
            combinations process n places (i + 1) (k + 1) (← store st.1 k i, st.2)) (comb', t) =
              some (comb'', s') ∧ comb''.length = comb.length ∧ comb''.take k = comb.take k := by
      intro is
      induction is with
      | nil =>
        intro comb' t hlen' htake' h
        obtain rfl : t = s' := Option.some.inj h
        exact ⟨comb', rfl, hlen', htake'⟩
      | cons i is ih =>
        intro comb' t hlen' htake' h
        have hk : k < comb'.length := by omega
        have hset : (comb'.set k i).take (k + 1) = comb.take k ++ [i] := by
          rw [List.take_add_one, List.take_set_of_le le_rfl, List.getElem?_set_self hk, htake']
          rfl
        rw [List.flatMap_cons, List.map_append, List.foldlM_append] at h
        obtain ⟨t', hfirst, hrest⟩ := Option.bind_eq_some_iff.mp h
        obtain ⟨comb1, hcomb1, hlen1, htake1⟩ :=
          combinations_foldlM places (i + 1) (k + 1) (comb'.set k i) t t'
            (by rw [List.length_set]; omega)
            (by simpa [hset, List.map_map, Function.comp_def] using hfirst)
        have hkeep : comb1.take k = comb.take k := by
          have := congrArg (List.take k) (htake1.trans hset)
          rwa [List.take_take, min_eq_left (Nat.le_succ k), List.take_append_of_le_length
            (by rw [List.length_take]; omega), List.take_take, min_self] at this
        obtain ⟨comb2, hcomb2, hlen2, htake2⟩ :=
          ih comb1 t' (by rw [hlen1, List.length_set, hlen']) hkeep hrest
        refine ⟨comb2, ?_, hlen2, htake2⟩
        have hstore : store comb' k i = some (comb'.set k i) := if_pos hk
        rw [List.foldlM_cons]
        simp only [hstore, Option.bind_eq_bind, Option.bind_some]
        rw [hcomb1]
        exact hcomb2
    exact hloop _ comb s rfl rfl h

/-! ### The best of them -/

section Best
variable {policy : ComparisonPolicy}

/-- How many equal lines a choice pairs. -/
def equalPairs (subLines1 subLines2 : List ℕ) (lines1 lines2 : List (Line policy))
    (comb : List ℕ) : ℕ :=
  (List.range subLines1.length).countP fun i =>
    (do
      let line1 ← lines1[← subLines1[i]?]?
      let line2 ← lines2[← subLines2[← comb[i]?]?]?
      return line1 == line2) == some true

variable {subLines1 subLines2 : List ℕ} {lines1 lines2 : List (Line policy)}

/-- The weight that the closure computes is the number of pairs of equal lines. -/
theorem weighPlace_foldlM (h1 : ∀ i ∈ subLines1, i < lines1.length)
    (h2 : ∀ i ∈ subLines2, i < lines2.length) {comb : List ℕ}
    (hc : Choice subLines1.length subLines2.length comb) :
    (List.range subLines1.length).foldlM (weighPlace subLines1 subLines2 lines1 lines2 comb) 0 =
      some (equalPairs subLines1 subLines2 lines1 lines2 comb) := by
  have hfold : ∀ (places : List ℕ) (weight : ℕ), (∀ i ∈ places, i < subLines1.length) →
      places.foldlM (weighPlace subLines1 subLines2 lines1 lines2 comb) weight =
        some (weight + places.countP fun i =>
          (do
            let line1 ← lines1[← subLines1[i]?]?
            let line2 ← lines2[← subLines2[← comb[i]?]?]?
            return line1 == line2) == some true) := by
    intro places
    induction places with
    | nil => exact fun weight _ => rfl
    | cons i places ih =>
      intro weight hlt
      have hi := hlt i List.mem_cons_self
      have hci : i < comb.length := by rw [hc.length]; exact hi
      have hi2 : comb[i] < subLines2.length := hc.lt _ (List.getElem_mem hci)
      have hl1 := h1 _ (List.getElem_mem hi)
      have hl2 := h2 _ (List.getElem_mem hi2)
      rw [List.foldlM_cons, List.countP_cons]
      simp only [weighPlace, List.getElem?_eq_getElem hi, List.getElem?_eq_getElem hci,
        List.getElem?_eq_getElem hi2, List.getElem?_eq_getElem hl1, List.getElem?_eq_getElem hl2,
        Option.bind_eq_bind, Option.bind_some, Option.pure_def]
      rw [ih _ fun j hj => hlt j (List.mem_cons_of_mem _ hj)]
      cases lines1[subLines1[i]] == lines2[subLines2[comb[i]]] with
      | true =>
        simp
        omega
      | false => simp
  simpa [equalPairs] using hfold (List.range subLines1.length) 0 fun i hi => List.mem_range.mp hi

/-- **The closure keeps a choice that weighs at least as much as every choice it is called with.** -/
theorem keepBest_foldlM (h1 : ∀ i ∈ subLines1, i < lines1.length)
    (h2 : ∀ i ∈ subLines2, i < lines2.length) :
    ∀ {combs : List (List ℕ)} {best : List ℕ} {bestWeight : ℕ},
      (∀ comb ∈ combs, Choice subLines1.length subLines2.length comb) →
      Choice subLines1.length subLines2.length best →
      bestWeight ≤ equalPairs subLines1 subLines2 lines1 lines2 best →
      ∃ best' bestWeight', combs.foldlM (keepBest subLines1 subLines2 lines1 lines2)
          (best, bestWeight) = some (best', bestWeight') ∧
        Choice subLines1.length subLines2.length best' ∧
        bestWeight' ≤ equalPairs subLines1 subLines2 lines1 lines2 best' ∧
        bestWeight ≤ bestWeight' ∧
        ∀ comb ∈ combs, equalPairs subLines1 subLines2 lines1 lines2 comb ≤ bestWeight'
  | [], best, bestWeight, _, hbest, hweight => ⟨best, bestWeight, rfl, hbest, hweight, le_rfl, by simp⟩
  | comb :: combs, best, bestWeight, hcs, hbest, hweight => by
    obtain ⟨hc, hrest⟩ := List.forall_mem_cons.mp hcs
    -- the closure's answer to `comb`, at least as heavy as before and as `comb`
    obtain ⟨best1, weight1, hkeep, hbest1, hweight1, hle, hcomb⟩ : ∃ best1 weight1,
        keepBest subLines1 subLines2 lines1 lines2 (best, bestWeight) comb = some (best1, weight1) ∧
        Choice subLines1.length subLines2.length best1 ∧
        weight1 ≤ equalPairs subLines1 subLines2 lines1 lines2 best1 ∧
        bestWeight ≤ weight1 ∧ equalPairs subLines1 subLines2 lines1 lines2 comb ≤ weight1 := by
      simp only [keepBest, weighPlace_foldlM h1 h2 hc, Option.bind_eq_bind, Option.bind_some]
      split_ifs with hgt
      · exact ⟨comb, _, rfl, hc, le_rfl, le_of_lt hgt, le_rfl⟩
      · exact ⟨best, _, rfl, hbest, hweight, le_rfl, not_lt.mp hgt⟩
    obtain ⟨best', weight', hfold, hbest', hweight', hle', hall⟩ :=
      keepBest_foldlM h1 h2 hrest hbest1 hweight1
    refine ⟨best', weight', ?_, hbest', hweight', hle.trans hle', ?_⟩
    · rw [List.foldlM_cons, hkeep]
      exact hfold
    · exact List.forall_mem_cons.mpr ⟨hcomb.trans hle', hall⟩

/-- **The best matching pairs the most lines.** For any two lists of indices of lines, the first of them
shorter, `bestMatchingAlignment` returns strictly increasing positions of the second list, one for
each element of the first, and no other such positions pair more equal lines. -/
theorem bestMatchingAlignment_max (h1 : ∀ i ∈ subLines1, i < lines1.length)
    (h2 : ∀ i ∈ subLines2, i < lines2.length) (hlt : subLines1.length < subLines2.length) :
    ∃ best, bestMatchingAlignment subLines1 subLines2 lines1 lines2 = some best ∧
      Choice subLines1.length subLines2.length best ∧
      ∀ comb, Choice subLines1.length subLines2.length comb →
        equalPairs subLines1 subLines2 lines1 lines2 comb ≤
          equalPairs subLines1 subLines2 lines1 lines2 best := by
  have hn : subLines2.length - 1 + 1 = subLines2.length := by omega
  have hone : 1 ≤ subLines2.length := by omega
  have hrange : Choice subLines1.length subLines2.length (List.range subLines1.length) :=
    ⟨List.length_range, List.pairwise_lt_range, fun i hi => by
      have := List.mem_range.mp hi
      omega⟩
  have hall : ∀ comb, comb ∈ choices (subLines2.length - 1) subLines1.length 0 ↔
      Choice subLines1.length subLines2.length comb := fun comb => by
    rw [mem_choices, hn]
    exact and_iff_left fun i _ => Nat.zero_le i
  obtain ⟨best, weight, hfold, hbest, hweight, -, hmax⟩ :=
    keepBest_foldlM h1 h2 (fun comb hcomb => (hall comb).mp hcomb) hrange (Nat.zero_le _)
  obtain ⟨comb, hcomb, -, -⟩ := combinations_foldlM subLines1.length 0 0
    (List.replicate subLines1.length 0) (List.range subLines1.length, 0) (best, weight)
    (by simp) (by simpa using hfold)
  refine ⟨best, ?_, hbest, fun comb hc => (hmax comb ((hall comb).mpr hc)).trans hweight⟩
  simp only [bestMatchingAlignment, checkedSub_of_le hone, Option.bind_eq_bind, Option.bind_some,
    hcomb]
  rfl

/-- One line `b` against the lines `a`, `b`: place 1 is the best, place 0 the first. -/
theorem bestMatchingAlignment_max_second :
    bestMatchingAlignment [0] [0, 1] (newLines [['b']] .default) (newLines [['a'], ['b']] .default) =
        some [1] ∧
      ∃ best, bestMatchingAlignment [0] [0, 1] (newLines [['b']] .default)
          (newLines [['a'], ['b']] .default) = some best ∧ Choice 1 2 best := by
  refine ⟨by decide, ?_⟩
  obtain ⟨best, hbest, hc, -⟩ := @bestMatchingAlignment_max _ [0] [0, 1]
    (newLines [['b']] .default) (newLines [['a'], ['b']] .default) (by decide) (by decide) (by decide)
  exact ⟨best, hbest, hc⟩

end Best

end Paneflow.Textdiff.ByLine
