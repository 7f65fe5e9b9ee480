import Paneflow.Git.RenamePairs
import Mathlib.Algebra.BigOperators.Group.Finset.Basic
import Mathlib.Algebra.Order.BigOperators.Group.List

/-!
# How alike two files are

`similarity` of renames.rs, with what can go wrong in it: the division, and the value that stands in for a score that
does not fit. The minimum score is a `u32`, and its difference to the maximum wraps around as it does in a release
build; `similarity_eq_outcome` says that for a score that is one this is the function that the pairing uses.

The spans of a file are sorted by their hashes, without repetition, and count the bytes of the file without the
returns of its line ends (`spanCounts_spec`); of two files that are sorted so, `copied_bytes` meets every hash that
both have (`copiedBytes_eq_sum`). What is counted is at most the smaller size, so that sizes that are too far apart
rule a good score out (`similarity_scores`).
-/

namespace Paneflow.Git.Renames

/-! ### Counts by hash -/

/-- The bytes that are counted under a hash. -/
def countOf (spans : Spans) (hash : ℕ) : ℕ := ((spans.filter fun span => span.1 = hash).map Prod.snd).sum

/-- The hashes of the spans. -/
def hashes (spans : Spans) : List ℕ := spans.map Prod.fst

theorem countOf_cons (span : ℕ × ℕ) (spans : Spans) (hash : ℕ) :
    countOf (span :: spans) hash = (if span.1 = hash then span.2 else 0) + countOf spans hash := by
  unfold countOf
  rw [List.filter_cons]
  by_cases h : span.1 = hash
  · rw [if_pos (decide_eq_true h), if_pos h, List.map_cons, List.sum_cons]
  · rw [if_neg (by simpa using h), if_neg h, Nat.zero_add]

theorem countOf_eq_zero {spans : Spans} {hash : ℕ} (h : hash ∉ hashes spans) : countOf spans hash = 0 := by
  induction spans with
  | nil => rfl
  | cons span spans ih =>
    rw [hashes, List.map_cons, List.mem_cons, not_or] at h
    rw [countOf_cons, if_neg fun heq => h.1 heq.symm, ih h.2]

/-- Spans sorted by their hashes, each of which is there once. -/
def Ascending (spans : Spans) : Prop := spans.Pairwise fun a b => a.1 < b.1

theorem Ascending.nodup {spans : Spans} (h : Ascending spans) : (hashes spans).Nodup :=
  List.pairwise_map.mpr (h.imp fun hlt => Nat.ne_of_lt hlt)

theorem countOf_of_mem {spans : Spans} (h : (hashes spans).Nodup) {span : ℕ × ℕ} (hmem : span ∈ spans) :
    countOf spans span.1 = span.2 := by
  induction spans with
  | nil => exact absurd hmem List.not_mem_nil
  | cons other spans ih =>
    obtain ⟨hnew, hnodup⟩ := List.nodup_cons.mp h
    rw [countOf_cons]
    rcases List.mem_cons.mp hmem with rfl | hmem
    · rw [if_pos rfl, countOf_eq_zero hnew, Nat.add_zero]
    · have hne : other.1 ≠ span.1 := fun heq => hnew (heq ▸ List.mem_map_of_mem hmem)
      rw [if_neg hne, ih hnodup hmem, Nat.zero_add]

/-! ### The bytes that are copied -/

/-- What `copied_bytes` passes over is no hash of the rest. -/
theorem countOf_dropWhile (spans : Spans) {low hash : ℕ} (h : low ≤ hash) :
    countOf (spans.dropWhile fun span => span.1 < low) hash = countOf spans hash := by
  induction spans with
  | nil => rfl
  | cons span spans ih =>
    rw [List.dropWhile_cons]
    by_cases hlow : span.1 < low
    · rw [if_pos (decide_eq_true hlow), ih, countOf_cons, if_neg (by omega), Nat.zero_add]
    · rw [if_neg (by simpa using hlow)]

/-- Every hash of the source is met in the destination. -/
theorem copiedBytes_eq_sum_map {source destination : Spans} (hsource : Ascending source)
    (hdestination : Ascending destination) :
    copiedBytes source destination = (source.map fun span => min span.2 (countOf destination span.1)).sum := by
  induction source generalizing destination with
  | nil => rfl
  | cons span source ih =>
    obtain ⟨hash, count⟩ := span
    obtain ⟨hlater, hsource⟩ := List.pairwise_cons.mp hsource
    have hdrop : ∀ {other}, hash ≤ other →
        countOf (destination.dropWhile fun span => span.1 < hash) other = countOf destination other :=
      fun h => countOf_dropWhile destination h
    have hascending : Ascending (destination.dropWhile fun span => span.1 < hash) :=
      hdestination.sublist (List.dropWhile_sublist _)
    have hhead := List.head?_dropWhile_not (fun span : ℕ × ℕ => decide (span.1 < hash)) destination
    -- the spans of the source that are left only look at hashes behind this one
    have hrest : ∀ {remaining}, Ascending remaining → (∀ other, hash < other → countOf remaining other =
        countOf destination other) → copiedBytes source remaining =
          (source.map fun span => min span.2 (countOf destination span.1)).sum := by
      intro remaining hremaining hsame
      rw [ih hsource hremaining]
      congr 1
      exact List.map_congr_left fun span hspan => by rw [hsame span.1 (hlater span hspan)]
    unfold copiedBytes
    rw [List.map_cons, List.sum_cons]
    dsimp only
    rw [← hdrop le_rfl]
    generalize destination.dropWhile (fun span => decide (span.1 < hash)) = remaining at *
    cases remaining with
    | nil =>
      dsimp only
      rw [hrest hascending fun other h => hdrop h.le]
      simp [countOf]
    | cons first remaining =>
      obtain ⟨other, count'⟩ := first
      obtain ⟨hfirst, hremaining⟩ := List.pairwise_cons.mp hascending
      have hle : hash ≤ other := by simpa using hhead
      have hzero : countOf remaining hash = 0 := countOf_eq_zero fun hmem => by
        obtain ⟨span, hspan, heq⟩ := List.mem_map.mp hmem
        have := hfirst span hspan
        omega
      dsimp only
      rw [countOf_cons, hzero]
      by_cases heq : other = hash
      · rw [if_pos heq, if_pos heq, hrest hremaining fun later h => ?_]
        · rfl
        · rw [← hdrop h.le, countOf_cons, if_neg (by omega), Nat.zero_add]
      · rw [if_neg heq, if_neg heq, hrest hascending fun later h => hdrop h.le]
        simp

/-- The sum of the smaller counts over the hashes of both. -/
theorem copiedBytes_eq_sum {source destination : Spans} (hsource : Ascending source)
    (hdestination : Ascending destination) :
    copiedBytes source destination = ∑ hash ∈ (hashes source).toFinset ∩ (hashes destination).toFinset,
      min (countOf source hash) (countOf destination hash) := by
  have hcounts : (source.map fun span => min span.2 (countOf destination span.1)) =
      (hashes source).map fun hash => min (countOf source hash) (countOf destination hash) := by
    unfold hashes
    rw [List.map_map]
    exact List.map_congr_left fun span hspan => by
      rw [Function.comp_apply, countOf_of_mem hsource.nodup hspan]
  rw [copiedBytes_eq_sum_map hsource hdestination, hcounts, ← List.sum_toFinset _ hsource.nodup]
  refine (Finset.sum_subset Finset.inter_subset_left fun hash hmem hnot => ?_).symm
  have hout : hash ∉ hashes destination := fun hin =>
    hnot (Finset.mem_inter.mpr ⟨hmem, List.mem_toFinset.mpr hin⟩)
  rw [countOf_eq_zero hout, Nat.min_zero]

theorem copiedBytes_le_source {source destination : Spans} (hsource : Ascending source)
    (hdestination : Ascending destination) :
    copiedBytes source destination ≤ (source.map Prod.snd).sum := by
  rw [copiedBytes_eq_sum_map hsource hdestination]
  exact List.sum_le_sum fun span _ => Nat.min_le_left _ _

/-! ### The spans of a file -/

/-- A text without the returns that are followed by a line feed. -/
def withoutReturns : List UInt8 → List UInt8
  | [] => []
  | byte :: bytes =>
    if byte = 13 ∧ bytes.head? = some 10 then withoutReturns bytes else byte :: withoutReturns bytes

/-- The bytes that are counted. -/
def counted (data : List UInt8) (isText : Bool) : List UInt8 := if isText then withoutReturns data else data

theorem length_withoutReturns_le (data : List UInt8) : (withoutReturns data).length ≤ data.length := by
  induction data with
  | nil => exact le_rfl
  | cons byte bytes ih =>
    unfold withoutReturns
    split_ifs
    · exact ih.trans (Nat.le_succ _)
    · exact Nat.succ_le_succ ih

theorem length_counted_le (data : List UInt8) (isText : Bool) : (counted data isText).length ≤ data.length := by
  unfold counted
  split_ifs
  · exact length_withoutReturns_le data
  · exact le_rfl

theorem countSpans_text (data : List UInt8) (counts : Spans) (accumulated : UInt32 × UInt32) (length : ℕ) :
    countSpans true data counts accumulated length =
      countSpans false (withoutReturns data) counts accumulated length := by
  induction data generalizing counts accumulated length with
  | nil => rfl
  | cons byte bytes ih =>
    unfold withoutReturns
    by_cases hreturn : byte = 13 ∧ bytes.head? = some 10
    · rw [if_pos hreturn, ← ih, countSpans, if_pos (by simpa using hreturn)]
    · rw [if_neg hreturn, countSpans, if_neg (by simpa using hreturn), countSpans]
      simp only [Bool.false_and, Bool.false_eq_true, if_false]
      split_ifs
      · exact ih _ _ _
      · exact ih _ _ _

/-- A text is counted as its bytes without the returns of its line ends. -/
theorem spanCounts_text (data : List UInt8) : spanCounts data true = spanCounts (withoutReturns data) false := by
  unfold spanCounts
  rw [countSpans_text]

theorem hashes_countSpan (counts : Spans) (hash length : ℕ) :
    ∀ other ∈ hashes (countSpan counts hash length), other = hash ∨ other ∈ hashes counts := by
  induction counts with
  | nil =>
    intro other hother
    exact .inl (List.mem_singleton.mp hother)
  | cons span counts ih =>
    intro other hother
    unfold countSpan at hother
    split_ifs at hother
    · exact .inr hother
    · rcases List.mem_cons.mp hother with rfl | hother
      · exact .inr List.mem_cons_self
      · exact (ih other hother).imp id (List.mem_cons_of_mem _)

theorem nodup_countSpan {counts : Spans} (h : (hashes counts).Nodup) (hash length : ℕ) :
    (hashes (countSpan counts hash length)).Nodup := by
  induction counts with
  | nil => exact List.nodup_singleton _
  | cons span counts ih =>
    obtain ⟨hnew, hnodup⟩ := List.nodup_cons.mp h
    unfold countSpan
    split_ifs with heq
    · exact h
    · refine List.nodup_cons.mpr ⟨fun hmem => ?_, ih hnodup⟩
      rcases hashes_countSpan counts hash length _ hmem with hsame | hin
      · exact heq hsame
      · exact hnew hin

theorem nodup_countSpans (isText : Bool) {counts : Spans} (h : (hashes counts).Nodup) (data : List UInt8)
    (accumulated : UInt32 × UInt32) (length : ℕ) :
    (hashes (countSpans isText data counts accumulated length)).Nodup := by
  induction data generalizing counts accumulated length with
  | nil =>
    unfold countSpans
    split_ifs
    · exact nodup_countSpan h _ _
    · exact h
  | cons byte bytes ih =>
    unfold countSpans
    split_ifs
    · exact ih h accumulated length
    · exact ih h _ (length + 1)
    · exact ih (nodup_countSpan h _ _) (0, 0) 0

/-- Every byte of a file that is not read as a text is counted. -/
theorem sum_countSpans (data : List UInt8) (counts : Spans) (accumulated : UInt32 × UInt32) (length : ℕ) :
    ((countSpans false data counts accumulated length).map Prod.snd).sum =
      (counts.map Prod.snd).sum + length + data.length := by
  induction data generalizing counts accumulated length with
  | nil =>
    unfold countSpans
    split_ifs
    · rw [sum_countSpan, List.length_nil, Nat.add_zero]
    · rw [List.length_nil]
      omega
  | cons byte bytes ih =>
    rw [countSpans, if_neg (by simp), List.length_cons]
    dsimp only
    split_ifs
    · rw [ih]
      omega
    · rw [ih, sum_countSpan]
      omega

/-- The spans of a file. -/
theorem spanCounts_spec (data : List UInt8) (isText : Bool) :
    Ascending (spanCounts data isText) ∧
      ((spanCounts data isText).map Prod.snd).sum = (counted data isText).length := by
  have hperm := List.perm_insertionSort (fun a b : ℕ × ℕ => a.1 < b.1 ∨ a.1 = b.1 ∧ a.2 ≤ b.2)
    (countSpans isText data [] (0, 0) 0)
  constructor
  · have hnil : (hashes []).Nodup := List.nodup_nil
    have hnodup : (hashes (spanCounts data isText)).Nodup :=
      (hperm.map Prod.fst).nodup_iff.mpr (nodup_countSpans isText hnil data (0, 0) 0)
    have htotal : Std.Total fun a b : ℕ × ℕ => a.1 < b.1 ∨ a.1 = b.1 ∧ a.2 ≤ b.2 := ⟨fun a b => by omega⟩
    have htrans : IsTrans (ℕ × ℕ) fun a b => a.1 < b.1 ∨ a.1 = b.1 ∧ a.2 ≤ b.2 := ⟨fun a b c => by omega⟩
    have hsorted := List.pairwise_insertionSort (fun a b : ℕ × ℕ => a.1 < b.1 ∨ a.1 = b.1 ∧ a.2 ≤ b.2)
      (countSpans isText data [] (0, 0) 0)
    refine (hsorted.and (List.pairwise_map.mp hnodup)).imp fun h => ?_
    obtain ⟨hlt | ⟨heq, -⟩, hne⟩ := h
    · exact hlt
    · exact absurd heq hne
  · rw [spanCounts, (hperm.map Prod.snd).sum_eq]
    cases isText with
    | false =>
      rw [sum_countSpans]
      simp [counted]
    | true =>
      rw [countSpans_text, sum_countSpans]
      simp [counted]

/-! ### The score -/

/-- How the computation of a score ends: with it, with the value that stands in for it, or in a division by zero. -/
inductive Outcome where
  | score (value : ℕ)
  | fallBack
  | dividedByZero
  deriving DecidableEq, Repr

/-- The sizes are too far apart for the minimum score. -/
def sizesApart (sourceSize destinationSize : ℕ) (minimumScore : UInt32) : Bool :=
  let maxSize := max sourceSize destinationSize
  let deltaSize := maxSize - min sourceSize destinationSize
  maxSize * (UInt32.ofNat maxScore - minimumScore).toNat < deltaSize * maxScore

/-- The end of `similarity`, behind the comparison of the sizes. -/
def finalScore (sourceSize destinationSize : ℕ) (sourceSpans destinationSpans : Spans) : Outcome :=
  if destinationSize = 0 then .score 0
  else
    let maxSize := max sourceSize destinationSize
    if maxSize = 0 then .dividedByZero
    else
      let score := copiedBytes sourceSpans destinationSpans * maxScore / maxSize
      if score < 2 ^ 32 then .score score else .fallBack

/-- `similarity`, for the modes of two files. -/
def outcome {I E : Type} (contents : Contents I E) (sourceMode destinationMode : ℕ) (minimumScore : UInt32)
    (source destination : ℕ) : Except E Outcome :=
  if !isRegular sourceMode || !isRegular destinationMode then .ok (.score 0)
  else do
    match ← contents.size .source source, ← contents.size .destination destination with
    | some sourceSize, some destinationSize =>
      if sizesApart sourceSize destinationSize minimumScore then pure (.score 0)
      else
        match ← contents.spans .source source with
        | none => pure (.score 0)
        | some sourceSpans =>
          match ← contents.spans .destination destination with
          | none => pure (.score 0)
          | some destinationSpans => pure (finalScore sourceSize destinationSize sourceSpans destinationSpans)
    | _, _ => pure (.score 0)

theorem toNat_maxScore : (UInt32.ofNat maxScore).toNat = maxScore := UInt32.toNat_ofNat_of_lt' (by decide)

/-- The number that a score is, however it came about. -/
def Outcome.value : Outcome → ℕ
  | .score value => value
  | .fallBack => maxScore
  | .dividedByZero => 0

theorem value_finalScore (sourceSize destinationSize : ℕ) (sourceSpans destinationSpans : Spans) :
    (finalScore sourceSize destinationSize sourceSpans destinationSpans).value =
      spanScore sourceSize destinationSize sourceSpans destinationSpans := by
  unfold finalScore spanScore
  by_cases hempty : destinationSize = 0
  · rw [if_pos hempty, if_pos hempty]
    rfl
  · have hmax := Nat.le_max_right sourceSize destinationSize
    rw [if_neg hempty, if_neg hempty, if_neg (by omega)]
    dsimp only
    split_ifs <;> rfl

/-- For a minimum that is a score, the pairing uses what the computation ends with. -/
theorem similarity_eq_outcome {I E : Type} {sources destinations : List RenameSide} {contents : Contents I E}
    {minimumScore : ℕ} (h : minimumScore ≤ maxScore) (source : Fin sources.length)
    (destination : Fin destinations.length) :
    similarity sources destinations contents minimumScore source destination =
      (outcome contents (sources.get source).mode (destinations.get destination).mode
        (UInt32.ofNat minimumScore) source destination).map Outcome.value := by
  have hsub : (UInt32.ofNat maxScore - UInt32.ofNat minimumScore).toNat = maxScore - minimumScore := by
    have hlt : maxScore < UInt32.size := by decide
    have hminimum : (UInt32.ofNat minimumScore).toNat = minimumScore :=
      UInt32.toNat_ofNat_of_lt' (Nat.lt_of_le_of_lt h hlt)
    have hle : UInt32.ofNat minimumScore ≤ UInt32.ofNat maxScore := by
      rw [UInt32.le_iff_toNat_le, hminimum, toNat_maxScore]
      exact h
    rw [UInt32.toNat_sub_of_le _ _ hle, hminimum, toNat_maxScore]
  unfold similarity outcome sizesApart
  simp only [hsub, decide_eq_true_eq, bind, Except.bind, pure, Except.pure]
  split_ifs
  · rfl
  cases contents.size .source source with
  | error e => rfl
  | ok sourceSize =>
    cases contents.size .destination destination with
    | error e => rfl
    | ok destinationSize =>
      cases sourceSize with
      | none => rfl
      | some sourceSize =>
        cases destinationSize with
        | none => rfl
        | some destinationSize =>
          dsimp only
          split_ifs
          · rfl
          cases contents.spans .source source with
          | error e => rfl
          | ok sourceSpans =>
            cases sourceSpans with
            | none => rfl
            | some sourceSpans =>
              cases contents.spans .destination destination with
              | error e => rfl
              | ok destinationSpans =>
                cases destinationSpans with
                | none => rfl
                | some destinationSpans =>
                  dsimp only
                  rw [← value_finalScore]
                  rfl

/-- The contents that some data give. -/
def ofData {I E : Type} (data : Role → ℕ → Option (List UInt8)) (isText : Role → ℕ → Bool) : Contents I E where
  identity _ _ := .ok none
  size role index := .ok ((data role index).map List.length)
  spans role index := .ok ((data role index).map fun bytes => spanCounts bytes (isText role index))

section

variable (source destination : List UInt8) (sourceText destinationText : Bool)

theorem sum_spanCounts_le (data : List UInt8) (isText : Bool) :
    ((spanCounts data isText).map Prod.snd).sum ≤ data.length := by
  rw [(spanCounts_spec data isText).2]
  exact length_counted_le data isText

theorem copiedBytes_le_min :
    copiedBytes (spanCounts source sourceText) (spanCounts destination destinationText) ≤
      min source.length destination.length := by
  have hsource := copiedBytes_le_source (spanCounts_spec source sourceText).1
    (spanCounts_spec destination destinationText).1
  have hdestination := copiedBytes_le (spanCounts source sourceText) (spanCounts destination destinationText)
  exact Nat.le_min.mpr ⟨hsource.trans (sum_spanCounts_le source sourceText),
    hdestination.trans (sum_spanCounts_le destination destinationText)⟩

/-- The end of `similarity` is a score, of as many bytes as both files can have. -/
theorem finalScore_eq :
    ∃ score ≤ maxScore, finalScore source.length destination.length (spanCounts source sourceText)
        (spanCounts destination destinationText) = .score score ∧
      score * max source.length destination.length ≤ min source.length destination.length * maxScore := by
  have hcopied := copiedBytes_le_min source destination sourceText destinationText
  by_cases hempty : destination.length = 0
  · exact ⟨0, Nat.zero_le _, if_pos hempty, by rw [Nat.zero_mul]; exact Nat.zero_le _⟩
  · have hmax := Nat.le_max_right source.length destination.length
    have hpos : max source.length destination.length ≠ 0 := by omega
    have hscaled : copiedBytes (spanCounts source sourceText) (spanCounts destination destinationText) * maxScore ≤
        min source.length destination.length * maxScore := Nat.mul_le_mul_right _ hcopied
    have hscore : copiedBytes (spanCounts source sourceText) (spanCounts destination destinationText) * maxScore /
        max source.length destination.length ≤ maxScore :=
      Nat.div_le_of_le_mul (hscaled.trans (Nat.mul_le_mul_right _ min_le_max))
    refine ⟨_, hscore, ?_, (Nat.div_mul_le_self _ _).trans hscaled⟩
    unfold finalScore
    rw [if_neg hempty]
    dsimp only
    rw [if_neg hpos, if_pos (hscore.trans_lt (by decide))]

/-- Sizes that are too far apart leave no score that is good enough. -/
theorem lt_of_sizesApart {sourceSize destinationSize score : ℕ} {minimumScore : UInt32}
    (h : sizesApart sourceSize destinationSize minimumScore = true) (hle : score ≤ maxScore)
    (hscore : score * max sourceSize destinationSize ≤ min sourceSize destinationSize * maxScore) :
    score < minimumScore.toNat := by
  by_cases hminimum : minimumScore.toNat ≤ maxScore
  · have hheadroom : (UInt32.ofNat maxScore - minimumScore).toNat = maxScore - minimumScore.toNat := by
      have hunder : minimumScore ≤ UInt32.ofNat maxScore := by
        rw [UInt32.le_iff_toNat_le, toNat_maxScore]
        exact hminimum
      rw [UInt32.toNat_sub_of_le _ _ hunder, toNat_maxScore]
    have hapart := of_decide_eq_true h
    rw [hheadroom, Nat.mul_sub, Nat.sub_mul] at hapart
    have hbound := Nat.mul_le_mul_left (max sourceSize destinationSize) hminimum
    have hmin := Nat.mul_le_mul_right maxScore (min_le_max : min sourceSize destinationSize ≤ _)
    have hlt : score * max sourceSize destinationSize < minimumScore.toNat * max sourceSize destinationSize := by
      rw [Nat.mul_comm minimumScore.toNat]
      omega
    exact Nat.lt_of_mul_lt_mul_right hlt
  · omega

end

/-- The similarity of any two files is a score, without a division by zero and without the value that stands in for
it. For any contents, the sizes are too far apart only where the score would be less than the minimum; what is copied
is the sum of the smaller counts of the hashes of both files, and at most the smaller size; the spans are sorted by
their hashes, each once, and count the bytes without the returns of line ends, which a text is counted as. -/
theorem similarity_scores {I E : Type} (data : Role → ℕ → Option (List UInt8)) (isText : Role → ℕ → Bool)
    (sourceMode destinationMode : ℕ) (minimumScore : UInt32) (i j : ℕ) :
    (∃ score ≤ maxScore, outcome (ofData data isText : Contents I E) sourceMode destinationMode minimumScore i j =
      .ok (.score score)) ∧
    ∀ (source destination : List UInt8) (sourceText destinationText : Bool),
      let sourceSpans := spanCounts source sourceText
      let destinationSpans := spanCounts destination destinationText
      (∃ full ≤ maxScore,
        finalScore source.length destination.length sourceSpans destinationSpans = .score full ∧
          (sizesApart source.length destination.length minimumScore = true → full < minimumScore.toNat)) ∧
      copiedBytes sourceSpans destinationSpans =
        ∑ hash ∈ (hashes sourceSpans).toFinset ∩ (hashes destinationSpans).toFinset,
          min (countOf sourceSpans hash) (countOf destinationSpans hash) ∧
      copiedBytes sourceSpans destinationSpans ≤ min source.length destination.length ∧
      Ascending sourceSpans ∧ (sourceSpans.map Prod.snd).sum = (counted source sourceText).length ∧
      spanCounts source true = spanCounts (withoutReturns source) false := by
  refine ⟨?_, fun source destination sourceText destinationText => ⟨?_, ?_, ?_, ?_, ?_, spanCounts_text source⟩⟩
  · unfold outcome ofData
    simp only [bind, Except.bind, pure, Except.pure]
    split_ifs
    · exact ⟨0, Nat.zero_le _, rfl⟩
    cases data .source i with
    | none =>
      simp only [Option.map_none]
      exact ⟨0, Nat.zero_le _, rfl⟩
    | some source =>
      cases data .destination j with
      | none =>
        simp only [Option.map_none, Option.map_some]
        exact ⟨0, Nat.zero_le _, rfl⟩
      | some destination =>
        obtain ⟨score, hle, hscore, -⟩ :=
          finalScore_eq source destination (isText .source i) (isText .destination j)
        simp only [Option.map_some]
        split_ifs
        · exact ⟨0, Nat.zero_le _, rfl⟩
        · exact ⟨score, hle, congrArg Except.ok hscore⟩
  · obtain ⟨full, hle, hfull, hscaled⟩ := finalScore_eq source destination sourceText destinationText
    exact ⟨full, hle, hfull, fun h => lt_of_sizesApart h hle hscaled⟩
  · exact copiedBytes_eq_sum (spanCounts_spec source sourceText).1 (spanCounts_spec destination destinationText).1
  · exact copiedBytes_le_min source destination sourceText destinationText
  · exact (spanCounts_spec source sourceText).1
  · exact (spanCounts_spec source sourceText).2

end Paneflow.Git.Renames
