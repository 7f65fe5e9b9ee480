import Paneflow.Checked
import Paneflow.Git.Renames

/-!
# What the pairing of renamed files gives

Each pass records pairs of a source that is not used and a destination that is not paired (`Sound`). The table of the
last pass has the four best sources of each destination, so that a good pair that was not made has four better sources
in its way, all of them taken (`pair_stable`).

A score is at most 60000 only as far as the spans of a file count no more bytes than it has, which is the assumption
`Within`. The spans that are counted from the data of a file are so (`within_data`); `pair_spans_exceed` is a pair of
which it does not hold.
-/

namespace Paneflow.Git.Renames

open Paneflow.Checked

variable {I E : Type} {sources destinations : List RenameSide} {contents : Contents I E}

/-- The spans of a file count at most its bytes. -/
def Within (contents : Contents I E) : Prop :=
  ∀ role index spans size, contents.spans role index = .ok (some spans) →
    contents.size role index = .ok (some size) → (spans.map Prod.snd).sum ≤ size

theorem sum_countSpan (counts : Spans) (hash length : ℕ) :
    ((countSpan counts hash length).map Prod.snd).sum = (counts.map Prod.snd).sum + length := by
  induction counts with
  | nil => simp [countSpan]
  | cons span counts ih =>
    unfold countSpan
    split_ifs
    · simp only [List.map_cons, List.sum_cons]
      omega
    · simp only [List.map_cons, List.sum_cons, ih]
      omega

theorem sum_countSpans_le (isText : Bool) (bytes : List UInt8) (counts : Spans) (accumulated : UInt32 × UInt32)
    (length : ℕ) :
    ((countSpans isText bytes counts accumulated length).map Prod.snd).sum ≤
      (counts.map Prod.snd).sum + length + bytes.length := by
  induction bytes generalizing counts accumulated length with
  | nil =>
    unfold countSpans
    split_ifs
    · rw [sum_countSpan]
      omega
    · omega
  | cons byte bytes ih =>
    unfold countSpans
    rw [List.length_cons]
    split_ifs
    · have hskip := ih counts accumulated length
      omega
    · refine (ih counts _ (length + 1)).trans ?_
      omega
    · refine (ih _ (0, 0) 0).trans ?_
      rw [sum_countSpan]
      omega

/-- Contents whose sizes and spans are those of some data: the assumption holds of them. -/
theorem within_data {data : Role → ℕ → Option (List UInt8)} {isText : Role → ℕ → Bool}
    (hsize : ∀ role index, contents.size role index = .ok ((data role index).map List.length))
    (hspans : ∀ role index, contents.spans role index =
      .ok ((data role index).map fun bytes => spanCounts bytes (isText role index))) : Within contents := by
  intro role index spans size hspan hlength
  rw [hspans] at hspan
  rw [hsize] at hlength
  obtain ⟨bytes, hdata, rfl⟩ := Option.map_eq_some_iff.1 (Except.ok.inj hspan)
  rw [hdata] at hlength
  obtain rfl : bytes.length = size := Option.some.inj (Except.ok.inj hlength)
  have hsum := sum_countSpans_le (isText role index) bytes [] (0, 0) 0
  have hsorted := ((List.perm_insertionSort (fun a b : ℕ × ℕ => a.1 < b.1 ∨ a.1 = b.1 ∧ a.2 ≤ b.2)
    (countSpans (isText role index) bytes [] (0, 0) 0)).map Prod.snd).sum_eq
  rw [spanCounts, hsorted]
  simpa using hsum

/-! ### Scores -/

theorem sum_dropWhile_le (p : ℕ × ℕ → Bool) (spans : Spans) :
    ((spans.dropWhile p).map Prod.snd).sum ≤ (spans.map Prod.snd).sum :=
  ((List.dropWhile_sublist p).map Prod.snd).sum_le_sum fun _ _ => Nat.zero_le _

theorem copiedBytes_le (source destination : Spans) :
    copiedBytes source destination ≤ (destination.map Prod.snd).sum := by
  induction source generalizing destination with
  | nil => exact Nat.zero_le _
  | cons span source ih =>
    obtain ⟨hash, count⟩ := span
    have hdrop := sum_dropWhile_le (fun span => span.1 < hash) destination
    unfold copiedBytes
    split
    · next other count' rest heq =>
      rw [heq, List.map_cons, List.sum_cons] at hdrop
      have hrest := ih rest
      have hwhole := ih ((other, count') :: rest)
      rw [List.map_cons, List.sum_cons] at hwhole
      have hmin := Nat.min_le_right count count'
      dsimp only at hdrop hwhole
      split_ifs
      · omega
      · omega
    · have hnil := ih []
      rw [List.map_nil, List.sum_nil] at hnil
      omega

theorem spanScore_le {sourceSize destinationSize : ℕ} {sourceSpans destinationSpans : Spans}
    (h : (destinationSpans.map Prod.snd).sum ≤ destinationSize) :
    spanScore sourceSize destinationSize sourceSpans destinationSpans ≤ maxScore := by
  have hcopied := copiedBytes_le sourceSpans destinationSpans
  have hmax := Nat.le_max_right sourceSize destinationSize
  unfold spanScore
  by_cases hempty : destinationSize = 0
  · rw [if_pos hempty]
    exact Nat.zero_le _
  · rw [if_neg hempty]
    have hscore : copiedBytes sourceSpans destinationSpans * maxScore / max sourceSize destinationSize ≤
        maxScore := by
      refine Nat.div_le_of_le_mul ?_
      exact Nat.mul_le_mul_right maxScore (by omega)
    dsimp only
    split_ifs
    · exact hscore
    · exact le_rfl

/-- A score is zero, or that of regular files by their sizes and spans. -/
theorem similarity_cases {minimumScore score : ℕ} {source : Fin sources.length}
    {destination : Fin destinations.length}
    (h : similarity sources destinations contents minimumScore source destination = .ok score) :
    score = 0 ∨ isRegular (sources.get source).mode = true ∧
      isRegular (destinations.get destination).mode = true ∧
      ∃ sourceSize destinationSize sourceSpans destinationSpans,
        contents.size .destination destination = .ok (some destinationSize) ∧
        contents.spans .destination destination = .ok (some destinationSpans) ∧
        score = spanScore sourceSize destinationSize sourceSpans destinationSpans := by
  unfold similarity at h
  by_cases hmodes : (!isRegular (sources.get source).mode || !isRegular (destinations.get destination).mode) = true
  · rw [if_pos hmodes] at h
    exact .inl (Except.ok.inj h).symm
  rw [if_neg hmodes] at h
  have hregular : isRegular (sources.get source).mode = true ∧
      isRegular (destinations.get destination).mode = true := by
    simpa using hmodes
  obtain ⟨sourceSize, -, h⟩ := bind_eq_ok.1 h
  obtain ⟨destinationSize, hsize, h⟩ := bind_eq_ok.1 h
  rcases sourceSize with _ | sourceSize
  · exact .inl (Except.ok.inj h).symm
  rcases destinationSize with _ | destinationSize
  · exact .inl (Except.ok.inj h).symm
  dsimp only at h
  split at h
  · exact .inl (Except.ok.inj h).symm
  obtain ⟨sourceSpans, -, h⟩ := bind_eq_ok.1 h
  rcases sourceSpans with _ | sourceSpans
  · exact .inl (Except.ok.inj h).symm
  obtain ⟨destinationSpans, hspans, h⟩ := bind_eq_ok.1 h
  rcases destinationSpans with _ | destinationSpans
  · exact .inl (Except.ok.inj h).symm
  exact .inr ⟨hregular.1, hregular.2, sourceSize, destinationSize, sourceSpans, destinationSpans, hsize, hspans,
    (Except.ok.inj h).symm⟩

theorem similarity_le (hwithin : Within contents) {minimumScore score : ℕ} {source : Fin sources.length}
    {destination : Fin destinations.length}
    (h : similarity sources destinations contents minimumScore source destination = .ok score) :
    score ≤ maxScore := by
  rcases similarity_cases h with rfl | ⟨-, -, _, _, _, _, hsize, hspans, rfl⟩
  · exact Nat.zero_le _
  · exact spanScore_le (hwithin .destination destination _ _ hspans hsize)

theorem modesMatch_of_similarity {minimumScore score : ℕ} {source : Fin sources.length}
    {destination : Fin destinations.length}
    (h : similarity sources destinations contents minimumScore source destination = .ok score)
    (hpos : 0 < score) : modesMatch sources destinations source destination = true := by
  unfold modesMatch
  rcases similarity_cases h with rfl | ⟨hsource, hdestination, -⟩
  · exact absurd hpos (Nat.lt_irrefl 0)
  · rw [hsource, hdestination]
    rfl

/-! ### Matchers -/

/-- The pairs of a matcher: each of its own destination, with a source that is used for it alone, a score in the
range, and modes that match. -/
structure Sound (matcher : Sides sources destinations) : Prop where
  destination : ∀ d r, matcher.renames d = some r → r.destination = d
  source : ∀ d r, matcher.renames d = some r → matcher.sourceUsed r.source = true
  score : ∀ d r, matcher.renames d = some r → defaultRenameScore ≤ r.score ∧ r.score ≤ maxScore
  modes : ∀ d r, matcher.renames d = some r → modesMatch sources destinations r.source d = true
  once : ∀ d d' r r', matcher.renames d = some r → matcher.renames d' = some r' → r.source = r'.source → d = d'
  used : ∀ s, matcher.sourceUsed s = true → ∃ d r, matcher.renames d = some r ∧ r.source = s

theorem sound_start : Sound (start sources destinations) where
  destination _ _ h := nomatch h
  source _ _ h := nomatch h
  score _ _ h := nomatch h
  modes _ _ h := nomatch h
  once _ _ _ _ h := nomatch h
  used _ h := nomatch h

section
variable {matcher matcher' : Sides sources destinations} {source : Fin sources.length}
  {destination : Fin destinations.length} {score : ℕ}

theorem renames_record (d : Fin destinations.length) :
    (matcher.record source destination score).renames d =
      if d = destination then some ⟨source, destination, score⟩ else matcher.renames d :=
  Function.update_apply ..

theorem sourceUsed_record (s : Fin sources.length) :
    (matcher.record source destination score).sourceUsed s =
      if s = source then true else matcher.sourceUsed s :=
  Function.update_apply ..

theorem Sound.record (h : Sound matcher) (hsource : matcher.sourceUsed source = false)
    (hdestination : matcher.renames destination = none) (hscore : defaultRenameScore ≤ score ∧ score ≤ maxScore)
    (hmodes : modesMatch sources destinations source destination = true) :
    Sound (matcher.record source destination score) := by
  -- the pairs are the new one and the old ones, whose sources are other ones
  have hcases : ∀ d r, (matcher.record source destination score).renames d = some r →
      (d = destination ∧ r = ⟨source, destination, score⟩) ∨
      (matcher.renames d = some r ∧ r.source ≠ source) := by
    intro d r hr
    rw [renames_record] at hr
    split_ifs at hr with hd
    · exact .inl ⟨hd, (Option.some.inj hr).symm⟩
    · refine .inr ⟨hr, fun heq => ?_⟩
      have hused := h.source d r hr
      rw [heq, hsource] at hused
      exact Bool.false_ne_true hused
  refine ⟨?_, ?_, ?_, ?_, ?_, ?_⟩
  · intro d r hr
    rcases hcases d r hr with ⟨rfl, rfl⟩ | ⟨hold, -⟩
    · rfl
    · exact h.destination d r hold
  · intro d r hr
    rw [sourceUsed_record]
    rcases hcases d r hr with ⟨rfl, rfl⟩ | ⟨hold, hne⟩
    · exact if_pos rfl
    · rw [if_neg hne]
      exact h.source d r hold
  · intro d r hr
    rcases hcases d r hr with ⟨rfl, rfl⟩ | ⟨hold, -⟩
    · exact hscore
    · exact h.score d r hold
  · intro d r hr
    rcases hcases d r hr with ⟨rfl, rfl⟩ | ⟨hold, -⟩
    · exact hmodes
    · exact h.modes d r hold
  · intro d d' r r' hr hr' heq
    rcases hcases d r hr with ⟨rfl, rfl⟩ | ⟨hold, hne⟩
    · rcases hcases d' r' hr' with ⟨rfl, rfl⟩ | ⟨-, hne'⟩
      · rfl
      · exact absurd heq.symm hne'
    · rcases hcases d' r' hr' with ⟨rfl, rfl⟩ | ⟨hold', -⟩
      · exact absurd heq hne
      · exact h.once d d' r r' hold hold' heq
  · intro s hs
    rw [sourceUsed_record] at hs
    split_ifs at hs with heq
    · exact ⟨destination, _, (renames_record destination).trans (if_pos rfl), heq.symm⟩
    · obtain ⟨d, r, hr, hrs⟩ := h.used s hs
      refine ⟨d, r, ?_, hrs⟩
      rw [renames_record, if_neg]
      · exact hr
      · rintro rfl
        rw [hdestination] at hr
        cases hr

/-! ### The exact pass -/

theorem exactBest_spec {candidates : List (Fin sources.length)} {best : Option (Fin sources.length)}
    {bestScore alternatives : ℕ}
    (hbest : ∀ s, best = some s → matcher.sourceUsed s = false ∧
      modesMatch sources destinations s destination = true)
    (h : exactBest sources destinations matcher destination candidates best bestScore alternatives =
      some source) :
    matcher.sourceUsed source = false ∧ modesMatch sources destinations source destination = true := by
  induction candidates generalizing best bestScore alternatives with
  | nil => exact hbest source h
  | cons candidate candidates ih =>
    unfold exactBest at h
    by_cases hskip : (!modesMatch sources destinations candidate destination || matcher.sourceUsed candidate) = true
    · rw [if_pos hskip] at h
      exact ih hbest h
    · rw [if_neg hskip] at h
      have hcandidate : matcher.sourceUsed candidate = false ∧
          modesMatch sources destinations candidate destination = true := by
        rw [Bool.not_eq_true, Bool.or_eq_false_iff] at hskip
        exact ⟨hskip.2, by simpa using hskip.1⟩
      dsimp only at h
      generalize (if sameBasename (sources.get candidate).path (destinations.get destination).path then 2
        else 1) = found at h
      have hnext : ∀ s, (if found > bestScore then some candidate else best) = some s →
          matcher.sourceUsed s = false ∧ modesMatch sources destinations s destination = true := by
        intro s hs
        split_ifs at hs
        · obtain rfl : candidate = s := Option.some.inj hs
          exact hcandidate
        · exact hbest s hs
      split at h
      · exact hnext source h
      · split at h
        · exact hnext source h
        · exact ih hnext h

end

theorem exactOne_cases [DecidableEq I] {byId : I → Option (List (Fin sources.length))}
    {matcher matcher' : Sides sources destinations} {d : Fin destinations.length}
    (h : exactOne sources destinations contents byId matcher d = .ok matcher') :
    matcher' = matcher ∨ ∃ source, matcher' = matcher.record source d maxScore ∧
      matcher.sourceUsed source = false ∧ modesMatch sources destinations source d = true := by
  unfold exactOne at h
  obtain ⟨id, -, h⟩ := bind_eq_ok.1 h
  rcases id with _ | id
  · exact .inl (Except.ok.inj h).symm
  dsimp only at h
  rcases hcandidates : byId id with _ | candidates
  · rw [hcandidates] at h
    exact .inl (Except.ok.inj h).symm
  rw [hcandidates] at h
  dsimp only at h
  rcases hbest : exactBest sources destinations matcher d candidates none 0 identicalAlternatives with _ | source
  · rw [hbest] at h
    exact .inl (Except.ok.inj h).symm
  rw [hbest] at h
  have hfirst : ∀ s, (none : Option (Fin sources.length)) = some s → matcher.sourceUsed s = false ∧
      modesMatch sources destinations s d = true := nofun
  obtain ⟨hunused, hmodes⟩ := exactBest_spec hfirst hbest
  exact .inr ⟨source, (Except.ok.inj h).symm, hunused, hmodes⟩

theorem exact_sound [DecidableEq I] {matcher matcher' : Sides sources destinations} (hsound : Sound matcher)
    (hnone : ∀ d, matcher.renames d = none) (h : exact sources destinations contents matcher = .ok matcher') :
    Sound matcher' := by
  obtain ⟨byId, -, h⟩ := bind_eq_ok.1 h
  -- the destinations that are left are not paired
  have hloop := foldlM_ok (P := fun left m => Sound m ∧ left.Nodup ∧ ∀ d ∈ left, m.renames d = none) ?_
    ⟨hsound, List.nodup_finRange _, fun d _ => hnone d⟩ h
  · exact hloop.1
  · rintro d left m m' ⟨hm, hnodup, hfree⟩ hone
    obtain ⟨hd, hleft⟩ := List.nodup_cons.1 hnodup
    rcases exactOne_cases hone with rfl | ⟨source, rfl, hunused, hmodes⟩
    · exact ⟨hm, hleft, fun d' hd' => hfree d' (List.mem_cons_of_mem _ hd')⟩
    · refine ⟨hm.record hunused (hfree d List.mem_cons_self) ⟨by decide, le_rfl⟩ hmodes, hleft, ?_⟩
      intro d' hd'
      rw [renames_record, if_neg (fun heq : d' = d => hd (heq ▸ hd'))]
      exact hfree d' (List.mem_cons_of_mem _ hd')

/-! ### The pass over base names -/

theorem basenameOne_cases (hwithin : Within contents)
    {sourceByName : List UInt8 → Option (Option (Fin sources.length))}
    {destinationByName : List UInt8 → Option (Option (Fin destinations.length))}
    {matcher matcher' : Sides sources destinations} {source : Fin sources.length}
    (h : basenameOne sources destinations contents sourceByName destinationByName matcher source =
      .ok matcher') :
    matcher' = matcher ∨ ∃ destination score, matcher' = matcher.record source destination score ∧
      matcher.renames destination = none ∧ (defaultRenameScore ≤ score ∧ score ≤ maxScore) ∧
      modesMatch sources destinations source destination = true := by
  unfold basenameOne at h
  dsimp only at h
  split at h
  · next destination _ _ =>
    by_cases hpaired : (matcher.renames destination).isSome = true
    · rw [if_pos hpaired] at h
      exact .inl (Except.ok.inj h).symm
    · rw [if_neg hpaired] at h
      obtain ⟨score, hscore, h⟩ := bind_eq_ok.1 h
      have h := Except.ok.inj h
      by_cases hgood : score ≥ basenameScore
      · rw [if_pos hgood] at h
        have hbasename : defaultRenameScore ≤ basenameScore := by decide
        have hdefault : 0 < defaultRenameScore := by decide
        refine .inr ⟨destination, score, h.symm, by simpa using hpaired, ⟨?_, similarity_le hwithin hscore⟩,
          modesMatch_of_similarity hscore ?_⟩
        · omega
        · omega
      · rw [if_neg hgood] at h
        exact .inl h.symm
  · exact .inl (Except.ok.inj h).symm

theorem byBasename_sound (hwithin : Within contents) {matcher matcher' : Sides sources destinations}
    (hsound : Sound matcher) (h : byBasename sources destinations contents matcher = .ok matcher') :
    Sound matcher' := by
  have hremaining : matcher.remainingSources.Nodup := (List.nodup_finRange _).filter _
  -- the sources that are left are not used
  have hloop := foldlM_ok
    (P := fun left m => Sound m ∧ left.Nodup ∧ ∀ s ∈ left, m.sourceUsed s = false) ?_
    ⟨hsound, hremaining, fun s hs => by simpa using (List.mem_filter.1 hs).2⟩ h
  · exact hloop.1
  · rintro s left m m' ⟨hm, hnodup, hfree⟩ hone
    obtain ⟨hs, hleft⟩ := List.nodup_cons.1 hnodup
    rcases basenameOne_cases hwithin hone with rfl | ⟨d, score, rfl, hnone, hscore, hmodes⟩
    · exact ⟨hm, hleft, fun s' hs' => hfree s' (List.mem_cons_of_mem _ hs')⟩
    · refine ⟨hm.record (hfree s List.mem_cons_self) hnone hscore hmodes, hleft, ?_⟩
      intro s' hs'
      rw [sourceUsed_record, if_neg (fun heq : s' = s => hs (heq ▸ hs'))]
      exact hfree s' (List.mem_cons_of_mem _ hs')

/-! ### The pass over similarities -/

theorem weak_worseCandidate {n m : ℕ} : Table.Weak (worseCandidate (n := n) (m := m)) where
  irrefl a := by
    rcases a with _ | a
    · rfl
    · simp [worseCandidate]
  trans a b c hab hbc := by
    rcases a with _ | a <;> rcases b with _ | b <;> rcases c with _ | c <;>
      simp only [worseCandidate, Bool.false_eq_true] at hab hbc ⊢
    grind
  incomp a b c hab hbc := by
    rcases a with _ | a <;> rcases b with _ | b <;> rcases c with _ | c <;>
      simp only [worseCandidate, Bool.true_eq_false] at hab hbc ⊢
    grind

/-- What is not worse has at least the score. -/
theorem score_of_not_worse {n m : ℕ} {slot : Option (Candidate n m)} {b : Candidate n m}
    (h : worseCandidate slot (some b) = false) : ∃ a, slot = some a ∧ b.score ≤ a.score := by
  rcases slot with _ | a
  · cases h
  · refine ⟨a, rfl, ?_⟩
    simp only [worseCandidate] at h
    split_ifs at h with heq
    · exact heq.ge
    · exact Nat.le_of_not_lt (by simpa using h)

theorem takeBest_sound {table : List (Option (Candidate sources.length destinations.length))}
    (htable : ∀ candidate, some candidate ∈ table → candidate.score ≤ maxScore ∧ (0 < candidate.score →
      modesMatch sources destinations candidate.source candidate.destination = true))
    {matcher : Sides sources destinations} (h : Sound matcher) : Sound (takeBest table matcher) := by
  induction table generalizing matcher with
  | nil => exact h
  | cons slot table ih =>
    have hrest := fun candidate hmem => htable candidate (List.mem_cons_of_mem _ hmem)
    rcases slot with _ | candidate
    · exact h
    · obtain ⟨hmax, hmodes⟩ := htable candidate List.mem_cons_self
      unfold takeBest
      by_cases hlow : candidate.score < defaultRenameScore
      · rw [if_pos hlow]
        exact h
      · rw [if_neg hlow]
        by_cases htaken : ((matcher.renames candidate.destination).isSome ||
            matcher.sourceUsed candidate.source) = true
        · rw [if_pos htaken]
          exact ih hrest h
        · rw [if_neg htaken]
          rw [Bool.not_eq_true, Bool.or_eq_false_iff] at htaken
          have hpos : 0 < defaultRenameScore := by decide
          exact ih hrest (h.record htaken.2 (by simpa using htaken.1) ⟨Nat.le_of_not_lt hlow, hmax⟩
            (hmodes (by omega)))

/-- What was used or paired stays so. -/
theorem takeBest_mono {n m : ℕ} (table : List (Option (Candidate n m))) (matcher : Matcher n m) :
    (∀ s, matcher.sourceUsed s = true → (takeBest table matcher).sourceUsed s = true) ∧
    (∀ d, (matcher.renames d).isSome = true → ((takeBest table matcher).renames d).isSome = true) := by
  induction table generalizing matcher with
  | nil => exact ⟨fun _ h => h, fun _ h => h⟩
  | cons slot table ih =>
    rcases slot with _ | candidate
    · exact ⟨fun _ h => h, fun _ h => h⟩
    · unfold takeBest
      split_ifs
      · exact ⟨fun _ h => h, fun _ h => h⟩
      · exact ih matcher
      · obtain ⟨hused, hpaired⟩ := ih (matcher.record candidate.source candidate.destination candidate.score)
        refine ⟨fun s hs => hused s ?_, fun d hd => hpaired d ?_⟩
        · show Function.update matcher.sourceUsed candidate.source true s = true
          rw [Function.update_apply]
          split_ifs
          · rfl
          · exact hs
        · show (Function.update matcher.renames candidate.destination _ d).isSome = true
          rw [Function.update_apply]
          split_ifs
          · rfl
          · exact hd

/-- In a sorted table each good candidate gets its turn: in the end its destination is paired, or its source used. -/
theorem takeBest_complete {n m : ℕ} {table : List (Option (Candidate n m))}
    (hsorted : table.Pairwise fun a b => worseCandidate a b = false) (matcher : Matcher n m)
    {candidate : Candidate n m} (hmem : some candidate ∈ table) (hgood : defaultRenameScore ≤ candidate.score) :
    ((takeBest table matcher).renames candidate.destination).isSome = true ∨
      (takeBest table matcher).sourceUsed candidate.source = true := by
  induction table generalizing matcher with
  | nil => exact absurd hmem List.not_mem_nil
  | cons slot table ih =>
    obtain ⟨hfirst, hrest⟩ := List.pairwise_cons.1 hsorted
    rcases List.mem_cons.1 hmem with rfl | hlater
    · -- its own turn
      have hmono := takeBest_mono (some candidate :: table) matcher
      by_cases htaken : ((matcher.renames candidate.destination).isSome ||
          matcher.sourceUsed candidate.source) = true
      · rcases Bool.or_eq_true_iff.1 htaken with hpaired | hused
        · exact .inl (hmono.2 _ hpaired)
        · exact .inr (hmono.1 _ hused)
      · right
        unfold takeBest
        rw [if_neg (Nat.not_lt.2 hgood), if_neg htaken]
        refine (takeBest_mono table _).1 _ ?_
        exact Function.update_self ..
    · -- what stands in front of it is no worse, and so no reason to stop
      obtain ⟨first, rfl, hscore⟩ := score_of_not_worse (hfirst (some candidate) hlater)
      unfold takeBest
      rw [if_neg (by omega)]
      split_ifs
      · exact ih hrest matcher hlater
      · exact ih hrest _ hlater

/-- The candidates of a destination, one for each source that remains, and the table of the best of them. -/
theorem keptFor_spec {remaining : List (Fin sources.length)} {d : Fin destinations.length}
    {kept : List (Option (Candidate sources.length destinations.length))}
    (h : keptFor sources destinations contents remaining d = .ok kept) :
    kept.length = candidatesPerDestination ∧
    ∃ offered : List (Candidate sources.length destinations.length), ∃ dropped,
      remaining.mapM (candidate sources destinations contents d) = .ok offered ∧
      (kept ++ dropped).Perm (List.replicate candidatesPerDestination none ++ offered.map some) ∧
      ∀ out ∈ dropped, ∀ slot ∈ kept, worseCandidate slot out = false := by
  obtain ⟨offered, hmap, hfold⟩ := foldlM_bind_ok h
  have hsome : kept = (offered.map some).foldl (Table.keepIfBetter worseCandidate)
      (List.replicate candidatesPerDestination none) := by
    rw [List.foldl_map]
    exact hfold.symm
  obtain ⟨dropped, hperm, hbest⟩ := Table.offered_spec weak_worseCandidate
    (List.replicate candidatesPerDestination (none : Option (Candidate sources.length destinations.length)))
    (offered.map some)
  rw [← hsome] at hperm hbest
  refine ⟨?_, offered, dropped, hmap, hperm, hbest⟩
  rw [hsome, Table.length_foldl_keepIfBetter, List.length_replicate]

theorem candidate_ok {d : Fin destinations.length} {s : Fin sources.length}
    {c : Candidate sources.length destinations.length}
    (h : candidate sources destinations contents d s = .ok c) :
    c.source = s ∧ c.destination = d ∧
      similarity sources destinations contents defaultRenameScore s d = .ok c.score := by
  obtain ⟨score, hscore, hc⟩ := bind_eq_ok.1 h
  obtain rfl := Except.ok.inj hc
  exact ⟨rfl, rfl, hscore⟩

theorem mem_kept {remaining : List (Fin sources.length)} {d : Fin destinations.length}
    {kept : List (Option (Candidate sources.length destinations.length))}
    (h : keptFor sources destinations contents remaining d = .ok kept)
    {c : Candidate sources.length destinations.length} (hc : some c ∈ kept) :
    candidate sources destinations contents d c.source = .ok c := by
  obtain ⟨-, offered, dropped, hmap, hperm, -⟩ := keptFor_spec h
  rcases List.mem_append.1 (hperm.subset (List.mem_append_left dropped hc)) with hunused | hoffered
  · exact nomatch List.eq_of_mem_replicate hunused
  · obtain ⟨c', hc', heq⟩ := List.mem_map.1 hoffered
    obtain rfl := Option.some.inj heq
    obtain ⟨s, -, hs⟩ := mapM_ok_right hmap hc'
    rw [(candidate_ok hs).1]
    exact hs

/-- A source is in the table of a destination, or the table is full of sources that are no worse. -/
theorem kept_or_better {remaining : List (Fin sources.length)} {d : Fin destinations.length}
    {kept : List (Option (Candidate sources.length destinations.length))}
    (h : keptFor sources destinations contents remaining d = .ok kept) (hnodup : remaining.Nodup)
    {s : Fin sources.length} (hs : s ∈ remaining) :
    ∃ c, candidate sources destinations contents d s = .ok c ∧ (some c ∈ kept ∨
      ∃ better : List (Candidate sources.length destinations.length),
        better.length = candidatesPerDestination ∧ (better.map Candidate.source).Nodup ∧
        s ∉ better.map Candidate.source ∧ ∀ b ∈ better, some b ∈ kept ∧ c.score ≤ b.score) := by
  obtain ⟨hlength, offered, dropped, hmap, hperm, hbest⟩ := keptFor_spec h
  obtain ⟨c, hoffered, hc⟩ := mapM_ok_left hmap hs
  refine ⟨c, hc, ?_⟩
  have hmem : some c ∈ kept ++ dropped :=
    hperm.symm.subset (List.mem_append_right _ (List.mem_map_of_mem hoffered))
  rcases List.mem_append.1 hmem with hkept | hdropped
  · exact .inl hkept
  right
  -- no slot of the table is worse, and so none is unused
  have hslots : ∀ slot ∈ kept, ∃ b, slot = some b ∧ c.score ≤ b.score := fun slot hslot =>
    score_of_not_worse (hbest (some c) hdropped slot hslot)
  have hfull : kept = (kept.filterMap id).map some := by
    rw [List.map_filterMap]
    refine ((List.filterMap_congr (g := some) fun slot hslot => ?_).trans List.filterMap_some).symm
    obtain ⟨b, rfl, -⟩ := hslots slot hslot
    rfl
  have hunused : (List.replicate candidatesPerDestination
      (none : Option (Candidate sources.length destinations.length))).filterMap id = [] := rfl
  have hsources : ((kept.filterMap id).map Candidate.source ++ (dropped.filterMap id).map Candidate.source).Perm
      remaining := by
    have hall := hperm.filterMap id
    rw [List.filterMap_append, List.filterMap_append, hunused, List.nil_append, List.filterMap_map] at hall
    have hoffered : offered.filterMap (id ∘ some) = offered := List.filterMap_some
    rw [hoffered] at hall
    have hsource := hall.map Candidate.source
    rw [List.map_append, mapM_ok_map hmap fun s c hc => (candidate_ok hc).1] at hsource
    exact hsource
  obtain ⟨hbetter, -, hdisjoint⟩ := List.nodup_append.1 (hsources.nodup_iff.2 hnodup)
  refine ⟨kept.filterMap id, ?_, hbetter, fun hin => ?_, fun b hb => ?_⟩
  · rw [← hlength, hfull, List.length_map, ← hfull]
  · have hout : c ∈ dropped.filterMap id := List.mem_filterMap.2 ⟨some c, hdropped, rfl⟩
    exact hdisjoint s hin c.source (List.mem_map_of_mem hout) (candidate_ok hc).1.symm
  · have hslot : some b ∈ kept := by
      rw [hfull]
      exact List.mem_map_of_mem hb
    obtain ⟨b', hb', hscore⟩ := hslots _ hslot
    obtain rfl := Option.some.inj hb'
    exact ⟨hslot, hscore⟩

theorem bySimilarity_cases {limit : ℕ} {matcher matcher' : Sides sources destinations}
    (h : bySimilarity sources destinations contents limit matcher = .ok matcher') :
    (matcher' = matcher ∧ (matcher.remainingSources = [] ∨ matcher.remainingDestinations = [] ∨
      exceedsLimit matcher.remainingDestinations.length matcher.remainingSources.length limit = true)) ∨
    ∃ table, matcher.remainingDestinations.mapM
        (keptFor sources destinations contents matcher.remainingSources) = .ok table ∧
      matcher' = takeBest (table.flatten.insertionSort fun a b => worseCandidate a b = false) matcher := by
  unfold bySimilarity at h
  dsimp only at h
  by_cases hempty : (matcher.remainingSources.isEmpty || matcher.remainingDestinations.isEmpty) = true
  · rw [if_pos hempty] at h
    refine .inl ⟨(Except.ok.inj h).symm, ?_⟩
    rcases Bool.or_eq_true_iff.1 hempty with hsources | hdestinations
    · exact .inl (List.isEmpty_iff.1 hsources)
    · exact .inr (.inl (List.isEmpty_iff.1 hdestinations))
  rw [if_neg hempty] at h
  by_cases hlimit : exceedsLimit matcher.remainingDestinations.length matcher.remainingSources.length limit = true
  · rw [if_pos hlimit] at h
    exact .inl ⟨(Except.ok.inj h).symm, .inr (.inr hlimit)⟩
  · rw [if_neg hlimit] at h
    obtain ⟨table, htable, h⟩ := bind_eq_ok.1 h
    exact .inr ⟨table, htable, (Except.ok.inj h).symm⟩

/-- An entry of the table is the candidate of its source and its destination. -/
theorem mem_table {remaining : List (Fin sources.length)} {left : List (Fin destinations.length)}
    {table : List (List (Option (Candidate sources.length destinations.length)))}
    (h : left.mapM (keptFor sources destinations contents remaining) = .ok table)
    {c : Candidate sources.length destinations.length} (hc : some c ∈ table.flatten) :
    similarity sources destinations contents defaultRenameScore c.source c.destination = .ok c.score := by
  obtain ⟨kept, hkept, hmem⟩ := List.mem_flatten.1 hc
  obtain ⟨d, -, hd⟩ := mapM_ok_right h hkept
  obtain ⟨-, hdestination, hscore⟩ := candidate_ok (mem_kept hd hmem)
  rw [hdestination]
  exact hscore

theorem bySimilarity_sound (hwithin : Within contents) {limit : ℕ} {matcher matcher' : Sides sources destinations}
    (hsound : Sound matcher) (h : bySimilarity sources destinations contents limit matcher = .ok matcher') :
    Sound matcher' := by
  rcases bySimilarity_cases h with ⟨rfl, -⟩ | ⟨table, htable, rfl⟩
  · exact hsound
  · refine takeBest_sound (fun c hc => ?_) hsound
    have hscore := mem_table htable ((List.mem_insertionSort _).1 hc)
    exact ⟨similarity_le hwithin hscore, modesMatch_of_similarity hscore⟩

/-- **A good pair that was not made** has four other sources in its way, no less similar and all used. -/
theorem bySimilarity_stable {limit : ℕ} {matcher matcher' : Sides sources destinations}
    (h : bySimilarity sources destinations contents limit matcher = .ok matcher')
    (hlimit : exceedsLimit matcher.remainingDestinations.length matcher.remainingSources.length limit = false)
    {d : Fin destinations.length} (hd : matcher'.renames d = none) {s : Fin sources.length}
    (hs : matcher'.sourceUsed s = false) {score : ℕ}
    (hscore : similarity sources destinations contents defaultRenameScore s d = .ok score)
    (hgood : defaultRenameScore ≤ score) :
    ∃ taken : List (Fin sources.length), taken.length = candidatesPerDestination ∧ taken.Nodup ∧ s ∉ taken ∧
      ∀ s' ∈ taken, matcher'.sourceUsed s' = true ∧ ∃ score',
        similarity sources destinations contents defaultRenameScore s' d = .ok score' ∧ score ≤ score' := by
  -- the pass leaves the matcher as it is only when there is nothing left to pair
  have hcases := bySimilarity_cases h
  have hremains : matcher.sourceUsed s = false ∧ matcher.renames d = none := by
    rcases hcases with ⟨rfl, -⟩ | ⟨table, -, rfl⟩
    · exact ⟨hs, hd⟩
    · obtain ⟨hused, hpaired⟩ := takeBest_mono (table.flatten.insertionSort fun a b => worseCandidate a b = false) matcher
      constructor
      · by_contra hne
        rw [hused s (by simpa using hne)] at hs
        exact Bool.false_ne_true hs.symm
      · by_contra hne
        have hsome := hpaired d (Option.isSome_iff_ne_none.2 hne)
        rw [hd] at hsome
        exact Bool.false_ne_true hsome
  have hsource : s ∈ matcher.remainingSources :=
    List.mem_filter.2 ⟨List.mem_finRange s, by rw [hremains.1]; rfl⟩
  have hdestination : d ∈ matcher.remainingDestinations :=
    List.mem_filter.2 ⟨List.mem_finRange d, by rw [hremains.2]; rfl⟩
  rcases hcases with ⟨-, hnone | hnone | hexceeds⟩ | ⟨table, htable, rfl⟩
  · rw [hnone] at hsource
    exact absurd hsource List.not_mem_nil
  · rw [hnone] at hdestination
    exact absurd hdestination List.not_mem_nil
  · rw [hlimit] at hexceeds
    exact absurd hexceeds Bool.false_ne_true
  obtain ⟨kept, hkept, hd'⟩ := mapM_ok_left htable hdestination
  -- the sources of the good candidates that were kept are used, for the destination is not paired
  have hturn : ∀ c, some c ∈ kept → defaultRenameScore ≤ c.score →
      (takeBest (table.flatten.insertionSort fun a b => worseCandidate a b = false) matcher).sourceUsed c.source = true := by
    intro c hc hgood
    have hmem : some c ∈ table.flatten.insertionSort fun a b => worseCandidate a b = false :=
      (List.mem_insertionSort _).2 (List.mem_flatten.2 ⟨kept, hkept, hc⟩)
    have hturn := takeBest_complete (weak_worseCandidate.pairwise_insertionSort table.flatten) matcher hmem hgood
    rw [(candidate_ok (mem_kept hd' hc)).2.1, hd] at hturn
    exact hturn.resolve_left Bool.false_ne_true
  have hnodup : matcher.remainingSources.Nodup := (List.nodup_finRange _).filter _
  obtain ⟨c, hc, hkeptc | ⟨better, hlength, hbetter, hother, hall⟩⟩ := kept_or_better hd' hnodup hsource
  · obtain ⟨hcs, -, hcscore⟩ := candidate_ok hc
    obtain rfl := Except.ok.inj (hcscore.symm.trans hscore)
    have hused := hturn c hkeptc hgood
    rw [hcs, hs] at hused
    exact absurd hused Bool.false_ne_true
  · obtain rfl := Except.ok.inj ((candidate_ok hc).2.2.symm.trans hscore)
    refine ⟨better.map Candidate.source, by rw [List.length_map, hlength], hbetter, hother, ?_⟩
    intro s' hs'
    obtain ⟨b, hb, rfl⟩ := List.mem_map.1 hs'
    obtain ⟨hkeptb, hle⟩ := hall b hb
    exact ⟨hturn b hkeptb (hgood.trans hle), b.score, (candidate_ok (mem_kept hd' hkeptb)).2.2, hle⟩

/-! ### The pairing -/

theorem pairedEarly_sound [DecidableEq I] (hwithin : Within contents) {matcher : Sides sources destinations}
    (h : pairedEarly sources destinations contents = .ok matcher) : Sound matcher := by
  obtain ⟨exactly, hexact, hbasename⟩ := bind_eq_ok.1 h
  exact byBasename_sound hwithin (exact_sound sound_start (fun _ => rfl) hexact) hbasename

/-- A result of `pair` is what the matcher has at the end, unless there is nothing to pair. -/
theorem pair_cases [DecidableEq I] {limit : ℕ} {renames : List (Rename sources.length destinations.length)}
    (h : pair sources destinations contents limit = .ok renames) :
    (renames = [] ∧ (sources = [] ∨ destinations = [])) ∨
    ∃ early matcher, pairedEarly sources destinations contents = .ok early ∧
      bySimilarity sources destinations contents limit early = .ok matcher ∧
      renames = (List.finRange destinations.length).filterMap matcher.renames := by
  unfold pair at h
  by_cases hempty : (sources.isEmpty || destinations.isEmpty) = true
  · rw [if_pos hempty] at h
    refine .inl ⟨(Except.ok.inj h).symm, ?_⟩
    rcases Bool.or_eq_true_iff.1 hempty with hsources | hdestinations
    · exact .inl (List.isEmpty_iff.1 hsources)
    · exact .inr (List.isEmpty_iff.1 hdestinations)
  · rw [if_neg hempty] at h
    obtain ⟨early, hearly, h⟩ := bind_eq_ok.1 h
    obtain ⟨matcher, hmatcher, h⟩ := bind_eq_ok.1 h
    exact .inr ⟨early, matcher, hearly, hmatcher, (Except.ok.inj h).symm⟩

section
variable {matcher : Sides sources destinations}

theorem mem_renames (hsound : Sound matcher) {r : Rename sources.length destinations.length} :
    r ∈ (List.finRange destinations.length).filterMap matcher.renames ↔ matcher.renames r.destination = some r := by
  constructor
  · intro hr
    obtain ⟨d, -, hd⟩ := List.mem_filterMap.1 hr
    rw [hsound.destination d r hd]
    exact hd
  · exact fun hr => List.mem_filterMap.2 ⟨r.destination, List.mem_finRange _, hr⟩

theorem renames_increasing (hsound : Sound matcher) :
    ((List.finRange destinations.length).filterMap matcher.renames).Pairwise
      fun r r' => r.destination < r'.destination := by
  refine (List.pairwise_lt_finRange _).filterMap matcher.renames fun d d' hlt r hr r' hr' => ?_
  rw [hsound.destination d r hr, hsound.destination d' r' hr']
  exact hlt

theorem sources_nodup (hsound : Sound matcher) :
    (((List.finRange destinations.length).filterMap matcher.renames).map Rename.source).Nodup := by
  rw [List.Nodup, List.pairwise_map]
  refine List.Pairwise.filterMap matcher.renames (fun d d' hne r hr r' hr' heq => ?_) (List.nodup_finRange _)
  exact hne (hsound.once d d' r r' hr hr' heq)

end

/-- **The pairing.** The destinations increase, no source is used twice, the scores are in the range and the modes
match. A good pair that was not made, though its source and its destination are left, has four other sources in its
way: each no less similar to the destination, and each taken by another pair. -/
theorem pair_stable [DecidableEq I] (hwithin : Within contents) {limit : ℕ}
    {renames : List (Rename sources.length destinations.length)}
    (h : pair sources destinations contents limit = .ok renames) :
    renames.Pairwise (fun r r' => r.destination < r'.destination) ∧
    (renames.map Rename.source).Nodup ∧
    (∀ r ∈ renames, 30000 ≤ r.score ∧ r.score ≤ maxScore ∧
      (isRegular (sources.get r.source).mode = true ∧ isRegular (destinations.get r.destination).mode = true ∨
        (sources.get r.source).mode = (destinations.get r.destination).mode)) ∧
    ∀ early, pairedEarly sources destinations contents = .ok early →
      exceedsLimit early.remainingDestinations.length early.remainingSources.length limit = false →
      ∀ d s score, (∀ r ∈ renames, r.destination ≠ d) → (∀ r ∈ renames, r.source ≠ s) →
        similarity sources destinations contents defaultRenameScore s d = .ok score → 30000 ≤ score →
        ∃ taken : List (Fin sources.length), taken.length = 4 ∧ taken.Nodup ∧ s ∉ taken ∧
          ∀ s' ∈ taken, (∃ score', similarity sources destinations contents defaultRenameScore s' d = .ok score' ∧
            score ≤ score') ∧ ∃ r ∈ renames, r.source = s' ∧ r.destination ≠ d := by
  rcases pair_cases h with ⟨rfl, hempty⟩ | ⟨early, matcher, hearly, hmatcher, rfl⟩
  · refine ⟨.nil, .nil, fun r hr => absurd hr List.not_mem_nil, fun early _ _ d s => ?_⟩
    rcases hempty with rfl | rfl
    · exact s.elim0
    · exact d.elim0
  have hsound := bySimilarity_sound hwithin (pairedEarly_sound hwithin hearly) hmatcher
  refine ⟨renames_increasing hsound, sources_nodup hsound, fun r hr => ?_, ?_⟩
  · have hr := (mem_renames hsound).1 hr
    obtain ⟨hlow, hhigh⟩ := hsound.score _ r hr
    refine ⟨hlow, hhigh, ?_⟩
    simpa only [modesMatch, Bool.or_eq_true, Bool.and_eq_true, decide_eq_true_eq] using hsound.modes _ r hr
  · intro early' hearly' hlimit d s score hd hs hscore hgood
    obtain rfl := Except.ok.inj (hearly.symm.trans hearly')
    have hunpaired : matcher.renames d = none := by
      by_contra hsome
      obtain ⟨r, hr⟩ := Option.ne_none_iff_exists'.1 hsome
      have hdr := hsound.destination d r hr
      exact hd r ((mem_renames hsound).2 (hdr.symm ▸ hr)) hdr
    have hunused : matcher.sourceUsed s = false := by
      by_contra hused
      obtain ⟨d', r, hr, hrs⟩ := hsound.used s (by simpa using hused)
      have hdr := hsound.destination d' r hr
      exact hs r ((mem_renames hsound).2 (hdr.symm ▸ hr)) hrs
    obtain ⟨taken, hlength, hnodup, hother, htaken⟩ :=
      bySimilarity_stable hmatcher hlimit hunpaired hunused hscore hgood
    refine ⟨taken, hlength, hnodup, hother, fun s' hs' => ?_⟩
    obtain ⟨hused, hsimilar⟩ := htaken s' hs'
    obtain ⟨d', r, hr, hrs⟩ := hsound.used s' hused
    have hdr := hsound.destination d' r hr
    have hmem := (mem_renames hsound).2 (hdr.symm ▸ hr)
    exact ⟨hsimilar, r, hmem, hrs, hd r hmem⟩

/-- Files of ten bytes that are all alike, but not the same object. -/
def alike : Contents ℕ Unit where
  identity _ _ := .ok none
  size _ _ := .ok (some 10)
  spans _ _ := .ok (some [(7, 10)])

/-- Five regular files of one name. -/
def fiveSides (name : UInt8) : List RenameSide := List.replicate 5 ⟨[name], 0o100644, none⟩

/-- Of five sources and five destinations that are all alike, four are paired; the fifth destination has four sources
in its table, and the fifth source is not one of them. -/
theorem pair_stable_alike :
    ∃ renames, pair (fiveSides 97) (fiveSides 98) alike 0 = .ok renames ∧
      renames.map (fun r => (r.source.val, r.destination.val, r.score)) =
        [(0, 0, 60000), (1, 1, 60000), (2, 2, 60000), (3, 3, 60000)] ∧
      ∃ taken : List (Fin (fiveSides 97).length), taken.length = 4 ∧ taken.Nodup ∧
        ∀ s' ∈ taken, ∃ r ∈ renames, r.source = s' ∧ r.destination.val ≠ 4 := by
  have hwithin : Within alike := by
    intro role index spans size hspans hsize
    obtain rfl : [(7, 10)] = spans := Option.some.inj (Except.ok.inj hspans)
    obtain rfl : 10 = size := Option.some.inj (Except.ok.inj hsize)
    decide
  have hpair : ∃ renames, pair (fiveSides 97) (fiveSides 98) alike 0 = .ok renames ∧
      renames = (List.finRange 4).map fun i => ⟨i.castSucc, i.castSucc, 60000⟩ := ⟨_, by decide, rfl⟩
  obtain ⟨renames, hpair, hrenames⟩ := hpair
  have hleft : ∀ r ∈ renames, r.destination ≠ (4 : Fin 5) := by
    rw [hrenames, List.forall_mem_map]
    exact fun i _ => Fin.ne_of_lt (Fin.castSucc_lt_last i)
  have hunused : ∀ r ∈ renames, r.source ≠ (4 : Fin 5) := by
    rw [hrenames, List.forall_mem_map]
    exact fun i _ => Fin.ne_of_lt (Fin.castSucc_lt_last i)
  obtain ⟨-, -, -, hstable⟩ := pair_stable hwithin hpair
  obtain ⟨taken, hlength, hnodup, -, htaken⟩ :=
    hstable (start _ _) rfl rfl (4 : Fin 5) (4 : Fin 5) 60000 hleft hunused rfl (by decide)
  refine ⟨renames, hpair, ?_, taken, hlength, hnodup, fun s' hs' => ?_⟩
  · rw [hrenames]
    decide
  · obtain ⟨-, r, hr, hsource, hdestination⟩ := htaken s' hs'
    exact ⟨r, hr, hsource, fun heq => hdestination (Fin.ext heq)⟩

/-- Files of one byte whose spans count two. -/
def overcounted : Contents ℕ Unit where
  identity _ _ := .ok none
  size _ _ := .ok (some 1)
  spans _ _ := .ok (some [(7, 2)])

/-- Spans that count more bytes than the file has give a score that is out of the range. -/
theorem pair_spans_exceed :
    ∃ r, pair [⟨[97], 0o100644, none⟩] [⟨[97], 0o100644, none⟩] overcounted 0 = .ok [r] ∧ r.score = 120000 ∧
      ¬r.score ≤ maxScore :=
  ⟨⟨0, 0, 120000⟩, rfl, rfl, by decide⟩

end Paneflow.Git.Renames
