import Paneflow.PathPicker.Fuzzy
import Mathlib.Tactic

/-!
# What is matched

A text is aligned with a pattern that is not empty exactly if the pattern is complete after the text (`align_isSome`),
and a text goes on where another one ended (`advance_append`), so that the folders of a path may be tried first. Each
character of a pattern that is complete is one of the text, and the mask of the text has its bit.
-/

namespace Paneflow.PathPicker

open Paneflow.Utf8

/-- The separators are those of some platform, and Unicode has no lower case that is one of them. -/
structure Platform.Lawful (platform : Platform) : Prop where
  main : platform.isSeparator platform.mainSeparator = true
  separators : ∀ ch, platform.isSeparator ch = true → ch = '/' ∨ ch = '\\'
  lowercase : ∀ ch, 128 ≤ ch.toNat → platform.isSeparator (platform.lowercase ch) = false

variable {platform : Platform}

theorem fold_separator (hlawful : platform.Lawful) {ch : Char} (h : platform.isSeparator ch = true) :
    fold platform ch = ch := by
  rcases hlawful.separators ch h with rfl | rfl
  · rfl
  · rfl

theorem separator_of_fold (hlawful : platform.Lawful) {ch : Char}
    (h : platform.isSeparator (fold platform ch) = true) : platform.isSeparator ch = true := by
  unfold fold at h
  split_ifs at h with hascii
  · -- letters become letters in lower case, and what is no letter stays
    have hsame : ch.toLower = ch := by
      have hsep := hlawful.separators _ h
      unfold Char.toLower at hsep ⊢
      split_ifs at hsep ⊢ with hupper
      · exfalso
        have hlow : 65 ≤ ch.val.toNat := UInt32.le_iff_toNat_le.1 hupper.1
        have hhigh : ch.val.toNat ≤ 90 := UInt32.le_iff_toNat_le.1 hupper.2
        have hsum : (ch.val + ('a'.val - 'A'.val)).toNat = ch.val.toNat + 32 := by
          rw [UInt32.toNat_add]
          have hdifference : ('a'.val - 'A'.val).toNat = 32 := rfl
          omega
        rcases hsep with hsep | hsep
        · have hval := congrArg (fun c : Char => c.val.toNat) hsep
          dsimp only at hval
          rw [hsum] at hval
          have hslash : ('/' : Char).val.toNat = 47 := rfl
          omega
        · have hval := congrArg (fun c : Char => c.val.toNat) hsep
          dsimp only at hval
          rw [hsum] at hval
          have hbackslash : ('\\' : Char).val.toNat = 92 := rfl
          omega
      · rfl
    rwa [hsame] at h
  · rw [hlawful.lowercase ch (by omega)] at h
    exact absurd h Bool.false_ne_true

/-! ### Advancing -/

section
variable {pattern : Pattern}

theorem advance_of_none {matched : ℕ} (h : pattern.folded[matched]? = none) (text : List Char) :
    advance platform text pattern matched = matched := by
  cases text with
  | nil => rfl
  | cons ch text =>
    unfold advance
    rw [h]

theorem advance_append (before text : List Char) (matched : ℕ) :
    advance platform (before ++ text) pattern matched =
      advance platform text pattern (advance platform before pattern matched) := by
  induction before generalizing matched with
  | nil => rfl
  | cons ch before ih =>
    rcases hwanted : pattern.folded[matched]? with _ | wanted
    · rw [advance_of_none hwanted, advance_of_none hwanted, advance_of_none hwanted]
    · rw [List.cons_append, advance, advance, hwanted]
      exact ih _

theorem advance_separator (hlawful : platform.Lawful)
    (hpattern : ∀ ch ∈ pattern.folded, platform.isSeparator ch = false) (matched : ℕ) :
    advance platform [platform.mainSeparator] pattern matched = matched := by
  rcases hwanted : pattern.folded[matched]? with _ | wanted
  · exact advance_of_none hwanted _
  · have hne : ¬fold platform platform.mainSeparator = wanted := by
      intro heq
      have hsep := hpattern wanted (List.mem_of_getElem? hwanted)
      rw [← heq, fold_separator hlawful hlawful.main, hlawful.main] at hsep
      exact Bool.false_ne_true hsep.symm
    rw [advance, hwanted]
    dsimp only
    rw [if_neg hne, advance]

theorem isComplete_iff {matched : ℕ} : isComplete pattern matched = true ↔ pattern.folded.length ≤ matched :=
  decide_eq_true_iff

theorem alignEnd_isSome (text : List Char) (index matched : ℕ) :
    (alignEnd platform index text (pattern.folded.drop matched)).isSome = true ↔
      matched < pattern.folded.length ∧ isComplete pattern (advance platform text pattern matched) = true := by
  induction text generalizing index matched with
  | nil =>
    rw [isComplete_iff, advance]
    refine iff_of_false (by simp [alignEnd]) fun ⟨hlt, hle⟩ => ?_
    omega
  | cons ch text ih =>
    by_cases hlt : matched < pattern.folded.length
    · have hwanted : pattern.folded[matched]? = some pattern.folded[matched] := List.getElem?_eq_getElem hlt
      rw [List.drop_eq_getElem_cons hlt, alignEnd, advance, hwanted]
      dsimp only
      by_cases hfold : fold platform ch = pattern.folded[matched]
      · rw [if_pos hfold, if_pos hfold]
        by_cases hlast : matched + 1 < pattern.folded.length
        · have hmore : ¬(pattern.folded.drop (matched + 1)).isEmpty = true := by
            rw [List.isEmpty_iff, List.drop_eq_nil_iff]
            omega
          rw [if_neg hmore, ih]
          exact and_congr_left fun _ => iff_of_true hlast hlt
        · have hnone : (pattern.folded.drop (matched + 1)).isEmpty = true := by
            rw [List.isEmpty_iff, List.drop_eq_nil_iff]
            omega
          rw [if_pos hnone, advance_of_none (List.getElem?_eq_none (by omega))]
          rw [isComplete_iff]
          exact iff_of_true rfl ⟨hlt, by omega⟩
      · rw [if_neg hfold, if_neg hfold, ← List.drop_eq_getElem_cons hlt]
        exact ih _ _
    · rw [List.drop_eq_nil_of_le (by omega)]
      simp [alignEnd, hlt]

theorem align_isSome (text : List Char) :
    (align platform text pattern.folded).isSome = true ↔
      pattern.folded ≠ [] ∧ isComplete pattern (advance platform text pattern 0) = true := by
  have hend : (alignEnd platform 0 text (pattern.folded.drop 0)).isSome = true ↔ _ := alignEnd_isSome text 0 0
  rw [List.drop_zero, List.length_pos_iff] at hend
  unfold align
  rw [Option.isSome_map, hend]

/-- What is complete after a text has its characters from there. -/
theorem mem_of_complete {text : List Char} {matched : ℕ}
    (h : isComplete pattern (advance platform text pattern matched) = true) :
    ∀ ch ∈ pattern.folded.drop matched, ch ∈ text.map (fold platform) := by
  induction text generalizing matched with
  | nil =>
    rw [advance, isComplete_iff] at h
    rw [List.drop_eq_nil_of_le h]
    exact fun ch hch => absurd hch List.not_mem_nil
  | cons first text ih =>
    intro ch hch
    rcases hwanted : pattern.folded[matched]? with _ | wanted
    · rw [List.drop_eq_nil_of_le (List.getElem?_eq_none_iff.1 hwanted)] at hch
      exact absurd hch List.not_mem_nil
    · obtain ⟨hlt, rfl⟩ := List.getElem?_eq_some_iff.1 hwanted
      rw [advance, hwanted] at h
      dsimp only at h
      rw [List.map_cons]
      split_ifs at h with hfold
      · rw [List.drop_eq_getElem_cons hlt, ← hfold] at hch
        rcases List.mem_cons.1 hch with rfl | hch
        · exact List.mem_cons_self
        · exact List.mem_cons_of_mem _ (ih h ch hch)
      · exact List.mem_cons_of_mem _ (ih h ch hch)

end

/-! ### Masks -/

theorem testBit_foldl_or {α : Type} (f : α → ℕ) (items : List α) (mask i : ℕ) :
    (items.foldl (fun mask item => mask ||| f item) mask).testBit i = true ↔
      mask.testBit i = true ∨ ∃ item ∈ items, (f item).testBit i = true := by
  induction items generalizing mask with
  | nil => simp
  | cons item items ih =>
    rw [List.foldl_cons, ih, Nat.testBit_or, Bool.or_eq_true, List.exists_mem_cons_iff, or_assoc]

theorem testBit_maskOf (text : List Char) (i : ℕ) :
    (maskOf platform text).testBit i = true ↔
      ∃ ch ∈ text, (charBit platform (fold platform ch)).testBit i = true := by
  unfold maskOf
  rw [testBit_foldl_or]
  simp

theorem charBit_lt (ch : Char) : charBit platform ch < 2 ^ 32 := by
  unfold charBit
  split_ifs with hletter
  · refine Nat.pow_lt_pow_right (by decide) ?_
    have hhigh : ch.toNat ≤ 'z'.toNat := UInt32.le_iff_toNat_le.1 hletter.2
    have hz : 'z'.toNat = 122 := rfl
    have ha : 'a'.toNat = 97 := rfl
    omega
  all_goals decide

theorem foldl_or_lt {α : Type} {f : α → ℕ} (h : ∀ item, f item < 2 ^ 32) (items : List α) {mask : ℕ}
    (hmask : mask < 2 ^ 32) : items.foldl (fun mask item => mask ||| f item) mask < 2 ^ 32 := by
  induction items generalizing mask with
  | nil => exact hmask
  | cons item items ih => exact ih (Nat.or_lt_two_pow hmask (h item))

theorem maskOf_lt (text : List Char) : maskOf platform text < 2 ^ 32 :=
  foldl_or_lt (fun ch => charBit_lt (fold platform ch)) text (by decide)

/-- A pattern that is excluded by a mask is not complete after a text whose bits are all in the mask. -/
theorem not_complete_of_excluded {query text : List Char} {mask : ℕ} (hmask : mask < 2 ^ 32)
    (hexcluded : (Pattern.new platform query).excludedBy mask = true)
    (htext : ∀ i, (maskOf platform text).testBit i = true → mask.testBit i = true) :
    isComplete (Pattern.new platform query) (advance platform text (Pattern.new platform query) 0) = false := by
  by_contra hcomplete
  have hall := mem_of_complete (Bool.not_eq_false _ ▸ hcomplete)
  rw [List.drop_zero] at hall
  -- a bit of the pattern that the mask does not have
  have hbits : (Pattern.new platform query).mask &&& (2 ^ 32 - 1 - mask) ≠ 0 := by
    simpa [Pattern.excludedBy] using hexcluded
  obtain ⟨i, hi⟩ := Nat.exists_testBit_of_ne_zero hbits
  have hsub : 2 ^ 32 - 1 - mask = 2 ^ 32 - (mask + 1) := by omega
  rw [Nat.testBit_and, hsub, Nat.testBit_two_pow_sub_succ hmask, Bool.and_eq_true, Bool.and_eq_true] at hi
  obtain ⟨hpattern, -, hnot⟩ := hi
  have hpattern : ∃ ch ∈ (Pattern.new platform query).folded, (charBit platform ch).testBit i = true := by
    have hfold := (testBit_foldl_or (charBit platform) (Pattern.new platform query).folded 0 i).1 hpattern
    simpa using hfold
  obtain ⟨ch, hch, hbit⟩ := hpattern
  obtain ⟨original, horiginal, rfl⟩ := List.mem_map.1 (hall ch hch)
  have hin := htext i ((testBit_maskOf text i).2 ⟨original, horiginal, hbit⟩)
  rw [hin] at hnot
  exact Bool.false_ne_true hnot

/-! ### The name at the end of a path -/

theorem charIndices_append (index : ℕ) (before text : List Char) :
    charIndices index (before ++ text) = charIndices index before ++ charIndices (index + size before) text := by
  induction before generalizing index with
  | nil => rfl
  | cons ch before ih => rw [List.cons_append, charIndices, charIndices, ih, size_cons, Nat.add_assoc,
      List.cons_append]

theorem mem_charIndices {index : ℕ} {text : List Char} {entry : ℕ × Char} (h : entry ∈ charIndices index text) :
    index ≤ entry.1 ∧ entry.1 < index + size text ∧ entry.2 ∈ text := by
  induction text generalizing index with
  | nil => exact absurd h List.not_mem_nil
  | cons ch text ih =>
    have hpos := Char.utf8Size_pos ch
    rw [charIndices] at h
    rw [size_cons]
    rcases List.mem_cons.1 h with rfl | h
    · exact ⟨le_rfl, by dsimp only; omega, List.mem_cons_self⟩
    · obtain ⟨hle, hlt, hmem⟩ := ih h
      exact ⟨by omega, by omega, List.mem_cons_of_mem _ hmem⟩

theorem map_charIndices (index : ℕ) (text : List Char) : (charIndices index text).map Prod.snd = text := by
  induction text generalizing index with
  | nil => rfl
  | cons ch text ih => rw [charIndices, List.map_cons, ih]

theorem charsFrom_append (before text : List Char) : charsFrom (before ++ text) (size before) = text := by
  unfold charsFrom
  rw [charIndices_append, List.filter_append, Nat.zero_add]
  have hbefore : (charIndices 0 before).filter (fun entry => size before ≤ entry.1) = [] := by
    rw [List.filter_eq_nil_iff]
    intro entry hentry
    have hlt := (mem_charIndices hentry).2.1
    rw [decide_eq_true_eq]
    omega
  have htext : (charIndices (size before) text).filter (fun entry => size before ≤ entry.1) =
      charIndices (size before) text := by
    rw [List.filter_eq_self]
    exact fun entry hentry => decide_eq_true (mem_charIndices hentry).1
  rw [hbefore, htext, List.nil_append, map_charIndices]

theorem filter_separators {name : List Char} (h : ∀ ch ∈ name, platform.isSeparator ch = false) (index : ℕ) :
    (charIndices index name).filter (fun entry => platform.isSeparator entry.2) = [] := by
  rw [List.filter_eq_nil_iff]
  intro entry hentry
  rw [h entry.2 (mem_charIndices hentry).2.2]
  exact Bool.false_ne_true

/-- The name stands behind the last separator. -/
theorem charsFrom_nameStart (hlawful : platform.Lawful) {above name : List Char}
    (h : ∀ ch ∈ name, platform.isSeparator ch = false) :
    charsFrom (above ++ [platform.mainSeparator] ++ name)
      (nameStart platform (above ++ [platform.mainSeparator] ++ name)) = name := by
  have hsize : size [platform.mainSeparator] = 1 := by
    rcases hlawful.separators _ hlawful.main with hmain | hmain
    · rw [hmain]
      rfl
    · rw [hmain]
      rfl
  have hstart : nameStart platform (above ++ [platform.mainSeparator] ++ name) =
      size (above ++ [platform.mainSeparator]) := by
    unfold nameStart
    rw [charIndices_append, List.filter_append, filter_separators h, List.append_nil, charIndices_append,
      List.filter_append]
    have hlast : (charIndices (0 + size above) [platform.mainSeparator]).filter
        (fun entry => platform.isSeparator entry.2) = [(0 + size above, platform.mainSeparator)] := by
      simp [charIndices, hlawful.main]
    rw [hlast, List.getLast?_concat, size_append, hsize, Nat.zero_add]
  rw [hstart]
  exact charsFrom_append _ _

theorem charsFrom_nameStart_self {name : List Char} (h : ∀ ch ∈ name, platform.isSeparator ch = false) :
    charsFrom name (nameStart platform name) = name := by
  have hstart : nameStart platform name = size [] := by
    unfold nameStart
    rw [filter_separators h]
    rfl
  rw [hstart]
  exact charsFrom_append [] name

/-! ### Patterns -/

theorem Pattern.new_separators (hlawful : platform.Lawful) {query : List Char}
    (h : ∀ ch ∈ query, platform.isSeparator ch = false) :
    ∀ ch ∈ (Pattern.new platform query).folded, platform.isSeparator ch = false := by
  intro ch hch
  obtain ⟨original, horiginal, rfl⟩ := List.mem_map.1 hch
  by_contra hsep
  rw [Bool.not_eq_false] at hsep
  have hquery := h original horiginal
  rw [separator_of_fold hlawful hsep] at hquery
  exact Bool.false_ne_true hquery.symm

end Paneflow.PathPicker
