import Paneflow.Embeddings
import Paneflow.PathPicker.Codec
import Paneflow.PathPicker.Matching

/-!
# What is highlighted in a path

`align` looks for the end of a match from the front and for its characters from that end backwards, and `ranges` merges
the characters that stand side by side. `Tight` is what this comes to: no match ends before, and of those that end there
none has a character that stands later. `Covers` says which characters of a path are highlighted, and how.
-/

namespace Paneflow.PathPicker

open Paneflow.Utf8 Paneflow.Embeddings

variable {platform : Platform}

/-- What a character of a text is compared by. -/
def foldAt (platform : Platform) (entry : ℕ × Char) : Char := fold platform entry.2

/-- The end of the last of some characters. -/
def stopOf (entries : List (ℕ × Char)) : ℕ := (entries.getLast?.map fun entry => entry.1 + entry.2.utf8Size).getD 0

structure Tight (platform : Platform) (text needle : List Char) (entries : List (ℕ × Char)) : Prop where
  embeds : Embeds (foldAt platform) (charIndices 0 text) needle entries
  earliest : ∀ others, Embeds (foldAt platform) (charIndices 0 text) needle others → stopOf entries ≤ stopOf others
  latest : ∀ others, Embeds (foldAt platform) (charIndices 0 text) needle others → stopOf others = stopOf entries →
    List.Forall₂ (fun mine other => other.1 ≤ mine.1) entries others

/-! ### The end -/

theorem map_foldAt (index : ℕ) (text : List Char) :
    (charIndices index text).map (foldAt platform) = text.map (fold platform) := by
  have hmap : (charIndices index text).map (foldAt platform) =
      ((charIndices index text).map Prod.snd).map (fold platform) := by
    rw [List.map_map]
    rfl
  rw [hmap, map_charIndices]

theorem alignEnd_some {index stop : ℕ} {text needle : List Char}
    (h : alignEnd platform index text needle = some stop) :
    ∃ before last after, text = before ++ last :: after ∧ stop = index + size (before ++ [last]) ∧
      needle.Sublist ((before ++ [last]).map (fold platform)) ∧ ¬needle.Sublist (before.map (fold platform)) := by
  induction text generalizing index needle with
  | nil => simp [alignEnd] at h
  | cons ch text ih =>
    cases needle with
    | nil => simp [alignEnd] at h
    | cons wanted remaining =>
      unfold alignEnd at h
      split_ifs at h with hfold hlast
      · rw [List.isEmpty_iff] at hlast
        subst hlast
        refine ⟨[], ch, text, rfl, ?_, ?_, ?_⟩
        · rw [← Option.some.inj h]
          simp
        · rw [← hfold]
          exact List.Sublist.refl _
        · exact fun hsublist => absurd (List.sublist_nil.mp hsublist) (List.cons_ne_nil _ _)
      · obtain ⟨before, last, after, rfl, rfl, hmatch, hshort⟩ := ih h
        refine ⟨ch :: before, last, after, rfl, ?_, ?_, ?_⟩
        · rw [List.cons_append, size_cons, Nat.add_assoc]
        · rw [List.cons_append, List.map_cons, hfold, List.cons_sublist_cons]
          exact hmatch
        · rw [List.map_cons, hfold, List.cons_sublist_cons]
          exact hshort
      · obtain ⟨before, last, after, rfl, rfl, hmatch, hshort⟩ := ih h
        refine ⟨ch :: before, last, after, rfl, ?_, ?_, ?_⟩
        · rw [List.cons_append, size_cons, Nat.add_assoc]
        · rw [List.cons_append, List.map_cons]
          exact hmatch.cons _
        · rw [List.map_cons, cons_sublist_of_ne hfold]
          exact hshort

theorem alignEnd_none {index : ℕ} {text needle : List Char} (hneedle : needle ≠ [])
    (h : alignEnd platform index text needle = none) : ¬needle.Sublist (text.map (fold platform)) := by
  induction text generalizing index needle with
  | nil => exact fun hsublist => hneedle (List.sublist_nil.mp hsublist)
  | cons ch text ih =>
    cases needle with
    | nil => exact absurd rfl hneedle
    | cons wanted remaining =>
      unfold alignEnd at h
      split_ifs at h with hfold hlast
      · rw [List.map_cons, hfold, List.cons_sublist_cons]
        exact ih (fun hnil => hlast (List.isEmpty_iff.mpr hnil)) h
      · rw [List.map_cons, cons_sublist_of_ne hfold]
        exact ih hneedle h

/-! ### The characters -/

theorem alignBack_eq (entries : List (ℕ × Char)) (needle : List Char) :
    alignBack platform entries needle = (pick (foldAt platform) entries needle).map Prod.fst := by
  induction entries generalizing needle with
  | nil =>
    unfold alignBack pick
    rfl
  | cons entry entries ih =>
    cases needle with
    | nil => rfl
    | cons wanted remaining =>
      unfold alignBack pick
      change (if fold platform entry.2 = wanted then _ else _) =
        (if fold platform entry.2 = wanted then _ else _ : List (ℕ × Char)).map Prod.fst
      split_ifs with hfold
      · rw [List.map_cons, ih]
      · exact ih (wanted :: remaining)

theorem pairwise_charIndices (index : ℕ) (text : List Char) :
    (charIndices index text).Pairwise fun before after => before.1 + before.2.utf8Size ≤ after.1 := by
  induction text generalizing index with
  | nil => exact .nil
  | cons ch text ih => exact .cons (fun entry hentry => (mem_charIndices hentry).1) (ih _)

theorem charIndices_front (front after : List Char) :
    (charIndices 0 (front ++ after)).filter (fun entry => entry.1 < size front) = charIndices 0 front := by
  rw [charIndices_append, Nat.zero_add, List.filter_append]
  have hfront : (charIndices 0 front).filter (fun entry => entry.1 < size front) = charIndices 0 front :=
    List.filter_eq_self.mpr fun entry hentry => by
      have hlt := (mem_charIndices hentry).2.1
      exact decide_eq_true (by omega)
  have hafter : (charIndices (size front) after).filter (fun entry => entry.1 < size front) = [] :=
    List.filter_eq_nil_iff.mpr fun entry hentry => by
      have hle := (mem_charIndices hentry).1
      rw [decide_eq_true_eq]
      omega
  rw [hfront, hafter, List.append_nil]

/-- A match that needs the last character of a text ends with it. -/
theorem stopOf_of_needed {before needle : List Char} {last : Char} {entries : List (ℕ × Char)}
    (h : Embeds (foldAt platform) (charIndices 0 (before ++ [last])) needle entries)
    (hneeded : ¬needle.Sublist (before.map (fold platform))) : stopOf entries = size (before ++ [last]) := by
  have hsublist := h.sublist
  rw [charIndices_append] at hsublist
  obtain ⟨front, tail, rfl, hfront, htail⟩ := List.sublist_append_iff.mp hsublist
  have hcases : tail = [] ∨ tail = charIndices (0 + size before) [last] := by
    cases htail with
    | cons _ hnil => exact Or.inl (List.sublist_nil.mp hnil)
    | cons_cons _ hnil => exact Or.inr (by rw [List.sublist_nil.mp hnil]; rfl)
  rcases hcases with rfl | rfl
  · rw [List.append_nil] at h
    refine absurd ?_ hneeded
    rw [← map_foldAt 0 before]
    exact embeds_iff.mp ⟨front, hfront, h.map⟩
  · unfold stopOf charIndices charIndices
    rw [List.getLast?_concat]
    simp

theorem align_tight {text needle : List Char} {positions : List ℕ} (h : align platform text needle = some positions) :
    ∃ entries, positions = entries.map Prod.fst ∧ Tight platform text needle entries := by
  obtain ⟨stop, hstop, rfl⟩ := Option.map_eq_some_iff.mp h
  obtain ⟨before, last, after, rfl, rfl, hmatch, hshort⟩ := alignEnd_some hstop
  rw [Nat.zero_add, show before ++ last :: after = (before ++ [last]) ++ after by simp, charIndices_front,
    alignBack_eq, ← List.map_reverse]
  rw [← map_foldAt 0 (before ++ [last])] at hmatch
  have hmatchBack : needle.reverse.Sublist ((charIndices 0 (before ++ [last])).reverse.map (foldAt platform)) := by
    rw [List.map_reverse]
    exact hmatch.reverse
  have hpick := (pick_embeds hmatchBack).reverse
  rw [List.reverse_reverse, List.reverse_reverse] at hpick
  have hfront : (charIndices 0 (before ++ [last])).Sublist (charIndices 0 (before ++ [last] ++ after)) := by
    rw [charIndices_append 0 (before ++ [last]) after]
    exact List.sublist_append_left _ _
  have hstopOf := stopOf_of_needed hpick hshort
  -- another match ends with a character behind, or with the same one
  have hothers : ∀ others, Embeds (foldAt platform) (charIndices 0 (before ++ [last] ++ after)) needle others →
      size (before ++ [last]) < stopOf others ∨
        Embeds (foldAt platform) (charIndices 0 (before ++ [last])) needle others := by
    intro others hothers
    have hsublist := hothers.sublist
    rw [charIndices_append 0 (before ++ [last]) after] at hsublist
    obtain ⟨head, tail, rfl, hhead, htail⟩ := List.sublist_append_iff.mp hsublist
    rcases List.eq_nil_or_concat' tail with rfl | ⟨init, entry, rfl⟩
    · rw [List.append_nil] at hothers ⊢
      exact Or.inr ⟨hhead, hothers.map⟩
    · have hentry := (mem_charIndices (htail.subset (List.mem_append_right _ List.mem_cons_self))).1
      have hpos := Char.utf8Size_pos entry.2
      left
      unfold stopOf
      rw [← List.append_assoc, List.getLast?_concat]
      simp only [Option.map_some, Option.getD_some]
      omega
  refine ⟨_, rfl, hpick.mono hfront, fun others h => ?_, fun others h heq => ?_⟩
  · rw [hstopOf]
    rcases hothers others h with hlater | hsame
    · exact hlater.le
    · exact (stopOf_of_needed hsame hshort).ge
  · rw [hstopOf] at heq
    rcases hothers others h with hlater | hsame
    · exact absurd heq hlater.ne'
    · have hsorted : (charIndices 0 (before ++ [last])).reverse.Pairwise fun mine other => other.1 < mine.1 := by
        rw [List.pairwise_reverse]
        refine (pairwise_charIndices 0 (before ++ [last])).imp fun {x y} hxy => ?_
        have hpos := Char.utf8Size_pos x.2
        omega
      have hfirst := pick_first hsorted hsame.reverse
      rw [← List.forall₂_reverse_iff, List.reverse_reverse]
      exact hfirst.imp fun mine other hle => hle.elim (fun heq => (congrArg Prod.fst heq).ge) Nat.le_of_lt

theorem align_none {text needle : List Char} (hneedle : needle ≠ []) (h : align platform text needle = none) :
    ¬needle.Sublist (text.map (fold platform)) :=
  alignEnd_none hneedle (Option.map_eq_none_iff.mp h)

theorem align_iff {text needle : List Char} (hneedle : needle ≠ []) :
    (align platform text needle).isSome = true ↔ needle.Sublist (text.map (fold platform)) := by
  cases h : align platform text needle with
  | none => exact iff_of_false Bool.false_ne_true (align_none hneedle h)
  | some positions =>
    obtain ⟨entries, -, htight⟩ := align_tight h
    rw [← map_foldAt 0 text]
    exact iff_of_true rfl (embeds_iff.mp ⟨entries, htight.embeds⟩)

/-! ### Ranges -/

/-- Whether a character is highlighted. -/
def within (highlights : List (ℕ × ℕ)) (entry : ℕ × Char) : Bool :=
  highlights.any fun range => range.1 ≤ entry.1 && entry.1 < range.2

/-- The ranges stand in order, with something between two of them, begin and end between characters, and highlight
these characters and no others. -/
structure Covers (path : List Char) (highlights : List (ℕ × ℕ)) (entries : List (ℕ × Char)) : Prop where
  apart : highlights.Pairwise fun before after => before.2 < after.1
  proper : ∀ range ∈ highlights, range.1 < range.2
  boundaries : ∀ range ∈ highlights, Boundary path range.1 ∧ Boundary path range.2
  chars : (charIndices 0 path).filter (within highlights) = entries

theorem split_of_mem {index : ℕ} {path : List Char} {entry : ℕ × Char} (h : entry ∈ charIndices index path) :
    ∃ before after, path = before ++ entry.2 :: after ∧ entry.1 = index + size before := by
  induction path generalizing index with
  | nil => exact absurd h List.not_mem_nil
  | cons ch path ih =>
    rcases List.mem_cons.mp h with rfl | h
    · exact ⟨[], path, rfl, rfl⟩
    · obtain ⟨before, after, hpath, hindex⟩ := ih h
      refine ⟨ch :: before, after, ?_, ?_⟩
      · rw [List.cons_append, ← hpath]
      · rw [hindex, size_cons, Nat.add_assoc]

theorem not_within {highlights : List (ℕ × ℕ)} {other : ℕ × Char} (h : ∀ range ∈ highlights, range.2 ≤ other.1) :
    within highlights other = false := by
  refine List.any_eq_false.mpr fun range hrange hin => ?_
  rw [Bool.and_eq_true, decide_eq_true_eq, decide_eq_true_eq] at hin
  have hend := h range hrange
  omega

theorem filter_not_within {highlights : List (ℕ × ℕ)} {entries : List (ℕ × Char)}
    (h : ∀ entry ∈ entries, within highlights entry = false) : entries.filter (within highlights) = [] := by
  rw [List.filter_eq_nil_iff]
  intro entry hentry
  rw [h entry hentry]
  exact Bool.false_ne_true

/-- One more character is highlighted, and no range reached so far. -/
theorem within_concat {path : List Char} {highlights more : List (ℕ × ℕ)} {entries : List (ℕ × Char)}
    {entry : ℕ × Char} (hchars : (charIndices 0 path).filter (within highlights) = entries)
    (hentry : entry ∈ charIndices 0 path) (hbound : ∀ range ∈ highlights, range.2 ≤ entry.1)
    (hbefore : ∀ other : ℕ × Char, other.1 < entry.1 → within more other = within highlights other)
    (hself : within more entry = true)
    (hafter : ∀ other : ℕ × Char, entry.1 + entry.2.utf8Size ≤ other.1 → within more other = false) :
    (charIndices 0 path).filter (within more) = entries ++ [entry] := by
  obtain ⟨before, after, rfl, hindex⟩ := split_of_mem hentry
  rw [Nat.zero_add] at hindex
  have hsplit : charIndices 0 (before ++ entry.2 :: after) =
      charIndices 0 before ++ entry :: charIndices (entry.1 + entry.2.utf8Size) after := by
    rw [charIndices_append, charIndices, Nat.zero_add, ← hindex]
  have hfront : ∀ other ∈ charIndices 0 before, other.1 < entry.1 := fun other hother => by
    have hlt := (mem_charIndices hother).2.1
    omega
  have hback : ∀ other ∈ entry :: charIndices (entry.1 + entry.2.utf8Size) after, within highlights other = false := by
    intro other hother
    have hle : entry.1 ≤ other.1 := by
      rcases List.mem_cons.mp hother with rfl | hother
      · exact le_rfl
      · exact (Nat.le_add_right _ _).trans (mem_charIndices hother).1
    exact not_within fun range hrange => (hbound range hrange).trans hle
  rw [hsplit, List.filter_append, filter_not_within hback, List.append_nil] at hchars
  rw [hsplit, List.filter_append, List.filter_cons_of_pos hself, ← hchars,
    List.filter_congr fun other hother => hbefore other (hfront other hother),
    filter_not_within fun other hother => hafter other (mem_charIndices hother).1]

theorem charsFrom_mem {path : List Char} {entry : ℕ × Char} (h : entry ∈ charIndices 0 path) :
    (charsFrom path entry.1).head? = some entry.2 ∧ Boundary path entry.1 ∧
      Boundary path (entry.1 + entry.2.utf8Size) := by
  obtain ⟨before, after, hpath, hindex⟩ := split_of_mem h
  rw [Nat.zero_add] at hindex
  refine ⟨?_, ⟨before, entry.2 :: after, hpath, hindex.symm⟩, ⟨before ++ [entry.2], after, ?_, ?_⟩⟩
  · rw [hpath, hindex, charsFrom_append]
    rfl
  · rw [hpath, List.append_assoc]
    rfl
  · rw [size_append, size_cons, size_nil, hindex, Nat.add_zero]

theorem covers_push {path : List Char} {highlights : List (ℕ × ℕ)} {entries : List (ℕ × Char)} {entry : ℕ × Char}
    (h : Covers path highlights entries) (hentry : entry ∈ charIndices 0 path)
    (hbound : ∀ range ∈ highlights, range.2 < entry.1) :
    Covers path (highlights ++ [(entry.1, entry.1 + entry.2.utf8Size)]) (entries ++ [entry]) := by
  have hpos := Char.utf8Size_pos entry.2
  obtain ⟨-, hstart, hstop⟩ := charsFrom_mem hentry
  have hwithin : ∀ other : ℕ × Char, within (highlights ++ [(entry.1, entry.1 + entry.2.utf8Size)]) other =
      (within highlights other || (entry.1 ≤ other.1 && other.1 < entry.1 + entry.2.utf8Size)) := by
    intro other
    unfold within
    rw [List.any_append, List.any_cons, List.any_nil, Bool.or_false]
  refine ⟨List.pairwise_append.mpr ⟨h.apart, List.pairwise_singleton _ _, fun before hbefore after hafter => ?_⟩,
    fun range hrange => ?_, fun range hrange => ?_, ?_⟩
  · rw [List.mem_singleton.mp hafter]
    exact hbound before hbefore
  · rcases List.mem_append.mp hrange with hrange | hrange
    · exact h.proper range hrange
    · rw [List.mem_singleton.mp hrange]
      exact Nat.lt_add_of_pos_right hpos
  · rcases List.mem_append.mp hrange with hrange | hrange
    · exact h.boundaries range hrange
    · rw [List.mem_singleton.mp hrange]
      exact ⟨hstart, hstop⟩
  · refine within_concat h.chars hentry (fun range hrange => (hbound range hrange).le) (fun other hother => ?_) ?_
      fun other hother => ?_
    · rw [hwithin, decide_eq_false (by omega), Bool.false_and, Bool.or_false]
    · rw [hwithin, decide_eq_true le_rfl, decide_eq_true (by omega), Bool.true_and, Bool.or_true]
    · rw [hwithin, decide_eq_false (show ¬other.1 < entry.1 + entry.2.utf8Size by omega), Bool.and_false,
        Bool.or_false]
      refine not_within fun range hrange => ?_
      have hend := hbound range hrange
      omega

theorem covers_extend {path : List Char} {highlights : List (ℕ × ℕ)} {last : ℕ × ℕ} {entries : List (ℕ × Char)}
    {entry : ℕ × Char} (h : Covers path (highlights ++ [last]) entries) (hentry : entry ∈ charIndices 0 path)
    (hlast : last.2 = entry.1) :
    Covers path (highlights ++ [(last.1, entry.1 + entry.2.utf8Size)]) (entries ++ [entry]) := by
  have hpos := Char.utf8Size_pos entry.2
  obtain ⟨-, -, hstop⟩ := charsFrom_mem hentry
  have hmem : last ∈ highlights ++ [last] := List.mem_append_right _ List.mem_cons_self
  have hproper := h.proper last hmem
  obtain ⟨hapart, -, hbefore⟩ := List.pairwise_append.mp h.apart
  have hbound : ∀ range ∈ highlights, range.2 < entry.1 := fun range hrange => by
    have hlt := hbefore range hrange last List.mem_cons_self
    omega
  have hwithin : ∀ (stop : ℕ) (other : ℕ × Char), within (highlights ++ [(last.1, stop)]) other =
      (within highlights other || (last.1 ≤ other.1 && other.1 < stop)) := by
    intro stop other
    unfold within
    rw [List.any_append, List.any_cons, List.any_nil, Bool.or_false]
  refine ⟨List.pairwise_append.mpr ⟨hapart, List.pairwise_singleton _ _, fun before hin after hafter => ?_⟩,
    fun range hrange => ?_, fun range hrange => ?_, ?_⟩
  · rw [List.mem_singleton.mp hafter]
    exact hbefore before hin last List.mem_cons_self
  · rcases List.mem_append.mp hrange with hrange | hrange
    · exact h.proper range (List.mem_append_left _ hrange)
    · rw [List.mem_singleton.mp hrange]
      dsimp only
      omega
  · rcases List.mem_append.mp hrange with hrange | hrange
    · exact h.boundaries range (List.mem_append_left _ hrange)
    · rw [List.mem_singleton.mp hrange]
      exact ⟨(h.boundaries last hmem).1, hstop⟩
  · refine within_concat h.chars hentry (fun range hrange => ?_) (fun other hother => ?_) ?_ fun other hother => ?_
    · rcases List.mem_append.mp hrange with hrange | hrange
      · exact (hbound range hrange).le
      · rw [List.mem_singleton.mp hrange]
        exact hlast.le
    · rw [hwithin, show highlights ++ [last] = highlights ++ [(last.1, last.2)] from rfl, hwithin,
        decide_eq_true (show other.1 < entry.1 + entry.2.utf8Size by omega),
        decide_eq_true (show other.1 < last.2 by omega)]
    · rw [hwithin, decide_eq_true (show last.1 ≤ entry.1 by omega), decide_eq_true (by omega), Bool.true_and,
        Bool.or_true]
    · rw [hwithin, decide_eq_false (show ¬other.1 < entry.1 + entry.2.utf8Size by omega), Bool.and_false,
        Bool.or_false]
      refine not_within fun range hrange => ?_
      have hend := hbound range hrange
      omega

theorem covers_ranges {path : List Char} {highlights : List (ℕ × ℕ)} {done rest : List (ℕ × Char)}
    (h : Covers path highlights done) (hrest : rest.Sublist (charIndices 0 path))
    (hbound : ∀ range ∈ highlights, ∀ entry ∈ rest, range.2 ≤ entry.1) :
    Covers path (ranges path (rest.map Prod.fst) highlights) (done ++ rest) := by
  induction rest generalizing highlights done with
  | nil =>
    rw [List.append_nil]
    exact h
  | cons entry rest ih =>
    have hentry : entry ∈ charIndices 0 path := hrest.subset List.mem_cons_self
    have hlater : ∀ later ∈ rest, entry.1 + entry.2.utf8Size ≤ later.1 :=
      (List.pairwise_cons.mp ((pairwise_charIndices 0 path).sublist hrest)).1
    have hnext := (List.sublist_cons_self entry rest).trans hrest
    rw [List.append_cons, List.map_cons]
    unfold ranges
    rw [(charsFrom_mem hentry).1]
    dsimp only [Option.map_some, Option.getD_some]
    rcases List.eq_nil_or_concat' highlights with rfl | ⟨before, last, rfl⟩
    · rw [List.getLast?_nil]
      refine ih (covers_push h hentry fun range hrange => nomatch hrange) hnext fun range hrange later hin => ?_
      rw [List.mem_singleton.mp hrange]
      exact hlater later hin
    · rw [List.getLast?_concat]
      have hlast := hbound last (List.mem_append_right _ List.mem_cons_self) entry List.mem_cons_self
      have hearlier : ∀ range ∈ before, range.2 ≤ entry.1 := fun range hrange =>
        hbound range (List.mem_append_left _ hrange) entry List.mem_cons_self
      dsimp only
      split_ifs with hadjacent
      · rw [List.dropLast_concat]
        refine ih (covers_extend h hentry hadjacent) hnext fun range hrange later hin => ?_
        have hle := hlater later hin
        rcases List.mem_append.mp hrange with hrange | hrange
        · have hearly := hearlier range hrange
          omega
        · rw [List.mem_singleton.mp hrange]
          exact hle
      · have hproper := h.proper last (List.mem_append_right _ List.mem_cons_self)
        refine ih (covers_push h hentry fun range hrange => ?_) hnext fun range hrange later hin => ?_
        · rcases List.mem_append.mp hrange with hrange | hrange
          · have hlt := (List.pairwise_append.mp h.apart).2.2 range hrange last List.mem_cons_self
            omega
          · rw [List.mem_singleton.mp hrange]
            omega
        · have hle := hlater later hin
          rcases List.mem_append.mp hrange with hrange | hrange
          · have hearly := hbound range hrange entry List.mem_cons_self
            omega
          · rw [List.mem_singleton.mp hrange]
            exact hle

/-! ### Paths -/

theorem nameStart_split (hseparators : ∀ ch, platform.isSeparator ch = true → ch = '/' ∨ ch = '\\')
    (path : List Char) : ∃ above name, path = above ++ name ∧ nameStart platform path = size above := by
  unfold nameStart
  cases hlast : ((charIndices 0 path).filter fun entry => platform.isSeparator entry.2).getLast? with
  | none => exact ⟨[], path, rfl, rfl⟩
  | some entry =>
    obtain ⟨hmem, hseparator⟩ := List.mem_filter.mp (List.mem_of_getLast? hlast)
    obtain ⟨before, after, hpath, hindex⟩ := split_of_mem hmem
    have hone : entry.2.utf8Size = 1 := by
      rcases hseparators entry.2 hseparator with heq | heq
      · rw [heq]
        rfl
      · rw [heq]
        rfl
    refine ⟨before ++ [entry.2], after, ?_, ?_⟩
    · rw [hpath, List.append_assoc]
      rfl
    · dsimp only
      rw [size_append, size_cons, size_nil, hone, hindex, Nat.zero_add]

/-- Where the text begins that is matched: at the name if the name alone has the needle. -/
def searchStart (platform : Platform) (path needle : List Char) : ℕ :=
  if needle.Sublist ((charsFrom path (nameStart platform path)).map (fold platform)) then nameStart platform path
  else 0

def shift (start : ℕ) (entry : ℕ × Char) : ℕ × Char := (entry.1 + start, entry.2)

theorem charIndices_shift (start index : ℕ) (text : List Char) :
    charIndices (index + start) text = (charIndices index text).map (shift start) := by
  induction text generalizing index with
  | nil => rfl
  | cons ch text ih =>
    rw [charIndices, charIndices, List.map_cons, ← ih, Nat.add_right_comm]
    rfl

theorem charsFrom_zero (path : List Char) : charsFrom path 0 = path := charsFrom_append [] path

/-- A tight place in a part of the path is highlighted. -/
theorem covers_tight (above : List Char) {name needle : List Char} {entries : List (ℕ × Char)}
    (h : Tight platform name needle entries) :
    Covers (above ++ name) (ranges (above ++ name) ((entries.map Prod.fst).map (· + size above)) [])
      (entries.map (shift (size above))) := by
  have hsublist : (entries.map (shift (size above))).Sublist (charIndices 0 (above ++ name)) := by
    rw [charIndices_append, charIndices_shift]
    exact (h.embeds.sublist.map _).trans (List.sublist_append_right _ _)
  have hpositions : (entries.map Prod.fst).map (· + size above) = (entries.map (shift (size above))).map Prod.fst := by
    rw [List.map_map, List.map_map]
    rfl
  have hnone : Covers (above ++ name) [] [] :=
    ⟨.nil, (fun _ hrange => nomatch hrange), (fun _ hrange => nomatch hrange), filter_not_within fun _ _ => rfl⟩
  rw [hpositions]
  have hcovers := covers_ranges hnone hsublist fun range hrange => nomatch hrange
  rwa [List.nil_append] at hcovers

theorem align_of_scoreName {name : List Char} {pattern : Pattern} :
    (scoreName platform name pattern).isSome = (align platform name pattern.folded).isSome := Option.isSome_map

theorem matchPath_isSome {path : List Char} {pattern : Pattern} {above name : List Char} (hpath : path = above ++ name)
    (hname : charsFrom path (nameStart platform path) = name) (hneedle : pattern.folded ≠ []) :
    (matchPath platform path pattern).isSome = true ↔ pattern.folded.Sublist (path.map (fold platform)) := by
  unfold matchPath
  rw [if_neg (fun h => hneedle (List.isEmpty_iff.mp h)), hname]
  cases hscore : scoreName platform name pattern with
  | some scored =>
    have halign : (align platform name pattern.folded).isSome = true := by
      rw [← align_of_scoreName, hscore]
      rfl
    refine iff_of_true rfl ((align_iff hneedle).mp halign |>.trans ?_)
    rw [hpath, List.map_append]
    exact List.sublist_append_right _ _
  | none =>
    dsimp only
    rw [Option.isSome_map]
    unfold scorePath
    rw [Option.isSome_map]
    exact align_iff hneedle

theorem matchPath_highlights {path : List Char} {pattern : Pattern} {above name : List Char} {found : PathMatch}
    (hpath : path = above ++ name) (hstart : nameStart platform path = size above) (hneedle : pattern.folded ≠ [])
    (h : matchPath platform path pattern = some found) :
    ∃ entries, Tight platform (charsFrom path (searchStart platform path pattern.folded)) pattern.folded entries ∧
      Covers path found.highlights (entries.map (shift (searchStart platform path pattern.folded))) := by
  have hname : charsFrom path (nameStart platform path) = name := by
    rw [hstart, hpath]
    exact charsFrom_append above name
  unfold matchPath at h
  rw [if_neg (fun h => hneedle (List.isEmpty_iff.mp h)), hname] at h
  unfold searchStart
  rw [hname]
  cases halign : align platform name pattern.folded with
  | some positions =>
    have hsublist : pattern.folded.Sublist (name.map (fold platform)) :=
      (align_iff hneedle).mp (by rw [halign]; rfl)
    rw [if_pos hsublist, hname]
    obtain ⟨entries, rfl, htight⟩ := align_tight halign
    unfold scoreName at h
    rw [halign] at h
    obtain rfl := Option.some.inj h
    refine ⟨entries, htight, ?_⟩
    dsimp only
    rw [hstart, hpath]
    exact covers_tight above htight
  | none =>
    rw [if_neg (align_none hneedle halign), charsFrom_zero]
    unfold scoreName scorePath at h
    rw [halign] at h
    dsimp only [Option.map_none] at h
    rw [Option.map_map, Option.map_eq_some_iff] at h
    obtain ⟨positions, halign, rfl⟩ := h
    obtain ⟨entries, rfl, htight⟩ := align_tight halign
    have hcovers := covers_tight [] htight
    rw [size_nil, show ((entries.map Prod.fst).map fun index => index + 0) = entries.map Prod.fst from
      List.map_id _] at hcovers
    exact ⟨entries, htight, hcovers⟩

/-- **Matching a path**: a path is matched if the query's characters stand in it in their order; the highlighted
characters are those of the match that ends first, in the file's name if it has one, and of its characters each is as
late as it can be; and the mask rejects no path that is matched. -/
theorem matchPath_finds (hseparators : ∀ ch, platform.isSeparator ch = true → ch = '/' ∨ ch = '\\')
    (path : List Char) {query : List Char} (hquery : query ≠ []) :
    ((matchPath platform path (Pattern.new platform query)).isSome = true ↔
      (query.map (fold platform)).Sublist (path.map (fold platform))) ∧
    (∀ found, matchPath platform path (Pattern.new platform query) = some found →
      ∃ entries,
        Tight platform (charsFrom path (searchStart platform path (query.map (fold platform))))
          (query.map (fold platform)) entries ∧
        Covers path found.highlights (entries.map (shift (searchStart platform path (query.map (fold platform)))))) ∧
    ((Pattern.new platform query).excludedBy (maskOf platform path) = true →
      matchPath platform path (Pattern.new platform query) = none) := by
  obtain ⟨above, name, hpath, hstart⟩ := nameStart_split hseparators path
  have hname : charsFrom path (nameStart platform path) = name := by
    rw [hstart, hpath]
    exact charsFrom_append above name
  have hneedle : (Pattern.new platform query).folded ≠ [] := fun hnil => hquery (List.map_eq_nil_iff.mp hnil)
  have hsome := matchPath_isSome hpath hname hneedle
  refine ⟨hsome, fun found hfound => matchPath_highlights hpath hstart hneedle hfound, fun hexcluded => ?_⟩
  have hincomplete := not_complete_of_excluded (maskOf_lt path) hexcluded fun i hi => hi
  have halign : ¬(align platform path (Pattern.new platform query).folded).isSome = true := by
    rw [align_isSome, hincomplete]
    exact fun h => Bool.false_ne_true h.2
  rw [← Option.not_isSome_iff_eq_none, hsome, ← align_iff hneedle]
  exact halign

theorem matchPath_finds_name :
    (matchPath unixPlatform ['a', 'p', '/', 'M', 'a', 'p'] (Pattern.new unixPlatform ['a', 'P'])).isSome = true :=
  (matchPath_finds (fun _ hch => Or.inl (of_decide_eq_true hch)) ['a', 'p', '/', 'M', 'a', 'p']
    (List.cons_ne_nil 'a' ['P'])).1.mpr (by decide)

end Paneflow.PathPicker
