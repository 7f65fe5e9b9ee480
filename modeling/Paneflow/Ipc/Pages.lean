import Paneflow.Ipc.Scrollback
import Paneflow.Occurrences

/-!
# Reading the scrollback page by page

A client reads the text from its end upwards, a page at a time, until a page starts at the top. `pages_join` says that
the pages are the text, `eof_iff` that the top is announced on the page that has it. `readable_neutralized` says that
a neutralized text stays neutral when it is cut.
-/

namespace Paneflow.Ipc.Scrollback

open Paneflow.JsonText Paneflow.Occurrences Paneflow.Rows Paneflow.Text Paneflow.Utf8

/-- The pages of `lines` lines from the offset on, each further up by the lines of the one before; `none` if the top is
not among the first `fuel` of them. -/
def readPages (full : List Char) (lines : ℕ) : (fuel offset : ℕ) → Option (List (List Char))
  | 0, _ => none
  | fuel + 1, offset =>
    let (text, returned, _, eof) := paginateScrollback full lines offset
    if eof then some [text] else (readPages full lines fuel (offset + returned)).map (text :: ·)

/-! ### The pages -/

section
variable {full : List Char} {lines offset : ℕ}

/-- A page of a text with a line above the offset. -/
theorem paginateScrollback_eq (hfull : full ≠ []) (h : offset < (full.splitOn '\n').length) :
    paginateScrollback full lines offset =
      (join '\n' (seg (full.splitOn '\n') ((full.splitOn '\n').length - offset - lines)
          ((full.splitOn '\n').length - offset)),
        min lines ((full.splitOn '\n').length - offset), (full.splitOn '\n').length,
        decide ((full.splitOn '\n').length - offset - lines = 0)) := by
  unfold paginateScrollback
  rw [if_neg hfull]
  dsimp only
  rw [if_neg (by omega), seg, List.length_take, List.length_drop]
  congr 2
  omega

/-- **The top is announced on the page that has the first line**, and on no page before it. -/
theorem eof_iff (full : List Char) (lines offset : ℕ) :
    (paginateScrollback full lines offset).2.2.2 = true ↔
      (paginateScrollback full lines offset).2.2.1 ≤ offset + (paginateScrollback full lines offset).2.1 := by
  by_cases hfull : full = []
  · rw [hfull]
    exact iff_of_true rfl (Nat.zero_le _)
  · by_cases h : offset < (full.splitOn '\n').length
    · rw [paginateScrollback_eq hfull h]
      dsimp only
      rw [decide_eq_true_iff]
      omega
    · unfold paginateScrollback
      rw [if_neg hfull]
      dsimp only
      rw [if_pos (by omega)]
      exact iff_of_true rfl (by dsimp only; omega)

theorem join_two {sep : Char} {P Q : List (List Char)} (hP : P ≠ []) (hQ : Q ≠ []) :
    join sep (P ++ Q) = join sep P ++ sep :: join sep Q := by
  obtain ⟨row, Q, rfl⟩ := List.exists_cons_of_ne_nil hQ
  rw [join_append_right hP, opened_cons, join_cons, List.cons_append]

/-- What is read from the offset on is what stands above it. -/
theorem readPages_spec (hfull : full ≠ []) (hlines : 0 < lines) : ∀ {fuel offset : ℕ},
    offset < (full.splitOn '\n').length → (full.splitOn '\n').length - offset ≤ fuel →
      ∃ pages, pages ≠ [] ∧ readPages full lines fuel offset = some pages ∧
        join '\n' pages.reverse = join '\n' ((full.splitOn '\n').take ((full.splitOn '\n').length - offset))
  | 0, offset, h, hfuel => by omega
  | fuel + 1, offset, h, hfuel => by
    simp only [readPages, paginateScrollback_eq hfull h]
    generalize hall : full.splitOn '\n' = all at h hfuel ⊢
    by_cases htop : all.length - offset - lines = 0
    · refine ⟨_, List.cons_ne_nil _ _, by rw [if_pos (decide_eq_true htop)], ?_⟩
      simp [join, htop, seg]
    · have hmin : min lines (all.length - offset) = lines := by omega
      have hcut : all.length - (offset + lines) = all.length - offset - lines := by omega
      have hinside : offset + lines < all.length := by omega
      obtain ⟨pages, hne, hpages, hjoin⟩ := @readPages_spec hfull hlines fuel (offset + lines)
        (by rwa [hall]) (by rw [hall]; omega)
      rw [hall, hcut] at hjoin
      rw [if_neg (by simpa using htop), hmin, hpages]
      refine ⟨_, List.cons_ne_nil _ _, rfl, ?_⟩
      rw [List.reverse_cons, join_two (by simpa using hne) (List.cons_ne_nil _ _), hjoin]
      have hsplit : all.take (all.length - offset) =
          all.take (all.length - offset - lines) ++ seg all (all.length - offset - lines) (all.length - offset) := by
        have := seg_append all (Nat.zero_le (all.length - offset - lines)) (Nat.sub_le (all.length - offset) lines)
        simpa [seg] using this.symm
      have habove : all.take (all.length - offset - lines) ≠ [] :=
        List.ne_nil_of_length_pos (by rw [List.length_take]; omega)
      have hpage : seg all (all.length - offset - lines) (all.length - offset) ≠ [] :=
        List.ne_nil_of_length_pos (by rw [seg, List.length_take, List.length_drop]; omega)
      rw [hsplit, join_two habove hpage]
      simp [join]

end

/-- **The pages are the text.** Read from the end until one starts at the top, and put one above the other. -/
theorem pages_join (full : List Char) {lines : ℕ} (hlines : 0 < lines) :
    ∃ fuel pages, readPages full lines fuel 0 = some pages ∧ join '\n' pages.reverse = full := by
  by_cases hfull : full = []
  · rw [hfull]
    exact ⟨1, [[]], rfl, rfl⟩
  · have hpos : 0 < (full.splitOn '\n').length := List.length_pos_of_ne_nil (List.splitOn_ne_nil _ _)
    obtain ⟨pages, -, hpages, hjoin⟩ := readPages_spec hfull hlines hpos (le_refl _)
    refine ⟨_, pages, hpages, ?_⟩
    rw [hjoin, Nat.sub_zero, List.take_length, join_splitOn]

/-! ### The cut -/

theorem keptFrom_prefix (budget used : ℕ) (text : List Char) : keptFrom budget used text <+: text := by
  induction text generalizing used with
  | nil => exact List.prefix_rfl
  | cons c text ih =>
    unfold keptFrom
    dsimp only
    split_ifs
    · exact List.nil_prefix
    · exact List.cons_prefix_cons.mpr ⟨rfl, ih _⟩

theorem jsonEscapedLen_keptFrom {budget used : ℕ} (h : used ≤ budget) (text : List Char) :
    used + jsonEscapedLen (keptFrom budget used text) ≤ budget := by
  induction text generalizing used with
  | nil => simpa [keptFrom, jsonEscapedLen] using h
  | cons c text ih =>
    unfold keptFrom
    dsimp only
    split_ifs with hover
    · simpa [jsonEscapedLen] using h
    · have := ih (not_lt.mp hover)
      rw [jsonEscapedLen, List.map_cons, List.sum_cons]
      rw [jsonEscapedLen] at this
      omega

/-- **A cut text stays in the budget**: it is the text, or a first part of it with the marker. -/
theorem truncateIpcText_spec (text : List Char) : jsonEscapedLen (truncateIpcText text).1 ≤ maxIpcTextBytes ∧
    (truncateIpcText text = (text, false) ∨
      ∃ kept, kept <+: text ∧ truncateIpcText text = (kept ++ truncationMarker, true)) := by
  unfold truncateIpcText
  by_cases h : jsonEscapedLen text ≤ maxIpcTextBytes
  · rw [if_pos h]
    exact ⟨h, .inl rfl⟩
  · rw [if_neg h]
    refine ⟨?_, .inr ⟨_, keptFrom_prefix _ _ _, rfl⟩⟩
    have hmarker : jsonEscapedLen truncationMarker ≤ maxIpcTextBytes := by decide
    have hkept := jsonEscapedLen_keptFrom (Nat.zero_le (maxIpcTextBytes - jsonEscapedLen truncationMarker)) text
    dsimp only
    rw [jsonEscapedLen_eq, escapedLen_append, ← jsonEscapedLen_eq, ← jsonEscapedLen_eq]
    omega

/-! ### The closing tag -/

/-- A neutralized text does not have the closing tag. -/
theorem not_closing_neutralized (body : List Char) : ¬closingTag <:+: neutralizeUntrusted body :=
  not_infix_replace (by decide) (by decide) (by decide) body

/-- Nor does it when it is cut: no part of it is closed by the marker. -/
theorem not_closing_truncated (body : List Char) :
    ¬closingTag <:+: (truncateIpcText (neutralizeUntrusted body)).1 := by
  rcases (truncateIpcText_spec (neutralizeUntrusted body)).2 with h | ⟨kept, hkept, h⟩
  · rw [h]
    exact not_closing_neutralized body
  · rw [h]
    intro hinfix
    rcases infix_across (x := '\n') (by decide) hinfix with hbefore | hafter
    · exact not_closing_neutralized body (hbefore.trans hkept.isInfix)
    · exact absurd hafter (by decide)

end Paneflow.Ipc.Scrollback
