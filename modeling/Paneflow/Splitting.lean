import Paneflow.Text
import Mathlib.Data.List.Infix
import Mathlib.Tactic.SplitIfs

/-!
# Texts cut at a pattern

`cut pattern text` are the parts of a text between the occurrences of a pattern, from left to right. A text in which the
pattern is replaced is these parts with the value between them (`replace_eq`).

A text that is put together of parts with the pattern between them is cut into the same parts if and only if the
pattern is in none of them (`cut_intercalate_iff`), if its last character is nowhere else in the pattern: no occurrence
then begins in one part and ends behind it.
-/

namespace Paneflow.Text

/-- A list of parts with something more at the front of the first one. -/
def prepend (front : List Char) : List (List Char) → List (List Char)
  | [] => [front]
  | part :: parts => (front ++ part) :: parts

/-- `str::split`; `skip` characters of an occurrence are still to be passed over. -/
def cutFrom (pattern : List Char) : (skip : ℕ) → List Char → List (List Char)
  | _, [] => [[]]
  | skip + 1, _ :: text => cutFrom pattern skip text
  | 0, c :: text =>
    if pattern.isPrefixOf (c :: text) then [] :: cutFrom pattern (pattern.length - 1) text
    else prepend [c] (cutFrom pattern 0 text)

def cut (pattern text : List Char) : List (List Char) := cutFrom pattern 0 text

variable {pattern value text front : List Char} {parts : List (List Char)}

theorem prepend_ne_nil : prepend front parts ≠ [] := by cases parts <;> exact List.cons_ne_nil _ _

theorem intercalate_cons_ne (value part : List Char) (h : parts ≠ []) :
    value.intercalate (part :: parts) = part ++ value ++ value.intercalate parts := by
  cases parts with
  | nil => exact absurd rfl h
  | cons other parts => rw [List.intercalate_cons_cons]

theorem intercalate_prepend (value front : List Char) (parts : List (List Char)) :
    value.intercalate (prepend front parts) = front ++ value.intercalate parts := by
  match parts with
  | [] => simp [prepend]
  | [part] => simp [prepend]
  | part :: other :: parts =>
    rw [prepend, List.intercalate_cons_cons, List.intercalate_cons_cons]
    simp only [List.append_assoc]

theorem cutFrom_ne_nil (pattern : List Char) (skip : ℕ) (text : List Char) : cutFrom pattern skip text ≠ [] := by
  induction text generalizing skip with
  | nil => cases skip <;> exact List.cons_ne_nil _ _
  | cons c text ih =>
    cases skip with
    | succ skip => exact ih skip
    | zero =>
      unfold cutFrom
      split_ifs
      · exact List.cons_ne_nil _ _
      · exact prepend_ne_nil

theorem replaceFrom_eq (pattern value : List Char) (skip : ℕ) (text : List Char) :
    replaceFrom pattern value skip text = value.intercalate (cutFrom pattern skip text) := by
  induction text generalizing skip with
  | nil => cases skip <;> rfl
  | cons c text ih =>
    cases skip with
    | succ skip => exact ih skip
    | zero =>
      unfold replaceFrom cutFrom
      split_ifs
      · rw [ih, intercalate_cons_ne value [] (cutFrom_ne_nil _ _ _), List.nil_append]
      · rw [ih, intercalate_prepend]
        rfl

/-- What is replaced is what lies between the parts. -/
theorem replace_eq (pattern value text : List Char) :
    replace pattern value text = value.intercalate (cut pattern text) :=
  replaceFrom_eq pattern value 0 text

theorem cutFrom_skip (skipped text : List Char) :
    cutFrom pattern skipped.length (skipped ++ text) = cutFrom pattern 0 text := by
  induction skipped with
  | nil => rfl
  | cons c skipped ih => exact ih

theorem cut_occurrence (hpattern : pattern ≠ []) (text : List Char) :
    cut pattern (pattern ++ text) = [] :: cut pattern text := by
  cases pattern with
  | nil => exact absurd rfl hpattern
  | cons c rest =>
    have hmatch : (c :: rest).isPrefixOf (c :: (rest ++ text)) = true :=
      List.isPrefixOf_iff_prefix.mpr (List.prefix_append (c :: rest) text)
    rw [cut, List.cons_append, cutFrom, if_pos hmatch, List.length_cons, Nat.add_sub_cancel, cutFrom_skip]
    rfl

theorem cut_cons {c : Char} (h : ¬ pattern <+: c :: text) :
    cut pattern (c :: text) = prepend [c] (cut pattern text) := by
  rw [cut, cutFrom, if_neg]
  · rfl
  · exact mt List.isPrefixOf_iff_prefix.mp h

/-! ### The parts -/

theorem head_cut (pattern text : List Char) : ∀ part parts, cut pattern text = part :: parts → part <+: text := by
  induction text with
  | nil =>
    intro part parts h
    rw [(List.cons.inj h).1]
  | cons c text ih =>
    intro part parts h
    by_cases hmatch : pattern <+: c :: text
    · rw [cut, cutFrom, if_pos <| List.isPrefixOf_iff_prefix.mpr hmatch] at h
      rw [← (List.cons.inj h).1]
      exact List.nil_prefix
    · rw [cut_cons hmatch] at h
      cases hrest : cut pattern text with
      | nil => exact absurd hrest (cutFrom_ne_nil _ _ _)
      | cons first rest =>
        rw [hrest] at h
        rw [← (List.cons.inj h).1]
        exact List.cons_prefix_cons.mpr ⟨rfl, ih first rest hrest⟩

/-- The pattern is in no part. -/
theorem not_infix_cutFrom (hpattern : pattern ≠ []) (skip : ℕ) (text : List Char) :
    ∀ part ∈ cutFrom pattern skip text, ¬ pattern <:+: part := by
  induction text generalizing skip with
  | nil =>
    intro part hpart
    have hnil : part = [] := by cases skip <;> exact List.mem_singleton.mp hpart
    rw [hnil, List.infix_nil]
    exact hpattern
  | cons c text ih =>
    cases skip with
    | succ skip => exact ih skip
    | zero =>
      intro part hpart
      by_cases hmatch : pattern <+: c :: text
      · rw [cutFrom, if_pos <| List.isPrefixOf_iff_prefix.mpr hmatch] at hpart
        rcases List.mem_cons.mp hpart with rfl | hpart
        · rw [List.infix_nil]
          exact hpattern
        · exact ih _ part hpart
      · have hcut := cut_cons hmatch
        rw [cut] at hcut
        rw [hcut] at hpart
        cases hrest : cut pattern text with
        | nil => exact absurd hrest (cutFrom_ne_nil _ _ _)
        | cons first rest =>
          rw [hrest] at hpart
          have hin : ∀ other ∈ first :: rest, ¬ pattern <:+: other := fun other hother =>
            ih 0 other (by rw [← hrest] at hother; exact hother)
          rcases List.mem_cons.mp hpart with rfl | hpart
          · -- it would begin where the text is not cut, or behind
            intro hoccurs
            rcases List.infix_cons_iff.mp hoccurs with hhead | htail
            · exact hmatch (hhead.trans (List.cons_prefix_cons.mpr ⟨rfl, head_cut _ _ _ _ hrest⟩))
            · exact hin first List.mem_cons_self htail
          · exact hin part (List.mem_cons_of_mem _ hpart)

section
variable {stem : List Char} {c : Char} (hlast : c ∉ stem)
include hlast

/-- An occurrence does not begin in a part and end behind it. -/
theorem not_prefix_across {part : List Char} (hpart : part ≠ []) (hnone : ¬ stem ++ [c] <:+: part) (text : List Char) :
    ¬ stem ++ [c] <+: part ++ (stem ++ [c] ++ text) := by
  intro hbegins
  rcases Nat.le_total (stem ++ [c]).length part.length with hlength | hlength
  · exact hnone (List.prefix_of_prefix_length_le hbegins (List.prefix_append part _) hlength).isInfix
  · -- the part is a front of the occurrence, whose end then lies inside of the next one
    obtain ⟨rest, hrest⟩ := List.prefix_of_prefix_length_le (List.prefix_append part _) hbegins hlength
    rw [← hrest, List.prefix_append_right_inj, hrest] at hbegins
    have hsizes := congrArg List.length hrest
    have hpos := List.length_pos_of_ne_nil hpart
    rw [List.length_append, List.length_append, List.length_singleton] at hsizes
    rw [List.append_assoc] at hbegins
    have hinside : rest <+: stem := by
      refine List.prefix_of_prefix_length_le hbegins (List.prefix_append stem _) (by omega)
    rcases List.eq_nil_or_concat rest with rfl | ⟨front, last, rfl⟩
    · exact hnone (hrest ▸ by rw [List.append_nil])
    · rw [List.concat_eq_append] at hrest hinside
      rw [← List.append_assoc] at hrest
      obtain ⟨-, hc⟩ := List.append_inj' hrest rfl
      obtain rfl := (List.cons.inj hc).1
      exact hlast (hinside.subset (List.mem_append_right _ List.mem_cons_self))

theorem cut_append {part : List Char} (hnone : ¬ stem ++ [c] <:+: part) (text : List Char) :
    cut (stem ++ [c]) (part ++ (stem ++ [c] ++ text)) = part :: cut (stem ++ [c]) text := by
  induction part with
  | nil => exact cut_occurrence (List.append_ne_nil_of_right_ne_nil _ (List.cons_ne_nil _ _)) text
  | cons d part ih =>
    have hacross := not_prefix_across hlast (List.cons_ne_nil d part) hnone text
    rw [List.cons_append] at hacross ⊢
    rw [cut_cons hacross, ih]
    · rfl
    · exact fun hoccurs => hnone (hoccurs.trans (List.suffix_cons d part).isInfix)

omit hlast in
theorem cut_part {part : List Char} (hnone : ¬ pattern <:+: part) : cut pattern part = [part] := by
  induction part with
  | nil => rfl
  | cons d part ih =>
    rw [cut_cons fun hbegins => hnone hbegins.isInfix, ih]
    · rfl
    · exact fun hoccurs => hnone (hoccurs.trans (List.suffix_cons d part).isInfix)

/-- Parts that are put together are cut apart again if and only if the pattern is in none of them. -/
theorem cut_intercalate_iff (hparts : parts ≠ []) :
    cut (stem ++ [c]) ((stem ++ [c]).intercalate parts) = parts ↔ ∀ part ∈ parts, ¬ stem ++ [c] <:+: part := by
  have hpattern : stem ++ [c] ≠ [] := List.append_ne_nil_of_right_ne_nil _ (List.cons_ne_nil _ _)
  constructor
  · intro heq part hpart
    rw [← heq] at hpart
    exact not_infix_cutFrom hpattern 0 _ part hpart
  · intro hnone
    induction parts with
    | nil => exact absurd rfl hparts
    | cons part parts ih =>
      obtain ⟨hfirst, hrest⟩ := List.forall_mem_cons.mp hnone
      by_cases hparts : parts = []
      · rw [hparts, List.intercalate_singleton]
        exact cut_part hfirst
      · rw [intercalate_cons_ne _ _ hparts, List.append_assoc, cut_append hlast hfirst, ih hparts hrest]

end

end Paneflow.Text
