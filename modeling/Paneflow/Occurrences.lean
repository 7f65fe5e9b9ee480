import Paneflow.Text
import Mathlib.Data.List.Infix

/-!
# Where a pattern occurs

An occurrence of a pattern in a list, by its position: it does not reach over an element that the pattern has not
(`occursAt_across`). Replacing a pattern whose first character does not come again in it leaves no occurrence, if the
replacement starts with the same character and goes on differently (`not_infix_replace`).
-/

namespace Paneflow.Occurrences

open Paneflow.Text

section
variable {α : Type*} {pattern text a b : List α} {x : α} {i : ℕ}

def OccursAt (pattern text : List α) (i : ℕ) : Prop := pattern <+: text.drop i

theorem infix_iff : pattern <:+: text ↔ ∃ i, OccursAt pattern text i := by
  constructor
  · rintro ⟨front, rest, rfl⟩
    exact ⟨front.length, rest, by rw [List.append_assoc, List.drop_left]⟩
  · rintro ⟨i, hi⟩
    exact hi.isInfix.trans (List.drop_suffix i text).isInfix

/-- What starts a list stands in front of an element that it has not. -/
theorem prefix_before (hx : x ∉ pattern) (h : pattern <+: a ++ x :: b) : pattern <+: a := by
  induction a generalizing pattern with
  | nil =>
    cases pattern with
    | nil => exact List.nil_prefix
    | cons c pattern =>
      obtain ⟨rfl, -⟩ := List.cons_prefix_cons.mp h
      exact absurd List.mem_cons_self hx
  | cons c a ih =>
    cases pattern with
    | nil => exact List.nil_prefix
    | cons d pattern =>
      obtain ⟨rfl, hrest⟩ := List.cons_prefix_cons.mp h
      exact List.cons_prefix_cons.mpr ⟨rfl, ih (fun hmem => hx (List.mem_cons_of_mem _ hmem)) hrest⟩

/-- **An occurrence lies on one side** of an element that the pattern has not. -/
theorem occursAt_across (hx : x ∉ pattern) (h : OccursAt pattern (a ++ x :: b) i) :
    OccursAt pattern a i ∨ ∃ j, i = a.length + 1 + j ∧ OccursAt pattern b j := by
  unfold OccursAt at h
  by_cases hi : i ≤ a.length
  · rw [List.drop_append_of_le_length hi] at h
    exact .inl (prefix_before hx h)
  · obtain ⟨j, rfl⟩ := Nat.exists_eq_add_of_lt (not_le.mp hi)
    rw [Nat.add_assoc, List.drop_append, Nat.add_sub_cancel_left, List.drop_eq_nil_of_le (by omega), List.nil_append,
      List.drop_succ_cons] at h
    exact .inr ⟨j, by omega, h⟩

theorem infix_across (hx : x ∉ pattern) (h : pattern <:+: a ++ x :: b) :
    pattern <:+: a ∨ pattern <:+: b := by
  obtain ⟨i, hi⟩ := infix_iff.mp h
  rcases occursAt_across hx hi with h | ⟨j, -, h⟩
  · exact .inl (infix_iff.mpr ⟨i, h⟩)
  · exact .inr (infix_iff.mpr ⟨j, h⟩)

/-- A pattern occurs only where its first element stands. -/
theorem getElem?_of_occursAt (h : OccursAt (x :: pattern) text i) : text[i]? = some x := by
  obtain ⟨rest, hrest⟩ := h
  have hfirst := congrArg (·[0]?) hrest
  rwa [List.getElem?_drop, Nat.add_zero, eq_comm] at hfirst

end

/-! ### Replacing -/

section
variable {pattern value text : List Char}

/-- Without an occurrence nothing is replaced. -/
theorem replace_of_not_infix (h : ¬pattern <:+: text) : replace pattern value text = text := by
  unfold replace
  induction text with
  | nil => rfl
  | cons c text ih =>
    have hfirst : ¬pattern.isPrefixOf (c :: text) = true := fun hmatch =>
      h <| List.IsPrefix.isInfix <| List.isPrefixOf_iff_prefix.mp hmatch
    rw [replaceFrom, if_neg hfirst, ih fun hrest => h (hrest.trans (List.suffix_cons c text).isInfix)]

variable {first other next : Char} {stem rest : List Char}

/-- Up to the first character of the pattern the text is as it was. -/
theorem prefix_of_replaceFrom (hfirst : first ∉ stem) (h : stem <+: replaceFrom pattern (first :: rest) 0 text) :
    stem <+: text := by
  induction stem generalizing text with
  | nil => exact List.nil_prefix
  | cons c stem ih =>
    cases text with
    | nil => exact absurd h (by simp [replaceFrom])
    | cons d text =>
      rw [replaceFrom] at h
      split_ifs at h with hmatch
      · obtain ⟨rfl, -⟩ := List.cons_prefix_cons.mp h
        exact absurd List.mem_cons_self hfirst
      · obtain ⟨rfl, hrest⟩ := List.cons_prefix_cons.mp h
        exact List.cons_prefix_cons.mpr ⟨rfl, ih (fun hmem => hfirst (List.mem_cons_of_mem _ hmem)) hrest⟩

/-- In front of a text without an occurrence, characters that are not the first of the pattern add none. -/
theorem not_infix_append (hrest : first ∉ rest) (h : ¬(first :: stem) <:+: text) :
    ¬(first :: stem) <:+: rest ++ text := by
  induction rest with
  | nil => exact h
  | cons c rest ih =>
    obtain ⟨hne, hmem⟩ := not_or.mp (mt List.mem_cons.mpr hrest)
    intro hinfix
    rcases List.infix_cons_iff.mp hinfix with hmatch | hinner
    · exact hne (List.cons_prefix_cons.mp hmatch).1
    · exact ih hmem hinner

/-- **After replacing there is no occurrence**, whatever stands around what was replaced. -/
theorem not_infix_replaceFrom (hstem : first ∉ next :: stem) (hrest : first ∉ other :: rest) (hne : next ≠ other)
    (skip : ℕ) (text : List Char) :
    ¬(first :: next :: stem) <:+: replaceFrom (first :: next :: stem) (first :: other :: rest) skip text := by
  induction text generalizing skip with
  | nil => simp [replaceFrom]
  | cons c text ih =>
    cases skip with
    | succ skip => exact ih skip
    | zero =>
      rw [replaceFrom]
      split_ifs with hmatch
      · intro hinfix
        rcases List.infix_cons_iff.mp hinfix with hstart | hinner
        · exact hne (List.cons_prefix_cons.mp (List.cons_prefix_cons.mp hstart).2).1
        · exact not_infix_append hrest (ih _) hinner
      · intro hinfix
        rcases List.infix_cons_iff.mp hinfix with hstart | hinner
        · -- what follows is as it was, so the pattern stood there before
          obtain ⟨rfl, hafter⟩ := List.cons_prefix_cons.mp hstart
          exact hmatch <| List.isPrefixOf_iff_prefix.mpr <|
            List.cons_prefix_cons.mpr ⟨rfl, prefix_of_replaceFrom hstem hafter⟩
        · exact ih 0 hinner

theorem not_infix_replace (hstem : first ∉ next :: stem) (hrest : first ∉ other :: rest) (hne : next ≠ other)
    (text : List Char) :
    ¬(first :: next :: stem) <:+: replace (first :: next :: stem) (first :: other :: rest) text :=
  not_infix_replaceFrom hstem hrest hne 0 text

end

end Paneflow.Occurrences
