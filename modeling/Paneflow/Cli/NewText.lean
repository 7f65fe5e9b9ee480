import Paneflow.Checked
import Paneflow.Flow.Tokens
import Paneflow.Lcs

/-!
# New text of a surface

`new_text_since_baseline` of cli/surface_read.rs: the lines of a text that were not there when the baseline was read.
Lines that are in both texts in the same order are old. The lengths of the common subsequences of what is left of both
texts are in a table, row after row in one list, which is filled from its end; a walk from the front then follows it.

Reading and writing the table is checked. A table that has an entry above the largest `u32` does not fit in memory, so
the entries are natural numbers.

* `fillTable_spec`: the table holds the lengths;
* `walk_eq`: the walk is `align`, and reads no cell that is not there;
* `newText_spec`: as few lines as possible are new.
-/

namespace Paneflow.Cli.NewText

open Paneflow.Checked Paneflow.Flow Paneflow.Lcs

abbrev Line := List Char

section
variable (old new : List Line)

/-- The round of the loop over `j` for the row `i`, from the end of the row. -/
def fillRow (i : ℕ) : ℕ → List ℕ → Option (List ℕ)
  | 0, common => some common
  | j + 1, common => do
    let width := new.length + 1
    let x ← old[i]?
    let y ← new[j]?
    let value ←
      if x = y then (common[(i + 1) * width + j + 1]?).map (· + 1)
      else do
        let down ← common[(i + 1) * width + j]?
        let right ← common[i * width + j + 1]?
        some (max down right)
    let common ← store common (i * width + j) value
    fillRow i j common

/-- The loop over `i`, from the last row. -/
def fillTable : ℕ → List ℕ → Option (List ℕ)
  | 0, common => some common
  | i + 1, common => do
    let common ← fillRow old new i new.length common
    fillTable i common

def walk (common : List ℕ) (i j : ℕ) (added : List Line) : Option (List Line) :=
  let width := new.length + 1
  if hj : j < new.length then
    if hi : i < old.length then
      if old[i] = new[j] then walk common (i + 1) (j + 1) added
      else do
        let down ← common[(i + 1) * width + j]?
        let right ← common[i * width + j + 1]?
        if down ≥ right then walk common (i + 1) j added else walk common i (j + 1) (added ++ [new[j]])
    else walk common i (j + 1) (added ++ [new[j]])
  else some added
termination_by (old.length - i) + (new.length - j)

end

/-- The text that is new; `none` if the table is read or written out of its bounds. -/
def newTextSinceBaseline (baseline current : List Char) : Option (List Char) :=
  if current = baseline then some []
  else if baseline.isPrefixOf current then some (current.drop baseline.length)
  else do
    let old := textLines baseline
    let new := textLines current
    let width := new.length + 1
    let common ← fillTable old new old.length (List.replicate ((old.length + 1) * width) 0)
    let added ← walk old new common 0 0 []
    some (joinLines added)

structure ReadSnapshot where
  text : List Char
  outputGeneration : Option ℕ
  deriving DecidableEq, Repr

/-- Nothing if the surface has had no output since; the inner `none` is that of `newTextSinceBaseline`. -/
def textAfterBaseline (baseline current : ReadSnapshot) : Option (Option (List Char)) :=
  match current.outputGeneration, baseline.outputGeneration with
  | some generation, some previous =>
    if generation ≤ previous then none else some (newTextSinceBaseline baseline.text current.text)
  | _, _ => some (newTextSinceBaseline baseline.text current.text)

/-! ### The table -/

section
variable {m n i j i' j' : ℕ}

theorem cell_lt (hi : i ≤ m) (hj : j ≤ n) : i * (n + 1) + j < (m + 1) * (n + 1) :=
  calc i * (n + 1) + j < i * (n + 1) + (n + 1) := Nat.add_lt_add_left (Nat.lt_succ_of_le hj) _
    _ = (i + 1) * (n + 1) := (Nat.succ_mul i (n + 1)).symm
    _ ≤ (m + 1) * (n + 1) := Nat.mul_le_mul_right _ (Nat.succ_le_succ hi)

theorem cell_inj (hj : j ≤ n) (hj' : j' ≤ n) (h : i * (n + 1) + j = i' * (n + 1) + j') : i = i' ∧ j = j' := by
  have hrow : ∀ i j : ℕ, j ≤ n → (i * (n + 1) + j) / (n + 1) = i := fun i j hj => by
    rw [Nat.add_comm, Nat.add_mul_div_right _ _ (Nat.succ_pos n), Nat.div_eq_of_lt (Nat.lt_succ_of_le hj), Nat.zero_add]
  have hi : i = i' := by rw [← hrow i j hj, h, hrow i' j' hj']
  subst hi
  exact ⟨rfl, Nat.add_left_cancel h⟩

end

section
variable {old new : List Line}

/-- The rows behind `i` and the cells from `j` on in the row `i` hold the lengths, as do the last row and column. -/
structure Filled (old new : List Line) (i j : ℕ) (common : List ℕ) : Prop where
  length : common.length = (old.length + 1) * (new.length + 1)
  cells : ∀ i' j', i' ≤ old.length → j' ≤ new.length →
    i' = old.length ∨ j' = new.length ∨ i < i' ∨ i' = i ∧ j ≤ j' →
      common[i' * (new.length + 1) + j']? = some (commonLength (old.drop i') (new.drop j'))

theorem filled_zeros (old new : List Line) :
    Filled old new old.length 0 (List.replicate ((old.length + 1) * (new.length + 1)) 0) := by
  refine ⟨List.length_replicate, fun i' j' hi hj hedge => ?_⟩
  rw [List.getElem?_replicate, if_pos (cell_lt hi hj)]
  rcases hedge with rfl | rfl | hlt | ⟨rfl, -⟩
  · rw [List.drop_length, commonLength_nil_left]
  · rw [List.drop_length, commonLength_nil_right]
  · exact absurd hlt (Nat.not_lt.mpr hi)
  · rw [List.drop_length, commonLength_nil_left]

theorem Filled.store {i j : ℕ} {common : List ℕ} (h : Filled old new i (j + 1) common) (hi : i < old.length)
    (hj : j < new.length) :
    ∃ common', store common (i * (new.length + 1) + j) (commonLength (old.drop i) (new.drop j)) = some common' ∧
      Filled old new i j common' := by
  have hlt := cell_lt (Nat.le_of_lt hi) (Nat.le_of_lt hj)
  refine ⟨_, if_pos (h.length ▸ hlt), (List.length_set).trans h.length, fun i' j' hi' hj' hplace => ?_⟩
  by_cases hcell : i * (new.length + 1) + j = i' * (new.length + 1) + j'
  · obtain ⟨rfl, rfl⟩ := cell_inj (Nat.le_of_lt hj) hj' hcell
    rw [List.getElem?_set_self (h.length ▸ hlt)]
  · rw [List.getElem?_set_ne hcell]
    refine h.cells i' j' hi' hj' ?_
    rcases hplace with hlast | hlast | hbehind | ⟨rfl, hfrom⟩
    · exact .inl hlast
    · exact .inr (.inl hlast)
    · exact .inr (.inr (.inl hbehind))
    · refine .inr (.inr (.inr ⟨rfl, ?_⟩))
      have hne : j ≠ j' := fun heq => hcell (heq ▸ rfl)
      omega

theorem fillRow_spec {i : ℕ} (hi : i < old.length) :
    ∀ {j : ℕ} {common : List ℕ}, j ≤ new.length → Filled old new i j common →
      ∃ common', fillRow old new i j common = some common' ∧ Filled old new i 0 common' := by
  intro j
  induction j with
  | zero => exact fun _ h => ⟨_, rfl, h⟩
  | succ j ih =>
    intro common hj h
    have hx : old.drop i = old[i] :: old.drop (i + 1) := List.drop_eq_getElem_cons hi
    have hy : new.drop j = new[j] :: new.drop (j + 1) := List.drop_eq_getElem_cons hj
    have hdiag := h.cells (i + 1) (j + 1) hi hj (.inr (.inr (.inl (Nat.lt_succ_self i))))
    have hdown := h.cells (i + 1) j hi (Nat.le_of_lt hj) (.inr (.inr (.inl (Nat.lt_succ_self i))))
    have hright := h.cells i (j + 1) (Nat.le_of_lt hi) hj (.inr (.inr (.inr ⟨rfl, Nat.le_refl _⟩)))
    obtain ⟨common', hstore, hfilled⟩ := h.store hi hj
    obtain ⟨result, hresult, hdone⟩ := ih (Nat.le_of_lt hj) hfilled
    refine ⟨result, ?_, hdone⟩
    rw [fillRow]
    rw [hx, hy, commonLength_cons] at hstore
    rw [← Nat.add_assoc] at hdiag hright
    rw [List.getElem?_eq_getElem hi, List.getElem?_eq_getElem hj]
    by_cases heq : old[i] = new[j]
    · rw [if_pos heq] at hstore
      simp only [Option.bind_eq_bind, Option.bind_some, if_pos heq, hdiag, Option.map_some, hstore]
      exact hresult
    · rw [if_neg heq] at hstore
      rw [hx] at hright
      rw [hy] at hdown
      simp only [Option.bind_eq_bind, Option.bind_some, if_neg heq, hdown, hright, hstore]
      exact hresult

theorem fillTable_spec : ∀ {i : ℕ} {common : List ℕ}, i ≤ old.length → Filled old new i 0 common →
    ∃ common', fillTable old new i common = some common' ∧ Filled old new 0 0 common' := by
  intro i
  induction i with
  | zero => exact fun _ h => ⟨_, rfl, h⟩
  | succ i ih =>
    intro common hi h
    have hrow : Filled old new i new.length common := by
      refine ⟨h.length, fun i' j' hi' hj' hplace => h.cells i' j' hi' hj' ?_⟩
      rcases hplace with hlast | hlast | hbehind | ⟨-, hfrom⟩
      · exact .inl hlast
      · exact .inr (.inl hlast)
      · rcases Nat.lt_or_eq_of_le hbehind with hlt | heq
        · exact .inr (.inr (.inl hlt))
        · exact .inr (.inr (.inr ⟨heq.symm, Nat.zero_le _⟩))
      · exact .inr (.inl (Nat.le_antisymm hj' hfrom))
    obtain ⟨common', hfill, hfilled⟩ := fillRow_spec hi (Nat.le_refl _) hrow
    obtain ⟨result, hresult, hdone⟩ := ih (Nat.le_of_lt hi) hfilled
    refine ⟨result, ?_, hdone⟩
    rw [fillTable, hfill]
    exact hresult

/-! ### The walk -/

/-- The walk takes the same way as `align`. -/
theorem walk_eq {common : List ℕ} (h : Filled old new 0 0 common) (i j : ℕ) (added : List Line) (hi : i ≤ old.length) :
    walk old new common i j added = some (added ++ (align (old.drop i) (new.drop j)).1) := by
  have hcell : ∀ i' j', i' ≤ old.length → j' ≤ new.length →
      common[i' * (new.length + 1) + j']? = some (commonLength (old.drop i') (new.drop j')) := fun i' j' hi' hj' =>
    h.cells i' j' hi' hj' (by omega)
  fun_induction walk old new common i j added with
  | case1 i j added hj hlt heq ih =>
    rw [ih hlt, List.drop_eq_getElem_cons hlt, List.drop_eq_getElem_cons hj, align_cons, if_pos heq]
  | case2 i j added width hj hlt hne ih1 ih2 =>
    have hdown := hcell (i + 1) j hlt (Nat.le_of_lt hj)
    have hright := hcell i (j + 1) hi hj
    rw [← Nat.add_assoc] at hright
    simp only [Option.bind_eq_bind, width, hdown, hright, Option.bind_some]
    rw [List.drop_eq_getElem_cons hlt, List.drop_eq_getElem_cons hj, align_cons, if_neg hne,
      ← List.drop_eq_getElem_cons hlt, ← List.drop_eq_getElem_cons hj]
    split_ifs with hkeep
    · exact ih1 hlt
    · rw [ih2 hi, List.append_assoc]
      rfl
  | case3 i j added hj hlt ih =>
    have hend : old.drop i = [] := List.drop_eq_nil_of_le (Nat.le_of_not_lt hlt)
    rw [ih hi, hend, List.drop_eq_getElem_cons hj, align, align, List.append_assoc]
    rfl
  | case4 i j added hj =>
    have hend : new.drop j = [] := List.drop_eq_nil_of_le (Nat.le_of_not_lt hj)
    rw [hend]
    cases old.drop i <;> simp [align]

end

/-- A text that does not begin with the baseline: the lines that are new, and what they leave of the text is a longest
common subsequence of the lines of both. -/
theorem newText_spec (baseline current : List Char) (hnot : ¬ baseline <+: current) :
    ∃ added dropped, newTextSinceBaseline baseline current = some (joinLines added) ∧
      Interleaves added dropped (textLines current) ∧ dropped.Sublist (textLines baseline) ∧
      dropped.length = commonLength (textLines baseline) (textLines current) ∧
      ∀ common : List Line, common.Sublist (textLines baseline) → common.Sublist (textLines current) →
        common.length ≤ dropped.length := by
  obtain ⟨common, htable, hfilled⟩ :=
    fillTable_spec (Nat.le_refl _) (filled_zeros (textLines baseline) (textLines current))
  obtain ⟨hboth, hkept, hlength⟩ := align_spec (textLines baseline) (textLines current)
  refine ⟨_, _, ?_, hboth, hkept, hlength, fun common hold hnew => ?_⟩
  · have hne : current ≠ baseline := fun heq => hnot (heq ▸ List.prefix_refl _)
    have hbegins : baseline.isPrefixOf current = false := by
      rw [Bool.eq_false_iff, ne_eq, List.isPrefixOf_iff_prefix]
      exact hnot
    unfold newTextSinceBaseline
    rw [if_neg hne, hbegins, if_neg Bool.false_ne_true]
    simp only [Option.bind_eq_bind, htable, Option.bind_some, walk_eq hfilled 0 0 [] (Nat.zero_le _), List.drop_zero,
      List.nil_append]
  · rw [hlength]
    exact length_le_commonLength _ _ hold hnew

/-- A window that has moved on: of two lines `DONE`, one is old. -/
theorem newText_spec_scrolled :
    newTextSinceBaseline "build 1\nDONE\n".toList "DONE\nbuild 2\nDONE".toList = some "build 2\nDONE".toList ∧
      ∃ added dropped, newTextSinceBaseline "build 1\nDONE\n".toList "DONE\nbuild 2\nDONE".toList =
          some (joinLines added) ∧
        Interleaves added dropped (textLines "DONE\nbuild 2\nDONE".toList) := by
  obtain ⟨added, dropped, htext, hboth, -⟩ :=
    newText_spec "build 1\nDONE\n".toList "DONE\nbuild 2\nDONE".toList (by decide)
  exact ⟨by decide +kernel, added, dropped, htext, hboth⟩

end Paneflow.Cli.NewText
