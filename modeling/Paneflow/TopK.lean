import Mathlib.Data.List.Sort
import Mathlib.Tactic.Common

/-!
# The best of a list

Which items of a list are enough for its `limit` best ones in an order `le`: those behind each of which, of the items
that were left out, there are `limit` others (`Covers`). Items may be added, left out, selected and put together, and
in the end the best are the same (`Covers.take_sort`). The order is total; that items which are equal in it are the
same item is needed at the end alone.
-/

namespace Paneflow.TopK

variable {α : Type} {le : α → α → Prop} [DecidableRel le]

variable (le) in
/-- Of the items seen, those kept are enough for the best: what was dropped has `limit` of them in front. -/
def Covers (limit : ℕ) (seen kept : List α) : Prop :=
  ∃ dropped, (kept ++ dropped).Perm seen ∧ ∀ x ∈ dropped, limit ≤ kept.countP fun y => le y x

variable (le) in
/-- The first `limit` items of a list are the best of it, in some order. -/
def Selected (limit : ℕ) (items : List α) : Prop :=
  ∀ x ∈ items.take limit, ∀ y ∈ items.drop limit, le x y

variable {limit : ℕ} {seen seen' kept kept' : List α}

theorem Covers.refl (seen : List α) : Covers le limit seen seen :=
  ⟨[], by rw [List.append_nil], fun _ hx => absurd hx List.not_mem_nil⟩

theorem Covers.perm (h : Covers le limit seen kept) (hseen : seen.Perm seen') : Covers le limit seen' kept := by
  obtain ⟨dropped, hperm, hcount⟩ := h
  exact ⟨dropped, hperm.trans hseen, hcount⟩

/-- What was seen in two parts. -/
theorem Covers.append (h : Covers le limit seen kept) (h' : Covers le limit seen' kept') :
    Covers le limit (seen ++ seen') (kept ++ kept') := by
  obtain ⟨dropped, hperm, hcount⟩ := h
  obtain ⟨dropped', hperm', hcount'⟩ := h'
  refine ⟨dropped ++ dropped', ?_, fun x hx => ?_⟩
  · have hswap : (kept ++ kept' ++ (dropped ++ dropped')).Perm ((kept ++ dropped) ++ (kept' ++ dropped')) := by
      rw [List.append_assoc, List.append_assoc]
      refine List.Perm.append_left kept ?_
      rw [← List.append_assoc, ← List.append_assoc]
      exact List.perm_append_comm.append_right dropped'
    exact hswap.trans (hperm.append hperm')
  · rw [List.countP_append]
    rcases List.mem_append.1 hx with hx | hx
    · exact (hcount x hx).trans (Nat.le_add_right _ _)
    · exact (hcount' x hx).trans (Nat.le_add_left _ _)

/-- An item with `limit` others in front is left out. -/
theorem Covers.skip (h : Covers le limit seen kept) {x : α} (hx : limit ≤ kept.countP fun y => le y x) :
    Covers le limit (seen ++ [x]) kept := by
  obtain ⟨dropped, hperm, hcount⟩ := h
  refine ⟨dropped ++ [x], ?_, fun y hy => ?_⟩
  · rw [← List.append_assoc]
    exact hperm.append_right [x]
  · rcases List.mem_append.1 hy with hy | hy
    · exact hcount y hy
    · rw [List.mem_singleton.1 hy]
      exact hx

section
variable (htrans : ∀ a b c, le a b → le b c → le a c)
include htrans

/-- The items in front of an item are among the best ones, or all of these are in front of it. -/
theorem countP_take (hselected : Selected le limit kept) {x : α} (hx : limit ≤ kept.countP fun y => le y x) :
    ∀ y ∈ kept.take limit, le y x := by
  intro y hy
  by_contra hyx
  -- then nothing behind the best ones is in front of `x`, and of the best ones `y` is not
  have hrest : (kept.drop limit).countP (fun z => le z x) = 0 := by
    rw [List.countP_eq_zero]
    intro z hz hzx
    exact hyx (htrans y z x (hselected y hy z hz) (by simpa using hzx))
  have hbest : (kept.take limit).countP (fun z => le z x) < (kept.take limit).length := by
    refine lt_of_le_of_ne List.countP_le_length fun hall => ?_
    exact hyx (by simpa using List.countP_eq_length.1 hall y hy)
  rw [← List.take_append_drop limit kept, List.countP_append, hrest] at hx
  have hlength := List.length_take_le limit kept
  omega

theorem Covers.select (h : Covers le limit seen kept) (hperm : kept'.Perm kept)
    (hselected : Selected le limit kept') : Covers le limit seen (kept'.take limit) := by
  obtain ⟨dropped, hseen, hcount⟩ := h
  have hfull : ∀ x, limit ≤ kept'.length → (∀ y ∈ kept'.take limit, le y x) →
      limit ≤ (kept'.take limit).countP fun y => le y x := by
    intro x hlength hall
    rw [List.countP_eq_length.2 fun y hy => by simpa using hall y hy, List.length_take]
    omega
  refine ⟨kept'.drop limit ++ dropped, ?_, fun x hx => ?_⟩
  · rw [← List.append_assoc, List.take_append_drop]
    exact (hperm.append_right dropped).trans hseen
  · rcases List.mem_append.1 hx with hx | hx
    · have hlength : limit < kept'.length := by
        by_contra hle
        rw [List.drop_eq_nil_of_le (Nat.le_of_not_lt hle)] at hx
        exact absurd hx List.not_mem_nil
      exact hfull x hlength.le fun y hy => hselected y hy x hx
    · have hx' : limit ≤ kept'.countP fun y => le y x := by
        rw [hperm.countP_eq]
        exact hcount x hx
      exact hfull x (hx'.trans List.countP_le_length) (countP_take htrans hselected hx')

/-- **The best are the same**, sorted. -/
theorem Covers.take_sort (htotal : ∀ a b, le a b ∨ le b a) (h : Covers le limit seen kept)
    (hanti : ∀ a ∈ seen, ∀ b ∈ seen, le a b → le b a → a = b) :
    (kept.insertionSort le).take limit = (seen.insertionSort le).take limit := by
  have hIsTrans : IsTrans α le := ⟨htrans⟩
  have hTotal : Std.Total le := ⟨htotal⟩
  obtain ⟨dropped, hperm, hcount⟩ := h
  have hsorted := List.pairwise_insertionSort le kept
  have hkept := List.perm_insertionSort le kept
  generalize kept.insertionSort le = best at hsorted hkept
  rw [← List.take_append_drop limit best] at hsorted
  obtain ⟨hfirst, -, hbetween⟩ := List.pairwise_append.1 hsorted
  have hdropped : ∀ x ∈ dropped, limit ≤ best.length ∧ ∀ y ∈ best.take limit, le y x := by
    intro x hx
    have hx' : limit ≤ best.countP fun y => le y x := by
      rw [hkept.countP_eq]
      exact hcount x hx
    exact ⟨hx'.trans List.countP_le_length, countP_take htrans hbetween hx'⟩
  -- the sorted list of all items begins with the best of those that were kept
  have hrest := List.pairwise_insertionSort le (best.drop limit ++ dropped)
  have hrestPerm := List.perm_insertionSort le (best.drop limit ++ dropped)
  generalize (best.drop limit ++ dropped).insertionSort le = rest at hrest hrestPerm
  have hall : (best.take limit ++ rest).Perm seen := by
    refine (hrestPerm.append_left _).trans ?_
    rw [← List.append_assoc, List.take_append_drop]
    exact (hkept.append_right dropped).trans hperm
  have hpairwise : (best.take limit ++ rest).Pairwise le := by
    refine List.pairwise_append.2 ⟨hfirst, hrest, fun y hy x hx => ?_⟩
    rcases List.mem_append.1 (hrestPerm.subset hx) with hx | hx
    · exact hbetween y hy x hx
    · exact (hdropped x hx).2 y hy
  have heq : seen.insertionSort le = best.take limit ++ rest := by
    have hseen := List.perm_insertionSort le seen
    refine List.Perm.eq_of_pairwise (fun a b ha hb => ?_) (List.pairwise_insertionSort le seen) hpairwise
      (hseen.trans hall.symm)
    exact hanti a (hseen.subset ha) b (hall.subset hb)
  rw [heq]
  by_cases hlength : limit ≤ best.length
  · rw [List.take_append_of_le_length (by rw [List.length_take]; omega), List.take_take, Nat.min_self]
  · -- nothing was dropped, and there is no rest
    have hnone : dropped = [] := List.eq_nil_iff_forall_not_mem.2 fun x hx => hlength (hdropped x hx).1
    have hdrop : best.drop limit = [] := List.drop_eq_nil_of_le (by omega)
    rw [hnone, hdrop] at hrestPerm
    rw [List.perm_nil.1 hrestPerm, List.append_nil, List.take_take, Nat.min_self]

end

end Paneflow.TopK
