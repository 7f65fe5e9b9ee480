import Mathlib.Data.List.Basic
import Mathlib.Data.Nat.Notation
import Mathlib.Order.Basic
import Mathlib.Order.Lattice

/-!
# Longest common subsequences

`commonLength xs ys` is the length of the longest lists that are subsequences of both (`length_le_commonLength`).

`align` walks over two lists from their fronts: it takes equal heads together, and passes over the head behind which
less is lost. What it takes together is a longest common subsequence (`align_spec`), and what it passes over of the
second list is the rest of it (`Interleaves`).
-/

namespace Paneflow.Lcs

variable {α : Type*}

/-- The third list is made of the first two, each in its order. -/
inductive Interleaves : List α → List α → List α → Prop where
  | nil : Interleaves [] [] []
  | left {as bs cs : List α} (c : α) (h : Interleaves as bs cs) : Interleaves (c :: as) bs (c :: cs)
  | right {as bs cs : List α} (c : α) (h : Interleaves as bs cs) : Interleaves as (c :: bs) (c :: cs)

theorem Interleaves.self : ∀ as : List α, Interleaves as [] as
  | [] => .nil
  | a :: as => .left a (Interleaves.self as)

variable [DecidableEq α]

def commonLength : List α → List α → ℕ
  | [], _ => 0
  | _, [] => 0
  | x :: xs, y :: ys =>
    if x = y then commonLength xs ys + 1 else max (commonLength xs (y :: ys)) (commonLength (x :: xs) ys)
termination_by xs ys => xs.length + ys.length

@[simp] theorem commonLength_nil_left (ys : List α) : commonLength [] ys = 0 := by rw [commonLength]

@[simp] theorem commonLength_nil_right (xs : List α) : commonLength xs [] = 0 := by
  cases xs <;> simp [commonLength]

theorem commonLength_cons (x y : α) (xs ys : List α) :
    commonLength (x :: xs) (y :: ys) =
      if x = y then commonLength xs ys + 1 else max (commonLength xs (y :: ys)) (commonLength (x :: xs) ys) := by
  rw [commonLength]

theorem length_le_commonLength {common : List α} (xs ys : List α) (hxs : common.Sublist xs) (hys : common.Sublist ys) :
    common.length ≤ commonLength xs ys := by
  fun_induction commonLength xs ys generalizing common with
  | case1 ys =>
    rw [List.sublist_nil.mp hxs]
    exact Nat.le_refl 0
  | case2 xs _ =>
    rw [List.sublist_nil.mp hys]
    exact Nat.le_refl 0
  | case3 xs y ys ih =>
    have htail := ih hxs.tail hys.tail
    rw [List.length_tail] at htail
    omega
  | case4 x xs y ys hne ihx ihy =>
    cases common with
    | nil => exact Nat.zero_le _
    | cons z common =>
      -- at least one of the two heads is not in it
      by_cases hz : z = x
      · have hys := List.Sublist.of_cons_of_ne (fun h => hne (hz.symm.trans h)) hys
        exact (ihy hxs hys).trans (Nat.le_max_right _ _)
      · have hxs := List.Sublist.of_cons_of_ne hz hxs
        exact (ihx hxs hys).trans (Nat.le_max_left _ _)

/-- What is passed over of the second list, and what is taken of both. -/
def align : List α → List α → List α × List α
  | [], ys => (ys, [])
  | _, [] => ([], [])
  | x :: xs, y :: ys =>
    if x = y then
      let (added, kept) := align xs ys
      (added, y :: kept)
    else if commonLength (x :: xs) ys ≤ commonLength xs (y :: ys) then align xs (y :: ys)
    else
      let (added, kept) := align (x :: xs) ys
      (y :: added, kept)
termination_by xs ys => xs.length + ys.length

theorem align_spec (xs ys : List α) :
    Interleaves (align xs ys).1 (align xs ys).2 ys ∧ (align xs ys).2.Sublist xs ∧
      (align xs ys).2.length = commonLength xs ys := by
  fun_induction align xs ys with
  | case1 ys => exact ⟨.self ys, .slnil, (commonLength_nil_left ys).symm⟩
  | case2 xs _ => exact ⟨.nil, List.nil_sublist xs, (commonLength_nil_right xs).symm⟩
  | case3 xs y ys added kept heq ih =>
    rw [heq] at ih
    obtain ⟨hboth, hkept, hlength⟩ := ih
    refine ⟨.right y hboth, hkept.cons_cons y, ?_⟩
    rw [commonLength_cons, if_pos rfl, ← hlength]
    rfl
  | case4 x xs y ys hne hle ih =>
    obtain ⟨hboth, hkept, hlength⟩ := ih
    refine ⟨hboth, hkept.cons x, ?_⟩
    rw [commonLength_cons, if_neg hne, hlength, Nat.max_eq_left hle]
  | case5 x xs y ys hne hle added kept heq ih =>
    rw [heq] at ih
    obtain ⟨hboth, hkept, hlength⟩ := ih
    refine ⟨.left y hboth, hkept, ?_⟩
    rw [commonLength_cons, if_neg hne, Nat.max_eq_right (Nat.le_of_not_le hle), ← hlength]

theorem align_cons (x y : α) (xs ys : List α) :
    align (x :: xs) (y :: ys) =
      if x = y then ((align xs ys).1, y :: (align xs ys).2)
      else if commonLength (x :: xs) ys ≤ commonLength xs (y :: ys) then align xs (y :: ys)
      else (y :: (align (x :: xs) ys).1, (align (x :: xs) ys).2) := by
  rw [align]

end Paneflow.Lcs
