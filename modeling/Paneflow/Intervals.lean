import Mathlib

/-! # Lists of intervals

`Within lo hi intervals` says that the half-open intervals follow one another between `lo` and `hi`;
`total` is their length, and `during p` counts the numbers of an interval that satisfy `p`. -/

namespace Paneflow.Intervals

/-- The intervals are ordered, disjoint and between `lo` and `hi`. -/
def Within : ℕ → ℕ → List (ℕ × ℕ) → Prop
  | lo, hi, [] => lo ≤ hi
  | lo, hi, (a, b) :: rest => lo ≤ a ∧ a ≤ b ∧ Within b hi rest

def total (intervals : List (ℕ × ℕ)) : ℕ := (intervals.map fun span => span.2 - span.1).sum

@[simp] theorem total_nil : total [] = 0 := rfl

@[simp] theorem total_cons (span : ℕ × ℕ) (intervals : List (ℕ × ℕ)) :
    total (span :: intervals) = span.2 - span.1 + total intervals := rfl

variable {lo hi : ℕ} {intervals : List (ℕ × ℕ)}

theorem Within.le (h : Within lo hi intervals) : lo ≤ hi := by
  induction intervals generalizing lo with
  | nil => exact h
  | cons span intervals ih =>
    have hrest := ih h.2.2
    have hlo := h.1
    have hspan := h.2.1
    omega

theorem Within.mono {hi' : ℕ} (h : Within lo hi intervals) (hle : hi ≤ hi') :
    Within lo hi' intervals := by
  induction intervals generalizing lo with
  | nil => exact le_trans h hle
  | cons span intervals ih => exact ⟨h.1, h.2.1, ih h.2.2⟩

theorem Within.concat {a b : ℕ} (h : Within lo a intervals) (hle : a ≤ b) :
    Within lo b (intervals ++ [(a, b)]) := by
  induction intervals generalizing lo with
  | nil => exact ⟨h, hle, le_rfl⟩
  | cons span intervals ih => exact ⟨h.1, h.2.1, ih h.2.2⟩

/-- The last interval may be made longer. -/
theorem Within.extend {a b b' : ℕ} (h : Within lo hi (intervals ++ [(a, b)])) (hle : hi ≤ b') :
    Within lo b' (intervals ++ [(a, b')]) := by
  induction intervals generalizing lo with
  | nil => exact ⟨h.1, (h.2.1.trans h.2.2).trans hle, le_rfl⟩
  | cons span intervals ih => exact ⟨h.1, h.2.1, ih h.2.2⟩

theorem Within.total_le (h : Within lo hi intervals) : total intervals ≤ hi - lo := by
  induction intervals generalizing lo with
  | nil => exact Nat.zero_le _
  | cons span intervals ih =>
    have hrest := ih h.2.2
    have hhi := h.2.2.le
    have hlo := h.1
    have hspan := h.2.1
    rw [total_cons]
    omega

section
variable {p : ℕ → Prop} [DecidablePred p]

/-- How many numbers of the interval satisfy `p`. -/
def during (p : ℕ → Prop) [DecidablePred p] (span : ℕ × ℕ) : ℕ :=
  ((Finset.Ico span.1 span.2).filter p).card

theorem during_empty {a b : ℕ} (h : b ≤ a) : during p (a, b) = 0 := by
  simp [during, Finset.Ico_eq_empty_of_le h]

theorem during_split {a b c : ℕ} (hab : a ≤ b) (hbc : b ≤ c) :
    during p (a, c) = during p (a, b) + during p (b, c) := by
  unfold during
  rw [← Finset.card_union_of_disjoint, ← Finset.filter_union, Finset.Ico_union_Ico_eq_Ico hab hbc]
  exact Finset.disjoint_filter_filter (Finset.Ico_disjoint_Ico_consecutive a b c)

theorem during_all {a b : ℕ} (h : ∀ t, a ≤ t → t < b → p t) : during p (a, b) = b - a := by
  unfold during
  rw [Finset.filter_true_of_mem, Nat.card_Ico]
  intro t ht
  rw [Finset.mem_Ico] at ht
  exact h t ht.1 ht.2

theorem during_none {a b : ℕ} (h : ∀ t, a ≤ t → t < b → ¬ p t) : during p (a, b) = 0 := by
  unfold during
  rw [Finset.filter_false_of_mem, Finset.card_empty]
  intro t ht
  rw [Finset.mem_Ico] at ht
  exact h t ht.1 ht.2

end

end Paneflow.Intervals
