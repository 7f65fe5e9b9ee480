import Mathlib.Order.Basic
import Mathlib.Order.Nat
import Mathlib.Logic.Relation
import Mathlib.Tactic.ByContra

/-!
# Outlines

A tree as a list: each line has a depth, and the line above it is the last one before it that is less deep. What is
below a line stands right after it, up to the first line that is as deep (`below_iff`), and of these the children are
those that are deeper by one (`parent_iff`).
-/

namespace Paneflow.Outline

structure Indented (n : ℕ) (depth : ℕ → ℕ) (parent : ℕ → Option ℕ) : Prop where
  pos : ∀ i < n, 1 ≤ depth i
  top : ∀ i < n, parent i = none → depth i = 1
  under : ∀ i < n, ∀ p, parent i = some p → p < i ∧ depth p + 1 = depth i ∧ ∀ k, p < k → k < i → depth i ≤ depth k
  outside : ∀ i, n ≤ i → parent i = none

/-- The lines that have a line as a proper ancestor. -/
def Below (parent : ℕ → Option ℕ) : ℕ → ℕ → Prop := Relation.TransGen fun p i => parent i = some p

variable {n : ℕ} {depth : ℕ → ℕ} {parent : ℕ → Option ℕ} {i j : ℕ}

theorem Indented.lt_of_parent (h : Indented n depth parent) {p : ℕ} (hp : parent i = some p) : i < n := by
  by_contra hge
  rw [h.outside i (Nat.le_of_not_lt hge)] at hp
  exact nomatch hp

/-- What is below a line is deeper, and so is everything in between. -/
theorem Indented.deeper (h : Indented n depth parent) (hbelow : Below parent i j) :
    j < n ∧ i < j ∧ ∀ k, i < k → k ≤ j → depth i < depth k := by
  induction hbelow with
  | single hparent =>
    have hlt := h.lt_of_parent hparent
    obtain ⟨hbefore, hdepth, hbetween⟩ := h.under _ hlt _ hparent
    refine ⟨hlt, hbefore, fun k hik hkj => ?_⟩
    rcases Nat.lt_or_eq_of_le hkj with hkj | rfl
    · have hle := hbetween k hik hkj
      omega
    · omega
  | @tail p j _ hparent ih =>
    have hlt := h.lt_of_parent hparent
    obtain ⟨hbefore, hdepth, hbetween⟩ := h.under _ hlt _ hparent
    obtain ⟨-, hip, hdeeper⟩ := ih
    refine ⟨hlt, hip.trans hbefore, fun k hik hkj => ?_⟩
    have hp := hdeeper p hip (Nat.le_refl p)
    rcases Nat.lt_or_ge p k with hpk | hkp
    · rcases Nat.lt_or_eq_of_le hkj with hkj | rfl
      · have hle := hbetween k hpk hkj
        omega
      · omega
    · exact hdeeper k hik hkp

/-- **What is below a line** is the stretch after it that is deeper. -/
theorem Indented.below_iff (h : Indented n depth parent) (hi : i < n) (hj : j < n) :
    Below parent i j ↔ i < j ∧ ∀ k, i < k → k ≤ j → depth i < depth k := by
  refine ⟨fun hbelow => (h.deeper hbelow).2, ?_⟩
  rintro ⟨hij, hdeeper⟩
  induction j using Nat.strong_induction_on with
  | _ j ih =>
    have hdepth := hdeeper j hij (Nat.le_refl j)
    have hpos := h.pos i hi
    cases hparent : parent j with
    | none =>
      have hone := h.top j hj hparent
      omega
    | some p =>
      obtain ⟨hbefore, hsucc, hbetween⟩ := h.under j hj p hparent
      rcases Nat.lt_trichotomy p i with hpi | rfl | hip
      · have hle := hbetween i hpi hij
        omega
      · exact .single hparent
      · exact .tail (ih p hbefore (hbefore.trans hj) hip fun k hik hkp => hdeeper k hik (hkp.trans hbefore.le)) hparent

theorem Indented.parent_iff (h : Indented n depth parent) (hi : i < n) (hj : j < n) :
    parent j = some i ↔ i < j ∧ depth j = depth i + 1 ∧ ∀ k, i < k → k ≤ j → depth i < depth k := by
  constructor
  · intro hparent
    obtain ⟨-, hij, hdeeper⟩ := h.deeper (.single hparent)
    exact ⟨hij, (h.under j hj i hparent).2.1.symm, hdeeper⟩
  · rintro ⟨hij, hdepth, hdeeper⟩
    cases hparent : parent j with
    | none =>
      have hone := h.top j hj hparent
      have hpos := h.pos i hi
      omega
    | some p =>
      obtain ⟨hbefore, hsucc, hbetween⟩ := h.under j hj p hparent
      rcases Nat.lt_trichotomy p i with hpi | rfl | hip
      · have hle := hbetween i hpi hij
        omega
      · rfl
      · have hlt := hdeeper p hip hbefore.le
        omega

end Paneflow.Outline
