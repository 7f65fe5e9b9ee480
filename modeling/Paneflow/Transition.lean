import Paneflow.Trace
import Mathlib.Logic.Basic
import Mathlib.Tactic.SplitIfs

/-!
# Transition systems with partial steps

Runs of a system whose step is a partial function of a label, with a condition on the steps that a
run may take: `Reach` for the states reached from the initial ones, `Run` for what happens after a
given state. Invariants go through by `Reach.invariant` and `Run.invariant`; `follow` runs a list of
labels, for concrete runs.
-/

namespace Paneflow.Transition

variable {σ α : Type}

/-- The states that runs from `init` reach whose steps all satisfy `cond`. -/
inductive Reach (step : σ → α → Option σ) (init : σ → Prop) (cond : σ → α → Prop) : σ → Prop
  | init {s : σ} : init s → Reach step init cond s
  | step {s s' : σ} (a : α) : Reach step init cond s → cond s a → step s a = some s' →
    Reach step init cond s'

/-- The runs between two states whose steps all satisfy `cond`. -/
inductive Run (step : σ → α → Option σ) (cond : σ → α → Prop) (s : σ) : σ → Prop
  | refl : Run step cond s s
  | step {s' s'' : σ} (a : α) : Run step cond s s' → cond s' a → step s' a = some s'' →
    Run step cond s s''

variable {step : σ → α → Option σ} {init : σ → Prop} {cond cond' : σ → α → Prop} {s s' : σ}

/-- **Invariants**: what holds initially and is kept by every step holds of every state reached. -/
theorem Reach.invariant {I : σ → Prop} (h0 : ∀ s, init s → I s)
    (hstep : ∀ s a s', I s → cond s a → step s a = some s' → I s')
    (h : Reach step init cond s) : I s := by
  induction h with
  | init hi => exact h0 _ hi
  | step a _ hc hs ih => exact hstep _ a _ ih hc hs

theorem Reach.mono (hc : ∀ s a, cond s a → cond' s a) (h : Reach step init cond s) :
    Reach step init cond' s := by
  induction h with
  | init hi => exact .init hi
  | step a _ hs ha ih => exact ih.step a (hc _ _ hs) ha

theorem Run.mono (hc : ∀ s a, cond s a → cond' s a) (h : Run step cond s s') :
    Run step cond' s s' := by
  induction h with
  | refl => exact .refl
  | step a _ hs ha ih => exact ih.step a (hc _ _ hs) ha

theorem Run.trans {s'' : σ} (h : Run step cond s s') (h' : Run step cond s' s'') :
    Run step cond s s'' := by
  induction h' with
  | refl => exact h
  | step a _ hc hs ih => exact ih.step a hc hs

theorem Reach.run (h : Reach step init cond s) (hr : Run step cond s s') :
    Reach step init cond s' := by
  induction hr with
  | refl => exact h
  | step a _ hc hs ih => exact ih.step a hc hs

/-- What a step keeps along a run, given an invariant of the states on the way. -/
theorem Run.invariant {I : σ → Prop} {P : σ → Prop}
    (hI : ∀ s a s', I s → cond s a → step s a = some s' → I s')
    (hP : ∀ s a s', I s → P s → cond s a → step s a = some s' → P s')
    (hr : Run step cond s s') (h0 : I s) (hp : P s) : P s' := by
  have hboth : I s' ∧ P s' := by
    induction hr with
    | refl => exact ⟨h0, hp⟩
    | step a _ hc hs ih => exact ⟨hI _ a _ ih.1 hc hs, hP _ a _ ih.1 ih.2 hc hs⟩
  exact hboth.2

/-- The state after a list of labels, if every step is possible and satisfies `cond`. -/
def follow (step : σ → α → Option σ) (cond : σ → α → Prop) [∀ s a, Decidable (cond s a)] (s : σ) :
    List α → Option σ
  | [] => some s
  | a :: as => if cond s a then (step s a).bind fun s' => follow step cond s' as else none

theorem run_follow [∀ s a, Decidable (cond s a)] (as : List α)
    (hs : follow step cond s as = some s') : Run step cond s s' := by
  induction as generalizing s with
  | nil =>
    cases hs
    exact .refl
  | cons a as ih =>
    unfold follow at hs
    split_ifs at hs with hc
    obtain ⟨s1, hs1, hs2⟩ := Option.bind_eq_some_iff.1 hs
    exact (Run.refl.step a hc hs1).trans (ih hs2)

theorem Reach.follow [∀ s a, Decidable (cond s a)] (h : Reach step init cond s) (as : List α)
    (hs : Transition.follow step cond s as = some s') : Reach step init cond s' :=
  h.run (run_follow as hs)

/-- A run that is given step by step. -/
theorem Reach.path {as : List α} (h : Reach step init cond s)
    (hpath : Trace.Path (fun a s s' => cond s a ∧ step s a = some s') as s s') : Reach step init cond s' := by
  induction as generalizing s with
  | nil => exact hpath ▸ h
  | cons a as ih =>
    obtain ⟨next, ⟨hc, hs⟩, hpath⟩ := hpath
    exact ih (h.step a hc hs) hpath

end Paneflow.Transition
