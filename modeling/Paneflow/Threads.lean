import Paneflow.Transition
import Mathlib.Data.Nat.Notation
import Mathlib.Logic.Function.Basic

/-!
# Threads over a shared state

A pool of threads, each with a local state, that move one at a time over a shared state. `Pool.invariant`
is the rule of rely and guarantee: an assertion about every thread that the thread's own steps keep, and
that survives what the steps of the others are guaranteed to do.
-/

namespace Paneflow.Threads

open Paneflow.Transition

structure Pool (σ κ : Type) where
  shared : σ
  threads : ℕ → κ

variable {σ κ α : Type}

/-- The thread that the label names takes a step. -/
def Pool.step (advance : ℕ → α → σ → κ → Option (σ × κ)) (p : Pool σ κ) (l : ℕ × α) :
    Option (Pool σ κ) :=
  (advance l.1 l.2 p.shared (p.threads l.1)).map fun r => ⟨r.1, Function.update p.threads l.1 r.2⟩

/-- A condition on the steps of a thread, as one on the steps of the pool. -/
def Pool.Cond (cond : ℕ → α → σ → κ → Prop) (p : Pool σ κ) (l : ℕ × α) : Prop :=
  cond l.1 l.2 p.shared (p.threads l.1)

instance (cond : ℕ → α → σ → κ → Prop) [∀ i a s k, Decidable (cond i a s k)] (p : Pool σ κ)
    (l : ℕ × α) : Decidable (p.Cond cond l) :=
  inferInstanceAs (Decidable (cond l.1 l.2 p.shared (p.threads l.1)))

variable {advance : ℕ → α → σ → κ → Option (σ × κ)} {p p' : Pool σ κ}

theorem Pool.step_eq_some {l : ℕ × α} (h : p.step advance l = some p') :
    ∃ s k, advance l.1 l.2 p.shared (p.threads l.1) = some (s, k) ∧
      p' = ⟨s, Function.update p.threads l.1 k⟩ := by
  obtain ⟨⟨s, k⟩, hadvance, rfl⟩ := Option.map_eq_some_iff.1 h
  exact ⟨s, k, hadvance, rfl⟩

/-- What an assertion about each thread and an invariant of the shared state say of a pool. -/
structure Pool.Holds (inv : σ → Prop) (assertion : ℕ → σ → κ → Prop) (p : Pool σ κ) : Prop where
  shared : inv p.shared
  threads : ∀ i, assertion i p.shared (p.threads i)

/-- A step keeps the assertions if it keeps that of its own thread, and if those of the others are
stable under what it is guaranteed to do to the shared state. -/
theorem Pool.Holds.step {inv : σ → Prop} {assertion : ℕ → σ → κ → Prop}
    {guarantee : ℕ → σ → σ → Prop} {cond : ℕ → α → σ → κ → Prop} {l : ℕ × α}
    (hp : p.Holds inv assertion) (hc : p.Cond cond l) (h : p.step advance l = some p')
    (hown : ∀ i a s k s' k', inv s → assertion i s k → cond i a s k →
      advance i a s k = some (s', k') → inv s' ∧ assertion i s' k' ∧ guarantee i s s')
    (hstable : ∀ i j s s' k, i ≠ j → inv s → assertion j s k → guarantee i s s' →
      assertion j s' k) : p'.Holds inv assertion := by
  obtain ⟨s', k', hadvance, rfl⟩ := Pool.step_eq_some h
  obtain ⟨hinv, hassert, hguarantee⟩ :=
    hown l.1 l.2 _ _ _ _ hp.shared (hp.threads l.1) hc hadvance
  constructor
  · exact hinv
  · intro j
    by_cases hj : j = l.1
    · subst hj
      simpa using hassert
    · simp only [Function.update_of_ne hj]
      exact hstable l.1 j _ _ _ (Ne.symm hj) hp.shared (hp.threads j) hguarantee

/-- **Rely and guarantee.** -/
theorem Pool.invariant {inv : σ → Prop} {assertion : ℕ → σ → κ → Prop}
    (guarantee : ℕ → σ → σ → Prop) {init : Pool σ κ → Prop} {cond : ℕ → α → σ → κ → Prop}
    (hinit : ∀ p, init p → p.Holds inv assertion)
    (hown : ∀ i a s k s' k', inv s → assertion i s k → cond i a s k →
      advance i a s k = some (s', k') → inv s' ∧ assertion i s' k' ∧ guarantee i s s')
    (hstable : ∀ i j s s' k, i ≠ j → inv s → assertion j s k → guarantee i s s' →
      assertion j s' k)
    (h : Reach (Pool.step advance) init (Pool.Cond cond) p) : p.Holds inv assertion :=
  h.invariant hinit fun _ _ _ hp hc hs => hp.step hc hs hown hstable

end Paneflow.Threads
