import Paneflow.Checked
import Paneflow.Flow.Spec
import Mathlib.Data.List.Nodup

/-!
# What an accepted flow satisfies

In a flow that passes the search for a cycle, what the steps need is well-founded (`detectCycles_ok`). The searches
never run out of their bound (`detectCycles_bound`, `stepDependsOn_bound`).
-/

namespace Paneflow.Flow

open Paneflow.Checked Paneflow.Text

variable {spec : FlowSpec} {step : StepSpec}

theorem detectCycles_ok (h : detectCycles spec = .ok ()) :
    ∀ id ∈ spec.steps.map (·.id), Acc (fun y x => Dfs.Edge (needsOf spec) x y) id := by
  unfold detectCycles at h
  split at h
  · next marks hmarks => exact Dfs.acc_of_visits hmarks
  · exact nomatch h

/-! ### The bounds of the searches -/

theorem needsOf_subset (hneeds : ∀ step ∈ spec.steps, ∀ need ∈ step.needs, need ∈ spec.steps.map (·.id))
    (id : List Char) : needsOf spec id ⊆ spec.steps.map (·.id) := by
  unfold needsOf
  split
  · next step hfind => exact fun need hneed => hneeds step (List.mem_reverse.1 (List.mem_of_find?_eq_some hfind)) need hneed
  · exact fun _ hneed => absurd hneed (by simp)

/-- Where every need is the id of a step, the search for a cycle is not cut short. -/
theorem detectCycles_bound (hneeds : ∀ step ∈ spec.steps, ∀ need ∈ step.needs, need ∈ spec.steps.map (·.id)) :
    (spec.steps.map (·.id)).foldlM
      (fun marks id => Dfs.visit (needsOf spec) (spec.steps.length + 1) marks [] id) (fun _ => .white) ≠ .error [] :=
  Dfs.visits_ne_nil (fun id _ => needsOf_subset hneeds id) (List.Subset.refl _) (by simp)

theorem needsOf_unknown {id : List Char} (h : id ∉ spec.steps.map (·.id)) : needsOf spec id = [] := by
  unfold needsOf
  split
  · next step hfind =>
    have hid : step.id = id := by simpa using List.find?_some hfind
    exact absurd (List.mem_map.mpr ⟨step, List.mem_reverse.1 (List.mem_of_find?_eq_some hfind), hid⟩) h
  · rfl

/-- Nor is the search for a dependency, whatever the steps need. -/
theorem stepDependsOn_bound (spec : FlowSpec) (stepId dependency : List Char) :
    Dfs.reaches (needsOf spec) dependency (spec.steps.length + 1) [] stepId ≠ none := by
  refine Dfs.reaches_ne_none (fun id hid => needsOf_unknown hid) ?_
  have hle : Dfs.unseen (spec.steps.map (·.id)) [] ≤ (spec.steps.map (·.id)).length := List.countP_le_length
  rw [List.length_map] at hle
  omega

/-! ### The needs of a step -/

theorem needsOf_step (hids : (spec.steps.map (·.id)).Nodup) (hstep : step ∈ spec.steps) :
    needsOf spec step.id = step.needs := by
  unfold needsOf
  rcases hfind : spec.steps.reverse.find? fun other => other.id = step.id with _ | found
  · have hnone := List.find?_eq_none.1 hfind step (List.mem_reverse.2 hstep)
    simp at hnone
  · have hid : found.id = step.id := by simpa using List.find?_some hfind
    have hsame : found = step :=
      List.inj_on_of_nodup_map hids (List.mem_reverse.1 (List.mem_of_find?_eq_some hfind)) hstep hid
    rw [hfind, hsame]

end Paneflow.Flow
