import Paneflow.Flow.Accepted

/-!
# The searches of a flow file

`detect_cycles` and `step_depends_on` of cli/flow_spec.rs against the relation that they search, `NeedsStep`. Both are
the searches of a graph with the bound that the number of steps gives, which neither exceeds.

`searches_right`: a file is refused if and only if its steps need each other in a circle, with a circle in the message;
and a step depends on another one if and only if its needs lead there, for every file.
-/

namespace Paneflow.Flow

open Relation

/-- One step needs the other. -/
def NeedsStep (spec : FlowSpec) (id need : List Char) : Prop := ∃ step ∈ spec.steps, step.id = id ∧ need ∈ step.needs

variable {spec : FlowSpec}

theorem edge_iff (hids : (spec.steps.map (·.id)).Nodup) (id need : List Char) :
    Dfs.Edge (needsOf spec) id need ↔ NeedsStep spec id need := by
  constructor
  · intro hedge
    by_cases hid : id ∈ spec.steps.map (·.id)
    · obtain ⟨step, hstep, rfl⟩ := List.mem_map.mp hid
      refine ⟨step, hstep, rfl, ?_⟩
      rw [← needsOf_step hids hstep]
      exact hedge
    · rw [Dfs.Edge, needsOf_unknown hid] at hedge
      exact absurd hedge List.not_mem_nil
  · rintro ⟨step, hstep, rfl, hneed⟩
    rw [Dfs.Edge, needsOf_step hids hstep]
    exact hneed

theorem stepDependsOn_iff (spec : FlowSpec) (stepId dependency : List Char) :
    stepDependsOn spec stepId dependency = true ↔ TransGen (Dfs.Edge (needsOf spec)) stepId dependency := by
  unfold stepDependsOn
  cases hsearch : Dfs.reaches (needsOf spec) dependency (spec.steps.length + 1) [] stepId with
  | none => exact absurd hsearch (stepDependsOn_bound spec stepId dependency)
  | some found =>
    obtain ⟨found, seen⟩ := found
    cases found with
    | true => exact iff_of_true rfl (Dfs.reaches_sound hsearch)
    | false => exact iff_of_false Bool.false_ne_true (Dfs.reaches_complete hsearch)

/-- The message of a cycle. -/
def cycleMessage (cycle : List (List Char)) : List Char :=
  "dependency cycle: ".toList ++ List.intercalate " → ".toList cycle

theorem detectCycles_error (hneeds : ∀ step ∈ spec.steps, ∀ need ∈ step.needs, need ∈ spec.steps.map (·.id))
    {message : List Char} (h : detectCycles spec = .error message) :
    ∃ cycle, message = cycleMessage cycle ∧ Dfs.ClosedWalk (needsOf spec) cycle := by
  have hbound := detectCycles_bound hneeds
  unfold detectCycles at h
  split at h
  · exact nomatch h
  · next cycle hcycle =>
    refine ⟨cycle, (Except.error.inj h).symm, Dfs.visits_error hcycle fun hnil => hbound ?_⟩
    rw [hcycle, hnil]

theorem detectCycles_iff (hneeds : ∀ step ∈ spec.steps, ∀ need ∈ step.needs, need ∈ spec.steps.map (·.id)) :
    detectCycles spec = .ok () ↔ ∀ id, ¬ TransGen (Dfs.Edge (needsOf spec)) id id := by
  constructor
  · intro hok id hcycle
    -- a step on a cycle is one of the steps
    have hid : id ∈ spec.steps.map (·.id) := by
      by_contra hid
      obtain ⟨need, hneed, -⟩ := TransGen.head'_iff.mp hcycle
      rw [Dfs.Edge, needsOf_unknown hid] at hneed
      exact absurd hneed List.not_mem_nil
    exact Dfs.not_cycle_of_acc (detectCycles_ok hok id hid) hcycle
  · intro hacyclic
    cases hdetect : detectCycles spec with
    | ok => rfl
    | error message =>
      obtain ⟨cycle, -, hwalk⟩ := detectCycles_error hneeds hdetect
      obtain ⟨id, hcycle⟩ := hwalk.cycle
      exact absurd hcycle (hacyclic id)

/-- What the searches find: `step_depends_on` in every file, `detect_cycles` in one whose needs are steps. -/
theorem searches_right (spec : FlowSpec) :
    (∀ stepId dependency,
      Dfs.reaches (needsOf spec) dependency (spec.steps.length + 1) [] stepId ≠ none ∧
      (stepDependsOn spec stepId dependency = true ↔ TransGen (Dfs.Edge (needsOf spec)) stepId dependency)) ∧
    ((spec.steps.map (·.id)).Nodup →
      (∀ id need, Dfs.Edge (needsOf spec) id need ↔ NeedsStep spec id need) ∧
      ((∀ step ∈ spec.steps, ∀ need ∈ step.needs, need ∈ spec.steps.map (·.id)) →
        (spec.steps.map (·.id)).foldlM
          (fun marks id => Dfs.visit (needsOf spec) (spec.steps.length + 1) marks [] id) (fun _ => .white) ≠
            .error [] ∧
        (detectCycles spec = .ok () ↔ ∀ id, ¬ TransGen (NeedsStep spec) id id) ∧
        ∀ message, detectCycles spec = .error message → ∃ cycle, message = cycleMessage cycle ∧
          cycle.IsChain (NeedsStep spec) ∧ 2 ≤ cycle.length ∧ cycle.head? = cycle.getLast?)) := by
  refine ⟨fun stepId dependency => ⟨stepDependsOn_bound spec stepId dependency,
    stepDependsOn_iff spec stepId dependency⟩, fun hids => ⟨edge_iff hids, fun hneeds => ?_⟩⟩
  have hedge : Dfs.Edge (needsOf spec) = NeedsStep spec := funext fun id => funext fun need =>
    propext (edge_iff hids id need)
  refine ⟨detectCycles_bound hneeds, ?_, fun message herror => ?_⟩
  · rw [detectCycles_iff hneeds, hedge]
  · obtain ⟨cycle, hmessage, hwalk⟩ := detectCycles_error hneeds herror
    exact ⟨cycle, hmessage, hedge ▸ hwalk.edges, hwalk.length, hwalk.closed⟩

/-- Two steps that need each other behind a third one. -/
def sampleCycle : FlowSpec where
  steps := [
    { id := "web".toList, needs := ["api".toList] },
    { id := "api".toList, needs := ["db".toList] },
    { id := "db".toList, needs := ["api".toList] }]

theorem searches_right_sample :
    detectCycles sampleCycle = .error "dependency cycle: api → db → api".toList ∧
      ∃ cycle, "dependency cycle: api → db → api".toList = cycleMessage cycle ∧
        cycle.IsChain (NeedsStep sampleCycle) ∧ 2 ≤ cycle.length ∧ cycle.head? = cycle.getLast? := by
  have herror : detectCycles sampleCycle = .error "dependency cycle: api → db → api".toList := by decide
  exact ⟨herror, (((searches_right sampleCycle).2 (by decide)).2 (by decide)).2.2 _ herror⟩

end Paneflow.Flow
