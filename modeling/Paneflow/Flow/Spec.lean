import Paneflow.Dfs
import Paneflow.Flow.Tokens
import Paneflow.Workspace.Worktree

/-!
# Flow files

cli/flow_spec.rs, with the panes of cli/workspace_spec.rs. A flow is a list of steps that need each other;
`load` checks it by two searches over what the steps need. An error is its message.

Parsing the file, its other checks and its expansion into units are left out.
-/

namespace Paneflow.Flow

open Paneflow.Text Paneflow.Workspace.Worktree

/-! ### The file -/

inductive LayoutPreset where
  | evenH
  | evenV
  | mainVertical
  | tiled
  deriving DecidableEq, Repr

structure PaneSpec where
  cwd : Option (List Char) := none
  agent : Option (List Char) := none
  command : Option (List Char) := none
  prompt : Option (List Char) := none
  focus : Option Bool := none
  env : Option (List (List Char × List Char)) := none
  name : Option (List Char) := none
  worktree : Option (List Char) := none
  «from» : Option (List Char) := none
  copyEnv : Option Bool := none
  setup : Option (List Char) := none
  setupTimeoutSecs : Option ℕ := none
  worktreeTeardown : Option (List Char) := none
  deriving DecidableEq, Repr

structure SendSpec where
  target : List Char
  text : List Char
  submit : Option Bool := none
  deriving DecidableEq, Repr

structure ReadySpec where
  pattern : List Char
  timeoutSecs : Option ℕ := none
  deriving DecidableEq, Repr

structure CaptureSpec where
  var : List Char
  lines : ℕ
  deriving DecidableEq, Repr

structure StepSpec where
  id : List Char
  needs : List (List Char) := []
  foreach : Option (List (List Char)) := none
  pane : Option PaneSpec := none
  send : Option SendSpec := none
  ready : Option ReadySpec := none
  capture : Option CaptureSpec := none
  submit : Option Bool := none
  deriving DecidableEq, Repr

structure FlowDefaults where
  timeoutSecs : Option ℕ := none
  onFailure : Option (List Char) := none
  deriving DecidableEq, Repr

structure FlowSpec where
  name : Option (List Char) := none
  layout : LayoutPreset := .evenH
  portBase : Option ℕ := none
  defaults : FlowDefaults := {}
  steps : List StepSpec
  deriving DecidableEq, Repr

/-! ### The searches -/

/-- The steps that a step needs, in the index of the steps by their ids, which keeps the last step of an id. Every need
of a flow that gets as far as the searches is the id of a step. -/
def needsOf (spec : FlowSpec) (id : List Char) : List (List Char) :=
  match spec.steps.reverse.find? fun step => step.id = id with
  | some step => step.needs
  | none => []

def stepDependsOn (spec : FlowSpec) (stepId dependency : List Char) : Bool :=
  match Dfs.reaches (needsOf spec) dependency (spec.steps.length + 1) [] stepId with
  | some (found, _) => found
  | none => false

def detectCycles (spec : FlowSpec) : Except (List Char) Unit :=
  match (spec.steps.map (·.id)).foldlM
      (fun marks id => Dfs.visit (needsOf spec) (spec.steps.length + 1) marks [] id) (fun _ => .white) with
  | .ok _ => .ok ()
  | .error cycle => .error ("dependency cycle: ".toList ++ List.intercalate " → ".toList cycle)

end Paneflow.Flow
