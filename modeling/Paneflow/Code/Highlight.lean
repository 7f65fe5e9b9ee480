import Paneflow.Code.Points
import Paneflow.Code.UndoRun

/-!
# The highlighter

`CodeHighlighter` of code/highlight.rs as the code view drives it. A syntax tree is the text it was parsed from with the
edits recorded on it since; what the parser makes of it, how the captures become colours and how much time a parse takes
is left out: a parse that is asked for finishes or not.

`handed` collects what the parser is given, `accepted` the trees that come back from a deferred parse. The parser may take
an old tree for a text if the edits of the tree lead from its text to that text (`Tree.Leads`).
-/

namespace Paneflow.Code.Highlight

open Paneflow.Code.Document Paneflow.Code.Edit Paneflow.Code.History Paneflow.Code.UndoRun Paneflow.Code.Points
open Paneflow.Trace Paneflow.Utf8

/-! ### Trees -/

structure Tree where
  base : Str
  edits : List CodeEdit
  deriving DecidableEq, Repr

def Tree.edit (tree : Tree) (edit : CodeEdit) : Tree := { tree with edits := tree.edits ++ [edit] }

def Tree.parsed (text : Str) : Tree := ⟨text, []⟩

/-- The edits on the tree lead from the text it was parsed from to the text. -/
def Tree.Leads (tree : Tree) (text : Str) : Prop := Path Applies tree.edits tree.base text

/-! ### The highlighter -/

structure CodeHighlighter where
  passes : List (Option Tree)
  enabled : Bool
  tooComplex : Bool
  generation : ℕ
  /-- The flag of the parse that is under way. -/
  deferredCancel : Option ℕ
  deriving DecidableEq, Repr

/-- A parse that is to run later; `clock` counts the generations so far, and nothing reads it. -/
structure DeferredParse where
  generation : ℕ
  rope : Str
  passes : List (Option Tree)
  cancel : ℕ
  timeout : Bool
  clock : ℕ
  deriving DecidableEq, Repr

structure ParsedTrees where
  generation : ℕ
  lenBytes : ℕ
  timedOut : Bool
  passes : List (Option Tree)
  cancelled : Bool
  rope : Str
  clock : ℕ
  deriving DecidableEq, Repr

/-- One pass for each grammar of the file. -/
def CodeHighlighter.new (grammars : ℕ) : CodeHighlighter :=
  ⟨List.replicate grammars none, grammars ≠ 0, false, 0, none⟩

def CodeHighlighter.hasTree (hl : CodeHighlighter) : Bool := hl.passes.any Option.isSome

/-- Which passes of a parse finish; none when it is not tried at all. -/
abbrev Outcome := Option (ℕ → Bool)

def descendsWithoutOverlap : List CodeEdit → Bool
  | first :: second :: edits =>
    (second.oldEndPoint.row < first.startPoint.row && second.oldEndByte ≤ first.startByte) &&
      descendsWithoutOverlap (second :: edits)
  | _ => true

/-- The passes that finish have the tree of the text, the others keep theirs. -/
def parsePasses (text : Str) (finishes : ℕ → Bool) (passes : List (Option Tree)) : List (Option Tree) :=
  passes.mapIdx fun i old => if finishes i then some (.parsed text) else old

/-- The old trees that a parse of the text is given. -/
def oldTrees (text : Str) (passes : List (Option Tree)) : List (Tree × Str) :=
  (passes.filterMap id).map fun tree => (tree, text)

structure Batch where
  hl : CodeHighlighter
  deferred : Option DeferredParse
  handed : List (Tree × Str)

/-- `edit_batch`, once the flag of the last parse is set. -/
def CodeHighlighter.editBatch (hl : CodeHighlighter) (text : Str) (edits : List CodeEdit) (cancel clock : ℕ)
    (outcome : Outcome) : Batch :=
  let generation := nextRevision hl.generation
  let edited := hl.passes.map (Option.map fun tree => edits.foldl Tree.edit tree)
  let finishes := outcome.getD fun _ => false
  let passes := parsePasses text finishes edited
  let tried := if outcome.isSome then oldTrees text edited else []
  if (List.range passes.length).all finishes ∧ outcome.isSome then
    ⟨{ hl with passes, generation, deferredCancel := none }, none, tried⟩
  else
    ⟨{ hl with passes, generation, deferredCancel := some cancel }, some ⟨generation, text, passes, cancel, false, clock⟩,
      tried ++ oldTrees text passes⟩

/-- `apply_parsed`, with the trees that are accepted. -/
def CodeHighlighter.applyParsed (hl : CodeHighlighter) (text : Str) (parsed : ParsedTrees) :
    CodeHighlighter × List Tree :=
  if parsed.cancelled = true ∨ parsed.generation ≠ hl.generation ∨ parsed.lenBytes ≠ size text then (hl, [])
  else if parsed.passes.length ≠ hl.passes.length then (hl, [])
  else if parsed.timedOut then
    ({ hl with deferredCancel := none, enabled := false, tooComplex := true, passes := [] }, [])
  else
    ({ hl with
        deferredCancel := none
        passes := List.zipWith (fun old new => new.or old) hl.passes parsed.passes }, parsed.passes.filterMap id)

/-- `DeferredParse::run` -/
def DeferredParse.run (parse : DeferredParse) (finishes : ℕ → Bool) (timedOut cancelled : Bool) : ParsedTrees where
  generation := parse.generation
  lenBytes := size parse.rope
  timedOut := parse.timeout && timedOut
  passes := parse.passes.mapIdx fun i _ => if finishes i then some (.parsed parse.rope) else none
  cancelled := cancelled
  rope := parse.rope
  clock := parse.clock

/-! ### The code view -/

structure CodeView where
  doc : CodeDocument
  history : UndoHistory
  hl : CodeHighlighter
  running : List DeferredParse
  finished : List ParsedTrees
  /-- The flags that were made, and those that are set. -/
  flags : ℕ
  cancelled : List ℕ
  clock : ℕ
  handed : List (Tree × Str)
  accepted : List (Tree × Str)

def CodeView.load (raw : Str) (grammars : ℕ) : CodeView :=
  ⟨.new raw, .default, .new grammars, [], [], 0, [], 0, [], []⟩

variable (view : CodeView)

/-- `edit_batch` as the view calls it; a batch that is out of order is refused. -/
def CodeView.editBatch (edits : List CodeEdit) (outcome : Outcome) : CodeView × Option DeferredParse :=
  if !descendsWithoutOverlap edits then (view, none)
  else if !view.hl.enabled || edits.isEmpty then (view, none)
  else
    let batch := view.hl.editBatch view.doc.text edits view.flags (view.clock + 1) outcome
    ({ view with
        hl := batch.hl
        flags := view.flags + 1
        cancelled := view.hl.deferredCancel.toList ++ view.cancelled
        clock := view.clock + 1
        handed := batch.handed ++ view.handed }, batch.deferred)

def opsDescendByRow (doc : CodeDocument) : List SpliceOp → Bool
  | first :: second :: ops =>
    byteToLine doc.text (min second.stop doc.lenBytes) < byteToLine doc.text (min first.start doc.lenBytes) &&
      opsDescendByRow doc (second :: ops)
  | _ => true

/-- The loop of `splice_all`; outside of a batch every splice is parsed at once. -/
def CodeView.spliceLoop (batched : Bool) :
    CodeView → List (SpliceOp × Outcome) → CodeView × List AppliedEdit × List CodeEdit × Option DeferredParse
  | view, [] => (view, [], [], none)
  | view, (op, outcome) :: ops =>
    match splice view.doc op.start op.stop op.text with
    | (doc, none) => CodeView.spliceLoop batched { view with doc } ops
    | (doc, some applied) =>
      let view := { view with doc }
      let (view, deferred) := if batched then (view, none) else view.editBatch [applied.edit] outcome
      let (view, records, edits, later) := CodeView.spliceLoop batched view ops
      (view, applied.record :: records, applied.edit :: edits, later.or deferred)

/-- The deferred parse of an edit is spawned. -/
def CodeView.finishEdit (deferred : Option DeferredParse) : CodeView :=
  { view with running := view.running ++ deferred.toList }

/-- `splice_all` on a document that is not read-only. -/
def CodeView.spliceAll (ops : List (SpliceOp × Outcome)) (outcome : Outcome) (before after : CodeSelection)
    (group : EditGroup) (now : ℕ) : CodeView :=
  let batched := opsDescendByRow view.doc (ops.map Prod.fst)
  let (view, records, edits, deferred) := CodeView.spliceLoop batched view ops
  let (view, deferred) := if batched then view.editBatch edits outcome else (view, deferred)
  if records.isEmpty then view
  else ({ view with history := view.history.push records before after group now } : CodeView).finishEdit deferred

/-- The loop of `time_travel`: every change is parsed with the document behind all of them. -/
def CodeView.replayed : CodeView → List (CodeEdit × Outcome) → CodeView × Option DeferredParse
  | view, [] => (view, none)
  | view, (edit, outcome) :: edits =>
    let (view, deferred) := view.editBatch [edit] outcome
    let (view, later) := CodeView.replayed view edits
    (view, later.or deferred)

def CodeView.timeTravel (redo : Bool) (outcomes : ℕ → Outcome) : CodeView :=
  if view.doc.isReadOnly then view
  else
    let (history, doc, step) := if redo then view.history.redoStep view.doc else view.history.undoStep view.doc
    match step with
    | none => { view with history, doc }
    | some step =>
      let changes := step.edits.mapIdx fun i change => (change.edit, outcomes i)
      let (view, deferred) := CodeView.replayed { view with history, doc } changes
      view.finishEdit deferred

/-- `apply_disk_splices` -/
def CodeView.applyDiskSplices (ops : List (SpliceOp × Outcome)) (outcome : Outcome) (before after : CodeSelection)
    (now : ℕ) : CodeView :=
  if ops.isEmpty then view
  else
    let reason := view.doc.readOnly
    let view := ({ view with doc := { view.doc with readOnly := none } } : CodeView).spliceAll ops outcome before after
      .atomic now
    { view with doc := { view.doc with readOnly := reason } }

def CodeView.initialParse : CodeView :=
  if !view.hl.enabled || view.hl.hasTree then view
  else
    { view with
      hl := { view.hl with deferredCancel := some view.flags }
      flags := view.flags + 1
      running := view.running ++ [⟨view.hl.generation, view.doc.text, view.hl.passes.map fun _ => none, view.flags, true,
        view.clock⟩] }

inductive Label where
  | spliceAll (ops : List (SpliceOp × Outcome)) (outcome : Outcome) (before after : CodeSelection) (group : EditGroup)
    (now : ℕ)
  | timeTravel (redo : Bool) (outcomes : ℕ → Outcome)
  | applyDiskSplices (ops : List (SpliceOp × Outcome)) (outcome : Outcome) (before after : CodeSelection) (now : ℕ)
  | setReadOnly (reason : Option ReadOnlyReason)
  | endTypingGroup
  | initialParse
  | run (index : ℕ) (finishes : ℕ → Bool) (timedOut : Bool)
  | apply (index : ℕ)

/-- A parse that is running comes to its end. -/
def CodeView.finishParse (index : ℕ) (finishes : ℕ → Bool) (timedOut : Bool) : Option CodeView := do
  let parse ← view.running[index]?
  return { view with
    running := view.running.eraseIdx index
    finished := view.finished ++ [parse.run finishes timedOut (parse.cancel ∈ view.cancelled)] }

/-- The result of a parse comes back to the view. -/
def CodeView.applyParsed (index : ℕ) : Option CodeView := do
  let parsed ← view.finished[index]?
  let (hl, trees) := view.hl.applyParsed view.doc.text parsed
  return { view with
    hl
    finished := view.finished.eraseIdx index
    accepted := (trees.map fun tree => (tree, view.doc.text)) ++ view.accepted }

def CodeView.step : Label → Option CodeView
  | .spliceAll ops outcome before after group now =>
    if view.doc.isReadOnly then some view else some (view.spliceAll ops outcome before after group now)
  | .timeTravel redo outcomes => some (view.timeTravel redo outcomes)
  | .applyDiskSplices ops outcome before after now => some (view.applyDiskSplices ops outcome before after now)
  | .setReadOnly reason => some { view with doc := { view.doc with readOnly := reason } }
  | .endTypingGroup => some { view with history := view.history.closeGroup }
  | .initialParse => some view.initialParse
  | .run index finishes timedOut => view.finishParse index finishes timedOut
  | .apply index => view.applyParsed index

end Paneflow.Code.Highlight
