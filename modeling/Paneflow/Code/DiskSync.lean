import Paneflow.Code.DiskSplices

/-!
# The code view and the file on disk

The parts of code/view that edit a document and keep it in step with its file: `splice_all` and
`time_travel` of editing.rs, and of disk_sync.rs `start_save`, `finish_save`, `begin_disk_reload` and
`finish_disk_reload` with what they call. The selections of an edit and the time are arguments.
-/

namespace Paneflow.Code.DiskSync

open Paneflow.Code.Document Paneflow.Code.Edit Paneflow.Code.History Paneflow.Code.UndoRun
open Paneflow.Code.DiskSplices Paneflow.Trace

structure FileStamp where
  mtime : Option ℕ
  len : ℕ
  deriving DecidableEq, Repr

inductive DiskState where
  | inSync
  | conflict
  | deleted
  deriving DecidableEq, Repr

structure DiskFacts where
  readOnly : Option ReadOnlyReason
  lineEnding : LineEnding
  deriving DecidableEq, Repr

structure DiskMeta where
  revision : ℕ
  stamp : FileStamp
  facts : Option DiskFacts
  deriving DecidableEq, Repr

structure DiskDiff where
  rope : Str
  diskMeta : DiskMeta
  deriving DecidableEq, Repr

def DiskDiff.of (doc : CodeDocument) (stamp : FileStamp) : DiskDiff :=
  ⟨doc.text, ⟨doc.revision, stamp, none⟩⟩

inductive SaveStart where
  | clean
  | deferred
  | started (contents : Str) (expected : Option FileStamp) (mark : HistoryMark)
  | refused (reason : String)
  deriving DecidableEq, Repr

inductive SaveOutcome where
  | ok (stamp : FileStamp)
  | write (message : String)
  | changedOnDisk (observed : Option FileStamp)
  deriving DecidableEq, Repr

structure CodeView where
  name : String
  doc : CodeDocument
  history : UndoHistory
  savedMark : HistoryMark
  bufferStamp : Option FileStamp
  diskStamp : Option FileStamp
  diskGeneration : ℕ
  reloading : Bool
  saveAfterReload : Bool
  disk : DiskState
  saveError : Option String
  saving : Bool
  deriving DecidableEq, Repr

namespace CodeView

variable (view : CodeView)

def isDirty : Bool := view.history.mark ≠ view.savedMark

/-- Splices and one push of their records; the windows are for the change markers. -/
def spliceAll (ops : List SpliceOp) (before after : CodeSelection) (group : EditGroup) (now : ℕ) :
    CodeView × Bool × List TrackerWindow :=
  if view.doc.isReadOnly then (view, false, [])
  else
    let (doc, records, changes) := UndoRun.spliceAll view.doc ops
    if records.isEmpty then ({ view with doc := doc }, false, changes)
    else
      ({ view with doc := doc, history := view.history.push records before after group now }, true,
        changes)

def timeTravel (redo : Bool) : CodeView × List DocChange :=
  if view.doc.isReadOnly then (view, [])
  else
    let (history, doc, step) :=
      if redo then view.history.redoStep view.doc else view.history.undoStep view.doc
    ({ view with history := history, doc := doc }, (step.map HistoryStep.edits).getD [])

def endTypingGroup : CodeView := { view with history := view.history.closeGroup }

def startSave (defer : Bool) : CodeView × SaveStart :=
  if view.saving then (view, .refused (view.name ++ " is already being saved."))
  else if view.doc.isReadOnly then (view, .refused (view.name ++ " is read-only."))
  else if view.disk = .conflict then
    (view, .refused (view.name ++ " changed on disk. Choose Keep mine or Reload."))
  else if view.isDirty = false ∧ view.disk = .inSync then (view, .clean)
  else if view.reloading then
    if defer then ({ view with saveAfterReload := true }, .deferred)
    else (view, .refused (view.name ++ " is reloading from disk."))
  else
    let view := { view with history := view.history.closeGroup }
    let contents := view.doc.toDiskString
    let expected := view.bufferStamp
    let mark := view.history.mark
    ({ view with saving := true, saveError := none }, .started contents expected mark)

def finishSave (outcome : SaveOutcome) (mark : HistoryMark) : CodeView :=
  let view := { view with saving := false }
  match outcome with
  | .ok stamp =>
    { view with
      bufferStamp := some stamp
      diskStamp := some stamp
      diskGeneration := nextRevision view.diskGeneration
      savedMark := mark
      disk := .inSync
      saveError := none }
  | .write message => { view with saveError := some message }
  | .changedOnDisk observed =>
    { view with diskStamp := observed.or view.diskStamp, disk := .conflict }

def beginDiskReload (stamp : Option FileStamp) (present force : Bool) : CodeView × Option DiskDiff :=
  match stamp.filter fun _ => present with
  | none => ({ view with diskStamp := none, disk := .deleted }, none)
  | some stamp =>
    let seen := view.diskStamp = some stamp
    let view := { view with diskStamp := some stamp }
    if force = false ∧ view.bufferStamp = some stamp ∧ view.disk = .inSync then (view, none)
    else if force = false ∧ seen ∧ view.disk = .conflict then (view, none)
    else if force = false ∧ view.isDirty then ({ view with disk := .conflict }, none)
    else ({ view with disk := .inSync, reloading := true }, some (DiskDiff.of view.doc stamp))

/-- `end_disk_reload`, with the save that was waiting for it. -/
def endDiskReload : CodeView × Option SaveStart :=
  let view := { view with reloading := false }
  if view.saveAfterReload then
    let (view, start) := { view with saveAfterReload := false }.startSave true
    (view, some start)
  else (view, none)

def applyDiskSplices (ops : List SpliceOp) (before after : CodeSelection) (now : ℕ) :
    CodeView × List TrackerWindow :=
  if ops.isEmpty then (view, [])
  else
    let reason := view.doc.readOnly
    let view := { view with doc := { view.doc with readOnly := none } }
    let (view, _, changes) := view.spliceAll ops before after .atomic now
    ({ view with doc := { view.doc with readOnly := reason } }, changes)

/-- The reload is still about the text of the document, and nothing unsaved is in its way. -/
def adopts (info : DiskMeta) (force : Bool) : Bool :=
  view.doc.revision = info.revision && (force || !view.isDirty)

def setFacts (facts : Option DiskFacts) : CodeView :=
  match facts with
  | none => view
  | some facts =>
    { view with
      doc := { view.doc with lineEnding := facts.lineEnding, readOnly := facts.readOnly } }

def finishDiskReload (info : DiskMeta) (splices : List SpliceOp) (retry force : Bool)
    (before after : CodeSelection) (now : ℕ) :
    CodeView × Option DiskDiff × Option SaveStart × List TrackerWindow :=
  if view.doc.revision ≠ info.revision then
    if retry then (view, some (DiskDiff.of view.doc info.stamp), none, [])
    else
      let (view, start) := { view with disk := .conflict }.endDiskReload
      (view, none, start, [])
  else if force = false ∧ view.isDirty then
    let (view, start) := { view with disk := .conflict }.endDiskReload
    (view, none, start, [])
  else
    let (view, changes) := view.applyDiskSplices splices before after now
    let view := view.setFacts info.facts
    let view := { view with savedMark := view.history.mark, bufferStamp := some info.stamp }
    let (view, start) := view.endDiskReload
    (view, none, start, changes)

def resolveKeepMine : CodeView := { view with bufferStamp := view.diskStamp, disk := .inSync }

end CodeView

end Paneflow.Code.DiskSync
