import Paneflow.OrdMap
import Mathlib.Logic.Function.Basic
import Mathlib.Tactic.Common

/-!
# The persistence service

persistence.rs: callers hand manifest revisions to a queue with two lanes, and one writer thread takes
them out and writes them. Every lock-protected block and every file operation is a function of the
`Service`; `writer_loop` is cut at these points into the phases of the writer. Sleeping, waking and
deadlines are left to whoever runs the steps.

A file is represented by the revision whose bytes it holds; the file of an earlier run counts as
revision 0. `numbered`, `held` and `log` are only looked at by the proofs: all revisions that were
handed out, those not yet submitted, and the manifest writes so far, the latest first.
-/

namespace Paneflow.Host.Persistence

def queueBudgetBytes : ℕ := 8 * 1024 * 1024

def finalReserveBytes : ℕ := 16 * 1024

def maxManifestBytes : ℕ := 64 * 1024

inductive WriteClass where
  | metadata
  | critical
  | final
  deriving DecidableEq, Repr

inductive StorageError where
  | oversized
  | manifest (error : String)
  | hookSeed (error : String)
  | delete (error : String)
  deriving DecidableEq, Repr

inductive PersistError where
  | queueFull (queued budget : ℕ)
  | timeout
  | stopped
  | storage (error : StorageError)
  deriving DecidableEq, Repr

/-- The error that is shown for a session. -/
inductive SessionError where
  | failed (error : PersistError)
  | finalQueued
  deriving DecidableEq, Repr

structure SessionPersistence where
  revision : ℕ
  written : ℕ
  removed : Bool
  reserved : Bool
  seedSkipped : Bool
  error : Option SessionError
  deriving DecidableEq, Repr

def SessionPersistence.default : SessionPersistence := ⟨0, 0, false, false, false, none⟩

/-- A numbered snapshot of a manifest. `state` stands for the shared `SessionPersistence`. -/
structure ManifestRevision (S : Type) where
  session : S
  generation : ℕ
  revision : ℕ
  manifest : List UInt8
  seed : Option (List UInt8)
  state : ℕ
  cls : WriteClass
  deriving DecidableEq, Repr

def ManifestRevision.bytes {S : Type} (record : ManifestRevision S) : ℕ :=
  record.manifest.length + (record.seed.map List.length).getD 0

/-- `encode` with the manifest already serialized. -/
def ManifestRevision.encode {S : Type} (session : S) (generation : ℕ) (manifest : List UInt8)
    (seed : Option (List UInt8)) (revision state : ℕ) (cls : WriteClass) :
    Except PersistError (ManifestRevision S) :=
  if manifest.length > maxManifestBytes then
    .error (.storage .oversized)
  else .ok ⟨session, generation, revision, manifest, seed, state, cls⟩

/-- Jobs of the ordered lane; a completion is named by a ticket. -/
inductive Job (S : Type) where
  | manifest (record : ManifestRevision S) (done : Option ℕ)
  | remove (session : S) (state : ℕ) (done : Option ℕ)
  | exclusive (done : Option ℕ)
  | barrier (done : ℕ)
  deriving DecidableEq, Repr

def Job.bytes {S : Type} : Job S → ℕ
  | .manifest record _ => record.bytes
  | _ => 0

structure Queue (S : Type) [LinearOrder S] where
  ordered : List (Job S)
  metadata : OrdMap S (ManifestRevision S)
  metadataOrder : List S
  pendingFinal : OrdMap S (ManifestRevision S)
  queuedBytes : ℕ
  reservedBytes : ℕ
  stopped : Bool
  peakQueuedBytes : ℕ
  metadataRejected : ℕ

def Queue.default {S : Type} [LinearOrder S] : Queue S := ⟨[], .empty, [], .empty, 0, 0, false, 0, 0⟩

/-- Where the writer is between two steps. -/
inductive Phase (S : Type) where
  | idle
  | taken (job : Job S)
  | writing (record : ManifestRevision S) (done : Option ℕ)
  | seeding (record : ManifestRevision S) (done : Option ℕ)
  | clearing (session : S) (state : ℕ) (done : Option ℕ) (result : Except PersistError Unit)
  | ended (bytes : ℕ) (retained : Option (ManifestRevision S))

structure Service (S : Type) [LinearOrder S] where
  queue : Queue S
  states : ℕ → SessionPersistence
  files : S → Option (ManifestRevision S)
  dirs : S → Option ℕ
  preferMetadata : Bool
  phase : Phase S
  replies : ℕ → Option (Except PersistError Unit)
  numbered : List (ManifestRevision S)
  held : List (ManifestRevision S)
  log : List (ManifestRevision S)

variable {S : Type} [LinearOrder S]

/-! ### Callers -/

def newerPending (pending : OrdMap S (ManifestRevision S)) (record : ManifestRevision S) : Bool :=
  (pending.get? record.session).any fun held => record.revision ≤ held.revision

def retainPendingFinal (queue : Queue S) (record : ManifestRevision S) : Queue S :=
  if newerPending queue.pendingFinal record then queue
  else { queue with pendingFinal := queue.pendingFinal.insert record.session record }

/-- The pending finals go to the end of the ordered lane; in `drain` and when a retry is due. -/
def Queue.requeuePending (queue : Queue S) : Queue S :=
  { queue with
    pendingFinal := .empty
    queuedBytes := queue.queuedBytes + (queue.pendingFinal.values.map ManifestRevision.bytes).sum
    ordered := queue.ordered ++ queue.pendingFinal.values.map fun record => .manifest record none }

namespace Service

variable (v : Service S)

def setState (state : ℕ) (f : SessionPersistence → SessionPersistence) : Service S :=
  { v with states := Function.update v.states state (f (v.states state)) }

def setError (state : ℕ) (error : Option SessionError) : Service S :=
  v.setState state fun s => { s with error := error }

def withQueue (queue : Queue S) : Service S :=
  { v with queue := { queue with peakQueuedBytes := max queue.peakQueuedBytes queue.queuedBytes } }

/-- `persist_revision` under the manifest lock: the next number, and the snapshot encoded with it. -/
def number (session : S) (state generation : ℕ) (manifest : List UInt8) (seed : Option (List UInt8))
    (cls : WriteClass) : Service S × Except PersistError (ManifestRevision S) :=
  let revision := (v.states state).revision + 1
  let v := v.setState state fun s => { s with revision := revision }
  match ManifestRevision.encode session generation manifest seed revision state cls with
  | .ok record => ({ v with numbered := record :: v.numbered, held := record :: v.held }, .ok record)
  | .error error => (v, .error error)

def refuse (record : ManifestRevision S) : Service S × Except PersistError Unit :=
  let error := .queueFull v.queue.queuedBytes queueBudgetBytes
  (v.setError record.state (some (.failed error)), .error error)

/-- A manifest job at the end of the ordered lane. -/
def pushManifest (record : ManifestRevision S) (done : Option ℕ) : Service S :=
  v.withQueue { v.queue with
    queuedBytes := v.queue.queuedBytes + record.bytes
    ordered := v.queue.ordered ++ [.manifest record done] }

def submitMetadata (record : ManifestRevision S) : Service S × Except PersistError Unit :=
  match v.queue.metadata.get? record.session with
  | some previous =>
    (v.withQueue { v.queue with
      queuedBytes := v.queue.queuedBytes - previous.bytes + record.bytes
      metadata := (v.queue.metadata.erase record.session).insert record.session record }, .ok ())
  | none =>
    if v.queue.queuedBytes + v.queue.reservedBytes + record.bytes ≤ queueBudgetBytes then
      (v.withQueue { v.queue with
        queuedBytes := v.queue.queuedBytes + record.bytes
        metadataOrder := v.queue.metadataOrder ++ [record.session]
        metadata := v.queue.metadata.insert record.session record }, .ok ())
    else
      { v with queue := { v.queue with metadataRejected := v.queue.metadataRejected + 1 } }.refuse
        record

def submitFinal (record : ManifestRevision S) : Service S × Except PersistError Unit :=
  if v.queue.queuedBytes + record.bytes ≤ queueBudgetBytes then (v.pushManifest record none, .ok ())
  else
    ((v.setError record.state (some .finalQueued)).withQueue (retainPendingFinal v.queue record),
      .ok ())

def submit (record : ManifestRevision S) : Service S × Except PersistError Unit :=
  let v := { v with held := v.held.erase record }
  if v.queue.stopped then (v, .error .stopped)
  else
    match record.cls with
    | .metadata => v.submitMetadata record
    | .critical =>
      if v.queue.queuedBytes + record.bytes ≤ queueBudgetBytes then
        (v.pushManifest record none, .ok ())
      else v.refuse record
    | .final => v.submitFinal record

/-- `submit_and_wait` up to its `wait`: the answer will come under `ticket`. -/
def submitAndWait (record : ManifestRevision S) (ticket : ℕ) : Service S × Except PersistError Unit :=
  let v := { v with held := v.held.erase record }
  if v.queue.stopped then (v, .error .stopped)
  else if v.queue.queuedBytes + record.bytes ≤ queueBudgetBytes then
    (v.pushManifest record (some ticket), .ok ())
  else v.refuse record

def markRemoved (state : ℕ) : Service S := v.setState state fun s => { s with removed := true }

/-- The locked block of `enqueue_remove`. -/
def enqueueRemove (session : S) (state : ℕ) (done : Option ℕ) :
    Service S × Except PersistError Unit :=
  if v.queue.stopped then (v, .error .stopped)
  else
    let queuedBytes :=
      match v.queue.metadata.get? session with
      | some previous => v.queue.queuedBytes - previous.bytes
      | none => v.queue.queuedBytes
    ({ v with queue := { v.queue with
      queuedBytes := queuedBytes
      metadata := v.queue.metadata.erase session
      pendingFinal := v.queue.pendingFinal.erase session
      ordered := v.queue.ordered ++ [.remove session state done] } }, .ok ())

def reserveFinal (state : ℕ) : Service S :=
  if (v.states state).reserved then v
  else
    { v.setState state fun s => { s with reserved := true } with
      queue := { v.queue with reservedBytes := v.queue.reservedBytes + finalReserveBytes } }

def releaseFinal (state : ℕ) : Service S :=
  if (v.states state).reserved then
    { v.setState state fun s => { s with reserved := false } with
      queue := { v.queue with reservedBytes := v.queue.reservedBytes - finalReserveBytes } }
  else v

/-- `run_exclusive` and `spawn_exclusive` -/
def pushExclusive (done : Option ℕ) : Service S × Except PersistError Unit :=
  if v.queue.stopped then (v, .error .stopped)
  else
    ({ v with queue := { v.queue with ordered := v.queue.ordered ++ [.exclusive done] } }, .ok ())

/-- The first locked block of `drain`. -/
def drainTake : Service S := { v with queue := v.queue.requeuePending }

/-- The second locked block of `drain`. -/
def drainBarrier (ticket : ℕ) : Service S × Except PersistError Unit :=
  if v.queue.stopped then (v, .error .stopped)
  else
    ({ v with queue := { v.queue with ordered := v.queue.ordered ++ [.barrier ticket] } }, .ok ())

/-- The last block of `drain`: the finals that are not durable, with the errors of their sessions. -/
def drainFailures : List (S × ℕ × ℕ × Option SessionError) :=
  v.queue.pendingFinal.values.map fun record =>
    (record.session, record.generation, record.revision, (v.states record.state).error)

/-! ### The writer -/

/-- Pops the order until a session with a queued revision comes. -/
def takeMetadataFrom (metadata : OrdMap S (ManifestRevision S)) :
    List S → List S × Option (S × ManifestRevision S)
  | [] => ([], none)
  | session :: order =>
    match metadata.get? session with
    | some record => (order, some (session, record))
    | none => takeMetadataFrom metadata order

def takeMetadata (queue : Queue S) : Queue S × Option (Job S) :=
  match takeMetadataFrom queue.metadata queue.metadataOrder with
  | (order, some (session, record)) =>
    ({ queue with metadataOrder := order, metadata := queue.metadata.erase session },
      some (.manifest record none))
  | (order, none) => ({ queue with metadataOrder := order }, none)

def takeOrdered (queue : Queue S) : Queue S × Option (Job S) :=
  match queue.ordered with
  | [] => (queue, none)
  | job :: ordered => ({ queue with ordered := ordered }, some job)

def barrierNext (queue : Queue S) : Bool :=
  match queue.ordered with
  | .barrier _ :: _ => true
  | _ => false

def takeNext (queue : Queue S) (preferMetadata : Bool) : Queue S × Option (Job S) :=
  if preferMetadata || barrierNext queue then
    match takeMetadata queue with
    | (queue, some job) => (queue, some job)
    | (queue, none) => takeOrdered queue
  else
    match takeOrdered queue with
    | (queue, some job) => (queue, some job)
    | (queue, none) => takeMetadata queue

/-- The writer takes a job. -/
def take : Option (Service S) :=
  match v.phase with
  | .idle =>
    match takeNext v.queue v.preferMetadata with
    | (queue, some job) =>
      some { v with queue := queue, preferMetadata := !v.preferMetadata, phase := .taken job }
    | (_, none) => none
  | _ => none

/-- The writer finds nothing to do and goes to sleep. -/
def rest : Option (Service S) :=
  match v.phase with
  | .idle =>
    match takeNext v.queue v.preferMetadata with
    | (_, some _) => none
    | (queue, none) => some { v with queue := queue }
  | _ => none

/-- The writer wakes up because a retry is due; jobs may have come while it slept. -/
def retry : Option (Service S) :=
  match v.phase with
  | .idle => some { v with queue := v.queue.requeuePending }
  | _ => none

def answer (done : Option ℕ) (result : Except PersistError Unit) : Service S :=
  match done with
  | some ticket => { v with replies := Function.update v.replies ticket (some result) }
  | none => v

/-- What `execute` does with the result of `write_revision`. -/
def endWrite (record : ManifestRevision S) (done : Option ℕ) (result : Except PersistError Unit) :
    Service S :=
  match result with
  | .ok () =>
    { (v.setError record.state none).answer done result with phase := .ended record.bytes none }
  | .error error =>
    { (v.setError record.state (some (.failed error))).answer done result with
      phase := .ended record.bytes (if record.cls = .final then some record else none) }

def endJob (done : Option ℕ) (result : Except PersistError Unit) : Service S :=
  { v.answer done result with phase := .ended 0 none }

/-- The checks of `write_revision`. -/
def startWrite (record : ManifestRevision S) (done : Option ℕ) : Service S :=
  if (v.states record.state).removed then v.endWrite record done (.ok ())
  else if record.revision < (v.states record.state).written then v.endWrite record done (.ok ())
  else { v with phase := .writing record done }

/-- `written.fetch_max`, and the end of `write_revision`. -/
def advanceWritten (record : ManifestRevision S) (done : Option ℕ) : Service S :=
  (v.setState record.state fun s => { s with written := max s.written record.revision }).endWrite
    record done (.ok ())

end Service

/-- What the file system answers to a write: nothing, or the text of an error. -/
abbrev Written := Option String

inductive SeedWritten where
  | ok
  | notFound
  | failed (error : String)
  deriving DecidableEq, Repr

namespace Service

variable (v : Service S)

def writeManifest (record : ManifestRevision S) (done : Option ℕ) : Written → Service S
  | none =>
    let v := { v with
      files := Function.update v.files record.session (some record)
      log := record :: v.log }
    match record.seed with
    | some _ => { v with phase := .seeding record done }
    | none => v.advanceWritten record done
  | some error =>
    v.endWrite record done (.error (.storage (.manifest error)))

/-- The hook seed; a missing session directory only skips it. -/
def writeSeed (record : ManifestRevision S) (done : Option ℕ) : SeedWritten → Service S
  | .ok => (v.setState record.state fun s => { s with seedSkipped := false }).advanceWritten record done
  | .notFound =>
    (v.setState record.state fun s => { s with seedSkipped := true }).advanceWritten record done
  | .failed error => v.endWrite record done (.error (.storage (.hookSeed error)))

/-- Deletes the manifest; a file that is not there counts as deleted. -/
def removeFile (session : S) (state : ℕ) (done : Option ℕ) : Written → Service S
  | none =>
    { v with
      files := Function.update v.files session none
      phase := .clearing session state done (.ok ()) }
  | some error =>
    { v with phase := .clearing session state done (.error (.storage (.delete error))) }

/-- `remove_session_data`, which may fail silently, and the end of a removal. -/
def clearData (session : S) (state : ℕ) (done : Option ℕ) (result : Except PersistError Unit)
    (cleared : Bool) : Service S :=
  let v := if cleared then { v with dirs := Function.update v.dirs session none } else v
  let error := match result with
    | .ok () => none
    | .error error => some (.failed error)
  (v.setError state error).endJob done result

/-- What the file system does in one step of the writer. -/
structure Answers where
  write : Written
  seed : SeedWritten
  cleared : Bool

/-- One step of `execute`. -/
def execute (answers : Answers) : Option (Service S) :=
  match v.phase with
  | .taken (.manifest record done) => some (v.startWrite record done)
  | .taken (.remove session state done) => some (v.removeFile session state done answers.write)
  | .taken (.exclusive done) => some (v.endJob done (.ok ()))
  | .taken (.barrier done) => some (v.endJob (some done) (.ok ()))
  | .writing record done => some (v.writeManifest record done answers.write)
  | .seeding record done => some (v.writeSeed record done answers.seed)
  | .clearing session state done result =>
    some (v.clearData session state done result answers.cleared)
  | _ => none

/-- The locked block at the end of a turn of `writer_loop`. -/
def finish : Option (Service S) :=
  match v.phase with
  | .ended bytes retained =>
    let queue := { v.queue with queuedBytes := v.queue.queuedBytes - bytes }
    some { v with
      queue := match retained with
        | some record => retainPendingFinal queue record
        | none => queue
      phase := .idle }
  | _ => none

end Service

end Paneflow.Host.Persistence
