import Paneflow.Host.Sessions

/-!
# The calls of the host

host.rs as threads over a shared state. A `Call` is where a call of the host stands between two
lock-protected blocks, with its local variables. What the operating system, the clock and the scheduler
decide is in the `Input` of a step: a wait that is over, a runtime that started, a call that gave up. The
changes that the blocks make to the `Records` of the sessions are functions here, the blocks themselves are
in the next module.

Only the proofs look at `owner`, the call that took an operation number, and at `frames`, the events that
were published, the latest first.
-/

namespace Paneflow.Host.Calls

open Paneflow.Host.Persistence Paneflow.Host.PersistRun Paneflow.Host.Sessions

inductive HostError where
  | shuttingDown
  | sessionExists
  | sessionNotFound
  | sessionLive
  | launchPending
  | processUnverified
  | busy
  | storage
  | invalidRequest
  | generationMismatch (current requested : ℕ)
  | ownershipUnresolved (reason : String)
  | spawnFailed (reason : String)
  | sessionsLive (count : ℕ)
  | sessionsUnresolved
  deriving DecidableEq, Repr

/-- What a call returned. -/
inductive Outcome where
  | done
  | failed (error : HostError)
  | refused (reason : String) (hookRevision : ℕ)
  | acknowledged (id hookRevision : ℕ) (durable : Bool)
  | shutDown
  deriving DecidableEq, Repr

/-- The local variables of `restart`. The proofs also look at `cloned`, the record that `prior` was cloned
from, and at `seen`, its updates at that time. -/
structure Restart (S : Type) where
  session : S
  prior : SessionManifest S
  cwd : String
  operation : ℕ
  cloned : ℕ
  seen : ℕ
  deriving DecidableEq, Repr

def Restart.next {S : Type} (restart : Restart S) : ℕ := saturatingSucc restart.prior.generation

/-- What a call does after `persist`. -/
inductive Then (S : Type) where
  | nothing
  | launch (session : S) (operation : ℕ)
  | relaunch (restart : Restart S) (ledger : ℕ)
  | unlock (ledger : ℕ)
  | inspect (session : S) (failure : Option HostError) (reply : Option ℕ)
  | record (session : S) (generation offset : ℕ)
  | settle (hookRevision covered : ℕ)
  deriving DecidableEq, Repr

/-- Where `shutdown_until` is. -/
inductive Stage (S : Type) where
  | requested (force : Bool)
  | collecting (unspawned : List (S × ℕ)) (pending unresolved : List S)
  | checking
  | completing
  | draining (ticket : ℕ)
  | clearing
  | finished (ok : Bool)
  deriving DecidableEq, Repr

/-- Where a call stands. A record is named by its `id`, and `ledger` is the record whose ledger the call has
looked up. A `shutdown` has its caller waiting for it or not. -/
inductive Call (S : Type) where
  | idle
  | admitting (session : S) (fresh : SessionManifest S) (operation : ℕ) (attempts : Option ℕ)
  | preparing (session : S) (id operation : ℕ)
  | undoing (session : S) (id operation : ℕ)
  | replacing (session : S) (generation : Option ℕ)
  | cloned (restart : Restart S)
  | seeded (restart : Restart S) (ledger : ℕ)
  | locked (restart : Restart S) (ledger : ℕ)
  | readmitting (restart : Restart S) (ledger : ℕ) (attempts : Option ℕ)
  | rollingBack (restart : Restart S) (ledger id : ℕ)
  | clearing (restart : Restart S) (ledger id : ℕ)
  | unlocking (ledger : ℕ) (error : HostError)
  | persisting (session : S)
  | numbering (id : ℕ) (cls : WriteClass) (next : Then S)
  | submitting (record : ManifestRevision S) (next : Then S)
  | waiting (ticket id : ℕ) (next : Then S)
  | launching (session : S) (id generation operation : ℕ)
  | stopCalled (session : S) (generation reply : Option ℕ)
  | stopping (session : S) (id runtime : ℕ) (reply : Option ℕ)
  | stopped (session : S) (id generation : ℕ) (report : StopReport) (reply : Option ℕ)
  | inspecting (session : S) (failure : Option HostError) (reply : Option ℕ)
  | removing (dropped : List (S × ℕ))
  | marking (session : S) (id : ℕ) (wait : Bool) (dropped : List (S × ℕ))
  | enqueuing (session : S) (id : ℕ) (wait : Bool) (dropped : List (S × ℕ))
  | awaitingRemoval (ticket : ℕ) (dropped : List (S × ℕ))
  | completing (session : S) (id generation : ℕ) (output : FinalOutput)
  | recording (session : S) (id generation offset : ℕ)
  | releasing (session : S) (generation : ℕ)
  | ingesting (event : AgentEvent S) (id : ℕ)
  | awaiting (id hookRevision : ℕ) (retry : Bool)
  | covering (id hookRevision : ℕ)
  | settling (id hookRevision covered : ℕ) (ok : Bool)
  | shutdown (waiting : Bool) (stage : Stage S)
  | returned (outcome : Outcome)
  deriving DecidableEq, Repr

/-- The sessions of the host. -/
structure Records (S : Type) [LinearOrder S] where
  table : OrdMap S SessionRecord
  cells : ℕ → Cell S
  allocated : List ℕ
  frames : List (ℕ × Frame S)
  nextOperation : ℕ
  owner : ℕ → ℕ

structure CreateSession (S : Type) where
  session : S
  workspace : Option String
  cwd : String
  launch : SessionLaunch
  title : Option String
  deriving DecidableEq, Repr

/-- What the surroundings answer to a call. -/
structure Answers where
  ok : Bool := true
  expired : Bool := false
  now : ℕ := 0
  fresh : ℕ := 0
  cwd : String := ""
  reason : String := ""
  runtime : Option Runtime := none
  report : StopReport := ⟨none, 0, none⟩
  deriving DecidableEq, Repr

inductive Input (S : Type) where
  | writer (op : Op S)
  | runtime (id : ℕ) (state : Runtime)
  | create (request : CreateSession S) (now : ℕ)
  | restart (session : S) (generation : Option ℕ)
  | stop (session : S) (generation : Option ℕ)
  | spawned (session : S) (generation worker : ℕ)
  | remove (session : S)
  | trim (now : ℕ)
  | persist (session : S)
  | update (id generation : ℕ) (update : Update) (now : ℕ)
  | complete (session : S) (id generation : ℕ) (output : FinalOutput)
  | release (session : S) (generation : ℕ)
  | ingest (event : AgentEvent S)
  | shutdown (force : Bool)
  | giveUp
  | proceed (answers : Answers)

variable {S : Type} [LinearOrder S]

def Call.fail (error : HostError) : Call S := .returned (.failed error)

/-- Where a call goes on after `persist`. -/
def Then.resume (id : ℕ) (ok : Bool) : Then S → Call S
  | .nothing => .returned .done
  | .launch session operation =>
    if ok then .launching session id 1 operation else .undoing session id operation
  | .relaunch restart ledger =>
    if ok then .clearing restart ledger id else .rollingBack restart ledger id
  | .unlock ledger => .unlocking ledger .storage
  | .inspect session failure reply => .inspecting session failure reply
  | .record session generation offset => .recording session id generation offset
  | .settle hookRevision covered => .settling id hookRevision covered ok

namespace Records

variable (v : Records S)

def manifest (id : ℕ) : SessionManifest S := (v.cells id).manifest

def setCell (id : ℕ) (f : Cell S → Cell S) : Records S :=
  { v with cells := Function.update v.cells id (f (v.cells id)) }

def setRecord (session : S) (record : SessionRecord) : Records S :=
  { v with table := v.table.insert session record }

/-- `next_operation` -/
def takeOperation (me : ℕ) : Records S :=
  { v with
    nextOperation := v.nextOperation + 1
    owner := Function.update v.owner v.nextOperation me }

/-- The record of the session, if its pending launch is the given one. -/
def launchOf (session : S) (operation : ℕ) : Option (SessionRecord × PendingLaunch) := do
  let record ← v.table.get? session
  let launch ← record.launch
  if launch.operation = operation then some (record, launch) else none

/-- The records with a pending launch. -/
def pending : ℕ := (v.table.values.filter fun record => record.launch.isSome).length

/-- The record that `create` inserts. -/
def insertCreated (session : S) (fresh : SessionManifest S) (operation id : ℕ) : Records S :=
  let v := { v with allocated := id :: v.allocated }
  (v.setCell id fun _ => .fresh fresh).setRecord session
    { SessionRecord.fresh id with launch := some ⟨operation, 1, false⟩ }

/-- A `create` that failed takes its record out, if it is still the one it inserted. -/
def eraseCreated (session : S) (operation : ℕ) : Records S :=
  if (v.launchOf session operation).isSome then { v with table := v.table.erase session } else v

def lockLedger (me ledger : ℕ) : Records S :=
  v.setCell ledger fun cell => { cell with holder := some me }

def unlockLedger (ledger : ℕ) : Records S :=
  v.setCell ledger fun cell => { cell with holder := none }

/-- What an admitted `restart` does to the record. -/
def admitRestart (host : Identity S) (restart : Restart S) (record : SessionRecord) (now : ℕ) :
    Records S :=
  (v.setCell record.id fun cell => { cell with
      manifest := cell.manifest.restarted host restart.next restart.cwd now }).setRecord
    restart.session { record with launch := some ⟨restart.operation, restart.next, false⟩ }

/-- A `restart` that was not persisted puts the manifest back that it cloned. -/
def rollBack (restart : Restart S) (record : SessionRecord) : Records S :=
  (v.setRecord restart.session { record with launch := none }).setCell record.id fun cell =>
    { cell with manifest := restart.prior }

/-- A `restart` that was persisted clears the receipts and drops the lock of the ledger. -/
def clearReceipts (ledger id : ℕ) : Records S :=
  (v.setCell ledger fun cell =>
      { cell with ledger := { cell.ledger with receipts := [] }, holder := none }).setCell id
    fun cell => { cell with shadow := cell.manifest, updates := cell.updates + 1 }

def commitLaunch (host : Identity S) (session : S) (record : SessionRecord) (launch : PendingLaunch)
    (runtime : Runtime) (name now : ℕ) : Records S :=
  (v.setCell record.id
      (·.write fun m => m.launched host runtime launch.cancelled now)).setRecord session
    { record with runtime := some name, completed := none, launch := none }

def failLaunch (session : S) (record : SessionRecord) (launch : PendingLaunch) (reason : String)
    (now : ℕ) : Records S :=
  let released := v.setRecord session { record with launch := none }
  if (v.manifest record.id).generation = launch.generation then
    released.setCell record.id
      (·.write fun m => { m with lifecycle := .failed reason, updatedAtMs := now })
  else released

def stopCommit (id : ℕ) (report : StopReport) (now : ℕ) : Records S :=
  v.setCell id
    (·.write fun m => { m with lifecycle := lifecycleAfterStop report, updatedAtMs := now })

def drop (dropped : List S) : Records S :=
  { v with table := dropped.foldl OrdMap.erase v.table }

def markLedger (id : ℕ) : Records S :=
  v.setCell id fun cell => { cell with ledger := { cell.ledger with removed := true } }

/-- `ingest_agent_event` from the lock of the ledger to where it is dropped. -/
def ingestEvent (host : Identity S) (event : AgentEvent S) (id now : ℕ) : Records S :=
  let result := ingest host (v.cells id).manifest (v.cells id).ledger event now
  let v := v.setCell id fun cell => { cell with
    manifest := result.manifest
    ledger := result.ledger
    shadow := if result.frame.isSome then (cell.shadow.accept host event now).1 else cell.shadow
    updates := if result.frame.isSome then cell.updates + 1 else cell.updates }
  { v with frames := (result.frame.map fun frame => (id, frame)).toList ++ v.frames }

/-- The block of `commit_reporting_change`: the manifest has to be that of a record in the table, at the
expected generation. -/
def commit (id : ℕ) (expected : Option ℕ) (update : Update) (now : ℕ) : Option (Records S) :=
  if id ∈ v.table.values.map SessionRecord.id ∧
      expected.getD (v.manifest id).generation = (v.manifest id).generation ∧
      (v.manifest id).commit update now ≠ v.manifest id then
    some (v.setCell id (·.write fun m => m.commit update now))
  else none

end Records

end Paneflow.Host.Calls
