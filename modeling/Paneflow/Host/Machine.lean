import Paneflow.Host.Calls
import Paneflow.Threads
import Mathlib.Data.Nat.Basic

/-!
# The steps of the host

Every lock-protected block of host.rs is a function of the `Shared` state, named after the function it
belongs to; `advance` puts them together. The process of a session is only seen through its `Runtime`, which
changes by itself (`mayBecome`). Requests that do not touch the table or a manifest are left out, and so are
the checks of the launch arguments.

Only the proofs look at `holder`, the shutdown that set the flag, at `flagged`, all that ever did, and at
`snapshots`, the manifests that the numbered revisions were made from.
-/

namespace Paneflow.Host.Machine

open Paneflow.Host.Persistence Paneflow.Host.PersistRun Paneflow.Host.Sessions Paneflow.Host.Calls
open Paneflow.Threads

structure Shared (S : Type) [LinearOrder S] extends Records S where
  service : System S
  critical : ℕ → CriticalFlush
  runtimes : ℕ → Option Runtime
  shuttingDown : Bool
  shutdownAttempts : ℕ
  spawned : List (S × ℕ × ℕ)
  results : List (ℕ × S × Bool)
  holder : Option ℕ
  flagged : List ℕ
  snapshots : List (ManifestRevision S × SessionManifest S)

variable {S : Type} [LinearOrder S]

/-- What a block gives: the shared state after it, and where the call stands then; nothing where the call has
to wait. -/
abbrev Block (S : Type) [LinearOrder S] := Option (Shared S × Call S)

namespace Shared

variable (host : Identity S) (sh : Shared S) (me : ℕ)

/-- A change of the records. -/
def withRecords (f : Records S → Records S) : Shared S := { sh with toRecords := f sh.toRecords }

def setService (f : Service S → Service S) : Shared S :=
  { sh with service := { sh.service with service := f sh.service.service } }

/-- A step of the persistence service. -/
def persistence (op : Op S) : Option (Shared S) :=
  (sh.service.step host.sessionOf op).map fun service => { sh with service := service }

def takeOperation : Shared S := sh.withRecords (·.takeOperation me)

/-- `create_dir_all`, which leaves a directory alone that is there. -/
def createDir (session : S) (id : ℕ) : Shared S :=
  sh.setService fun v => { v with
    dirs := Function.update v.dirs session (some ((v.dirs session).getD id)) }

/-! ### Records -/

def runtimeOf (record : SessionRecord) : Option Runtime := record.runtime.bind sh.runtimes

def isLive (record : SessionRecord) : Bool := (sh.runtimeOf record).any Runtime.isLive

def ownsProcess (record : SessionRecord) : Bool :=
  record.launch.isSome ||
    (sh.runtimeOf record).any (fun runtime => runtime.ownsProcess || runtime.unverified.isSome) ||
    (sh.manifest record.id).lifecycle.isUnverified

/-- `awaits_completed_record` -/
def awaitsCompleted (record : SessionRecord) : Bool :=
  (sh.runtimeOf record).any fun runtime =>
    runtime.exit.isSome && !record.completed.any fun done => done.generation = runtime.generation

/-- `owned` of a summary -/
def owned (record : SessionRecord) : Bool :=
  (sh.manifest record.id).hostInstance = host.hostInstance

/-- `owns_process` of a summary -/
def summaryOwns (record : SessionRecord) : Bool :=
  record.launch.isSome || sh.isLive record ||
    (sh.runtimeOf record).any (fun runtime => 0 < runtime.descendantsUnresolved) ||
    (sh.manifest record.id).lifecycle.isUnverified

def refuseReplacement (record : SessionRecord) : Option HostError :=
  if record.launch.isSome then some .launchPending
  else if sh.isLive record || (sh.manifest record.id).lifecycle = .starting then some .sessionLive
  else
    match (sh.runtimeOf record).bind Runtime.unverified with
    | some reason => some (.ownershipUnresolved reason)
    | none =>
      let unresolved := ((sh.runtimeOf record).map Runtime.descendantsUnresolved).getD 0
      if unresolved > 0 then
        some (.ownershipUnresolved
          s!"{unresolved} descendant process(es) of the previous generation are unresolved")
      else
        match (sh.manifest record.id).lifecycle with
        | .unverified reason =>
          if sh.owned host record then some (.ownershipUnresolved reason) else none
        | _ => none

/-! ### Admission -/

inductive Admission where
  | refused
  | admitted
  | full (attempts : ℕ)
  deriving DecidableEq, Repr

/-- A turn of the loop of `admit_launch`; the first turn reads the number of attempts. -/
def admitLaunch (attempts : Option ℕ) : Admission :=
  let seen := attempts.getD sh.shutdownAttempts
  if sh.shuttingDown || sh.shutdownAttempts ≠ seen then .refused
  else if sh.pending < maxPendingLaunches then .admitted
  else .full seen

/-! ### Creating -/

def create (request : CreateSession S) (now : ℕ) : Block S :=
  if sh.shuttingDown then some (sh, .fail .shuttingDown)
  else
    let fresh := SessionManifest.fresh host request.session request.workspace request.cwd
      request.launch request.title now
    some (sh.takeOperation me, .admitting request.session fresh sh.nextOperation none)

def admitCreate (session : S) (fresh : SessionManifest S) (operation : ℕ) (attempts : Option ℕ)
    (answers : Answers) : Block S :=
  if (sh.table.get? session).isSome then some (sh, .fail .sessionExists)
  else
    match sh.admitLaunch attempts with
    | .refused => some (sh, .fail .shuttingDown)
    | .full seen =>
      if answers.expired then some (sh, .fail .busy)
      else some (sh, .admitting session fresh operation (some seen))
    | .admitted =>
      let id := answers.fresh
      if id ∉ sh.allocated ∧ host.sessionOf id = session then
        let sh := sh.withRecords (·.insertCreated session fresh operation id)
        some (sh.setService (·.reserveFinal id), .preparing session id operation)
      else none

def prepareCreate (session : S) (id operation : ℕ) (answers : Answers) : Block S :=
  if answers.ok then
    some (sh.createDir session id, .numbering id .critical (.launch session operation))
  else some (sh, .undoing session id operation)

def undoCreate (session : S) (id operation : ℕ) : Block S :=
  some (sh.withRecords (·.eraseCreated session operation), .marking session id false [])

/-! ### Persisting -/

/-- The block of `persist_revision` under the lock of the manifest. -/
def persistRevision (id : ℕ) (cls : WriteClass) (next : Then S) : Block S :=
  let m := sh.manifest id
  match sh.service.service.number (host.sessionOf id) id m.generation (host.encode m) (m.seed host)
      cls with
  | (service, .ok record) =>
    some ({ sh.setService fun _ => service with snapshots := (record, m) :: sh.snapshots },
      .submitting record next)
  | (service, .error _) => some (sh.setService fun _ => service, next.resume id false)

def submit (record : ManifestRevision S) (next : Then S) : Block S :=
  if record.cls = .critical then do
    let sh' ← sh.persistence host (.submitAndWait record)
    match (sh.service.service.submitAndWait record sh.service.nextTicket).2 with
    | .ok () => some (sh', .waiting sh.service.nextTicket record.state next)
    | .error _ => some (sh', next.resume record.state false)
  else do
    let sh' ← sh.persistence host (.submit record)
    match (sh.service.service.submit record).2 with
    | .ok () => some (sh', next.resume record.state true)
    | .error _ => some (sh', next.resume record.state false)

def wait (ticket id : ℕ) (next : Then S) (answers : Answers) : Block S :=
  if answers.expired then some (sh, next.resume id false)
  else
    match sh.service.service.replies ticket with
    | none => none
    | some (.ok ()) => some (sh, next.resume id true)
    | some (.error _) => some (sh, next.resume id false)

def persistRecord (session : S) : Block S :=
  match sh.table.get? session with
  | some record => some (sh, .numbering record.id .critical .nothing)
  | none => some (sh, .returned .done)

/-! ### Restarting -/

def restart (session : S) (generation : Option ℕ) : Block S :=
  if sh.shuttingDown then some (sh, .fail .shuttingDown)
  else some (sh, .replacing session generation)

def restartClone (session : S) (generation : Option ℕ) (answers : Answers) : Block S :=
  match sh.table.get? session with
  | none => some (sh, .fail .sessionNotFound)
  | some record =>
    let current := sh.manifest record.id
    match generation.filter (· ≠ current.generation), sh.refuseReplacement host record with
    | some requested, _ => some (sh, .fail (.generationMismatch current.generation requested))
    | none, some error => some (sh, .fail error)
    | none, none =>
      some (sh.takeOperation me,
        .cloned ⟨session, current, answers.cwd, sh.nextOperation, record.id,
          (sh.cells record.id).updates⟩)

def restartSeed (restart : Restart S) : Block S :=
  match sh.table.get? restart.session with
  | none => some (sh, .fail .sessionNotFound)
  | some record => some (sh, .seeded restart record.id)

def restartLock (restart : Restart S) (ledger : ℕ) : Block S :=
  if (sh.cells ledger).holder = none then
    if (sh.cells ledger).ledger.removed then some (sh, .fail .sessionNotFound)
    else some (sh.withRecords (·.lockLedger me ledger), .locked restart ledger)
  else none

def restartPrepare (restart : Restart S) (ledger : ℕ) (answers : Answers) : Block S :=
  if answers.ok then some (sh.createDir restart.session ledger, .readmitting restart ledger none)
  else some (sh, .unlocking ledger .storage)

def restartAdmit (restart : Restart S) (ledger : ℕ) (attempts : Option ℕ) (answers : Answers) :
    Block S :=
  match sh.table.get? restart.session with
  | none => some (sh, .unlocking ledger .sessionNotFound)
  | some record =>
    let current := sh.manifest record.id
    if current.generation ≠ restart.prior.generation then
      some (sh, .unlocking ledger
        (.generationMismatch current.generation restart.prior.generation))
    else
      match sh.refuseReplacement host record, sh.admitLaunch attempts with
      | some error, _ => some (sh, .unlocking ledger error)
      | none, .refused => some (sh, .unlocking ledger .shuttingDown)
      | none, .full seen =>
        if answers.expired then some (sh, .unlocking ledger .busy)
        else some (sh, .readmitting restart ledger (some seen))
      | none, .admitted =>
        let sh := sh.withRecords (·.admitRestart host restart record answers.now)
        some (sh.setService (·.reserveFinal record.id),
          .numbering record.id .critical (.relaunch restart ledger))

def restartRollBack (restart : Restart S) (ledger id : ℕ) : Block S :=
  match sh.launchOf restart.session restart.operation with
  | none => some (sh, .unlocking ledger .storage)
  | some (record, _) =>
    some (sh.withRecords (·.rollBack restart record), .numbering id .final (.unlock ledger))

def restartClear (restart : Restart S) (ledger id : ℕ) : Block S :=
  some (sh.withRecords (·.clearReceipts ledger id),
    .launching restart.session id restart.next restart.operation)

def unlock (ledger : ℕ) (error : HostError) : Block S :=
  some (sh.withRecords (·.unlockLedger ledger), .fail error)

/-! ### Launching -/

def commitLaunch (session : S) (generation operation : ℕ) (runtime : Runtime) (answers : Answers) :
    Block S :=
  let name := answers.fresh
  if (sh.runtimes name).isNone ∧ runtime.generation = generation then
    let started := { sh with runtimes := Function.update sh.runtimes name (some runtime) }
    match sh.launchOf session operation with
    | none => some (started, .fail .sessionNotFound)
    | some (record, launch) =>
      some (started.withRecords
          (·.commitLaunch host session record launch runtime name answers.now),
        if launch.cancelled then .stopCalled session (some generation) none
        else .persisting session)
  else none

def failLaunch (session : S) (operation : ℕ) (answers : Answers) : Block S :=
  match sh.launchOf session operation with
  | none => some (sh, .fail (.spawnFailed answers.reason))
  | some (record, launch) =>
    some (sh.withRecords (·.failLaunch session record launch answers.reason answers.now),
      if (sh.manifest record.id).generation = launch.generation then
        .numbering record.id .final .nothing
      else .fail (.spawnFailed answers.reason))

/-- The launch resolves: the process runs, or it could not be started. -/
def launch (session : S) (generation operation : ℕ) (answers : Answers) : Block S :=
  match answers.runtime with
  | some runtime => sh.commitLaunch host session generation operation runtime answers
  | none => sh.failLaunch session operation answers

/-! ### Stopping -/

def stopUntil (session : S) (generation reply : Option ℕ) : Block S :=
  match sh.table.get? session with
  | none => some (sh, .inspecting session (some .sessionNotFound) reply)
  | some record =>
    let current := sh.manifest record.id
    match generation.filter (· ≠ current.generation), record.launch, record.runtime with
    | some requested, _, _ =>
      some (sh, .inspecting session (some (.generationMismatch current.generation requested)) reply)
    | none, some launch, _ =>
      let cancelled := { record with launch := some { launch with cancelled := true } }
      some (sh.withRecords (·.setRecord session cancelled), .inspecting session (some .launchPending) reply)
    | none, none, none =>
      if current.lifecycle.holdsOwnership || current.lifecycle = .lost then
        some (sh, .inspecting session (some .processUnverified) reply)
      else some (sh, .numbering record.id .final (.inspect session none reply))
    | none, none, some runtime =>
      if (sh.runtimes runtime).any Runtime.released then
        some (sh, .numbering record.id .final (.inspect session none reply))
      else some (sh, .stopping session record.id runtime reply)

/-- What `stop_until` of the runtime may report: that the stop was not confirmed, or the state of a runtime
that has left nothing behind. -/
def reports (name : ℕ) (report : StopReport) : Bool :=
  (sh.runtimes name).any fun runtime =>
    report.unverified.isSome || runtime.released && report = ⟨runtime.exit, 0, none⟩

def stopRuntime (session : S) (id runtime : ℕ) (reply : Option ℕ) (answers : Answers) : Block S :=
  if sh.reports runtime answers.report then
    some (sh, .stopped session id (((sh.runtimes runtime).map Runtime.generation).getD 0)
      answers.report reply)
  else none

def stopCommit (session : S) (id generation : ℕ) (report : StopReport) (reply : Option ℕ)
    (answers : Answers) : Block S :=
  let failure := report.unverified.map HostError.ownershipUnresolved
  if (sh.manifest id).generation = generation then
    some (sh.withRecords (·.stopCommit id report answers.now),
      .numbering id .final (.inspect session failure reply))
  else some (sh, .inspecting session failure reply)

/-- The end of a stop. One that was started by a shutdown sends its result; a session with descendants left
counts as unresolved there. -/
def inspect (session : S) (failure : Option HostError) (reply : Option ℕ) : Block S :=
  let outcome := match failure, sh.table.get? session with
    | some error, _ => .failed error
    | none, none => .failed .sessionNotFound
    | none, some _ => .done
  let unresolved := ((sh.table.get? session).bind sh.runtimeOf).any fun runtime =>
    0 < runtime.descendantsUnresolved
  some (match reply with
      | some worker =>
        { sh with
          results := sh.results ++ [(worker, session, outcome = Outcome.done && !unresolved)] }
      | none => sh,
    .returned outcome)

/-! ### Removing -/

def remove (session : S) : Block S :=
  match sh.table.get? session with
  | none => some (sh, .fail .sessionNotFound)
  | some record =>
    let manifest := sh.manifest record.id
    if record.launch.isSome then some (sh, .fail .launchPending)
    else if sh.isLive record || manifest.lifecycle.isRunning then some (sh, .fail .sessionLive)
    else if sh.ownsProcess record && sh.owned host record then
      some (sh, .fail (.ownershipUnresolved ""))
    else
      some (sh.withRecords (·.drop [session]), .removing [(session, record.id)])

/-- The records that are past their retention. -/
def stale (now : ℕ) : List (S × ℕ) :=
  (sh.table.entries.filter fun entry =>
    !sh.ownsProcess entry.2 &&
      (recordMaxAgeMs (sh.manifest entry.2.id).lifecycle).any fun maxAge =>
        now - (sh.manifest entry.2.id).updatedAtMs > maxAge).map fun entry => (entry.1, entry.2.id)

def trim (now : ℕ) : Block S :=
  let dropped := sh.stale now
  some (sh.withRecords (·.drop (dropped.map Prod.fst)), .removing dropped)

/-- The ledger of the next dropped record is marked; then its files are deleted. -/
def removeNext : List (S × ℕ) → Block S
  | [] => some (sh, .returned .done)
  | (session, id) :: dropped =>
    if (sh.cells id).holder = none then
      some (sh.withRecords (·.markLedger id), .marking session id true dropped)
    else none

/-- `mark_removed` in `enqueue_remove` -/
def markRemoved (session : S) (id : ℕ) (wait : Bool) (dropped : List (S × ℕ)) : Block S :=
  some (sh.setService (·.markRemoved id), .enqueuing session id wait dropped)

def enqueueRemove (id : ℕ) (wait : Bool) (dropped : List (S × ℕ)) : Block S := do
  let sh' ← sh.persistence host (.enqueueRemove id wait)
  some (sh', if wait then .awaitingRemoval sh.service.nextTicket dropped else .removing dropped)

def awaitRemoval (ticket : ℕ) (dropped : List (S × ℕ)) (answers : Answers) : Block S :=
  if answers.expired || (sh.service.service.replies ticket).isSome then some (sh, .removing dropped)
  else none

/-! ### Updates -/

/-- The class of the revision that follows an update. -/
def updateClass : Update → WriteClass
  | .exited _ _ | .unverified _ | .finalOutput _ | .textWithdrawn => .final
  | _ => .metadata

/-- `expected_generation`: only a new workspace is set whatever the generation is. -/
def expectedGeneration (generation : ℕ) : Update → Option ℕ
  | .workspace _ => none
  | _ => some generation

def update (id generation : ℕ) (update : Update) (now : ℕ) : Block S :=
  match sh.toRecords.commit id (expectedGeneration generation update) update now with
  | some v => some ({ sh with toRecords := v }, .numbering id (updateClass update) .nothing)
  | none => some (sh, .returned .done)

def completeSession (session : S) (id generation : ℕ) (output : FinalOutput) : Block S :=
  if (sh.table.get? session).any (fun record => record.id = id) ∧
      (sh.manifest id).generation = generation then
    some (sh, .completing session id generation output)
  else some (sh, .returned .done)

/-- The final output; its text may have been withdrawn meanwhile. -/
def completeCommit (session : S) (id generation : ℕ) (output : FinalOutput) (answers : Answers) :
    Block S :=
  let output := { output with textAvailable := output.textAvailable && answers.ok }
  match sh.toRecords.commit id (some generation) (.finalOutput output) answers.now with
  | some v =>
    some ({ sh with toRecords := v }, .numbering id .final (.record session generation output.offset))
  | none => some (sh, .recording session id generation output.offset)

/-- The record remembers that it is completed; the generation is not looked at again. -/
def completeRecord (session : S) (id generation offset : ℕ) : Block S :=
  match (sh.table.get? session).filter fun record => record.id = id with
  | some record =>
    let completed := { record with completed := some ⟨generation, offset⟩ }
    some (sh.withRecords (·.setRecord session completed), .releasing session generation)
  | none => some (sh, .releasing session generation)

def releaseRetired (session : S) (generation : ℕ) : Block S :=
  match (sh.table.get? session).filter fun record =>
      (sh.runtimeOf record).any (fun runtime =>
        runtime.generation = generation && runtime.retired && runtime.released) &&
      record.completed.any fun done => done.generation = generation with
  | some record =>
    some (sh.withRecords (·.setRecord session { record with runtime := none }), .returned .done)
  | none => some (sh, .returned .done)

/-! ### Agent events -/

def ingestAgentEvent (event : AgentEvent S) : Block S :=
  match sh.table.get? event.session with
  | none => some (sh, .fail .sessionNotFound)
  | some record => some (sh, .ingesting event record.id)

def ingestLocked (event : AgentEvent S) (id : ℕ) (answers : Answers) : Block S :=
  if (sh.cells id).holder = none then
    let result := ingest host (sh.cells id).manifest (sh.cells id).ledger event answers.now
    some (sh.withRecords (·.ingestEvent host event id answers.now),
      match result.verdict with
      | .notFound => .fail .sessionNotFound
      | .refused reason hookRevision => .returned (.refused reason hookRevision)
      | .oversized => .fail .invalidRequest
      | .duplicate hookRevision => .awaiting id hookRevision true
      | .accepted hookRevision => .awaiting id hookRevision false)
  else none

/-- The loop of `await_critical_durability`. -/
def awaitCriticalDurability (id hookRevision : ℕ) (retry : Bool) : Block S :=
  let state := sh.critical id
  if hookRevision ≤ state.durableHookRevision then
    some (sh, .returned (.acknowledged id hookRevision true))
  else if !retry && state.failed.any (hookRevision ≤ ·) then
    some (sh, .returned (.acknowledged id hookRevision false))
  else if state.inFlight then none
  else
    some ({ sh with critical := Function.update sh.critical id { state with inFlight := true } },
      .covering id hookRevision)

def cover (id hookRevision : ℕ) : Block S :=
  some (sh, .numbering id .critical (.settle hookRevision (sh.manifest id).hookRevision))

def settle (id hookRevision covered : ℕ) (ok : Bool) : Block S :=
  let state := sh.critical id
  let settled := if ok then
      { state with
        inFlight := false
        durableHookRevision := max state.durableHookRevision covered }
    else { state with inFlight := false, failed := some covered }
  some ({ sh with critical := Function.update sh.critical id settled },
    .returned (.acknowledged id hookRevision ok))

/-! ### Shutting down -/

def ownedSessions : List (S × ℕ) :=
  (sh.table.entries.filter fun entry => sh.ownsProcess entry.2 && sh.owned host entry.2).map
    fun entry => (entry.1, (sh.manifest entry.2.id).generation)

/-- `shutting_down.store(false)` -/
def clearShutdown : Shared S := { sh with shuttingDown := false, holder := none }

/-- `shutdown_until` where it sets the flag. -/
def shutdownUntil (waiting force : Bool) : Block S :=
  let owned := sh.ownedSessions host
  if sh.shuttingDown || !force && !owned.isEmpty then some (sh, .shutdown waiting (.finished false))
  else
    some ({ sh with
        shuttingDown := true
        shutdownAttempts := sh.shutdownAttempts + 1
        holder := some me
        flagged := me :: sh.flagged },
      .shutdown waiting (.collecting owned [] []))

/-- A turn of the loops that start the stops and collect their results. -/
def shutdownCollect (waiting : Bool) (unspawned : List (S × ℕ)) (pending unresolved : List S)
    (answers : Answers) : Block S :=
  match unspawned, pending with
  | (session, generation) :: rest, _ =>
    if answers.ok then
      some ({ sh with spawned := (session, generation, me) :: sh.spawned },
        .shutdown waiting (.collecting rest (session :: pending) unresolved))
    else some (sh, .shutdown waiting (.collecting rest pending (session :: unresolved)))
  | [], [] =>
    some (sh, .shutdown waiting (if unresolved.isEmpty then .checking else .clearing))
  | [], pending =>
    if answers.expired then
      some (sh, .shutdown waiting (.collecting [] [] (unresolved ++ pending)))
    else
      match sh.results.find? fun result => result.1 = me with
      | none => none
      | some (worker, session, ok) =>
        some ({ sh with results := sh.results.erase (worker, session, ok) },
          .shutdown waiting (.collecting [] (pending.filter (· ≠ session))
            (if ok then unresolved else session :: unresolved)))

def shutdownCheck (waiting : Bool) : Block S :=
  let remaining := sh.table.values.filter fun record => sh.owned host record && sh.summaryOwns record
  some (sh, .shutdown waiting (if remaining.isEmpty then .completing else .clearing))

/-- `wait_for_completed_records`, and the beginning of the drain. -/
def shutdownComplete (waiting : Bool) (answers : Answers) : Block S :=
  if (sh.table.values.filter sh.awaitsCompleted).isEmpty then do
    let sh' ← sh.persistence host .drainTake
    some (sh', .shutdown waiting (.draining sh.service.nextTicket))
  else if answers.expired then some (sh, .shutdown waiting .clearing)
  else none

def shutdownDrain (waiting : Bool) (ticket : ℕ) (answers : Answers) : Block S :=
  match (sh.service.drains ticket).map Drain.stage with
  | some (.returned true) => some (sh, .shutdown waiting (.finished true))
  | some (.returned false) => some (sh, .shutdown waiting .clearing)
  | _ => if answers.expired then some (sh, .shutdown waiting .clearing) else none

/-- The result is sent to the caller; when the caller has given up, the flag is cleared. -/
def shutdownSend (waiting ok : Bool) : Block S :=
  if waiting then
    some (sh, .returned (if ok then .shutDown else .failed .sessionsUnresolved))
  else some (sh.clearShutdown, .fail .sessionsUnresolved)

def shutdown (waiting : Bool) (stage : Stage S) (answers : Answers) : Block S :=
  match stage with
  | .requested force => sh.shutdownUntil host me waiting force
  | .collecting unspawned pending unresolved =>
    sh.shutdownCollect me waiting unspawned pending unresolved answers
  | .checking => sh.shutdownCheck host waiting
  | .completing => sh.shutdownComplete host waiting answers
  | .draining ticket => sh.shutdownDrain waiting ticket answers
  | .clearing => some (sh.clearShutdown, .shutdown waiting (.finished false))
  | .finished ok => sh.shutdownSend waiting ok

end Shared

/-! ### Steps -/

/-- The steps of the service that no call of the host takes: those of the writer, of exclusive jobs, of a
drain that has begun, and the release of a reserve. -/
def writerStep : Op S → Bool
  | .exclusive | .drainBarrier _ | .drainReturn _ | .releaseFinal _ | .take | .rest | .retry
  | .execute _ | .finish => true
  | _ => false

/-- How a runtime changes by itself: an exit stays, and so does a process of which nothing is left. -/
def Runtime.mayBecome (runtime next : Runtime) : Bool :=
  next.generation = runtime.generation && next.process = runtime.process &&
    (runtime.exit.isNone || next.exit = runtime.exit) && (!runtime.retired || next.retired) &&
    (!runtime.released || next.released)

namespace Shared

variable (host : Identity S) (sh : Shared S) (me : ℕ)

def start : Input S → Block S
  | .writer op =>
    if writerStep op then (sh.persistence host op).map fun sh' => (sh', .idle) else none
  | .runtime id state =>
    if (sh.runtimes id).any (Runtime.mayBecome · state) then
      some ({ sh with runtimes := Function.update sh.runtimes id (some state) }, .idle)
    else none
  | .create request now => sh.create host me request now
  | .restart session generation => sh.restart session generation
  | .stop session generation => some (sh, .stopCalled session generation none)
  | .spawned session generation worker =>
    if (session, generation, worker) ∈ sh.spawned then
      some ({ sh with spawned := sh.spawned.erase (session, generation, worker) },
        .stopCalled session (some generation) (some worker))
    else none
  | .remove session => sh.remove host session
  | .trim now => sh.trim now
  | .persist session => some (sh, .persisting session)
  | .update id generation update now => sh.update id generation update now
  | .complete session id generation output => sh.completeSession session id generation output
  | .release session generation => some (sh, .releasing session generation)
  | .ingest event => sh.ingestAgentEvent event
  | .shutdown force => some (sh.takeOperation me, .shutdown true (.requested force))
  | .giveUp => none
  | .proceed _ => none

def proceed (answers : Answers) : Call S → Block S
  | .idle => none
  | .admitting session fresh operation attempts =>
    sh.admitCreate host session fresh operation attempts answers
  | .preparing session id operation => sh.prepareCreate session id operation answers
  | .undoing session id operation => sh.undoCreate session id operation
  | .replacing session generation => sh.restartClone host me session generation answers
  | .cloned restart => sh.restartSeed restart
  | .seeded restart ledger => sh.restartLock me restart ledger
  | .locked restart ledger => sh.restartPrepare restart ledger answers
  | .readmitting restart ledger attempts => sh.restartAdmit host restart ledger attempts answers
  | .rollingBack restart ledger id => sh.restartRollBack restart ledger id
  | .clearing restart ledger id => sh.restartClear restart ledger id
  | .unlocking ledger error => sh.unlock ledger error
  | .persisting session => sh.persistRecord session
  | .numbering id cls next => sh.persistRevision host id cls next
  | .submitting record next => sh.submit host record next
  | .waiting ticket id next => sh.wait ticket id next answers
  | .launching session _ generation operation =>
    sh.launch host session generation operation answers
  | .stopCalled session generation reply => sh.stopUntil session generation reply
  | .stopping session id runtime reply => sh.stopRuntime session id runtime reply answers
  | .stopped session id generation report reply =>
    sh.stopCommit session id generation report reply answers
  | .inspecting session failure reply => sh.inspect session failure reply
  | .removing dropped => sh.removeNext dropped
  | .marking session id wait dropped => sh.markRemoved session id wait dropped
  | .enqueuing _ id wait dropped => sh.enqueueRemove host id wait dropped
  | .awaitingRemoval ticket dropped => sh.awaitRemoval ticket dropped answers
  | .completing session id generation output =>
    sh.completeCommit session id generation output answers
  | .recording session id generation offset => sh.completeRecord session id generation offset
  | .releasing session generation => sh.releaseRetired session generation
  | .ingesting event id => sh.ingestLocked host event id answers
  | .awaiting id hookRevision retry => sh.awaitCriticalDurability id hookRevision retry
  | .covering id hookRevision => sh.cover id hookRevision
  | .settling id hookRevision covered ok => sh.settle id hookRevision covered ok
  | .shutdown waiting stage => sh.shutdown host me waiting stage answers
  | .returned _ => none

end Shared

/-- A step of a call: it begins, it goes on, or the caller of a shutdown gives up. -/
def advance (host : Identity S) (me : ℕ) (input : Input S) (sh : Shared S) : Call S → Block S
  | .idle => sh.start host me input
  | call =>
    match input, call with
    | .proceed answers, call => sh.proceed host me answers call
    | .giveUp, .shutdown true stage => some (sh, .shutdown false stage)
    | _, _ => none

/-- The host when it has adopted the records of an earlier run, and no call has begun. A manifest that could
not be read is not on the disk of the model. -/
structure Opened (host : Identity S) (p : Pool (Shared S) (Call S)) : Prop where
  service : Started host.sessionOf p.shared.service
  records : ∀ s record, p.shared.table.get? s = some record → record = .fresh record.id ∧
    record.id ∈ p.shared.allocated ∧ host.sessionOf record.id = s ∧
    (p.shared.manifest record.id).lifecycle.holdsOwnership = false
  cells : ∀ id, p.shared.cells id = .fresh (p.shared.manifest id)
  sessions : ∀ id, id ∈ p.shared.allocated → (p.shared.manifest id).session = host.sessionOf id
  files : ∀ s, (p.shared.service.service.files s).map ManifestRevision.state =
    (p.shared.table.get? s).map SessionRecord.id
  dirs : ∀ s, p.shared.service.service.dirs s = (p.shared.table.get? s).map SessionRecord.id
  frames : p.shared.frames = []
  critical : ∀ id, p.shared.critical id = .default
  runtimes : ∀ name, p.shared.runtimes name = none
  shuttingDown : p.shared.shuttingDown = false
  spawned : p.shared.spawned = []
  results : p.shared.results = []
  holder : p.shared.holder = none
  flagged : p.shared.flagged = []
  snapshots : p.shared.snapshots = []
  threads : ∀ i, p.threads i = .idle

/-- The states of the host that runs reach whose steps all satisfy `cond`. -/
abbrev Reachable (host : Identity S) (cond : ℕ → Input S → Shared S → Call S → Prop)
    (p : Pool (Shared S) (Call S)) : Prop :=
  Transition.Reach (Pool.step (advance host)) (Opened host) (Pool.Cond cond) p

/-! ### A small host -/

/-- A host of one session, for concrete runs. -/
def sampleHost : Identity ℕ where
  hostInstance := 2
  hostProtocolVersion := 1
  hostBuildId := "b"
  sessionOf := fun _ => 0
  trimText := id
  encode := fun m => [UInt8.ofNat m.generation, UInt8.ofNat m.hookRevision]
  encodeHookSeed := fun _ _ generation revision => [UInt8.ofNat generation, UInt8.ofNat revision]
  receiptKey := fun event => event.pid.getD 0
  bindingOf := fun _ => none

/-- A session that an earlier host has lost. -/
def lostManifest : SessionManifest ℕ where
  session := 0
  workspace := none
  generation := 1
  hostInstance := 1
  cwd := "/"
  launch := ⟨"sh", [], [], 80, 24⟩
  lifecycle := .lost
  process := none
  name := none
  title := none
  currentCwd := none
  lastHook := none
  hookRevision := 0
  generationStartedAtMs := none
  declaredStatus := none
  programStatusCapable := false
  runtime := none
  finalOutput := none
  hostProtocolVersion := 1
  hostBuildId := "b"
  createdAtMs := 0
  updatedAtMs := 0

/-- The host that has adopted this session. -/
def adopted : Pool (Shared ℕ) (Call ℕ) where
  shared := {
    table := OrdMap.empty.insert 0 (.fresh 0)
    cells := fun _ => .fresh lostManifest
    allocated := [0]
    frames := []
    nextOperation := 1
    owner := fun _ => 0
    service := { System.start with
      service := { (System.start : System ℕ).service with
        files := fun s => if s = 0 then some ⟨0, 1, 0, [], none, 0, .critical⟩ else none
        dirs := fun s => if s = 0 then some 0 else none } }
    critical := fun _ => .default
    runtimes := fun _ => none
    shuttingDown := false
    shutdownAttempts := 0
    spawned := []
    results := []
    holder := none
    flagged := []
    snapshots := [] }
  threads := fun _ => .idle

theorem opened_adopted : Opened sampleHost adopted := by
  have htable : ∀ s, adopted.shared.table.get? s = if s = 0 then some (.fresh 0) else none := by
    intro s
    simp [adopted, OrdMap.get?_insert]
  constructor
  · constructor <;> intros <;> first | rfl | skip
    rename_i s f hf
    simp only [adopted] at hf
    split_ifs at hf with hs
    cases hf
    exact ⟨hs.symm, hs.symm, rfl⟩
  · intro s record hget
    rw [htable] at hget
    split_ifs at hget with hs
    cases hget
    exact ⟨rfl, List.mem_singleton.2 rfl, hs.symm, rfl⟩
  case files | dirs =>
    intro s
    rw [htable]
    simp only [adopted]
    split_ifs <;> rfl
  all_goals intros; rfl

end Paneflow.Host.Machine
