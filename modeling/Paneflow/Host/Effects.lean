import Paneflow.Host.Machine

/-!
# What the calls do to the sessions

Of where a call stands, only its `role` matters for the sessions: whether it is about to insert a record,
holds the lock of a ledger, has a launch pending. `Effect` lists what a step can do to the records and to the
role of its call, and `advance_effect` says that there is nothing else.
-/

namespace Paneflow.Host.Effects

open Paneflow.Host.Persistence Paneflow.Host.PersistRun Paneflow.Host.Sessions Paneflow.Host.Calls
open Paneflow.Host.Machine

/-- What a call is about: `creating` and `relaunching` have a pending launch that is not persisted yet,
`rollingBack` one that could not be persisted, `launching` one that was. -/
inductive Role (S : Type) where
  | plain
  | admitting (session : S) (fresh : SessionManifest S) (operation : ℕ)
  | creating (session : S) (id operation : ℕ)
  | cloned (restart : Restart S)
  | seeded (restart : Restart S) (ledger : ℕ)
  | holding (restart : Restart S) (ledger : ℕ)
  | readmitting (restart : Restart S) (ledger : ℕ)
  | relaunching (restart : Restart S) (ledger id : ℕ)
  | rollingBack (restart : Restart S) (ledger id : ℕ)
  | unlocking (ledger : ℕ)
  | launching (session : S) (id generation operation : ℕ)
  | ingesting (id : ℕ)

variable {S : Type}

def Then.role (id : ℕ) : Then S → Role S
  | .launch session operation => .creating session id operation
  | .relaunch restart ledger => .relaunching restart ledger id
  | .unlock ledger => .unlocking ledger
  | _ => .plain

def role : Call S → Role S
  | .admitting session fresh operation _ => .admitting session fresh operation
  | .preparing session id operation => .creating session id operation
  | .undoing session id operation => .creating session id operation
  | .cloned restart => .cloned restart
  | .seeded restart ledger => .seeded restart ledger
  | .locked restart ledger => .holding restart ledger
  | .readmitting restart ledger _ => .readmitting restart ledger
  | .rollingBack restart ledger id => .rollingBack restart ledger id
  | .clearing restart ledger id => .relaunching restart ledger id
  | .unlocking ledger _ => .unlocking ledger
  | .numbering id _ next => Then.role id next
  | .submitting record next => Then.role record.state next
  | .waiting _ id next => Then.role id next
  | .launching session id generation operation => .launching session id generation operation
  | .ingesting _ id => .ingesting id
  | _ => .plain

variable [LinearOrder S]

/-- How the role of a call changes while the records stay as they are. -/
inductive Follows (v : Records S) : Role S → Role S → Prop
  | same (role : Role S) : Follows v role role
  | found (session : S) (record : SessionRecord) : v.table.get? session = some record →
    Follows v .plain (.ingesting record.id)
  | refused (session : S) (fresh : SessionManifest S) (operation : ℕ) :
    Follows v (.admitting session fresh operation) .plain
  | abandoned (restart : Restart S) : Follows v (.cloned restart) .plain
  | seeded (restart : Restart S) (record : SessionRecord) :
    v.table.get? restart.session = some record →
    Follows v (.cloned restart) (.seeded restart record.id)
  | removed (restart : Restart S) (ledger : ℕ) : Follows v (.seeded restart ledger) .plain
  | unprepared (restart : Restart S) (ledger : ℕ) :
    Follows v (.holding restart ledger) (.unlocking ledger)
  | prepared (restart : Restart S) (ledger : ℕ) :
    Follows v (.holding restart ledger) (.readmitting restart ledger)
  | unadmitted (restart : Restart S) (ledger : ℕ) :
    Follows v (.readmitting restart ledger) (.unlocking ledger)
  | failed (restart : Restart S) (ledger id : ℕ) :
    Follows v (.relaunching restart ledger id) (.rollingBack restart ledger id)
  | lost (restart : Restart S) (ledger id : ℕ) :
    v.launchOf restart.session restart.operation = none →
    Follows v (.rollingBack restart ledger id) (.unlocking ledger)
  | created (session : S) (id operation : ℕ) :
    Follows v (.creating session id operation) (.launching session id 1 operation)
  | late (session : S) (id generation operation : ℕ) : v.launchOf session operation = none →
    Follows v (.launching session id generation operation) .plain

/-- The records that differ only in the completed entry, in whether the launch is cancelled, and in whether
the runtime is still there. -/
structure Annotates (record record' : SessionRecord) : Prop where
  id : record'.id = record.id
  launch : record'.launch.map (fun launch => (launch.operation, launch.generation)) =
    record.launch.map fun launch => (launch.operation, launch.generation)
  runtime : record'.runtime = none ∨ record'.runtime = record.runtime

/-- What a step of the call `me` can do. -/
inductive Effect (host : Identity S) (me : ℕ) (v : Records S) :
    Role S → Records S → Role S → Prop
  | quiet {old new : Role S} : Follows v old new → Effect host me v old v new
  | operate : Effect host me v .plain (v.takeOperation me) .plain
  | create (request : CreateSession S) (now : ℕ) :
    Effect host me v .plain (v.takeOperation me)
      (.admitting request.session (.fresh host request.session request.workspace request.cwd
        request.launch request.title now) v.nextOperation)
  | admitCreate (session : S) (fresh : SessionManifest S) (operation id : ℕ) :
    v.table.get? session = none → v.pending < maxPendingLaunches → id ∉ v.allocated →
    host.sessionOf id = session →
    Effect host me v (.admitting session fresh operation)
      (v.insertCreated session fresh operation id) (.creating session id operation)
  | undoCreate (session : S) (id operation : ℕ) :
    Effect host me v (.creating session id operation) (v.eraseCreated session operation) .plain
  | clone (session : S) (record : SessionRecord) (cwd : String) :
    v.table.get? session = some record → record.launch = none →
    Effect host me v .plain (v.takeOperation me)
      (.cloned ⟨session, v.manifest record.id, cwd, v.nextOperation, record.id,
        (v.cells record.id).updates⟩)
  | lock (restart : Restart S) (ledger : ℕ) : (v.cells ledger).holder = none →
    Effect host me v (.seeded restart ledger) (v.lockLedger me ledger) (.holding restart ledger)
  | admitRestart (restart : Restart S) (ledger now : ℕ) (record : SessionRecord) :
    v.table.get? restart.session = some record → record.launch = none →
    (v.manifest record.id).generation = restart.prior.generation →
    v.pending < maxPendingLaunches →
    Effect host me v (.readmitting restart ledger) (v.admitRestart host restart record now)
      (.relaunching restart ledger record.id)
  | rollBack (restart : Restart S) (ledger id : ℕ) (record : SessionRecord)
    (launch : PendingLaunch) : v.launchOf restart.session restart.operation = some (record, launch) →
    Effect host me v (.rollingBack restart ledger id) (v.rollBack restart record)
      (.unlocking ledger)
  | clear (restart : Restart S) (ledger id : ℕ) :
    Effect host me v (.relaunching restart ledger id) (v.clearReceipts ledger id)
      (.launching restart.session id restart.next restart.operation)
  | unlock (ledger : ℕ) :
    Effect host me v (.unlocking ledger) (v.unlockLedger ledger) .plain
  | commitLaunch (session : S) (id generation operation : ℕ) (record : SessionRecord)
    (launch : PendingLaunch) (runtime : Runtime) (name now : ℕ) :
    v.launchOf session operation = some (record, launch) →
    Effect host me v (.launching session id generation operation)
      (v.commitLaunch host session record launch runtime name now) .plain
  | failLaunch (session : S) (id generation operation : ℕ) (record : SessionRecord)
    (launch : PendingLaunch) (reason : String) (now : ℕ) :
    v.launchOf session operation = some (record, launch) →
    Effect host me v (.launching session id generation operation)
      (v.failLaunch session record launch reason now) .plain
  | annotate (session : S) (record record' : SessionRecord) : v.table.get? session = some record →
    Annotates record record' → Effect host me v .plain (v.setRecord session record') .plain
  | stopCommit (id : ℕ) (report : StopReport) (now : ℕ) :
    Effect host me v .plain (v.stopCommit id report now) .plain
  | drop (dropped : List S) :
    (∀ s ∈ dropped, ∃ record, v.table.get? s = some record ∧ record.launch = none) →
    Effect host me v .plain (v.drop dropped) .plain
  | mark (id : ℕ) : (v.cells id).holder = none →
    Effect host me v .plain (v.markLedger id) .plain
  | commit (id : ℕ) (expected : Option ℕ) (update : Update) (now : ℕ) (v' : Records S) :
    v.commit id expected update now = some v' → Effect host me v .plain v' .plain
  | ingest (event : AgentEvent S) (id now : ℕ) : (v.cells id).holder = none →
    Effect host me v (.ingesting id) (v.ingestEvent host event id now) .plain

/-! ### Steps -/

section
variable {host : Identity S} {me : ℕ} {input : Input S} {answers : Answers} {sh sh' : Shared S}
  {call call' : Call S}

/-- A step begins a call, goes on with it, or gives up waiting for a shutdown. -/
theorem advance_cases (h : advance host me input sh call = some (sh', call')) :
    call = .idle ∧ sh.start host me input = some (sh', call') ∨
      (∃ answers, sh.proceed host me answers call = some (sh', call')) ∨
      ∃ stage, call = .shutdown true stage ∧ sh' = sh ∧ call' = .shutdown false stage := by
  unfold advance at h
  split at h
  · exact .inl ⟨rfl, h⟩
  · split at h
    · exact .inr (.inl ⟨_, h⟩)
    · cases h
      exact .inr (.inr ⟨_, rfl, rfl, rfl⟩)
    · cases h

theorem persistence_eq_some {op : Op S} (h : sh.persistence host op = some sh') :
    ∃ y, sh.service.step host.sessionOf op = some y ∧ sh' = { sh with service := y } := by
  obtain ⟨y, hy, rfl⟩ := Option.map_eq_some_iff.1 h
  exact ⟨y, hy, rfl⟩

theorem follows_resume (v : Records S) (id : ℕ) (ok : Bool) (next : Then S) :
    Follows v (Then.role id next) (role (next.resume id ok)) := by
  cases next with
  | launch session operation =>
    cases ok with
    | true => exact .created session id operation
    | false => exact .same _
  | relaunch restart ledger =>
    cases ok with
    | true => exact .same _
    | false => exact .failed restart ledger id
  | _ => exact .same _

theorem number_state {service : Service S} {session : S} {state generation : ℕ}
    {manifest : List UInt8} {seed : Option (List UInt8)} {cls : WriteClass} {service' : Service S}
    {record : ManifestRevision S}
    (h : service.number session state generation manifest seed cls = (service', .ok record)) :
    record.state = state ∧ record.cls = cls := by
  unfold Service.number ManifestRevision.encode at h
  dsimp only at h
  split_ifs at h <;> cases h
  exact ⟨rfl, rfl⟩

theorem refuseReplacement_none {record : SessionRecord}
    (h : sh.refuseReplacement host record = none) : record.launch = none := by
  unfold Shared.refuseReplacement at h
  split at h
  · cases h
  · rename_i hlaunch
    simpa using hlaunch

theorem admitLaunch_admitted {attempts : Option ℕ} (h : sh.admitLaunch attempts = .admitted) :
    sh.shuttingDown = false ∧ sh.pending < maxPendingLaunches := by
  unfold Shared.admitLaunch at h
  dsimp only at h
  split_ifs at h with hflag hpending
  simp only [Bool.or_eq_true, not_or, Bool.not_eq_true] at hflag
  exact ⟨hflag.1, hpending⟩

theorem start_effect (h : sh.start host me input = some (sh', call')) :
    Effect host me sh.toRecords .plain sh'.toRecords (role call') := by
  cases input with
  | writer op =>
    simp only [Shared.start] at h
    split_ifs at h
    obtain ⟨sh1, h1, heq⟩ := Option.map_eq_some_iff.1 h
    obtain ⟨y, -, rfl⟩ := persistence_eq_some h1
    cases heq
    exact .quiet (.same _)
  | runtime id state =>
    simp only [Shared.start] at h
    split_ifs at h
    cases h
    exact .quiet (.same _)
  | create request now =>
    simp only [Shared.start, Shared.create] at h
    split_ifs at h <;> cases h
    · exact .quiet (.same _)
    · exact .create request now
  | restart session generation =>
    simp only [Shared.start, Shared.restart] at h
    split_ifs at h <;> cases h <;> exact .quiet (.same _)
  | spawned session generation worker =>
    simp only [Shared.start] at h
    split_ifs at h
    cases h
    exact .quiet (.same _)
  | remove session =>
    simp only [Shared.start, Shared.remove] at h
    split at h
    · cases h
      exact .quiet (.same _)
    · rename_i record hrecord
      split_ifs at h with hlaunch <;> cases h
      · exact .quiet (.same _)
      · exact .quiet (.same _)
      · exact .quiet (.same _)
      · refine .drop [session] fun s hs => ⟨record, ?_, by simpa using hlaunch⟩
        rw [List.mem_singleton.1 hs, hrecord]
  | trim now =>
    simp only [Shared.start, Shared.trim] at h
    cases h
    refine .drop _ fun s hs => ?_
    simp only [Shared.stale, List.map_map, List.mem_map, List.mem_filter] at hs
    obtain ⟨⟨s', record⟩, ⟨hentry, hstale⟩, rfl⟩ := hs
    refine ⟨record, OrdMap.get?_eq_some.2 hentry, ?_⟩
    simp only [Shared.ownsProcess, Bool.and_eq_true, Bool.not_eq_true', Bool.or_eq_false_iff] at hstale
    simpa using hstale.1.1.1
  | update id generation update now =>
    simp only [Shared.start, Shared.update] at h
    split at h
    · rename_i v hv
      cases h
      exact .commit id _ update now v hv
    · cases h
      exact .quiet (.same _)
  | complete session id generation output =>
    simp only [Shared.start, Shared.completeSession] at h
    split_ifs at h <;> cases h <;> exact .quiet (.same _)
  | ingest event =>
    simp only [Shared.start, Shared.ingestAgentEvent] at h
    split at h
    · cases h
      exact .quiet (.same _)
    · rename_i record hrecord
      cases h
      exact .quiet (.found event.session record hrecord)
  | shutdown force =>
    cases h
    exact .operate
  | giveUp => cases h
  | proceed answers => cases h
  | _ =>
    cases h
    exact .quiet (.same _)

theorem launchOf_eq_some {v : Records S} {session : S} {operation : ℕ} {record : SessionRecord}
    {launch : PendingLaunch} (h : v.launchOf session operation = some (record, launch)) :
    v.table.get? session = some record ∧ record.launch = some launch ∧
      launch.operation = operation := by
  unfold Records.launchOf at h
  obtain ⟨r, hr, h⟩ := Option.bind_eq_some_iff.1 h
  obtain ⟨l, hl, h⟩ := Option.bind_eq_some_iff.1 h
  split_ifs at h with hop
  cases h
  exact ⟨hr, hl, hop⟩

theorem admitCreate_effect {session : S} {fresh : SessionManifest S} {operation : ℕ}
    {attempts : Option ℕ}
    (h : sh.admitCreate host session fresh operation attempts answers = some (sh', call')) :
    Effect host me sh.toRecords (.admitting session fresh operation) sh'.toRecords
      (role call') := by
  simp only [Shared.admitCreate] at h
  split at h
  · cases h
    exact .quiet (.refused ..)
  · rename_i hsome
    split at h
    · cases h
      exact .quiet (.refused ..)
    · split_ifs at h <;> cases h
      · exact .quiet (.refused ..)
      · exact .quiet (.same _)
    · rename_i hadmitted
      split_ifs at h with hid
      cases h
      exact .admitCreate session fresh operation answers.fresh (by simpa using hsome)
        (admitLaunch_admitted hadmitted).2 hid.1 hid.2

theorem restartAdmit_effect {restart : Restart S} {ledger : ℕ} {attempts : Option ℕ}
    (h : sh.restartAdmit host restart ledger attempts answers = some (sh', call')) :
    Effect host me sh.toRecords (.readmitting restart ledger) sh'.toRecords (role call') := by
  simp only [Shared.restartAdmit] at h
  split at h
  · cases h
    exact .quiet (.unadmitted ..)
  · rename_i record hrecord
    split at h
    · cases h
      exact .quiet (.unadmitted ..)
    · rename_i hgeneration
      split at h
      · cases h
        exact .quiet (.unadmitted ..)
      · cases h
        exact .quiet (.unadmitted ..)
      · split_ifs at h <;> cases h
        · exact .quiet (.unadmitted ..)
        · exact .quiet (.same _)
      · rename_i hrefuse hadmitted
        cases h
        exact .admitRestart restart ledger answers.now record hrecord
          (refuseReplacement_none hrefuse) (not_not.1 hgeneration) (admitLaunch_admitted hadmitted).2

theorem launch_effect {session : S} {id generation operation : ℕ}
    (h : sh.launch host session generation operation answers = some (sh', call')) :
    Effect host me sh.toRecords (.launching session id generation operation) sh'.toRecords
      (role call') := by
  simp only [Shared.launch] at h
  split at h
  · rename_i runtime hruntime
    simp only [Shared.commitLaunch] at h
    split_ifs at h
    split at h
    · rename_i hnone
      cases h
      exact .quiet (.late session id generation operation hnone)
    · rename_i record launch hsome
      cases h
      split_ifs <;>
        exact .commitLaunch session id generation operation record launch runtime _ _ hsome
  · simp only [Shared.failLaunch] at h
    split at h
    · rename_i hnone
      cases h
      exact .quiet (.late session id generation operation hnone)
    · rename_i record launch hsome
      cases h
      split_ifs <;> exact .failLaunch session id generation operation record launch _ _ hsome

theorem stopUntil_effect {session : S} {generation reply : Option ℕ}
    (h : sh.stopUntil session generation reply = some (sh', call')) :
    Effect host me sh.toRecords .plain sh'.toRecords (role call') := by
  simp only [Shared.stopUntil] at h
  split at h
  · cases h
    exact .quiet (.same _)
  · rename_i record hrecord
    split at h
    · cases h
      exact .quiet (.same _)
    · rename_i launch _ _ hlaunch
      cases h
      exact .annotate session record _ hrecord ⟨rfl, by simp [hlaunch], .inr rfl⟩
    · split_ifs at h <;> cases h <;> exact .quiet (.same _)
    · split_ifs at h <;> cases h <;> exact .quiet (.same _)

theorem shutdown_effect {waiting : Bool} {stage : Stage S}
    (h : sh.shutdown host me waiting stage answers = some (sh', call')) :
    sh'.toRecords = sh.toRecords ∧ role call' = .plain := by
  unfold Shared.shutdown at h
  split at h
  · simp only [Shared.shutdownUntil] at h
    split_ifs at h <;> cases h <;> exact ⟨rfl, rfl⟩
  · unfold Shared.shutdownCollect at h
    split at h
    · split_ifs at h <;> cases h <;> exact ⟨rfl, rfl⟩
    · cases h
      exact ⟨rfl, rfl⟩
    · split_ifs at h
      · cases h
        exact ⟨rfl, rfl⟩
      · split at h <;> cases h
        exact ⟨rfl, rfl⟩
  · cases h
    exact ⟨rfl, rfl⟩
  · unfold Shared.shutdownComplete at h
    split_ifs at h
    · obtain ⟨sh1, h1, heq⟩ := Option.bind_eq_some_iff.1 h
      obtain ⟨y, -, rfl⟩ := persistence_eq_some h1
      cases heq
      exact ⟨rfl, rfl⟩
    · cases h
      exact ⟨rfl, rfl⟩
  · unfold Shared.shutdownDrain at h
    split at h
    · cases h
      exact ⟨rfl, rfl⟩
    · cases h
      exact ⟨rfl, rfl⟩
    · split_ifs at h
      cases h
      exact ⟨rfl, rfl⟩
  · cases h
    exact ⟨rfl, rfl⟩
  · unfold Shared.shutdownSend at h
    split_ifs at h <;> cases h <;> exact ⟨rfl, rfl⟩

/-- A call that goes on. -/
theorem proceed_effect (h : sh.proceed host me answers call = some (sh', call')) :
    Effect host me sh.toRecords (role call) sh'.toRecords (role call') := by
  cases call with
  | idle => cases h
  | admitting session fresh operation attempts => exact admitCreate_effect h
  | preparing session id operation =>
    simp only [Shared.proceed, Shared.prepareCreate] at h
    split_ifs at h <;> cases h <;> exact .quiet (.same _)
  | undoing session id operation =>
    cases h
    exact .undoCreate session id operation
  | replacing session generation =>
    simp only [Shared.proceed, Shared.restartClone] at h
    split at h
    · cases h
      exact .quiet (.same _)
    · rename_i record hrecord
      split at h
      · cases h
        exact .quiet (.same _)
      · cases h
        exact .quiet (.same _)
      · rename_i hrefuse
        cases h
        exact .clone session record answers.cwd hrecord (refuseReplacement_none hrefuse)
  | cloned restart =>
    simp only [Shared.proceed, Shared.restartSeed] at h
    split at h
    · cases h
      exact .quiet (.abandoned _)
    · rename_i record hrecord
      cases h
      exact .quiet (.seeded restart record hrecord)
  | seeded restart ledger =>
    simp only [Shared.proceed, Shared.restartLock] at h
    split_ifs at h with hholder <;> cases h
    · exact .quiet (.removed ..)
    · exact .lock restart ledger hholder
  | locked restart ledger =>
    simp only [Shared.proceed, Shared.restartPrepare] at h
    split_ifs at h <;> cases h
    · exact .quiet (.prepared ..)
    · exact .quiet (.unprepared ..)
  | readmitting restart ledger attempts => exact restartAdmit_effect h
  | rollingBack restart ledger id =>
    simp only [Shared.proceed, Shared.restartRollBack] at h
    split at h
    · rename_i hnone
      cases h
      exact .quiet (.lost restart ledger id hnone)
    · rename_i record launch hsome
      cases h
      exact .rollBack restart ledger id record launch hsome
  | clearing restart ledger id =>
    cases h
    exact .clear restart ledger id
  | unlocking ledger error =>
    cases h
    exact .unlock ledger
  | persisting session =>
    simp only [Shared.proceed, Shared.persistRecord] at h
    split at h <;> cases h <;> exact .quiet (.same _)
  | numbering id cls next =>
    simp only [Shared.proceed, Shared.persistRevision] at h
    split at h
    · rename_i service record hnumber
      cases h
      have hstate := (number_state hnumber).1
      exact .quiet (by rw [role, role, hstate]; exact .same _)
    · cases h
      exact .quiet (follows_resume _ id false next)
  | submitting record next =>
    simp only [Shared.proceed, Shared.submit] at h
    split_ifs at h
    all_goals
      obtain ⟨sh1, h1, h⟩ := Option.bind_eq_some_iff.1 h
      obtain ⟨y, -, rfl⟩ := persistence_eq_some h1
      split at h <;> cases h
    · exact .quiet (.same _)
    · exact .quiet (follows_resume ..)
    · exact .quiet (follows_resume ..)
    · exact .quiet (follows_resume ..)
  | waiting ticket id next =>
    simp only [Shared.proceed, Shared.wait] at h
    split_ifs at h
    · cases h
      exact .quiet (follows_resume ..)
    · split at h <;> cases h <;> exact .quiet (follows_resume ..)
  | launching session id generation operation => exact launch_effect h
  | stopCalled session generation reply => exact stopUntil_effect h
  | stopping session id runtime reply =>
    simp only [Shared.proceed, Shared.stopRuntime] at h
    split_ifs at h
    cases h
    exact .quiet (.same _)
  | stopped session id generation report reply =>
    simp only [Shared.proceed, Shared.stopCommit] at h
    split_ifs at h <;> cases h
    · exact .stopCommit id report answers.now
    · exact .quiet (.same _)
  | inspecting session failure reply =>
    simp only [Shared.proceed, Shared.inspect] at h
    cases h
    cases reply <;> exact .quiet (.same _)
  | removing dropped =>
    cases dropped with
    | nil =>
      cases h
      exact .quiet (.same _)
    | cons entry dropped =>
      simp only [Shared.proceed, Shared.removeNext] at h
      split_ifs at h with hholder
      cases h
      exact .mark entry.2 hholder
  | marking session id wait dropped =>
    cases h
    exact .quiet (.same _)
  | enqueuing session id wait dropped =>
    simp only [Shared.proceed, Shared.enqueueRemove] at h
    obtain ⟨sh1, h1, h⟩ := Option.bind_eq_some_iff.1 h
    obtain ⟨y, -, rfl⟩ := persistence_eq_some h1
    cases h
    cases wait <;> exact .quiet (.same _)
  | awaitingRemoval ticket dropped =>
    simp only [Shared.proceed, Shared.awaitRemoval] at h
    split_ifs at h
    cases h
    exact .quiet (.same _)
  | completing session id generation output =>
    simp only [Shared.proceed, Shared.completeCommit] at h
    split at h
    · rename_i v hv
      cases h
      exact .commit id _ _ _ v hv
    · cases h
      exact .quiet (.same _)
  | recording session id generation offset =>
    simp only [Shared.proceed, Shared.completeRecord] at h
    split at h
    · rename_i record hrecord
      obtain ⟨hget, -⟩ := Option.filter_eq_some_iff.1 hrecord
      cases h
      exact .annotate session record _ hget ⟨rfl, rfl, .inr rfl⟩
    · cases h
      exact .quiet (.same _)
  | releasing session generation =>
    simp only [Shared.proceed, Shared.releaseRetired] at h
    split at h
    · rename_i record hrecord
      obtain ⟨hget, -⟩ := Option.filter_eq_some_iff.1 hrecord
      cases h
      exact .annotate session record _ hget ⟨rfl, rfl, .inl rfl⟩
    · cases h
      exact .quiet (.same _)
  | ingesting event id =>
    simp only [Shared.proceed, Shared.ingestLocked] at h
    split_ifs at h with hholder
    cases h
    split <;> exact .ingest event id answers.now hholder
  | awaiting id hookRevision retry =>
    simp only [Shared.proceed, Shared.awaitCriticalDurability] at h
    split_ifs at h <;> cases h <;> exact .quiet (.same _)
  | covering id hookRevision =>
    cases h
    exact .quiet (.same _)
  | settling id hookRevision covered ok =>
    cases h
    exact .quiet (.same _)
  | shutdown waiting stage =>
    obtain ⟨hrecords, hrole⟩ := shutdown_effect h
    rw [hrecords, hrole]
    exact .quiet (.same _)
  | returned outcome => cases h

/-- **What a step can do** to the sessions. -/
theorem advance_effect (h : advance host me input sh call = some (sh', call')) :
    Effect host me sh.toRecords (role call) sh'.toRecords (role call') := by
  rcases advance_cases h with ⟨rfl, h⟩ | ⟨answers, h⟩ | ⟨stage, rfl, rfl, rfl⟩
  · exact start_effect h
  · exact proceed_effect h
  · exact .quiet (.same _)

end

end Paneflow.Host.Effects
