import Paneflow.Host.PersistRun
import Mathlib.Data.List.Nodup

/-!
# Sessions of the host

The data of host.rs and manifest.rs: the manifest of a session with what the operations of the host write
into it, the record of a session in the table, the ledger of its agent events, and the runtime of its
process. A record names its shared cells (`Arc`s) by one number, which is also the state of its
persistence.

Times, working directories and the answers of the operating system are arguments. The members of a hook
payload that are strings are kept as a list of pairs.
-/

namespace Paneflow.Host.Sessions

open Paneflow.Host.Persistence

def maxPendingLaunches : ℕ := 8

def maxHookReceipts : ℕ := 16

def eventReorderToleranceMs : ℕ := 5000

/-- The largest `u64`, at which generations and hook revisions stay. -/
def maxU64 : ℕ := 2 ^ 64 - 1

/-- `saturating_add(1)` -/
def saturatingSucc (n : ℕ) : ℕ := min (n + 1) maxU64

/-! ### Manifests -/

inductive Lifecycle where
  | starting
  | running
  | exited (code : Int) (signal : Option String)
  | failed (reason : String)
  | lost
  | unverified (reason : String)
  deriving DecidableEq, Repr

def Lifecycle.isRunning : Lifecycle → Bool
  | .starting | .running => true
  | _ => false

def Lifecycle.holdsOwnership : Lifecycle → Bool
  | .starting | .running | .unverified _ => true
  | _ => false

def Lifecycle.isUnverified : Lifecycle → Bool
  | .unverified _ => true
  | _ => false

structure SessionLaunch where
  shell : String
  args : List String
  env : List (String × String)
  cols : ℕ
  rows : ℕ
  deriving DecidableEq, Repr

structure DeclaredStatus where
  state : String
  message : String
  deriving DecidableEq, Repr

/-- Statuses that stay until the user has seen them. -/
def DeclaredStatus.awaitsAcknowledgement (status : DeclaredStatus) : Bool :=
  status.state = "done" || status.state = "error"

def retainDeclaredOutcome (status : Option DeclaredStatus) : Option DeclaredStatus :=
  status.filter DeclaredStatus.awaitsAcknowledgement

structure HostedSessionRuntime where
  currentObservation : Option String
  launchBinding : Option String
  deriving DecidableEq, Repr

def withLaunchBinding (held : Option HostedSessionRuntime) (binding : Option String) :
    Option HostedSessionRuntime :=
  match held, binding with
  | none, none => none
  | none, binding => some ⟨none, binding⟩
  | some held, binding => some { held with launchBinding := binding }

structure FinalOutput where
  offset : ℕ
  complete : Bool
  textBytes : ℕ
  textAvailable : Bool
  deriving DecidableEq, Repr

inductive AgentEventKind where
  | sessionStart
  | sessionEnd
  | promptSubmit
  | notification
  | stop
  | toolUse
  | exit
  deriving DecidableEq, Repr

def AgentEventKind.asStr : AgentEventKind → String
  | .sessionStart => "ai.session_start"
  | .sessionEnd => "ai.session_end"
  | .promptSubmit => "ai.prompt_submit"
  | .notification => "ai.notification"
  | .stop => "ai.stop"
  | .toolUse => "ai.tool_use"
  | .exit => "ai.exit"

structure AgentEvent (S : Type) where
  session : S
  generation : Option ℕ
  kind : AgentEventKind
  tool : String
  pid : Option ℕ
  toolName : Option String
  message : Option String
  summary : Option String
  exitCode : Option Int
  emittedAtMs : Option ℕ
  receivedAtMs : Option ℕ
  interrupt : Bool
  payload : List (String × String)
  deriving DecidableEq, Repr

/-- An event as it is published: with the generation, its revision and when it was received. -/
structure Frame (S : Type) where
  event : AgentEvent S
  generation : ℕ
  revision : ℕ
  receivedAtMs : ℕ
  deriving DecidableEq, Repr

/-- The last accepted event; its members that repeat those of the frame are left out. -/
structure HookRecord (S : Type) where
  event : Frame S
  activityEvent : Option (Frame S)
  hookEventName : String
  providerSessionId : Option String
  transcriptPath : Option String
  deriving DecidableEq, Repr

structure SessionManifest (S : Type) where
  session : S
  workspace : Option String
  generation : ℕ
  hostInstance : ℕ
  cwd : String
  launch : SessionLaunch
  lifecycle : Lifecycle
  process : Option ℕ
  name : Option String
  title : Option String
  currentCwd : Option String
  lastHook : Option (HookRecord S)
  hookRevision : ℕ
  generationStartedAtMs : Option ℕ
  declaredStatus : Option DeclaredStatus
  programStatusCapable : Bool
  runtime : Option HostedSessionRuntime
  finalOutput : Option FinalOutput
  hostProtocolVersion : ℕ
  hostBuildId : String
  createdAtMs : ℕ
  updatedAtMs : ℕ
  deriving DecidableEq, Repr

/-- The host that the sessions belong to, and how it writes them. -/
structure Identity (S : Type) where
  hostInstance : ℕ
  hostProtocolVersion : ℕ
  hostBuildId : String
  sessionOf : ℕ → S
  trimText : String → String
  encode : SessionManifest S → List UInt8
  encodeHookSeed : String → Option String → ℕ → ℕ → List UInt8
  receiptKey : AgentEvent S → ℕ
  bindingOf : String → Option String

/-- The hook seed that goes with a manifest. -/
def SessionManifest.seed {S : Type} (host : Identity S) (m : SessionManifest S) :
    Option (List UInt8) :=
  m.lastHook.map fun hook =>
    host.encodeHookSeed hook.hookEventName hook.event.event.toolName m.generation m.hookRevision

section
variable {S : Type} (host : Identity S) (m : SessionManifest S)

/-- What `create` writes. -/
def SessionManifest.fresh (session : S) (workspace : Option String) (cwd : String)
    (launch : SessionLaunch) (title : Option String) (created : ℕ) : SessionManifest S where
  session := session
  workspace := workspace
  generation := 1
  hostInstance := host.hostInstance
  cwd := cwd
  launch := launch
  lifecycle := .starting
  process := none
  name := title
  title := title
  currentCwd := none
  lastHook := none
  hookRevision := 0
  generationStartedAtMs := some created
  declaredStatus := none
  programStatusCapable := false
  runtime := none
  finalOutput := none
  hostProtocolVersion := host.hostProtocolVersion
  hostBuildId := host.hostBuildId
  createdAtMs := created
  updatedAtMs := created

/-- What an admitted `restart` writes. -/
def SessionManifest.restarted (next : ℕ) (cwd : String) (now : ℕ) : SessionManifest S :=
  { m with
    generation := next
    hostInstance := host.hostInstance
    lifecycle := .starting
    process := none
    currentCwd := none
    lastHook := none
    generationStartedAtMs := some now
    declaredStatus := none
    programStatusCapable := false
    runtime := none
    hostProtocolVersion := host.hostProtocolVersion
    hostBuildId := host.hostBuildId
    launch := { m.launch with args := [] }
    cwd := cwd
    updatedAtMs := now }

/-- The changes that are committed to a manifest: by requests, by the notices of the runtime, by the
viewport scan, and by the end of a session. -/
inductive Update where
  | workspace (workspace : String)
  | binding (binding : Option String)
  | size (cols rows : ℕ)
  | title (title : String)
  | workingDirectory (cwd : String)
  | exited (code : Int) (signal : Option String)
  | unverified (reason : String)
  | scan (status : Option DeclaredStatus) (capable : Bool) (observed : Option String)
  | finalOutput (output : FinalOutput)
  | textWithdrawn
  deriving DecidableEq, Repr

/-- `retain_declared_outcome` for a session that is not running, as after every scan. -/
def SessionManifest.settled : SessionManifest S :=
  if m.lifecycle.isRunning then m
  else { m with declaredStatus := retainDeclaredOutcome m.declaredStatus }

def Update.apply : Update → SessionManifest S
  | .workspace w => { m with workspace := some w }
  | .binding b => { m with runtime := withLaunchBinding m.runtime b }
  | .size cols rows => { m with launch := { m.launch with cols := cols, rows := rows } }
  | .title t => { m with title := some t }
  | .workingDirectory cwd => { m with currentCwd := some cwd }
  | .exited code signal =>
    { m with
      lifecycle := .exited code signal
      declaredStatus := retainDeclaredOutcome m.declaredStatus }
  | .unverified reason => { m with lifecycle := .unverified reason }
  | .scan status capable observed =>
    let held := m.runtime.bind HostedSessionRuntime.launchBinding
    SessionManifest.settled { m with
      declaredStatus := status
      programStatusCapable := capable
      runtime := match observed, held with
        | none, none => none
        | observed, held => some ⟨observed, held⟩ }
  | .finalOutput output => { m with finalOutput := some output }
  | .textWithdrawn =>
    { m with finalOutput := m.finalOutput.map fun output => { output with textAvailable := false } }

/-- `commit`: the time is only set when something changed. -/
def SessionManifest.commit [DecidableEq S] (update : Update) (now : ℕ) : SessionManifest S :=
  let changed := update.apply m
  if changed = m then m else { changed with updatedAtMs := now }

/-- The parts of a manifest that updates leave alone. -/
structure SessionManifest.SameCounters (m m' : SessionManifest S) : Prop where
  generation : m'.generation = m.generation
  hookRevision : m'.hookRevision = m.hookRevision
  hostInstance : m'.hostInstance = m.hostInstance

theorem SessionManifest.sameCounters_settled : m.SameCounters m.settled := by
  unfold SessionManifest.settled
  split_ifs <;> exact ⟨rfl, rfl, rfl⟩

theorem Update.sameCounters_apply (update : Update) : m.SameCounters (update.apply m) := by
  cases update with
  | scan status capable observed =>
    have h := SessionManifest.sameCounters_settled { m with
      declaredStatus := status
      programStatusCapable := capable
      runtime := match observed, m.runtime.bind HostedSessionRuntime.launchBinding with
        | none, none => none
        | observed, held => some ⟨observed, held⟩ }
    exact ⟨h.generation, h.hookRevision, h.hostInstance⟩
  | _ => exact ⟨rfl, rfl, rfl⟩

theorem SessionManifest.sameCounters_commit [DecidableEq S] (update : Update) (now : ℕ) :
    m.SameCounters (m.commit update now) := by
  unfold SessionManifest.commit
  dsimp only
  split_ifs
  · exact ⟨rfl, rfl, rfl⟩
  · have h := update.sameCounters_apply m
    exact ⟨h.generation, h.hookRevision, h.hostInstance⟩

/-! ### Agent events -/

def acceptsEvent : Option ℕ → Option ℕ → Bool
  | some last, some incoming =>
    if incoming < last then last - incoming > eventReorderToleranceMs else true
  | _, _ => true

/-- The member of the payload, cut to the length the host keeps. -/
def AgentEvent.payloadText (event : AgentEvent S) (key : String) : Option String :=
  ((event.payload.lookup key).map host.trimText).filter fun text => text ≠ ""

def AgentEvent.hookRecord (event : AgentEvent S) (lastHook : Option (HookRecord S))
    (frame : Frame S) : HookRecord S where
  event := frame
  activityEvent := match event.kind with
    | .sessionStart | .toolUse | .sessionEnd => lastHook.bind HookRecord.activityEvent
    | _ => some frame
  hookEventName := (event.payload.lookup "hook_event_name").getD event.kind.asStr
  providerSessionId := event.payloadText host "session_id"
  transcriptPath := event.payloadText host "transcript_path"

/-- The manifest with an accepted event, and its frame. -/
def SessionManifest.accept (event : AgentEvent S) (now : ℕ) : SessionManifest S × Frame S :=
  let revision := saturatingSucc m.hookRevision
  let frame := ⟨event, m.generation, revision, event.receivedAtMs.getD now⟩
  ({ m with
    lastHook := some (event.hookRecord host m.lastHook frame)
    hookRevision := revision
    updatedAtMs := now }, frame)

end

structure SeedLedger where
  removed : Bool
  receipts : List (ℕ × ℕ)
  refusalReportedFor : Option ℕ
  deriving DecidableEq, Repr

def SeedLedger.default : SeedLedger := ⟨false, [], none⟩

/-- A receipt at the end of the window. -/
def SeedLedger.push (ledger : SeedLedger) (key revision : ℕ) : SeedLedger :=
  let receipts :=
    if ledger.receipts.length ≥ maxHookReceipts then ledger.receipts.tail else ledger.receipts
  { ledger with receipts := receipts ++ [(key, revision)] }

/-- What `ingest_agent_event` answers before it waits for durability. -/
inductive Verdict where
  | notFound
  | refused (reason : String) (revision : ℕ)
  | oversized
  | duplicate (revision : ℕ)
  | accepted (revision : ℕ)
  deriving DecidableEq, Repr

structure Ingested (S : Type) where
  manifest : SessionManifest S
  ledger : SeedLedger
  frame : Option (Frame S)
  verdict : Verdict

/-- `ingest_agent_event` under the lock of the ledger. -/
def ingest {S : Type} (host : Identity S) (m : SessionManifest S) (ledger : SeedLedger)
    (event : AgentEvent S) (now : ℕ) : Ingested S :=
  if ledger.removed then ⟨m, ledger, none, .notFound⟩
  else if event.generation ≠ some m.generation then
    let reason := match event.generation with
      | none => "the event lacks its captured runtime generation"
      | some requested =>
        if requested < m.generation then "the event names a generation this session has left"
        else "the event names a generation this session has not reached"
    ⟨m, { ledger with refusalReportedFor := some m.generation }, none,
      .refused reason m.hookRevision⟩
  else if m.hostInstance ≠ host.hostInstance then
    ⟨m, ledger, none, .refused "the event belongs to a previous host instance" m.hookRevision⟩
  else
    match ledger.receipts.find? fun held => held.1 = host.receiptKey event with
    | some held => ⟨m, ledger, none, .duplicate held.2⟩
    | none =>
      if acceptsEvent (m.lastHook.bind fun hook => hook.event.event.emittedAtMs) event.emittedAtMs then
        let (snapshot, frame) := m.accept host event now
        if (host.encode snapshot).length > maxManifestBytes then ⟨m, ledger, none, .oversized⟩
        else
          ⟨snapshot, ledger.push (host.receiptKey event) snapshot.hookRevision, some frame,
            .accepted snapshot.hookRevision⟩
      else
        ⟨m, ledger, none,
          .refused "an out-of-order event never replaces newer accepted state" m.hookRevision⟩

/-- **What becomes of an event**: it changes nothing, or it is accepted, at the generation and the host
instance of the session, when no receipt is held for it. -/
theorem ingest_spec {S : Type} (host : Identity S) (m : SessionManifest S) (ledger : SeedLedger)
    (event : AgentEvent S) (now : ℕ) :
    ((ingest host m ledger event now).frame = none ∧
      (ingest host m ledger event now).manifest = m ∧
      (ingest host m ledger event now).ledger.receipts = ledger.receipts ∧
      (ingest host m ledger event now).ledger.removed = ledger.removed ∧
      ∀ revision, (ingest host m ledger event now).verdict = .duplicate revision →
        ∃ held ∈ ledger.receipts, held.1 = host.receiptKey event ∧ held.2 = revision) ∧
      (∀ revision, (ingest host m ledger event now).verdict ≠ .accepted revision) ∨
    ledger.removed = false ∧ event.generation = some m.generation ∧
      m.hostInstance = host.hostInstance ∧
      (∀ held ∈ ledger.receipts, held.1 ≠ host.receiptKey event) ∧
      ingest host m ledger event now =
        ⟨(m.accept host event now).1,
          ledger.push (host.receiptKey event) (saturatingSucc m.hookRevision),
          some (m.accept host event now).2, .accepted (saturatingSucc m.hookRevision)⟩ := by
  unfold ingest
  split
  · exact .inl ⟨⟨rfl, rfl, rfl, rfl, by simp⟩, by simp⟩
  · rename_i hremoved
    split
    · exact .inl ⟨⟨rfl, rfl, rfl, rfl, by simp⟩, by simp⟩
    · rename_i hgeneration
      split
      · exact .inl ⟨⟨rfl, rfl, rfl, rfl, by simp⟩, by simp⟩
      · rename_i hinstance
        split
        · rename_i held hheld
          refine .inl ⟨⟨rfl, rfl, rfl, rfl, ?_⟩, by simp⟩
          intro revision hverdict
          cases hverdict
          exact ⟨held, List.mem_of_find?_eq_some hheld, by simpa using List.find?_some hheld, rfl⟩
        · rename_i hnone
          split
          · dsimp only
            split
            · exact .inl ⟨⟨rfl, rfl, rfl, rfl, by simp⟩, by simp⟩
            · refine .inr ⟨by simpa using hremoved, not_not.1 hgeneration, not_not.1 hinstance, ?_, rfl⟩
              intro held hmem
              simpa using List.find?_eq_none.1 hnone held hmem
          · exact .inl ⟨⟨rfl, rfl, rfl, rfl, by simp⟩, by simp⟩

/-- An event that a receipt is held for changes nothing, and gets the revision of the receipt. -/
theorem ingest_duplicate {S : Type} {host : Identity S} {m : SessionManifest S} {ledger : SeedLedger}
    {event : AgentEvent S} {now : ℕ} {held : ℕ × ℕ} (hremoved : ledger.removed = false)
    (hgeneration : event.generation = some m.generation)
    (hinstance : m.hostInstance = host.hostInstance) (hmem : held ∈ ledger.receipts)
    (hdistinct : (ledger.receipts.map Prod.fst).Nodup) (hkey : held.1 = host.receiptKey event) :
    ingest host m ledger event now = ⟨m, ledger, none, .duplicate held.2⟩ := by
  have hfind : (ledger.receipts.find? fun held => held.1 = host.receiptKey event) = some held := by
    obtain ⟨first, hfirst⟩ := Option.isSome_iff_exists.1
      (List.find?_isSome (p := fun held : ℕ × ℕ => decide (held.1 = host.receiptKey event)).2
        ⟨held, hmem, decide_eq_true hkey⟩)
    have hsame : first.1 = host.receiptKey event := by simpa using List.find?_some hfirst
    rw [hfirst, List.inj_on_of_nodup_map hdistinct (List.mem_of_find?_eq_some hfirst) hmem
      (hsame.trans hkey.symm)]
  unfold ingest
  simp only [hremoved, hgeneration, hinstance, hfind, ne_eq, not_true, if_false, Bool.false_eq_true]

theorem ingest_length {S : Type} {host : Identity S} {m : SessionManifest S} {ledger : SeedLedger}
    {event : AgentEvent S} {now : ℕ} {revision : ℕ}
    (h : (ingest host m ledger event now).verdict = .accepted revision) :
    (host.encode (ingest host m ledger event now).manifest).length ≤ maxManifestBytes := by
  revert h
  unfold ingest
  split
  · simp
  · split
    · simp
    · split
      · simp
      · split
        · simp
        · split
          · dsimp only
            split
            · simp
            · rename_i hlength
              exact fun _ => Nat.not_lt.1 hlength
          · simp

theorem ingest_generation {S : Type} (host : Identity S) (m : SessionManifest S) (ledger : SeedLedger)
    (event : AgentEvent S) (now : ℕ) :
    (ingest host m ledger event now).manifest.generation = m.generation := by
  rcases ingest_spec host m ledger event now with ⟨⟨-, hsame, -⟩, -⟩ | ⟨-, -, -, -, haccept⟩
  · rw [hsame]
  · rw [haccept]
    rfl

/-! ### Runtimes and records -/

structure Runtime where
  generation : ℕ
  process : ℕ
  exit : Option (Int × Option String)
  descendantsUnresolved : ℕ
  unverified : Option String
  retired : Bool
  deriving DecidableEq, Repr

def Runtime.isLive (runtime : Runtime) : Bool := runtime.exit.isNone && runtime.unverified.isNone

def Runtime.ownsProcess (runtime : Runtime) : Bool :=
  runtime.exit.isNone || 0 < runtime.descendantsUnresolved

/-- Nothing of the process is left, and the runtime says so. -/
def Runtime.released (runtime : Runtime) : Bool := !runtime.ownsProcess && runtime.unverified.isNone

structure StopReport where
  exit : Option (Int × Option String)
  descendantsUnresolved : ℕ
  unverified : Option String
  deriving DecidableEq, Repr

def lifecycleAfterStop (report : StopReport) : Lifecycle :=
  match report.unverified with
  | some reason => .unverified reason
  | none =>
    if report.descendantsUnresolved > 0 then
      .unverified s!"{report.descendantsUnresolved} descendant process(es) remain unresolved"
    else
      match report.exit with
      | some (code, signal) => .exited code signal
      | none => .unverified "the stop returned neither an exit nor a failure"

/-- The lifecycle of a session whose launch is committed. -/
def Runtime.lifecycle (runtime : Runtime) (cancelled : Bool) : Lifecycle :=
  if cancelled then .unverified "the cancelled launch is being stopped"
  else
    match runtime.unverified, runtime.exit with
    | some reason, _ => .unverified reason
    | none, some (code, signal) => .exited code signal
    | none, none => .running

/-- What `commit_launch` writes. -/
def SessionManifest.launched {S : Type} (host : Identity S) (m : SessionManifest S)
    (runtime : Runtime) (cancelled : Bool) (now : ℕ) : SessionManifest S :=
  { m with
    runtime := withLaunchBinding m.runtime (host.bindingOf m.launch.shell)
    process := some runtime.process
    lifecycle := runtime.lifecycle cancelled
    updatedAtMs := now }

structure PendingLaunch where
  operation : ℕ
  generation : ℕ
  cancelled : Bool
  deriving DecidableEq, Repr

structure CompletedRuntime where
  generation : ℕ
  finalOffset : ℕ
  deriving DecidableEq, Repr

/-- The record of a session; `id` names its cells, its durability and its flush. -/
structure SessionRecord where
  id : ℕ
  runtime : Option ℕ
  completed : Option CompletedRuntime
  launch : Option PendingLaunch
  deriving DecidableEq, Repr

def SessionRecord.fresh (id : ℕ) : SessionRecord := ⟨id, none, none, none⟩

structure CriticalFlush where
  durableHookRevision : ℕ
  failed : Option ℕ
  inFlight : Bool
  deriving DecidableEq, Repr

def CriticalFlush.default : CriticalFlush := ⟨0, none, false⟩

/-- The cells of a record; `holder` is the call that has the lock of the ledger. Only the proofs look at
`shadow`, the manifest without the restart that is not persisted yet, and at `updates`, the number of
writes to the manifest that are not part of such a restart. -/
structure Cell (S : Type) where
  manifest : SessionManifest S
  ledger : SeedLedger
  holder : Option ℕ
  shadow : SessionManifest S
  updates : ℕ
  deriving DecidableEq, Repr

def Cell.fresh {S : Type} (manifest : SessionManifest S) : Cell S :=
  ⟨manifest, .default, none, manifest, 0⟩

/-- A write to the manifest. -/
def Cell.write {S : Type} (cell : Cell S) (f : SessionManifest S → SessionManifest S) : Cell S :=
  { cell with manifest := f cell.manifest, shadow := f cell.shadow, updates := cell.updates + 1 }

def finishedRecordMaxAgeMs : ℕ := 24 * 60 * 60 * 1000

def interruptedRecordMaxAgeMs : ℕ := 30 * 24 * 60 * 60 * 1000

def recordMaxAgeMs : Lifecycle → Option ℕ
  | .starting | .running | .unverified _ => none
  | .lost => some interruptedRecordMaxAgeMs
  | .exited _ _ | .failed _ => some finishedRecordMaxAgeMs

end Paneflow.Host.Sessions
