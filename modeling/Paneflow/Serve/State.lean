import Paneflow.Serve.Activity
import Paneflow.Usage.Ledger

/-!
# The state of the worker

state.rs of the worker. An entry for each session of the core, with what its hooks told about the agent and
what its program declared. The core sends rows, which are merged into the entries and may bring the last hook
events along, and single events; `derive` then settles what the entry shows: its status, its outcome and the
notification. `state_seq` counts the changes of the status.

Rows and events are as their JSON is read. What only passes through an entry into its row is left out: the
workspace, the title, the directory, the process and its health, and the version of the core. The catalog of
runtimes and the account of a session are the parameter `Catalog`.
-/

namespace Paneflow.Serve

open Paneflow.Usage.Ledger

def declaredWorking : String := "working"
def declaredBlocked : String := "blocked"
def declaredDone : String := "done"
def declaredError : String := "error"
def outcomeCompleted : String := "completed"
def outcomeFailed : String := "failed"

inductive ActivitySource where
  | declared
  | none
  deriving DecidableEq, Repr

inductive Status where
  | busy
  | idle
  | attention
  | errored
  deriving DecidableEq, Repr

namespace Status

def agentState : Status → AgentState
  | .busy => .thinking
  | .idle => .finished
  | .attention => .waitingForInput
  | .errored => .errored

def inTurn : Status → Bool
  | .busy | .attention => true
  | _ => false

end Status

structure DeclaredStatus where
  state : String
  kind : Option String
  progress : Option ℕ
  app : String
  title : String
  message : String
  deriving DecidableEq, Repr

structure RuntimeObservation where
  id : String
  pid : ℕ
  deriving DecidableEq, Repr

/-- What is known of runtimes: how they are found, by a tool and by their id, their ids, labels and first
aliases, and the account that a session with an environment uses. -/
structure Catalog (R A : Type) where
  runtimeForTool : String → Option R
  runtimeById : String → Option R
  id : R → String
  label : R → String
  firstAlias : R → Option String
  account : R → OrdMap String String → Option A

structure SessionEntry (S : Type) where
  hookRevision : ℕ
  session : S
  generation : ℕ
  lifecycle : SessionLifecycle
  activity : Option AgentSummary
  declaredActivity : Bool
  activitySource : ActivitySource
  status : Status
  outcome : Option String
  declaredStatus : Option DeclaredStatus
  programStatusCapable : Bool
  observedRuntime : Option RuntimeObservation
  foregroundRuntime : Option String
  accountEnv : OrdMap String String
  stateSeq : ℕ
  unread : Bool
  updatedAtMs : ℕ
  deriving DecidableEq

def declaredOutcome (declared : DeclaredStatus) (held : Option String) : Option String :=
  if declared.state = declaredDone then some outcomeCompleted
  else if declared.state = declaredError then
    if (trim declared.message).isEmpty then some outcomeFailed
    else some (outcomeFailed ++ ":" ++ failureReasonText (trim declared.message))
  else if declared.state = declaredWorking then none
  else held

def noticeBetween (previous current : Status) (declared : Option DeclaredStatus) : Option Notice :=
  match previous, current with
  | .attention, .attention => none
  | .errored, .errored => none
  | _, .attention => some .needsInput
  | _, .errored => some .needsInput
  | previous, .idle =>
    if previous.inTurn && declared.any (fun declared => declared.state = declaredDone) then
      some .finished
    else none
  | _, _ => none

def turnInputBetween (before after : Status) : Option TurnInput :=
  match after with
  | .busy => some .working
  | .attention => some .blocked
  | .idle | .errored => if before.inTurn then some .settled else none

def sourceWire : ActivitySource → String
  | .declared => "terminal"
  | .none => "hook"

section
variable {R A S : Type} (catalog : Catalog R A)

namespace SessionEntry

def runtime (entry : SessionEntry S) : Option R :=
  (entry.activity.bind fun summary => catalog.runtimeForTool summary.tool).or
    (entry.observedRuntime.bind fun observation => catalog.runtimeById observation.id)

def agentDeclaration (entry : SessionEntry S) : Option DeclaredStatus :=
  (entry.runtime catalog).bind fun _ => entry.declaredStatus

def declaredVerdict (entry : SessionEntry S) : Status × ActivitySource :=
  match entry.agentDeclaration catalog with
  | none => (.idle, .none)
  | some declared =>
    let status : Status :=
      if declared.state = declaredError then .errored
      else if declared.state = declaredWorking ∧ entry.lifecycle.isRunning then .busy
      else if declared.state = declaredBlocked ∧ entry.lifecycle.isRunning then .attention
      else .idle
    (status, .declared)

def adoptDeclaredVerdict (entry : SessionEntry S) : SessionEntry S :=
  { entry with
    status := (entry.declaredVerdict catalog).1
    activitySource := (entry.declaredVerdict catalog).2
    outcome := (entry.agentDeclaration catalog).bind fun declared => declaredOutcome declared none }

/-- `reconcile_declared_activity`, with whether it has changed the entry. -/
def reconcileDeclaredActivity (entry : SessionEntry S) (source : ActivitySource) (nowMs : ℕ) :
    SessionEntry S × Bool :=
  if source = .declared then
    if entry.activity.isSome then (entry, false)
    else
      match entry.observedRuntime with
      | none => (entry, false)
      | some observation =>
        match (catalog.runtimeById observation.id).bind catalog.firstAlias with
        | none => (entry, false)
        | some tool =>
          ({ entry with
            activity := some { AgentSummary.declared tool nowMs with pid := some observation.pid }
            declaredActivity := true }, true)
  else if entry.declaredActivity ∧ entry.activity.isSome then
    ({ entry with activity := none, declaredActivity := false }, true)
  else (entry, false)

def usageAccount (entry : SessionEntry S) : Option A :=
  (entry.runtime catalog).bind fun runtime => catalog.account runtime entry.accountEnv

def runtimeLabel (entry : SessionEntry S) : String :=
  match entry.runtime catalog with
  | some runtime => catalog.label runtime
  | none => (entry.activity.map AgentSummary.tool).getD "Agent"

def declaredMessage (entry : SessionEntry S) : Option String :=
  (entry.declaredStatus.map fun declared => trim declared.message).filter fun message =>
    !message.isEmpty

end SessionEntry

/-- The summary under a status and a source. -/
def AgentSummary.settle (summary : AgentSummary) (state : AgentState) (source : ActivitySource)
    (settled : Bool) (nowMs : ℕ) : AgentSummary :=
  { summary with
    waitingSinceMs := nextWaitingSince
      ((AgentState.parse summary.state).map fun held => (held, summary.waitingSinceMs)) state nowMs
    state := state.wireStr
    source := sourceWire source
    updatedAtMs := if settled then summary.updatedAtMs else nowMs }

/-- What `derive` comes to for an entry. -/
structure Derived (S : Type) where
  entry : SessionEntry S
  notification : Option Notification
  changed : Bool
  turnInput : Option TurnInput
  /-- The outcome, when it has changed and there is one. -/
  logged : Option String

/-- The outcome that the entry declares. -/
def SessionEntry.nextOutcome (entry : SessionEntry S) : Option String :=
  match entry.agentDeclaration catalog with
  | some declared => declaredOutcome declared entry.outcome
  | none => entry.outcome

/-- The text of the notification. -/
def SessionEntry.noticeBody (entry : SessionEntry S) : Option Notice → Option String
  | some .finished => (entry.activity.bind AgentSummary.lastResult).or entry.declaredMessage
  | some .needsInput => entry.declaredMessage.or (entry.activity.bind AgentSummary.message)
  | none => none

/-- Whether the entry shows what it declares already. -/
def SessionEntry.settled (entry : SessionEntry S) (nowMs : ℕ) : Bool :=
  let verdict := entry.declaredVerdict catalog
  let reconciled := entry.reconcileDeclaredActivity catalog verdict.2 nowMs
  !reconciled.2 && entry.status = verdict.1 && entry.activitySource = verdict.2 &&
    entry.outcome = entry.nextOutcome catalog &&
    reconciled.1.activity.all fun summary => summary.state = verdict.1.agentState.wireStr

/-- The entry as `derive` leaves it, but for the mark that it is unread. -/
def SessionEntry.shown (entry : SessionEntry S) (nowMs : ℕ) : SessionEntry S :=
  let verdict := entry.declaredVerdict catalog
  let reconciled := (entry.reconcileDeclaredActivity catalog verdict.2 nowMs).1
  let settled := entry.settled catalog nowMs
  { reconciled with
    stateSeq := if entry.status ≠ verdict.1 then entry.stateSeq + 1 else entry.stateSeq
    status := verdict.1
    activitySource := verdict.2
    outcome := entry.nextOutcome catalog
    activity := reconciled.activity.map fun summary =>
      summary.settle verdict.1.agentState verdict.2 settled nowMs
    updatedAtMs := if settled then entry.updatedAtMs else nowMs }

/-- The notification of a change to what the entry declares. -/
def SessionEntry.notification (entry : SessionEntry S) (nowMs : ℕ) : Option Notification :=
  let shown := entry.shown catalog nowMs
  (noticeBetween entry.status (entry.declaredVerdict catalog).1 (entry.agentDeclaration catalog)).map
    fun notice => notificationFor notice (shown.runtimeLabel catalog) (shown.noticeBody (some notice))

/-- The part of `derive` that is about the entry alone. -/
def SessionEntry.derive (entry : SessionEntry S) (nowMs : ℕ) : Derived S :=
  let status := (entry.declaredVerdict catalog).1
  let outcome := entry.nextOutcome catalog
  let shown := entry.shown catalog nowMs
  { entry := { shown with
      unread := shown.unread || (entry.notification catalog nowMs).any fun notification =>
        notification.kind = kindFinished }
    notification := entry.notification catalog nowMs
    changed := !entry.settled catalog nowMs
    turnInput := if entry.status ≠ status then turnInputBetween entry.status status else none
    logged := if entry.outcome ≠ outcome then outcome else none }

/-! ### The state -/

structure TurnSignal (S A : Type) where
  session : S
  account : A
  input : TurnInput
  atMs : ℕ
  order : ℕ
  transcript : Option String
  deriving DecidableEq

structure ActivityLogEntry (S : Type) where
  session : S
  generation : ℕ
  outcome : String
  atMs : ℕ
  deriving DecidableEq

def activityLogCapacity : ℕ := 256

def maxPendingTurnSignals : ℕ := 4096

/-- A row that has changed, as the entry that it is built from. -/
structure Projection (S : Type) where
  session : SessionEntry S
  notification : Option Notification
  changed : Bool
  deriving DecidableEq

variable [LinearOrder S]

structure WorkerState (S A : Type) [LinearOrder S] where
  sessions : OrdMap S (SessionEntry S)
  log : List (ActivityLogEntry S)
  turnSignals : List (TurnSignal S A)

/-- A frame of an event: the event that it is read as, its revision, zero when it has none, and the time when
it was received. -/
structure CoreFrame (S : Type) where
  event : Option (AgentEvent S)
  revision : ℕ
  receivedAtMs : ℕ
  deriving DecidableEq

/-- A row of the core: what its fields are read as, and the time when it is. -/
structure CoreRow (S : Type) where
  session : Option S
  generation : Option ℕ
  lifecycle : SessionLifecycle
  hookTool : Option String
  activityEvent : Option (CoreFrame S)
  event : Option (CoreFrame S)
  agent : Option AgentSummary
  declaredStatus : Option DeclaredStatus
  programStatusCapable : Bool
  observedRuntime : Option RuntimeObservation
  accountEnv : OrdMap String String
  nowMs : ℕ

namespace WorkerState

def new : WorkerState S A := ⟨.empty, [], []⟩

def pushTurnSignal (state : WorkerState S A) (session : S) (input : TurnInput) (atMs order : ℕ) :
    WorkerState S A :=
  match state.sessions.get? session with
  | none => state
  | some entry =>
    match entry.usageAccount catalog with
    | none => state
    | some account =>
      let transcript := if input = .stop then entry.activity.bind AgentSummary.transcriptPath else none
      let signals := if state.turnSignals.length ≥ maxPendingTurnSignals then
        state.turnSignals.drop 1 else state.turnSignals
      { state with turnSignals := signals ++ [⟨session, account, input, atMs, order, transcript⟩] }

/-- `ActivityLog::record`, when there is something to record. -/
def record (log : List (ActivityLogEntry S)) (session : S) (generation : ℕ)
    (outcome : Option String) (atMs : ℕ) : List (ActivityLogEntry S) :=
  match outcome with
  | none => log
  | some outcome =>
    (if log.length = activityLogCapacity then log.drop 1 else log) ++
      [⟨session, generation, outcome, atMs⟩]

def derive (state : WorkerState S A) (session : S) (nowMs : ℕ) :
    WorkerState S A × Option (Projection S) :=
  match state.sessions.get? session with
  | none => (state, none)
  | some entry =>
    let derived := entry.derive catalog nowMs
    let state := { state with
      sessions := state.sessions.insert session derived.entry
      log := record state.log session entry.generation derived.logged nowMs }
    let state := match derived.turnInput with
      | some input => state.pushTurnSignal catalog session input nowMs 0
      | none => state
    (state, some ⟨derived.entry, derived.notification, derived.changed⟩)

/-- The turn input of a hook event. -/
def hookInput : AgentEventKind → Option TurnInput
  | .promptSubmit => some .prompt
  | .stop => some .stop
  | .exit | .sessionEnd => some .ended
  | _ => none

/-- Whether an entry refuses a frame: it is not newer than what is known, or of another generation. -/
def refuses (entry : SessionEntry S) (frame : CoreFrame S) (event : AgentEvent S) : Bool :=
  (frame.revision > 0 && frame.revision ≤ entry.hookRevision) ||
    (frame.revision = 0 && entry.hookRevision > 0) ||
    event.generation.any fun requested => requested ≠ entry.generation

/-- What an event that was not refused leads to. -/
def acceptEvent (state : WorkerState S A) (entry : SessionEntry S) (frame : CoreFrame S)
    (event : AgentEvent S) (activity : Option AgentSummary) :
    WorkerState S A × Option (Projection S) :=
  let entry := { entry with
    hookRevision := frame.revision
    activity := activity
    declaredActivity := false
    updatedAtMs := frame.receivedAtMs }
  let state := { state with sessions := state.sessions.insert event.session entry }
  let state := match hookInput event.kind with
    | some input => state.pushTurnSignal catalog event.session input frame.receivedAtMs frame.revision
    | none => state
  let derived := state.derive catalog event.session frame.receivedAtMs
  (derived.1, derived.2.map fun projection => { projection with changed := true })

def applyCoreEvent (state : WorkerState S A) (frame : CoreFrame S) :
    WorkerState S A × Option (Projection S) :=
  match frame.event with
  | none => (state, none)
  | some event =>
    match state.sessions.get? event.session with
    | none => (state, none)
    | some entry =>
      if refuses entry frame event then (state, none)
      else
        match applyEvent entry.activity event frame.receivedAtMs with
        | .stale _ =>
          ({ state with
            sessions := state.sessions.insert event.session
              { entry with hookRevision := frame.revision } }, none)
        | .clear => state.acceptEvent catalog entry frame event none
        | .update summary => state.acceptEvent catalog entry frame event (some summary)

end WorkerState

def firstGeneration : ℕ := 1

/-- The entry of `merge_core_row`, before it takes what the held one shows or adopts what is declared. -/
def mergedEntry (session : S) (row : CoreRow S) (held : Option (SessionEntry S)) :
    SessionEntry S :=
  let generation := row.generation.getD firstGeneration
  let same := held.filter fun entry => entry.generation = generation
  let heldActivity := same.bind SessionEntry.activity
  let foreground := row.observedRuntime.bind fun observation => catalog.runtimeById observation.id
  { hookRevision := (same.map SessionEntry.hookRevision).getD 0
    session := session
    generation := generation
    lifecycle := row.lifecycle
    activity := (heldActivity.or (row.hookTool.map fun tool => .declared tool row.nowMs)).or row.agent
    declaredActivity := heldActivity.isSome && held.any SessionEntry.declaredActivity
    activitySource := .none
    status := .idle
    outcome := none
    declaredStatus := row.declaredStatus
    programStatusCapable := row.programStatusCapable
    foregroundRuntime := foreground.map catalog.id
    observedRuntime := row.observedRuntime.or (held.bind SessionEntry.observedRuntime)
    accountEnv := if row.accountEnv.entries.isEmpty then
      (held.map SessionEntry.accountEnv).getD .empty else row.accountEnv
    stateSeq := (held.map SessionEntry.stateSeq).getD 0
    unread := false
    updatedAtMs := row.nowMs }

def mergeCoreRow (session : S) (row : CoreRow S) (held : Option (SessionEntry S)) :
    SessionEntry S :=
  let entry := mergedEntry catalog session row held
  match held.filter fun held => held.generation = row.generation.getD firstGeneration with
  | some held =>
    { entry with
      activitySource := held.activitySource
      status := held.status
      outcome := held.outcome
      unread := held.unread }
  | none => entry.adoptDeclaredVerdict catalog

/-- What the loop of `apply_core_rows` keeps. -/
structure RowLoop (S A : Type) [LinearOrder S] where
  state : WorkerState S A
  seen : OrdMap S Unit
  discovered : OrdMap S Unit
  recovered : OrdMap S (Projection S)
  foregroundMoved : OrdMap S Unit
  programStatusMoved : OrdMap S Unit

namespace RowLoop

/-- One of the last hook events of a row. -/
def recover (loop : RowLoop S A) (session : S) (frame : Option (CoreFrame S)) : RowLoop S A :=
  match frame with
  | none => loop
  | some frame =>
    let applied := loop.state.applyCoreEvent catalog frame
    { loop with
      state := applied.1
      recovered := match applied.2 with
        | some projection => loop.recovered.insert session projection
        | none => loop.recovered }

/-- The row is of a generation before that of the entry. -/
def behind (row : CoreRow S) (held : Option (SessionEntry S)) : Bool :=
  held.any fun held => row.generation.any fun generation => generation < held.generation

def mark (moved : Bool) (session : S) (marks : OrdMap S Unit) : OrdMap S Unit :=
  if moved then marks.insert session () else marks

def start (state : WorkerState S A) : RowLoop S A :=
  ⟨state, .empty, .empty, .empty, .empty, .empty⟩

/-- The round of the loop for a row. -/
def step (loop : RowLoop S A) (row : CoreRow S) : RowLoop S A :=
  match row.session with
  | none => loop
  | some session =>
    let held := loop.state.sessions.get? session
    let loop := { loop with seen := loop.seen.insert session () }
    if behind row held then loop
    else
      let entry := mergeCoreRow catalog session row held
      let moved : Bool := entry.declaredStatus ≠ held.bind SessionEntry.declaredStatus ||
        entry.programStatusCapable ≠ held.any SessionEntry.programStatusCapable
      let loop := { loop with
        state := { loop.state with sessions := loop.state.sessions.insert session entry }
        discovered := mark held.isNone session loop.discovered
        programStatusMoved := mark moved session loop.programStatusMoved }
      let loop := (loop.recover catalog session row.activityEvent).recover catalog session row.event
      let foreground := (loop.state.sessions.get? session).bind SessionEntry.foregroundRuntime
      { loop with
        foregroundMoved := mark (foreground ≠ held.bind SessionEntry.foregroundRuntime) session
          loop.foregroundMoved }

/-- What is announced of a session at the end. -/
def announce (loop : RowLoop S A) (session : S) (projection : Projection S) :
    Option (Projection S) :=
  let recovery := loop.recovered.get? session
  let projection := { projection with
    changed := projection.changed || recovery.any Projection.changed
    notification := projection.notification.or (recovery.bind Projection.notification) }
  let announced : Bool :=
    (projection.changed && (recovery.isSome || (loop.discovered.get? session).isNone)) ||
      projection.notification.isSome || (loop.foregroundMoved.get? session).isSome ||
      (loop.programStatusMoved.get? session).isSome
  if announced then some projection else none

end RowLoop

namespace WorkerState

/-- The sessions are derived one after the other, and what `select` makes of their projections is kept. -/
def deriveAll (select : S → Projection S → Option (Projection S)) (nowMs : ℕ) :
    List S → WorkerState S A → WorkerState S A × List (Projection S)
  | [], state => (state, [])
  | session :: sessions, state =>
    let derived := state.derive catalog session nowMs
    let rest := deriveAll select nowMs sessions derived.1
    (rest.1, (derived.2.bind (select session)).toList ++ rest.2)

def reconcileAdoptedActivity (state : WorkerState S A) (nowMs : ℕ) : WorkerState S A :=
  { state with
    sessions := state.sessions.mapValues fun entry =>
      { entry with
        activity := entry.activity.map fun activity =>
          if activity.stale then activity else reconcileAdopted activity entry.lifecycle nowMs } }

/-- The sessions that were not seen are dropped. -/
def prune (state : WorkerState S A) (seen : OrdMap S Unit) : WorkerState S A :=
  { state with sessions := state.sessions.filterKeys fun session => (seen.get? session).isSome }

def applyCoreRows (state : WorkerState S A) (rows : List (CoreRow S)) (pruning : Bool)
    (reconcileMs nowMs : ℕ) : WorkerState S A × List (Projection S) :=
  let loop := rows.foldl (RowLoop.step catalog) (.start state)
  let state := if pruning then loop.state.prune loop.seen else loop.state
  (state.reconcileAdoptedActivity reconcileMs).deriveAll catalog loop.announce nowMs
    (loop.seen.entries.map Prod.fst)

def applyCoreSnapshot (state : WorkerState S A) (rows : List (CoreRow S)) (reconcileMs nowMs : ℕ) :
    WorkerState S A × List (Projection S) :=
  state.applyCoreRows catalog rows true reconcileMs nowMs

def applyCoreSession (state : WorkerState S A) (row : CoreRow S) (reconcileMs nowMs : ℕ) :
    WorkerState S A × List (Projection S) :=
  state.applyCoreRows catalog [row] false reconcileMs nowMs

def sweep (state : WorkerState S A) (nowMs : ℕ) : WorkerState S A × List (Projection S) :=
  state.deriveAll catalog
    (fun _ projection =>
      if projection.changed || projection.notification.isSome then some projection else none)
    nowMs (state.sessions.entries.map Prod.fst)

def forgetCoreSession (state : WorkerState S A) (session : S) (nowMs : ℕ) : WorkerState S A :=
  let state := state.pushTurnSignal catalog session .vanished nowMs 0
  { state with sessions := state.sessions.erase session }

def acknowledge (state : WorkerState S A) : List S → WorkerState S A × List (Projection S)
  | [] => (state, [])
  | session :: sessions =>
    match (state.sessions.get? session).filter SessionEntry.unread with
    | none => state.acknowledge sessions
    | some entry =>
      let entry := { entry with unread := false }
      let rest := { state with sessions := state.sessions.insert session entry }.acknowledge sessions
      (rest.1, ⟨entry, none, true⟩ :: rest.2)

end WorkerState

/-! ### What becomes of the sessions -/

section
variable {catalog} {state : WorkerState S A}

theorem sessions_pushTurnSignal (state : WorkerState S A) (session : S) (input : TurnInput)
    (atMs order : ℕ) :
    (state.pushTurnSignal catalog session input atMs order).sessions = state.sessions := by
  unfold WorkerState.pushTurnSignal
  split
  · rfl
  · split <;> rfl

theorem get?_derive (state : WorkerState S A) (session other : S) (nowMs : ℕ) :
    (state.derive catalog session nowMs).1.sessions.get? other =
      if other = session then
        (state.sessions.get? other).map fun entry => (entry.derive catalog nowMs).entry
      else state.sessions.get? other := by
  unfold WorkerState.derive
  cases hentry : state.sessions.get? session with
  | none =>
    dsimp only
    split_ifs with heq
    · rw [heq, hentry, Option.map_none]
    · rfl
  | some entry =>
    have hsessions : (match (entry.derive catalog nowMs).turnInput with
        | some input => WorkerState.pushTurnSignal catalog
          { state with
            sessions := state.sessions.insert session (entry.derive catalog nowMs).entry
            log := WorkerState.record state.log session entry.generation
              (entry.derive catalog nowMs).logged nowMs } session input nowMs 0
        | none =>
          { state with
            sessions := state.sessions.insert session (entry.derive catalog nowMs).entry
            log := WorkerState.record state.log session entry.generation
              (entry.derive catalog nowMs).logged nowMs }).sessions =
        state.sessions.insert session (entry.derive catalog nowMs).entry := by
      split
      · exact sessions_pushTurnSignal ..
      · rfl
    dsimp only
    rw [hsessions, OrdMap.get?_insert]
    split_ifs with heq
    · rw [heq, hentry, Option.map_some]
    · rfl

/-- Each of the sessions is derived once. -/
theorem get?_deriveAll (select : S → Projection S → Option (Projection S)) (nowMs : ℕ)
    {sessions : List S} (hnodup : sessions.Nodup) (state : WorkerState S A) (other : S) :
    (state.deriveAll catalog select nowMs sessions).1.sessions.get? other =
      if other ∈ sessions then
        (state.sessions.get? other).map fun entry => (entry.derive catalog nowMs).entry
      else state.sessions.get? other := by
  induction sessions generalizing state with
  | nil => rfl
  | cons session sessions ih =>
    obtain ⟨hsession, hnodup⟩ := List.nodup_cons.1 hnodup
    unfold WorkerState.deriveAll
    dsimp only
    rw [ih hnodup, get?_derive]
    by_cases heq : other = session
    · subst heq
      simp [hsession]
    · simp [heq]

omit [LinearOrder S] in
theorem mergeCoreRow_same (catalog : Catalog R A) (session : S) {row : CoreRow S}
    {held : SessionEntry S} (h : held.generation = row.generation.getD firstGeneration) :
    mergeCoreRow catalog session row (some held) =
      { mergedEntry catalog session row (some held) with
        activitySource := held.activitySource
        status := held.status
        outcome := held.outcome
        unread := held.unread } := by
  have hsame : (some held).filter (fun held => decide
      (held.generation = row.generation.getD firstGeneration)) = some held :=
    Option.filter_some_pos (decide_eq_true h)
  unfold mergeCoreRow
  rw [hsame]

omit [LinearOrder S] in
theorem mergeCoreRow_new (catalog : Catalog R A) (session : S) {row : CoreRow S}
    {held : SessionEntry S} (h : held.generation ≠ row.generation.getD firstGeneration) :
    mergeCoreRow catalog session row (some held) =
      (mergedEntry catalog session row (some held)).adoptDeclaredVerdict catalog := by
  have hother : (some held).filter (fun held => decide
      (held.generation = row.generation.getD firstGeneration)) = none :=
    Option.filter_some_neg (by simpa using h)
  unfold mergeCoreRow
  rw [hother]

/-- There is no session that does not refuse the frame. -/
def Spent (frame : CoreFrame S) (state : WorkerState S A) : Prop :=
  ∀ event entry, frame.event = some event → state.sessions.get? event.session = some entry →
    WorkerState.refuses entry frame event = true

/-- What an event does: nothing, when it is not for a session or refused; or it is noted, and what the hook
tells of the agent with it, unless that is stale. -/
theorem applyCoreEvent_cases (catalog : Catalog R A) (state : WorkerState S A)
    (frame : CoreFrame S) :
    Spent frame state ∧ state.applyCoreEvent catalog frame = (state, none) ∨
    ∃ event entry, frame.event = some event ∧ state.sessions.get? event.session = some entry ∧
      WorkerState.refuses entry frame event = false ∧
      ((state.applyCoreEvent catalog frame).2 = none ∧
          (state.applyCoreEvent catalog frame).1 = { state with
            sessions := state.sessions.insert event.session
              { entry with hookRevision := frame.revision } } ∨
        ∃ activity, state.applyCoreEvent catalog frame =
          state.acceptEvent catalog entry frame event activity) := by
  unfold WorkerState.applyCoreEvent
  split
  · next hevent =>
    refine .inl ⟨?_, rfl⟩
    intro event entry hevent'
    rw [hevent] at hevent'
    cases hevent'
  · next event hevent =>
    split
    · next hentry =>
      refine .inl ⟨?_, rfl⟩
      intro event' entry hevent' hentry'
      obtain rfl := Option.some.inj (hevent.symm.trans hevent')
      rw [hentry] at hentry'
      cases hentry'
    · next entry hentry =>
      split_ifs with hrefuses
      · refine .inl ⟨?_, rfl⟩
        intro event' entry' hevent' hentry'
        obtain rfl := Option.some.inj (hevent.symm.trans hevent')
        obtain rfl := Option.some.inj (hentry.symm.trans hentry')
        exact hrefuses
      · refine .inr ⟨event, entry, hevent, hentry, Bool.not_eq_true _ ▸ hrefuses, ?_⟩
        split
        · exact .inl ⟨rfl, rfl⟩
        · exact .inr ⟨_, rfl⟩
        · exact .inr ⟨_, rfl⟩

/-- The entry that an accepted event leads to, before it is derived. -/
def SessionEntry.accept (entry : SessionEntry S) (frame : CoreFrame S)
    (activity : Option AgentSummary) : SessionEntry S :=
  { entry with
    hookRevision := frame.revision
    activity := activity
    declaredActivity := false
    updatedAtMs := frame.receivedAtMs }

theorem get?_acceptEvent (state : WorkerState S A) (entry : SessionEntry S) (frame : CoreFrame S)
    (event : AgentEvent S) (activity : Option AgentSummary) (other : S) :
    (state.acceptEvent catalog entry frame event activity).1.sessions.get? other =
      if other = event.session then
        some ((entry.accept frame activity).derive catalog frame.receivedAtMs).entry
      else state.sessions.get? other := by
  have hsessions : (match WorkerState.hookInput event.kind with
      | some input => WorkerState.pushTurnSignal catalog
        { state with
          sessions := state.sessions.insert event.session (entry.accept frame activity) }
        event.session input frame.receivedAtMs frame.revision
      | none =>
        { state with
          sessions := state.sessions.insert event.session (entry.accept frame activity) }).sessions =
      state.sessions.insert event.session (entry.accept frame activity) := by
    split
    · exact sessions_pushTurnSignal ..
    · rfl
  unfold SessionEntry.accept at hsessions ⊢
  unfold WorkerState.acceptEvent
  dsimp only
  rw [get?_derive, hsessions, OrdMap.get?_insert]
  split_ifs <;> rfl

end

/-! ### Runs -/

/-- What happens to the state of the worker. -/
inductive Op (S : Type) where
  | coreSnapshot (rows : List (CoreRow S)) (reconcileMs nowMs : ℕ)
  | coreSession (row : CoreRow S) (reconcileMs nowMs : ℕ)
  | coreEvent (frame : CoreFrame S)
  | sweep (nowMs : ℕ)
  | forget (session : S) (nowMs : ℕ)
  | acknowledge (sessions : List S)

def WorkerState.step (state : WorkerState S A) : Op S → WorkerState S A
  | .coreSnapshot rows reconcileMs nowMs =>
    (state.applyCoreSnapshot catalog rows reconcileMs nowMs).1
  | .coreSession row reconcileMs nowMs => (state.applyCoreSession catalog row reconcileMs nowMs).1
  | .coreEvent frame => (state.applyCoreEvent catalog frame).1
  | .sweep nowMs => (state.sweep catalog nowMs).1
  | .forget session nowMs => state.forgetCoreSession catalog session nowMs
  | .acknowledge sessions => (state.acknowledge sessions).1

def WorkerState.run (state : WorkerState S A) (ops : List (Op S)) : WorkerState S A :=
  ops.foldl (WorkerState.step catalog) state

end

end Paneflow.Serve
