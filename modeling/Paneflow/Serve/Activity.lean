import Paneflow.OrdMap
import Mathlib.Data.String.Basic

/-!
# The activity of an agent

activity.rs and notifications.rs of the worker, and agent.rs of its client: what a hook event makes of the
summary of an agent, what a core that has gone leaves of it, and the notification that a notice becomes.
-/

namespace Paneflow.Serve

/-! ### Text -/

/-- `char::is_whitespace` -/
def isWhitespace (c : Char) : Bool :=
  (0x09 ≤ c.toNat && c.toNat ≤ 0x0D) || c.toNat = 0x20 || c.toNat = 0x85 || c.toNat = 0xA0 ||
    c.toNat = 0x1680 || (0x2000 ≤ c.toNat && c.toNat ≤ 0x200A) || c.toNat = 0x2028 ||
    c.toNat = 0x2029 || c.toNat = 0x202F || c.toNat = 0x205F || c.toNat = 0x3000

/-- `str::trim` -/
def trim (text : String) : String :=
  String.ofList ((text.toList.dropWhile isWhitespace).reverse.dropWhile isWhitespace).reverse

/-- The longest beginning of the text that fits into the bytes. -/
def takeBytes : ℕ → List Char → List Char
  | _, [] => []
  | budget, c :: cs =>
    if c.utf8Size ≤ budget then c :: takeBytes (budget - c.utf8Size) cs else []

def maxFailureReasonBytes : ℕ := 128

def failureReasonText (raw : String) : String :=
  String.ofList (takeBytes maxFailureReasonBytes raw.toList)

/-! ### Summaries -/

inductive AgentState where
  | thinking
  | waitingForInput
  | finished
  | errored
  deriving DecidableEq, Repr

namespace AgentState

def wireStr : AgentState → String
  | .thinking => "thinking"
  | .waitingForInput => "waiting_for_input"
  | .finished => "finished"
  | .errored => "errored"

def parse (raw : String) : Option AgentState :=
  if raw = "thinking" then some .thinking
  else if raw = "waiting_for_input" then some .waitingForInput
  else if raw = "finished" then some .finished
  else if raw = "errored" then some .errored
  else none

def isBusy : AgentState → Bool
  | .thinking | .waitingForInput => true
  | _ => false

end AgentState

/-- `is_human_interruption_exit`; the last code is `STATUS_CONTROL_C_EXIT`. -/
def isHumanInterruptionExit (exitCode : ℤ) : Bool :=
  exitCode = 129 || exitCode = 130 || exitCode = 137 || exitCode = 143 || exitCode = -1073741510

def stateForExit (exitCode : ℤ) : AgentState :=
  if exitCode = 0 then .finished
  else if isHumanInterruptionExit exitCode then .finished
  else .errored

def sourceTakeoverSilence : ℕ := 20 * 1000

def eventReorderToleranceMs : ℕ := 5000

def acceptsEvent (last incoming : Option ℕ) : Bool :=
  match last, incoming with
  | some last, some incoming =>
    if incoming < last then last - incoming > eventReorderToleranceMs else true
  | _, _ => true

def nextWaitingSince (prev : Option (AgentState × Option ℕ)) (newState : AgentState) (now : ℕ) :
    Option ℕ :=
  match newState with
  | .waitingForInput =>
    match prev with
    | some (.waitingForInput, some since) => some since
    | _ => some now
  | _ => none

structure AgentSummary where
  tool : String
  state : String
  source : String
  activeToolName : Option String
  message : Option String
  lastResult : Option String
  providerSessionId : Option String
  transcriptPath : Option String
  pid : Option ℕ
  waitingSinceMs : Option ℕ
  lastEventAtMs : Option ℕ
  errored : Bool
  stale : Bool
  updatedAtMs : ℕ
  deriving DecidableEq, Repr

def AgentSummary.declared (tool : String) (nowMs : ℕ) : AgentSummary :=
  ⟨tool, AgentState.finished.wireStr, "hook", none, none, none, none, none, none, none, none, false,
    false, nowMs⟩

inductive AgentEventKind where
  | sessionStart
  | sessionEnd
  | promptSubmit
  | notification
  | stop
  | toolUse
  | exit
  deriving DecidableEq, Repr

def AgentEventKind.endsRun : AgentEventKind → Bool
  | .stop | .exit | .sessionEnd => true
  | _ => false

/-- An event as `from_params` reads it; the provider's session and the transcript are from its payload. -/
structure AgentEvent (S : Type) where
  session : S
  generation : Option ℕ
  kind : AgentEventKind
  tool : String
  pid : Option ℕ
  toolName : Option String
  message : Option String
  summary : Option String
  exitCode : Option ℤ
  emittedAtMs : Option ℕ
  isInterrupt : Bool
  providerSessionId : Option String
  transcriptPath : Option String
  deriving DecidableEq, Repr

inductive AgentDecision where
  | update (summary : AgentSummary)
  | clear
  | stale (reason : String)
  deriving DecidableEq, Repr

variable {S : Type}

def silenceSince (updatedAtMs nowMs : ℕ) : ℕ := nowMs - updatedAtMs

def acceptsProcess (existing : AgentSummary) (event : AgentEvent S) (silence : ℕ) : Bool :=
  match existing.pid, event.pid with
  | some held, some incoming =>
    if held ≠ incoming then !event.kind.endsRun || silence ≥ sourceTakeoverSilence else true
  | _, _ => true

/-- The summary that an event leads to, when it is not refused. -/
def AgentSummary.next (existing : Option AgentSummary) (event : AgentEvent S) (nowMs : ℕ) :
    AgentSummary :=
  let summary := existing.getD (.declared event.tool nowMs)
  let summary := { summary with
    tool := event.tool
    pid := event.pid.or summary.pid
    stale := false
    lastEventAtMs := event.emittedAtMs.or summary.lastEventAtMs
    providerSessionId := event.providerSessionId.or summary.providerSessionId
    transcriptPath := event.transcriptPath.or summary.transcriptPath
    updatedAtMs := nowMs }
  match event.kind with
  | .promptSubmit => { summary with activeToolName := none, message := none, errored := false }
  | .toolUse => { summary with activeToolName := event.toolName }
  | .notification => { summary with activeToolName := none, message := event.message }
  | .stop =>
    { summary with
      activeToolName := none
      message := none
      lastResult := if event.isInterrupt then summary.lastResult else event.summary }
  | .exit =>
    { summary with
      activeToolName := none
      message := none
      errored := stateForExit (event.exitCode.getD 0) = .errored }
  | .sessionStart | .sessionEnd => summary

def applyEvent (existing : Option AgentSummary) (event : AgentEvent S) (nowMs : ℕ) :
    AgentDecision :=
  let foreign := existing.any fun summary =>
    !acceptsProcess summary event (silenceSince summary.updatedAtMs nowMs)
  if existing.any fun summary => !acceptsEvent summary.lastEventAtMs event.emittedAtMs then
    .stale "an out-of-order event never rewrites a newer run"
  else if event.kind = .sessionEnd then
    if foreign then .stale "a foreign process cannot end this run"
    else if existing.any AgentSummary.errored then .stale "an errored run keeps its outcome"
    else .clear
  else if foreign then .stale "a stale process identity never ends a newer run"
  else .update (.next existing event nowMs)

inductive SessionLifecycle where
  | starting
  | running
  | exited (code : ℤ) (signal : Option String)
  | failed (reason : String)
  | lost
  | unverified (reason : String)
  deriving DecidableEq, Repr

def SessionLifecycle.isRunning : SessionLifecycle → Bool
  | .starting | .running => true
  | _ => false

def reconcileAdopted (summary : AgentSummary) (lifecycle : SessionLifecycle) (nowMs : ℕ) :
    AgentSummary :=
  if lifecycle.isRunning || !(AgentState.parse summary.state).any AgentState.isBusy then summary
  else { summary with stale := true, updatedAtMs := nowMs }

/-! ### Notifications -/

inductive Notice where
  | finished
  | needsInput
  deriving DecidableEq, Repr

def maxNotificationBodyChars : ℕ := 200

def kindFinished : String := "finished"

def kindNeedsInput : String := "needs_input"

structure Notification where
  kind : String
  runtimeLabel : String
  body : Option String
  deriving DecidableEq, Repr

def truncateBody (raw : Option String) : Option String :=
  raw.bind fun raw =>
    if (trim raw).isEmpty then none
    else some (String.ofList ((trim raw).toList.take maxNotificationBodyChars))

def notificationFor (notice : Notice) (runtimeLabel : String) (body : Option String) :
    Notification :=
  let kind := match notice with
    | .finished => kindFinished
    | .needsInput => kindNeedsInput
  ⟨kind, runtimeLabel, truncateBody body⟩

end Paneflow.Serve
