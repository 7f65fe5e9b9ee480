import Paneflow.Checked
import Paneflow.Host.Surfaces
import Paneflow.Utf8

/-!
# Writes inside the caller's scope

The three requests that write to a terminal: `session.input` of server.rs, `surface.send_text` of control.rs and
`pane.write` of agent_write.rs, as `handle_connection` passes them on. Each of them finds its target, checks the scope
of the caller and then writes; what the host answers on the way (its sessions, its terminals, the human who allows a
write) may change between two questions and is given by `Answers`.

`handle_target` says that the target whose scope was checked is the only one written to, `authorizeWriteScope_ok` what
the check rests on, and `handle_scoped` puts them together.
-/

namespace Paneflow.Host.WriteScope

open Paneflow.Checked Paneflow.Host.Approvals Paneflow.Host.Identity Paneflow.Host.Surfaces Paneflow.Json
  Paneflow.Text

/-- What a request is refused with: `ControlError` and `DispatchError`. -/
inductive Refusal (X : Type) where
  | params (message : String)
  | disabled (message : String)
  | noController (message : String)
  | host (error : X)

structure ControlPermissions where
  scripting : Bool
  orchestration : Bool
  fencedReads : Bool
  deriving DecidableEq, Repr

/-- Why an agent cannot be written to now. -/
inductive DeliveryRefusal where
  | blocked (reason : String)
  | leftForeground (runtime holder : String)
  deriving DecidableEq, Repr

inductive StartReason where
  | noSignal
  | stateTransition
  | noStateTransition
  deriving DecidableEq, Repr

def StartReason.text : StartReason → String
  | .noSignal => "no_signal"
  | .stateTransition => "state_transition"
  | .noStateTransition => "no_state_transition"

inductive ReducedState where
  | working
  | attention
  | blocked
  | idle
  deriving DecidableEq, Repr

def ReducedState.text : ReducedState → String
  | .working => "working"
  | .attention => "attention"
  | .blocked => "blocked"
  | .idle => "idle"

/-- What was seen of the turn that a submitted text starts. -/
structure TurnStart where
  started : Option Bool
  reason : StartReason
  state : Option ReducedState
  deriving DecidableEq, Repr

/-- What the host, the terminals and the human answer, in the order of the questions. -/
structure Answers (X : Type) where
  /-- the sessions when the scope of the caller is read -/
  listed : List SessionSummary
  /-- the target when its scope is checked -/
  inspected : SessionId → Except X SessionSummary
  /-- the sessions after the check -/
  current : SessionId → Except X SessionSummary
  bracketedPaste : SessionId → Except X Bool
  /-- what each `input_from` returns -/
  input : ℕ → Except X ℕ
  refusal : Option DeliveryRefusal
  admission : AgentOccurrence SessionId → AgentOccurrence SessionId → Admission
  hasWindow : Bool
  /-- a token for a write, or the milliseconds to wait -/
  token : AgentOccurrence SessionId → AgentOccurrence SessionId → Except ℕ Unit
  turnStart : TurnStart
  fileName : String → Option String
  decode : String → Except String (List UInt8)
  render : Value → String
  generationError : Value → String

/-- Bytes for the terminal of a session. -/
structure Write where
  session : SessionId
  bytes : List UInt8
  deriving DecidableEq, Repr

/-- What a request wrote, and its result. -/
structure Outcome (X : Type) where
  writes : List Write
  result : Except (Refusal X) Value

variable {X : Type} (answers : Answers X)

/-! ### The scope of the caller -/

def scopeAll : String := "all"

def scopeWorkspace : String := "workspace"

def fromHost {α : Type} (result : Except X α) : Except (Refusal X) α := result.mapError .host

/-- The session of a caller, with its workspace. -/
structure ReadScope where
  session : SessionId
  workspace : Option WorkspaceId

/-- `read_scope`: the session of the caller, if the request names one. -/
def readScope (params : Value) : Except String (Option ReadScope) :=
  match params.get "scope_session" with
  | none => .ok none
  | some raw =>
    match raw.asStr.map fun raw => trim raw.toList with
    | none | some [] => .error "'scope_session' must be a session id"
    | some raw => do
      let session ← parseSession raw
      match answers.listed.find? fun summary => summary.session = session with
      | some summary => .ok (some ⟨summary.session, summary.workspace⟩)
      | none => .error ("scope session " ++ String.ofList raw ++ " is not hosted by this host")

def callerScope (params : Value) : Except (Refusal X) (Option ReadScope) :=
  (readScope answers params).mapError fun _ =>
    let caller := match params.get "scope_session" with
      | none => ""
      | some raw => raw.asStr.getD (answers.render raw)
    .params ("unknown caller session " ++ caller ++
      ": this instance does not host it, so the write is refused")

def ReadScope.admits (scope : ReadScope) (session : SessionId) (workspace : Option WorkspaceId) : Bool :=
  match scope.workspace with
  | some scope => workspace = some scope
  | none => session = scope.session

/-- The scope that is asked for; `none` if it is all sessions and that is allowed. -/
def scopeOf (params : Value) (permissions : ControlPermissions) : Except (Refusal X) (Option Unit) :=
  match (params.get "scope").map Value.asStr with
  | none => .ok (some ())
  | some (some scope) =>
    if scope = scopeWorkspace then .ok (some ())
    else if scope = scopeAll then
      if permissions.orchestration then .ok none
      else .error (.disabled ("scope all needs orchestration; set PANEFLOW_IPC_ORCHESTRATION=1 or " ++
        "PANEFLOW_IPC_SCRIPTING=1 to write across workspaces"))
    else .error (.params "'scope' must be \"workspace\" or \"all\"")
  | some none => .error (.params "'scope' must be \"workspace\" or \"all\"")

def authorizeWriteScope (params : Value) (permissions : ControlPermissions) (target : SessionId) :
    Except (Refusal X) Unit := do
  match ← scopeOf params permissions with
  | none => return ()
  | some () =>
    match ← callerScope answers params with
    | none => return ()
    | some scope =>
      let workspace := (← fromHost (answers.inspected target)).workspace
      if scope.admits target workspace then return ()
      else
        let place := match workspace with
          | none => "no workspace"
          | some workspace => "workspace " ++ String.ofList workspace.text
        throw (.params ("session " ++ String.ofList target.text ++ " belongs to " ++ place ++
          ", outside the workspace of the calling pane; rerun with --scope all " ++
            "(needs PANEFLOW_IPC_ORCHESTRATION=1) to write across workspaces"))

/-! ### Writing a text -/

def normalizePasteText (text : List Char) : List Char :=
  (replace ['\r'] ['\n'] (replace ['\r', '\n'] ['\n'] text)).filter fun c =>
    c ≠ '\x1b' && !(0x80 ≤ c.toNat && c.toNat ≤ 0x9f)

def bracketedPasteFrame (text : List Char) : List Char := pasteStart ++ normalizePasteText text ++ pasteEnd

def resolvePasteMode (pasteParam : Option Bool) (submit isAgent bracketedPasteEnabled : Bool) : Bool :=
  pasteParam.getD (submit && (isAgent || bracketedPasteEnabled))

def resolveSendTextBodyMode (text : List Char) (pasteParam : Option Bool)
    (resolvedPaste bracketedPasteEnabled : Bool) : Except String Bool :=
  if !('\r' ∈ text || '\n' ∈ text) then .ok resolvedPaste
  else
    let paste := if pasteParam.isNone && bracketedPasteEnabled then true else resolvedPaste
    if paste && bracketedPasteEnabled then .ok paste
    else .error "text contains CR or LF; multiline surface.send_text requires active bracketed paste"

inductive SubmitMode where
  | none
  | deferredPasteCr
  | inlineCr
  deriving DecidableEq, Repr

def SubmitMode.value : SubmitMode → Value
  | .none => .null
  | .deferredPasteCr => .string "deferred_paste_cr"
  | .inlineCr => .string "inline_cr"

structure Delivered where
  paste : Bool
  submitMode : SubmitMode
  terminalBracketedPaste : Bool

/-- The writes of `deliver_text` after its mode is known. In front of a submit that follows a paste it waits for the
terminal's echo, which writes nothing. -/
def writeText (session : SessionId) (text : List Char) (paste bracketed submit : Bool) :
    List Write × Except (Refusal X) Delivered :=
  let submitWrite : Write := ⟨session, [13]⟩
  let submitMode : SubmitMode :=
    if !submit then .none else if paste && !text.isEmpty then .deferredPasteCr else .inlineCr
  if text.isEmpty then
    if submit then ([submitWrite], (fromHost (answers.input 0)).map fun _ => ⟨paste, submitMode, bracketed⟩)
    else ([], .ok ⟨paste, submitMode, bracketed⟩)
  else
    let body := if paste && bracketed then bracketedPasteFrame text else text
    let bodyWrite : Write := ⟨session, Utf8.bytes body⟩
    match answers.input 0 with
    | .error error => ([bodyWrite], .error (.host error))
    | .ok _ =>
      if submit then
        ([bodyWrite, submitWrite], (fromHost (answers.input 1)).map fun _ => ⟨paste, submitMode, bracketed⟩)
      else ([bodyWrite], .ok ⟨paste, submitMode, bracketed⟩)

def deliverText (session : SessionId) (text : List Char) (pasteParam : Option Bool)
    (submit agentTarget : Bool) : List Write × Except (Refusal X) Delivered :=
  let mode : Except (Refusal X) (Bool × Bool) := do
    let bracketed ← fromHost (answers.bracketedPaste session)
    let paste := resolvePasteMode pasteParam submit agentTarget bracketed
    let paste ← (resolveSendTextBodyMode text pasteParam paste bracketed).mapError .params
    return (paste, bracketed)
  match mode with
  | .error refusal => ([], .error refusal)
  | .ok (paste, bracketed) => writeText answers session text paste bracketed submit

/-! ### The requests -/

inductive Method where
  | sessionInput
  | surfaceSendText
  | paneWrite
  deriving DecidableEq, Repr

/-- The connection's aliases of sessions. -/
abbrev ConnectionAliases := List (ℕ × SessionId)

def resolve (aliases : ConnectionAliases) (surface : ℕ) : Option SessionId :=
  (aliases.find? fun held => held.1 = surface).map Prod.snd

def resolveSession (aliases : ConnectionAliases) (params : Value) : Except (Refusal X) SessionId :=
  match params.text "session" with
  | some raw => (parseSession raw.toList).mapError .params
  | none =>
    match params.get "surface_id" with
    | none => .error (.params "name a session or a surface_id from surface.list")
    | some surface =>
      match surface.asU64 with
      | none => .error (.params "surface_id must be an unsigned integer alias")
      | some surface =>
        match resolve aliases surface with
        | some session => .ok session
        | none => .error (.params ("surface_id " ++ toString surface ++
            " is a connection-local alias; call surface.list on this connection first"))

/-- `param_session` of agent_write.rs, which trims. -/
def trimmedSession (params : Value) (key missing : String) : Except (Refusal X) SessionId :=
  match (params.text key).map fun raw => trim raw.toList with
  | none | some [] => .error (.params missing)
  | some raw => (parseSession raw).mapError fun error => .params ("'" ++ key ++ "': " ++ error)

/-- `param_session` of server.rs, which does not. -/
def paramSession (params : Value) : Except (Refusal X) SessionId :=
  match params.text "session" with
  | none => .error (.params "missing session")
  | some raw => (parseSession raw.toList).mapError .params

def paramGeneration (params : Value) : Except (Refusal X) (Option ℕ) :=
  match params.get "generation" with
  | none | some .null => .ok none
  | some value =>
    match value.asU64 with
    | some generation => .ok (some generation)
    | none => .error (.params ("invalid generation: " ++ answers.generationError value))

def maxControlFrameBytes : ℕ := 64 * 1024

def maxSendTextBytes : ℕ := 64 * 1024

def maxRelayedTextBytes : ℕ := 16 * 1024

def decodeData (text : String) : Except (Refusal X) (List UInt8) :=
  if text.utf8ByteSize > maxControlFrameBytes then .error (.params "data payload exceeds the control frame limit")
  else (answers.decode text).mapError .params

/-- `authorize_session_write`, which is asked for every request; only `session.input` has something to check here. -/
def authorizeSessionWrite (attaches : Bool) (permissions : ControlPermissions) (method : Method) (params : Value) :
    Except (Refusal X) Unit :=
  match method with
  | .sessionInput => do
    throwIf (attaches = false ∧ permissions.scripting = false)
      (.disabled "session.input disabled; set PANEFLOW_IPC_SCRIPTING=1 to enable")
    match (params.text "session").map fun raw => parseSession raw.toList with
    | some (.ok target) => authorizeWriteScope answers params permissions target
    | _ => return ()
  | _ => return ()

/-- `session.input` of `dispatch`; the generation of the request is compared by the host. -/
def sessionInput (params : Value) : Outcome X :=
  let parsed : Except (Refusal X) (SessionId × List UInt8) := do
    let session ← paramSession params
    let _generation ← paramGeneration answers params
    match params.text "data" with
    | none => throw (.params "missing data")
    | some data => return (session, ← decodeData answers data)
  match parsed with
  | .error refusal => ⟨[], .error refusal⟩
  | .ok (session, bytes) =>
    ⟨[⟨session, bytes⟩], (fromHost (answers.input 0)).map fun accepted =>
      .object [("accepted_bytes", .number (.posInt accepted))]⟩

/-- `surface.send_text` -/
def surfaceSendText (aliases : ConnectionAliases) (permissions : ControlPermissions) (params : Value) : Outcome X :=
  let text := ((params.text "text").getD "").toList
  let submit := ((params.get "submit").bind Value.asBool).getD false
  let pasteParam := (params.get "paste").bind Value.asBool
  let checked : Except (Refusal X) (SessionId × SessionSummary) := do
    throwIf (permissions.scripting = false)
      (.params "surface.send_text disabled; set PANEFLOW_IPC_SCRIPTING=1 to enable")
    throwIf (text = [] ∧ submit = false) (.params "Missing 'text' parameter")
    throwIf (Utf8.size text > maxSendTextBytes) (.params "Text exceeds 64 KiB limit")
    let session ← resolveSession aliases params
    authorizeWriteScope answers params permissions session
    return (session, ← fromHost (answers.current session))
  match checked with
  | .error refusal => ⟨[], .error refusal⟩
  | .ok (session, summary) =>
    let (writes, delivered) := deliverText answers session text pasteParam submit summary.lastHook.isSome
    ⟨writes, delivered.map fun delivered => .object [
      ("agent_target", .bool summary.lastHook.isSome),
      ("agent_tool", summary.lastHook.elim .null fun hook => .string hook.tool),
      ("length", .number (.posInt (Utf8.size text))),
      ("paste", .bool delivered.paste),
      ("sent", .bool true),
      ("submit_mode", delivered.submitMode.value),
      ("submitted", .bool submit),
      ("terminal_bracketed_paste", .bool delivered.terminalBracketedPaste)]⟩

/-- The request that `pane.write` has checked: the scope of the caller and what it asks for. -/
def scopedParams (source : SessionId) (params : Value) : Value :=
  match params.get "scope" with
  | none => .object [("scope_session", .string (String.ofList source.text))]
  | some scope => .object [("scope", scope), ("scope_session", .string (String.ofList source.text))]

def unhosted (session : SessionId) : Refusal X :=
  .params ("session " ++ String.ofList session.text ++
    " runs no live process, so no agent can write or be written to")

/-- What stands between a write and its delivery: a result that is answered instead of it. -/
def approval (source target : SessionSummary) (sourceOccurrence targetOccurrence : AgentOccurrence SessionId) :
    Except (Refusal X) (Option Value) := do
  let sourceLabel := String.ofList (labelOf answers.fileName source)
  let targetLabel := String.ofList (labelOf answers.fileName target)
  match answers.refusal with
  | some (.blocked reason) =>
    throw (.params (targetLabel ++ " is waiting for a human decision (" ++ reason ++
      "); nothing was written, retry once the human has answered in that pane"))
  | some (.leftForeground runtime holder) =>
    throw (.params (targetLabel ++ " no longer runs " ++ runtime ++ " in the foreground (" ++ holder ++
      " has it); nothing was written"))
  | none => pure ()
  match answers.admission sourceOccurrence targetOccurrence with
  | .approved =>
    match answers.token sourceOccurrence targetOccurrence with
    | .error wait =>
      throw (.params ("rate limited: at most one write per second between two agents; retry in " ++
        toString (max wait 1) ++ " ms"))
    | .ok () => return none
  | .pending id =>
    if answers.hasWindow then
      return some (.object [
        ("message", .string ("a human must allow " ++ sourceLabel ++ " to write into " ++ targetLabel ++
          " in Paneflow; nothing was written, call write_pane again after the decision")),
        ("request", .number (.posInt id)),
        ("status", .string "approval_pending")])
    else
      return some (.object [
        ("message", .string ("no Paneflow window is open to approve this write; nothing was written and the " ++
          "request expires in 120 s")),
        ("request", .number (.posInt id)),
        ("status", .string "no_window")])
  | .denied =>
    throw (.params ("the human denied writes from " ++ sourceLabel ++ " into " ++ targetLabel ++
      "; nothing was written"))
  | .expired =>
    throw (.params ("the write request from " ++ sourceLabel ++ " into " ++ targetLabel ++
      " expired unanswered; nothing was written"))

/-- The result of a submitted write with what `TurnStart::annotate` adds. -/
def annotated (body : List Char) (delivered : Delivered) (turn : TurnStart) : Value :=
  .object ([
    ("bytes", .number (.posInt (Utf8.size body))),
    ("delivered", .bool true),
    ("reason", .string turn.reason.text),
    ("started", turn.started.elim .null .bool)] ++
    (turn.state.elim [] fun state => [("state", .string state.text)]) ++ [
    ("status", .string "written"),
    ("submit_mode", delivered.submitMode.value),
    ("submitted", .bool true)])

/-- `pane.write` -/
def paneWrite (permissions : ControlPermissions) (params : Value) : Outcome X :=
  let submit := ((params.get "submit").bind Value.asBool).getD false
  let checked : Except (Refusal X) (SessionId × List Char × SessionSummary × Option Value) := do
    let source ← trimmedSession params "source_session"
      ("pane.write needs the session of the calling pane (PANEFLOW_SESSION_ID); " ++
        "launch the agent from a Paneflow pane")
    let target ← trimmedSession params "session" "pane.write needs a target session"
    let text := ((params.text "text").getD "").toList
    throwIf (text = []) (.params "missing or empty 'text'")
    throwIf (Utf8.size text > maxRelayedTextBytes)
      (.params ("text is " ++ toString (Utf8.size text) ++ " bytes; pane.write relays at most " ++
        toString maxRelayedTextBytes ++ " bytes"))
    throwIf (source = target) (.params "an agent cannot write into its own pane")
    authorizeWriteScope answers (scopedParams source params) permissions target
    let sourceSummary ← fromHost (answers.current source)
    let targetSummary ← fromHost (answers.current target)
    match occurrenceOf sourceSummary, occurrenceOf targetSummary with
    | none, _ => throw (unhosted source)
    | some _, none => throw (unhosted target)
    | some sourceOccurrence, some targetOccurrence =>
      let instead ← approval answers sourceSummary targetSummary sourceOccurrence targetOccurrence
      return (target, text, sourceSummary, instead)
  match checked with
  | .error refusal => ⟨[], .error refusal⟩
  | .ok (_, _, _, some instead) => ⟨[], .ok instead⟩
  | .ok (target, text, source, none) =>
    let body := provenanceLine answers.fileName source ++ '\n' :: sanitizeRelayedText text
    let (writes, delivered) := deliverText answers target body (some true) submit true
    ⟨writes, delivered.map fun delivered =>
      if submit then annotated body delivered answers.turnStart
      else .object [
        ("bytes", .number (.posInt (Utf8.size body))),
        ("status", .string "written"),
        ("submit_mode", delivered.submitMode.value),
        ("submitted", .bool false)]⟩

/-- What `handle_connection` does with a request: the check that all requests go through, and then its own. -/
def handle (attaches : Bool) (permissions : ControlPermissions) (aliases : ConnectionAliases) (method : Method)
    (params : Value) : Outcome X :=
  match authorizeSessionWrite answers attaches permissions method params with
  | .error refusal => ⟨[], .error refusal⟩
  | .ok () =>
    match method with
    | .sessionInput => sessionInput answers params
    | .surfaceSendText => surfaceSendText answers aliases permissions params
    | .paneWrite => paneWrite answers permissions params

/-! ### Who is written to -/

/-- The target that the parameters name. -/
def target (aliases : ConnectionAliases) (method : Method) (params : Value) : Except (Refusal X) SessionId :=
  match method with
  | .sessionInput => paramSession params
  | .surfaceSendText => resolveSession aliases params
  | .paneWrite => trimmedSession params "session" "pane.write needs a target session"

/-- The key under which a request carries the session of its caller. -/
def Method.callerKey : Method → String
  | .sessionInput | .surfaceSendText => "scope_session"
  | .paneWrite => "source_session"

/-- The value names the session, up to white space around it. -/
def Names (raw : Value) (session : SessionId) : Prop :=
  ∃ text, raw = .string text ∧ parseSession (trim text.toList) = .ok session

/-- The parameters that a write is checked with: its own, or for `pane.write` those with the source as the caller. -/
inductive CheckedWith (method : Method) (params : Value) : Value → Prop
  | own : method ≠ .paneWrite → CheckedWith method params params
  | source {raw : Value} {source : SessionId} : method = .paneWrite → params.get "source_session" = some raw →
    Names raw source → CheckedWith method params (scopedParams source params)

variable {answers} {attaches : Bool} {permissions : ControlPermissions} {aliases : ConnectionAliases}
  {method : Method} {params : Value}

theorem deliverText_session {session : SessionId} {text : List Char} {pasteParam : Option Bool}
    {submit agentTarget : Bool} :
    ∀ write ∈ (deliverText answers session text pasteParam submit agentTarget).1, write.session = session := by
  unfold deliverText
  dsimp only
  split
  · simp
  · unfold writeText
    dsimp only
    split_ifs <;> try split <;> try split_ifs
    all_goals simp

theorem trimmedSession_ok {key missing : String} {session : SessionId}
    (h : (trimmedSession params key missing : Except (Refusal X) SessionId) = .ok session) :
    ∃ raw, params.get key = some raw ∧ Names raw session := by
  unfold trimmedSession at h
  split at h
  · cases h
  · cases h
  · next raw hne heq =>
    obtain ⟨text, htext, rfl⟩ := Option.map_eq_some_iff.1 heq
    obtain ⟨value, hget, hstr⟩ := Option.bind_eq_some_iff.1 htext
    refine ⟨value, hget, text, ?_, mapError_eq_ok.1 h⟩
    cases value <;> simp_all [Value.asStr]

/-- **What the check of a scope rests on**, unless orchestration is allowed: a request with a caller names a session
that is hosted, and its scope admits the target. -/
theorem authorizeWriteScope_ok {session : SessionId} {u : Unit} (horchestration : permissions.orchestration = false)
    (h : authorizeWriteScope answers params permissions session = .ok u) {raw : Value}
    (hraw : params.get "scope_session" = some raw) :
    ∃ caller ∈ answers.listed, Names raw caller.session ∧ ∃ summary, answers.inspected session = .ok summary ∧
      (ReadScope.mk caller.session caller.workspace).admits session summary.workspace = true := by
  unfold authorizeWriteScope at h
  obtain ⟨asked, hscope, h⟩ := bind_eq_ok.1 h
  have hasked : asked = some () := by
    unfold scopeOf at hscope
    split at hscope
    · cases hscope
      rfl
    · next scope _ =>
      by_cases hworkspace : scope = scopeWorkspace
      · rw [if_pos hworkspace] at hscope
        cases hscope
        rfl
      · rw [if_neg hworkspace, horchestration, if_neg Bool.false_ne_true] at hscope
        split_ifs at hscope
    · cases hscope
  subst hasked
  obtain ⟨caller, hcaller, h⟩ := bind_eq_ok.1 h
  have hread := mapError_eq_ok.1 hcaller
  unfold readScope at hread
  rw [hraw] at hread
  dsimp only at hread
  split at hread
  · cases hread
  · cases hread
  · next text hne heq =>
    obtain ⟨text, htext, rfl⟩ := Option.map_eq_some_iff.1 heq
    obtain ⟨named, hparse, hread⟩ := bind_eq_ok.1 hread
    split at hread
    · next summary hfind =>
      cases hread
      have hnamed : summary.session = named := by simpa using List.find?_some hfind
      obtain ⟨target, htarget, h⟩ := bind_eq_ok.1 h
      refine ⟨summary, List.mem_of_find?_eq_some hfind, ⟨text, ?_, hnamed ▸ hparse⟩, target,
        mapError_eq_ok.1 htarget, ?_⟩
      · cases raw <;> simp_all [Value.asStr]
      · by_contra hno
        dsimp only at h
        rw [if_neg hno] at h
        cases h
    · cases hread

theorem names_text (session : SessionId) : Names (.string (String.ofList session.text)) session := by
  refine ⟨_, rfl, ?_⟩
  rw [String.toList_ofList, trim_text]
  exact parse_text _ session

theorem Names.unique {raw : Value} {session session' : SessionId} (h : Names raw session) (h' : Names raw session') :
    session = session' := by
  obtain ⟨text, rfl, h⟩ := h
  obtain ⟨text', htext, h'⟩ := h'
  cases htext
  exact Except.ok.inj (h.symm.trans h')

theorem get_scopedParams (source : SessionId) (params : Value) :
    (scopedParams source params).get "scope_session" = some (.string (String.ofList source.text)) := by
  unfold scopedParams
  split <;> simp [Value.get]

theorem admits_iff {caller : ReadScope} {session : SessionId} {workspace : Option WorkspaceId} :
    caller.admits session workspace = true ↔
      (∃ place, caller.workspace = some place ∧ workspace = some place) ∨
        caller.workspace = none ∧ session = caller.session := by
  unfold ReadScope.admits
  split <;> simp_all

/-- **The session whose scope was checked is the one written to**, and it is the target that the parameters name. -/
theorem handle_target : ∀ write ∈ (handle answers attaches permissions aliases method params).writes,
    (target aliases method params : Except (Refusal X) SessionId) = .ok write.session ∧
      ∃ asked, CheckedWith method params asked ∧
        authorizeWriteScope answers asked permissions write.session = .ok () ∧
          ∀ raw, method = .paneWrite → params.get "source_session" = some raw → ¬ Names raw write.session := by
  intro write hwrite
  unfold handle at hwrite
  split at hwrite
  · simp at hwrite
  · next hpassed =>
    cases method with
    | sessionInput =>
      dsimp only at hwrite
      unfold sessionInput at hwrite
      dsimp only at hwrite
      split at hwrite
      · simp at hwrite
      · next session bytes hparsed =>
        obtain rfl := List.mem_singleton.1 hwrite
        obtain ⟨session', hsession, hparsed⟩ := bind_eq_ok.1 hparsed
        obtain ⟨-, -, hparsed⟩ := bind_eq_ok.1 hparsed
        have hsame : session' = session := by
          split at hparsed
          · cases hparsed
          · obtain ⟨data, -, hparsed⟩ := bind_eq_ok.1 hparsed
            cases hparsed
            rfl
        subst hsame
        refine ⟨hsession, params, .own (by simp), ?_, by simp⟩
        -- the same text is parsed for the check
        unfold authorizeSessionWrite at hpassed
        obtain ⟨-, -, hauthorized⟩ := bind_eq_ok.1 hpassed
        unfold paramSession at hsession
        split at hsession
        · cases hsession
        · next raw hraw =>
          rw [hraw, Option.map_some, mapError_eq_ok.1 hsession] at hauthorized
          exact hauthorized
    | surfaceSendText =>
      dsimp only at hwrite
      unfold surfaceSendText at hwrite
      dsimp only at hwrite
      split at hwrite
      · simp at hwrite
      · next session summary hchecked =>
        have hsession := deliverText_session write hwrite
        simp only [bind_eq_ok, throwIf_eq_ok] at hchecked
        obtain ⟨-, -, -, -, -, -, session', hresolved, _, hauthorized, summary', -, heq⟩ := hchecked
        cases heq
        rw [hsession]
        exact ⟨hresolved, params, .own (by simp), hauthorized, by simp⟩
    | paneWrite =>
      dsimp only at hwrite
      unfold paneWrite at hwrite
      dsimp only at hwrite
      split at hwrite
      · simp at hwrite
      · simp at hwrite
      · next session text source hchecked =>
        have hsession := deliverText_session write hwrite
        simp only [bind_eq_ok, throwIf_eq_ok] at hchecked
        obtain ⟨caller, hcaller, session', htarget, -, -, -, -, -, hother, _, hauthorized, summary, -, summary', -,
          heq⟩ := hchecked
        have hsame : session' = session := by
          split at heq
          · cases heq
          · cases heq
          · obtain ⟨instead, -, heq⟩ := bind_eq_ok.1 heq
            cases heq
            rfl
        subst hsame
        rw [hsession]
        obtain ⟨raw, hraw, hnames⟩ := trimmedSession_ok hcaller
        refine ⟨htarget, _, .source rfl hraw hnames, hauthorized, fun raw' _ hraw' hnames' => hother ?_⟩
        obtain rfl : raw = raw' := Option.some.inj (hraw.symm.trans hraw')
        exact hnames.unique hnames'

/-- **Writes stay inside the scope of the caller.** A request with a caller, without orchestration, writes only into
the workspace of the caller as it was when its scope was checked, or into the caller itself if that has no workspace. -/
theorem handle_scoped (horchestration : permissions.orchestration = false) :
    (∀ raw, params.get method.callerKey = some raw →
      ∀ write ∈ (handle answers attaches permissions aliases method params).writes,
        ∃ caller ∈ answers.listed, Names raw caller.session ∧
          (∃ summary, answers.inspected write.session = .ok summary ∧
            ((∃ workspace, caller.workspace = some workspace ∧ summary.workspace = some workspace) ∨
              caller.workspace = none ∧ write.session = caller.session)) ∧
          (method = .paneWrite → write.session ≠ caller.session)) ∧
      (∀ write ∈ (handle answers attaches permissions aliases method params).writes,
        (target aliases method params : Except (Refusal X) SessionId) = .ok write.session ∧
          ∃ asked, CheckedWith method params asked ∧
            authorizeWriteScope answers asked permissions write.session = .ok ()) ∧
      ∀ refusal, (target aliases method params : Except (Refusal X) SessionId) = .error refusal →
        (handle answers attaches permissions aliases method params).writes = [] := by
  refine ⟨fun raw hraw write hwrite => ?_, fun write hwrite => ?_, fun refusal hrefusal => ?_⟩
  · obtain ⟨-, asked, hasked, hauthorized, hother⟩ := handle_target write hwrite
    obtain ⟨raw', hraw', hsame⟩ : ∃ raw', asked.get "scope_session" = some raw' ∧
        ∀ session, Names raw' session → Names raw session := by
      cases hasked with
      | own hne =>
        refine ⟨raw, ?_, fun _ h => h⟩
        cases method with
        | sessionInput | surfaceSendText => exact hraw
        | paneWrite => exact absurd rfl hne
      | source heq hsource hnames =>
        subst heq
        obtain rfl := Option.some.inj (hraw.symm.trans hsource)
        refine ⟨_, get_scopedParams _ _, fun session h => ?_⟩
        exact (names_text _).unique h ▸ hnames
    obtain ⟨caller, hlisted, hcaller, summary, hinspected, hadmits⟩ :=
      authorizeWriteScope_ok horchestration hauthorized hraw'
    refine ⟨caller, hlisted, hsame _ hcaller, ⟨summary, hinspected, admits_iff.1 hadmits⟩, fun hpane heq => ?_⟩
    subst hpane
    exact hother raw rfl hraw (heq ▸ hsame _ hcaller)
  · obtain ⟨htarget, asked, hasked, hauthorized, -⟩ := handle_target write hwrite
    exact ⟨htarget, asked, hasked, hauthorized⟩
  · rw [List.eq_nil_iff_forall_not_mem]
    intro write hwrite
    have htarget := (handle_target write hwrite).1
    rw [hrefusal] at htarget
    cases htarget

/-- A pane that writes to another pane of its workspace. -/
theorem handle_scoped_panes :
    let session (digit : Char) (h : canonicalFrom 0 (digit :: "0000000-0000-4000-8000-000000000000".toList) = true) :
        Uuid := ⟨_, h⟩
    let one := session '1' (by decide)
    let two := session '2' (by decide)
    let summary (id : SessionId) : SessionSummary := {
      session := id
      workspace := some (session 'a' (by decide))
      generation := 1
      cwd := ""
      shell := ""
      surfaceVariable := none
      lifecycle := .running
      process := none
      name := none
      title := none
      currentCwd := none
      lastHook := none
      currentObservation := none
      live := true }
    let answers : Answers Unit := {
      listed := [summary one, summary two]
      inspected := fun id => .ok (summary id)
      current := fun id => .ok (summary id)
      bracketedPaste := fun _ => .ok false
      input := fun _ => .ok 2
      refusal := none
      admission := fun _ _ => .denied
      hasWindow := false
      token := fun _ _ => .ok ()
      turnStart := ⟨none, .noSignal, none⟩
      fileName := fun _ => none
      decode := fun _ => .error "invalid data"
      render := fun _ => ""
      generationError := fun _ => "" }
    let params : Value := .object [("scope_session", .string (String.ofList one.text)),
      ("session", .string (String.ofList two.text)), ("text", .string "ls")]
    (handle answers true ⟨true, false, false⟩ [] .surfaceSendText params).writes = [⟨two, Utf8.bytes "ls".toList⟩] ∧
      ∀ write ∈ (handle answers true ⟨true, false, false⟩ [] .surfaceSendText params).writes,
        ∃ caller ∈ answers.listed, Names (.string (String.ofList one.text)) caller.session := by
  refine ⟨by decide, fun write hwrite => ?_⟩
  obtain ⟨caller, hlisted, hnames, -⟩ := (handle_scoped (by rfl)).1 _ (by rfl) write hwrite
  exact ⟨caller, hlisted, hnames⟩

end Paneflow.Host.WriteScope
