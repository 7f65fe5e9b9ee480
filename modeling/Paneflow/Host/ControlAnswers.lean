import Paneflow.Host.WriteScope
import Paneflow.Ipc.LineWire
import Paneflow.Ipc.Scrollback

/-!
# Answers to control requests

`answer` of control.rs and the part of `handle_connection` that puts an answer on the wire. The answers of
`control::dispatch` go out as they are; only those of `dispatch` in server.rs pass `fit_control_frame`, whatever they
are, so that the other methods are a parameter here. `surface.list` and `fleet.list` also number the sessions anew for
the requests that follow; the aliases of a request are arbitrary here.
-/

namespace Paneflow.Host.ControlAnswers

open Paneflow.Checked Paneflow.Host.Identity Paneflow.Host.Surfaces Paneflow.Host.WriteScope Paneflow.Ipc.LineWire
  Paneflow.Ipc.Scrollback Paneflow.Json Paneflow.JsonText Paneflow.Text

/-- What is read of the host besides; `authoritative` are the tools with a hook adapter in the catalog, `lower` is
`str::to_lowercase`. -/
structure HostState (X : Type) extends Answers X where
  identity : Value
  text : SessionId → Except X (List Char)
  outputGeneration : SessionId → Option ℕ
  authoritative : String → Bool
  lower : List Char → List Char
  fence : UInt64
  nowMs : ℕ

variable {X : Type} (host : HostState X)

def natValue (n : ℕ) : Value := .number (.posInt n)

def optValue {α : Type} (value : α → Value) : Option α → Value
  | none => .null
  | some a => value a

def idValue (id : Uuid) : Value := .string (String.ofList id.text)

def surfaceValue (alias' : ℕ) (summary : SessionSummary) : Value :=
  .object [
    ("cmd", .string summary.shell),
    ("cwd", .string (summary.currentCwd.getD summary.cwd)),
    ("generation", natValue summary.generation),
    ("lifecycle", .string summary.lifecycle.label),
    ("live", .bool summary.live),
    ("name", .string (surfaceName host.fileName summary)),
    ("scope", .string "host"),
    ("session", idValue summary.session),
    ("surface_id", natValue alias'),
    ("tab_id", .null),
    ("tab_title", .null),
    ("title", optValue .string summary.title),
    ("workspace", optValue idValue summary.workspace),
    ("workspace_id", .null)]

def agentHookFields (generation : ℕ) (lastHook : Option HookRecord) : List (String × Value) :=
  match currentHook generation lastHook with
  | none => [("hooked", .bool false)]
  | some hook => [
    ("active_tool_name", optValue .string hook.toolName),
    ("hook_event_name", .string hook.hookEventName),
    ("hooked", .bool (host.authoritative hook.tool)),
    ("idle_ms", natValue (host.nowMs - hook.receivedAtMs)),
    ("pid", optValue natValue hook.pid),
    ("runtime_generation", natValue hook.runtimeGeneration),
    ("tool", .string hook.tool)]

/-- `insert` one after the other. -/
def insertAll (added fields : List (String × Value)) : List (String × Value) :=
  added.foldl (fun fields field => Value.insertField field.1 field.2 fields) fields

def agentStatusFields (alias' : ℕ) (session : SessionId) (generation : ℕ) (lastHook : Option HookRecord)
    (outputGeneration : Option ℕ) : List (String × Value) :=
  insertAll ([("surface_id", natValue alias'), ("session", idValue session), ("generation", natValue generation)] ++
    outputGeneration.elim [] fun generation => [("output_generation", natValue generation)])
    (agentHookFields host generation lastHook)

def foregroundRuntime (summary : SessionSummary) : Value :=
  optValue (fun observation : Observation => .string observation.id) summary.currentObservation

def aliasOf (aliases : ConnectionAliases) (session : SessionId) : Option ℕ :=
  (aliases.find? fun held => held.2 = session).map Prod.fst

def paramUsize (params : Value) (key : String) : Option ℕ := (params.get key).bind Value.asU64

def authorizeScopedSession (scope : Option ReadScope) (session : SessionId) : Except (Refusal X) Unit :=
  match scope with
  | none => .ok ()
  | some scope => do
    let summary ← fromHost (host.inspected session)
    throwIf (scope.admits session summary.workspace = false)
      (.params ("session " ++ String.ofList session.text ++ " is outside the workspace of the scope session"))

/-- `sort_by` the session. -/
def sorted (sessions : List SessionSummary) : List SessionSummary :=
  sessions.mergeSort fun a b => a.session.text ≤ b.session.text

def systemCapabilities (permissions : ControlPermissions) : Value :=
  .object [
    ("controller", .bool false),
    ("host", host.identity),
    ("orchestration", .bool permissions.orchestration),
    ("scripting", .bool permissions.scripting)]

/-- The sessions of `surface.list`. -/
def surfacesOf (scope : Option ReadScope) : List SessionSummary :=
  sorted (host.listed.filter fun summary => scope.all fun scope => scope.admits summary.session summary.workspace)

def surfaceList (params : Value) : Except (Refusal X) Value := do
  let scope ← (readScope host.toAnswers params).mapError .params
  let surfaces := (surfacesOf host scope).zipIdx.map fun (summary, index) => surfaceValue host (index + 1) summary
  let fields := [
    ("pane_count", natValue surfaces.length),
    ("surfaces", .array surfaces),
    ("workspace", .null)]
  match scope with
  | none => return .object fields
  | some scope =>
    return .object (Value.insertField "scope_workspace" (optValue idValue scope.workspace) fields)

def defaultReadLines : ℕ := 200

def maxReadLines : ℕ := 4000

def defaultSearchMatches : ℕ := 50

def maxSearchMatches : ℕ := 1000

def maxSearchPatternBytes : ℕ := 512

def eofText (eof : Bool) : List Char := if eof then "true".toList else "false".toList

/-- The attributes of the fence. -/
def headerAttrs (session : SessionId) (total : ℕ) (eof : Bool) : List Char :=
  "source=\"session:".toList ++ session.text ++ "\" total_lines=\"".toList ++ Nat.toDigits 10 total ++
    "\" eof=\"".toList ++ eofText eof ++ "\"".toList

/-- How many lines `surface.read` is asked for. -/
def readLines (params : Value) : ℕ :=
  ((paramUsize params "lines").map fun lines => min (max lines 1) maxReadLines).getD defaultReadLines

def readOffset (params : Value) : ℕ := (paramUsize params "offset").getD 0

def fencedRead (permissions : ControlPermissions) (params : Value) : Bool :=
  ((params.get "fenced").bind Value.asBool).getD permissions.fencedReads

def surfaceRead (aliases : ConnectionAliases) (permissions : ControlPermissions) (params : Value) :
    Except (Refusal X) Value := do
  let scope ← (readScope host.toAnswers params).mapError .params
  let session ← resolveSession aliases params
  authorizeScopedSession host scope session
  let full ← fromHost (host.text session)
  let (text, returned, total, eof) := paginateScrollback full (readLines params) (readOffset params)
  throwIf (readOffset params > total)
    (.params ("offset " ++ toString (readOffset params) ++ " out of range (total_lines=" ++ toString total ++ ")"))
  let fenced := fencedRead permissions params
  let (text, truncated) := truncateIpcText (if fenced then neutralizeUntrusted text else text)
  let text := if fenced then wrapUntrusted host.fence (headerAttrs session total eof) text else text
  return .object [
    ("eof", .bool eof),
    ("lines", natValue returned),
    ("output_generation", natValue 0),
    ("session", idValue session),
    ("surface_id", natValue ((aliasOf aliases session).getD 0)),
    ("text", .string (String.ofList text)),
    ("total_lines", natValue total),
    ("truncated", .bool truncated)]

def searchPattern (params : Value) : List Char := ((params.text "pattern").getD "").toList

def searchMatches (params : Value) : ℕ :=
  ((paramUsize params "max_matches").map fun most => min (max most 1) maxSearchMatches).getD defaultSearchMatches

def matchValue (found : ℕ × List Char) : Value :=
  .object [("line", natValue found.1), ("text", .string (String.ofList found.2))]

def surfaceSearch (aliases : ConnectionAliases) (params : Value) : Except (Refusal X) Value := do
  let pattern := searchPattern params
  throwIf (pattern = []) (.params "missing or empty 'pattern' parameter")
  throwIf (Utf8.size pattern > maxSearchPatternBytes)
    (.params ("pattern exceeds " ++ toString maxSearchPatternBytes ++ " bytes"))
  let scope ← (readScope host.toAnswers params).mapError .params
  let session ← resolveSession aliases params
  authorizeScopedSession host scope session
  let full ← fromHost (host.text session)
  let (found, capped) := searchText host.lower full pattern (searchMatches params)
  let (found, clipped) := fitMatchesToIpcFrame found
  return .object [("matches", .array (found.map matchValue)), ("truncated", .bool (capped || clipped))]

def surfaceStatus (aliases : ConnectionAliases) (params : Value) : Except (Refusal X) Value := do
  let session ← resolveSession aliases params
  let summary ← fromHost (host.current session)
  let status := agentStatusFields host ((aliasOf aliases session).getD 0) session summary.generation summary.lastHook
    (host.outputGeneration session)
  return .object (Value.insertField "foreground_runtime" (foregroundRuntime summary) status)

/-- A row of `fleet.list`, for a session with a hook of its generation. -/
def fleetRow (summary : SessionSummary) (index : ℕ) : Option Value :=
  (currentHook summary.generation summary.lastHook).map fun _ =>
    .object (insertAll [
      ("surface_id", natValue (index + 1)),
      ("surface_name", .string (surfaceName host.fileName summary)),
      ("session", idValue summary.session),
      ("generation", natValue summary.generation),
      ("workspace", optValue idValue summary.workspace)] (agentHookFields host summary.generation summary.lastHook))

def fleetList : Value :=
  .object [("agents", .array ((sorted host.listed).zipIdx.filterMap fun (summary, index) =>
    fleetRow host summary index))]

/-! ### The dispatchers -/

/-- `CONTROL_METHODS` -/
inductive ControlMethod where
  | systemCapabilities
  | surfaceList
  | surfaceRead
  | surfaceSearch
  | surfaceStatus
  | surfaceSendText
  | paneWrite
  | fleetList
  deriving DecidableEq, Repr

def ControlMethod.ofName : String → Option ControlMethod
  | "system.capabilities" => some .systemCapabilities
  | "surface.list" => some .surfaceList
  | "surface.read" => some .surfaceRead
  | "surface.search" => some .surfaceSearch
  | "surface.status" => some .surfaceStatus
  | "surface.send_text" => some .surfaceSendText
  | "pane.write" => some .paneWrite
  | "fleet.list" => some .fleetList
  | _ => none

def controllerOnlyMethods : List String := [
  "surface.focus",
  "surface.split",
  "surface.rename",
  "surface.send_keystroke",
  "workspace.list",
  "workspace.current",
  "workspace.create",
  "workspace.select",
  "workspace.close",
  "workspace.up",
  "workspace.restore_layout"]

def answer (aliases : ConnectionAliases) (permissions : ControlPermissions) (method : ControlMethod)
    (params : Value) : Except (Refusal X) Value :=
  match method with
  | .systemCapabilities => .ok (systemCapabilities host permissions)
  | .surfaceList => surfaceList host params
  | .surfaceRead => surfaceRead host aliases permissions params
  | .surfaceSearch => surfaceSearch host aliases params
  | .surfaceStatus => surfaceStatus host aliases params
  | .surfaceSendText => (WriteScope.surfaceSendText host.toAnswers aliases permissions params).result
  | .paneWrite => (WriteScope.paneWrite host.toAnswers permissions params).result
  | .fleetList => .ok (fleetList host)

/-- `dispatch` of control.rs; nothing for a method of `dispatch` in server.rs. -/
def dispatchControl (aliases : ConnectionAliases) (permissions : ControlPermissions) (method : String)
    (params : Value) : Option (Except (Refusal X) Value) :=
  if method ∈ controllerOnlyMethods then
    some (.error (.noController
      "no Paneflow window is attached to this state home; this action needs an open controller"))
  else (ControlMethod.ofName method).map fun method => answer host aliases permissions method params

def resultEnvelope (id : ℕ) (result : Value) : Value :=
  .object [("id", natValue id), ("jsonrpc", .string "2.0"), ("result", result)]

def errFrameTooLarge : ℤ := -32026

/-- `error_envelope` without data. -/
def errorEnvelope (id : ℕ) (code : ℤ) (message : String) : Value :=
  .object [
    ("error", .object [("code", .number (.negInt code)), ("message", .string message)]),
    ("id", natValue id),
    ("jsonrpc", .string "2.0")]

section Wire

variable (floats : UInt64 → List Char)

def fitControlFrame (id : ℕ) (envelope : Value) : Value :=
  if (Utf8.bytes (encode floats envelope)).length ≤ maxControlFrameBytes then envelope
  else errorEnvelope id errFrameTooLarge "reply exceeds the 64 KiB control frame limit"

/-- The envelope for a request of a greeted connection that is answered with a result. `checked` is what
`authorize_session_write` says, `dispatched` what `dispatch` of server.rs answers. -/
def reply (checked : Except (Refusal X) Unit) (dispatched : Except (Refusal X) Value) (aliases : ConnectionAliases)
    (permissions : ControlPermissions) (method : String) (params : Value) (id : ℕ) : Except (Refusal X) Value :=
  checked.bind fun _ =>
    match dispatchControl host aliases permissions method params with
    | some answered => answered.map (resultEnvelope id)
    | none => dispatched.map fun result => fitControlFrame floats id (resultEnvelope id result)

/-- `write_json` -/
def writeJson (envelope : Value) : Option (List UInt8) :=
  writeLine maxControlFrameBytes (Utf8.bytes (encode floats envelope))

end Wire

end Paneflow.Host.ControlAnswers
