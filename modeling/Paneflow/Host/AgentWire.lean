import Paneflow.Checked
import Paneflow.Host.Identity
import Paneflow.Host.Sessions
import Paneflow.Json

/-!
# Agent events on the wire

`AgentEvent::from_params` and `to_frame` of agent.rs. A text is looked up under its names in the value
and then in the hook payload of it; the host publishes what it has read as a frame, with the payload next
to it, and the worker reads that frame in the same way. `fromParams_toFrame` says what the worker reads:
the event of the host, but for the summary, where names of the payload come first.

The text of an error of `serde_json` is a parameter.
-/

namespace Paneflow.Host.AgentWire

open Paneflow.Checked Paneflow.Host.Identity Paneflow.Json Paneflow.Text
open Paneflow.Host.Sessions (AgentEventKind)

inductive LifecycleEventSource where
  | interrupt
  deriving DecidableEq, Repr

structure AgentEvent where
  session : Uuid
  generation : Option ℕ
  kind : AgentEventKind
  tool : String
  pid : Option ℕ
  toolName : Option String
  message : Option String
  summary : Option String
  exitCode : Option ℤ
  emittedAtMs : Option ℕ
  receivedAtMs : Option ℕ
  eventSource : Option LifecycleEventSource
  payload : Value
  deriving DecidableEq

/-! ### Reading -/

/-- `AiHookMethod::parse` -/
def parseKind (raw : String) : Option AgentEventKind :=
  match raw with
  | "ai.session_start" => some .sessionStart
  | "ai.prompt_submit" => some .promptSubmit
  | "ai.tool_use" => some .toolUse
  | "ai.notification" => some .notification
  | "ai.stop" => some .stop
  | "ai.exit" => some .exit
  | "ai.session_end" => some .sessionEnd
  | _ => none

def LifecycleEventSource.parse (raw : String) : Option LifecycleEventSource :=
  if raw = "interrupt" then some .interrupt else none

def LifecycleEventSource.asStr : LifecycleEventSource → String
  | .interrupt => "interrupt"

def maxAgentTextBytes : ℕ := 4 * 1024

/-- The loop of `clamp_text`, with the bytes pushed so far. -/
def clampFrom : ℕ → List Char → List Char
  | _, [] => []
  | len, c :: raw =>
    if c = '\x00' then clampFrom len raw
    else if len + c.utf8Size > maxAgentTextBytes then []
    else c :: clampFrom (len + c.utf8Size) raw

def clampText (raw : String) : String := String.ofList (clampFrom 0 raw.toList)

/-- `Value::as_i64` -/
def asI64 : Value → Option ℤ
  | .number (.posInt value) => if value < 2 ^ 63 then some value else none
  | .number (.negInt value) => some value
  | _ => none

/-- `u32::try_from` -/
def u32TryFrom (value : ℕ) : Option ℕ := if value < 2 ^ 32 then some value else none

/-- `i32::try_from` -/
def i32TryFrom (value : ℤ) : Option ℤ := if -2 ^ 31 ≤ value ∧ value < 2 ^ 31 then some value else none

/-- The value under the key, or else in the hook payload. -/
def lookup (params : Value) (key : String) : Option Value :=
  (params.get key).or ((params.get "hook_payload").bind fun payload => payload.get key)

/-- The text of a value, clamped, unless it is blank. -/
def usable (value : Option Value) : Option String :=
  ((value.bind Value.asStr).map clampText).filter fun text => !(trim text.toList).isEmpty

def optionalText (params : Value) (keys : List String) : Option String :=
  keys.findSome? fun key => usable (lookup params key)

def summaryKeys : List String := ["last_assistant_message", "last_result", "summary"]

/-- `Option::ok_or` -/
def okOr {α : Type} (value : Option α) (error : String) : Except String α :=
  match value with
  | some value => .ok value
  | none => .error error

section
variable (serdeError : Value → String)

def readGeneration (params : Value) : Except String (Option ℕ) :=
  match (params.get "runtime_generation").or (params.get "generation") with
  | none | some .null => .ok none
  | some value => (okOr value.asU64 ("invalid generation: " ++ serdeError value)).map some

def readPid (params : Value) : Option ℕ :=
  (((params.get "pid").bind Value.asU64).bind u32TryFrom).filter fun pid => 0 < pid

def readExitCode (params : Value) : Option ℤ :=
  ((lookup params "exit_code").bind asI64).bind i32TryFrom

/-- `LifecycleEventSource::from_wire_params` -/
def readEventSource (params : Value) : Option LifecycleEventSource :=
  ((lookup params "event_source").bind Value.asStr).bind LifecycleEventSource.parse

def readTool (params : Value) : Option String :=
  ((params.text "tool").map clampText).filter fun tool => tool ≠ ""

def AgentEvent.fromParams (params : Value) : Except String AgentEvent := do
  let rawSession ← okOr (params.text "session") "missing session"
  let session ← Uuid.parse "session id" rawSession.toList
  let generation ← readGeneration serdeError params
  let rawKind ← okOr (params.text "kind") "missing kind"
  let kind ← okOr (parseKind rawKind) ("unsupported agent event kind: " ++ rawKind)
  let tool ← okOr (readTool params) "missing tool"
  let exitCode := readExitCode params
  throwIf (kind = .exit ∧ exitCode = none) "an exit event needs an exit_code"
  .ok
    { session, generation, kind, tool
      pid := readPid params
      toolName := optionalText params ["tool_name"]
      message := optionalText params ["message"]
      summary := optionalText params summaryKeys
      exitCode
      emittedAtMs := (params.get "emitted_at_ms").bind Value.asU64
      receivedAtMs := none
      eventSource := readEventSource params
      payload := (params.get "hook_payload").getD (.object []) }

end

/-! ### Publishing -/

def textValue : Option String → Value
  | none => .null
  | some text => .string text

def natValue : Option ℕ → Value
  | none => .null
  | some value => .number (.posInt value)

def intValue : Option ℤ → Value
  | none => .null
  | some value => .number (if 0 ≤ value then .posInt value.toNat else .negInt value)

def AgentEvent.toFrame (event : AgentEvent) (generation : ℕ) : Value :=
  .object [
    ("emitted_at_ms", natValue event.emittedAtMs),
    ("event_source", textValue (event.eventSource.map LifecycleEventSource.asStr)),
    ("exit_code", intValue event.exitCode),
    ("generation", natValue (some generation)),
    ("hook_payload", event.payload),
    ("kind", .string event.kind.asStr),
    ("message", textValue event.message),
    ("pid", natValue event.pid),
    ("received_at_ms", natValue event.receivedAtMs),
    ("session", .string (String.ofList event.session.text)),
    ("summary", textValue event.summary),
    ("tool", .string event.tool),
    ("tool_name", textValue event.toolName),
    ("type", .string "event")]

/-! ### Texts -/

theorem clampFrom_clampFrom (len : ℕ) (raw : List Char) :
    clampFrom len (clampFrom len raw) = clampFrom len raw := by
  induction raw generalizing len with
  | nil => rfl
  | cons c raw ih =>
    by_cases hnul : c = '\x00'
    · simp only [clampFrom, hnul, if_true, ih]
    · by_cases hlen : len + c.utf8Size > maxAgentTextBytes
      · simp only [clampFrom, hnul, hlen, if_true, if_false]
      · simp only [clampFrom, hnul, hlen, if_false, ih]

@[simp]
theorem clampText_clampText (raw : String) : clampText (clampText raw) = clampText raw := by
  unfold clampText
  rw [String.toList_ofList, clampFrom_clampFrom]

/-- A text that was read once is read again as it is. -/
def Settled (text : Option String) : Prop := usable (some (textValue text)) = text

theorem settled_usable (value : Option Value) : Settled (usable value) := by
  unfold Settled
  cases htext : usable value with
  | none => rfl
  | some text =>
    unfold usable at htext ⊢
    obtain ⟨hclamped, hblank⟩ := Option.filter_eq_some_iff.1 htext
    obtain ⟨raw, -, rfl⟩ := Option.map_eq_some_iff.1 hclamped
    simp only [textValue, Option.bind_some, Value.asStr, Option.map_some, clampText_clampText]
    exact Option.filter_eq_some_iff.2 ⟨rfl, hblank⟩

theorem optionalText_single (params : Value) (key : String) :
    optionalText params [key] = usable (lookup params key) := by
  unfold optionalText
  simp only [List.findSome?]
  cases usable (lookup params key) <;> rfl

theorem settled_optionalText (params : Value) (keys : List String) :
    Settled (optionalText params keys) := by
  unfold optionalText
  cases htext : keys.findSome? fun key => usable (lookup params key) with
  | none => rfl
  | some text =>
    obtain ⟨key, -, heq⟩ := List.exists_of_findSome?_eq_some htext
    rw [← heq]
    exact settled_usable _

/-! ### What an accepted event satisfies -/

theorem parseKind_asStr (kind : AgentEventKind) : parseKind kind.asStr = some kind := by
  cases kind <;> rfl

/-- What `from_params` guarantees of the fields of an event. -/
structure WellRead (event : AgentEvent) : Prop where
  tool : clampText event.tool = event.tool ∧ event.tool ≠ ""
  pid : ∀ pid, event.pid = some pid → 0 < pid ∧ pid < 2 ^ 32
  toolName : Settled event.toolName
  message : Settled event.message
  summary : Settled event.summary
  exitCode : ∀ code, event.exitCode = some code → -2 ^ 31 ≤ code ∧ code < 2 ^ 31
  exit : event.kind = .exit → event.exitCode ≠ none
  received : event.receivedAtMs = none

section
variable {serdeError : Value → String}

theorem okOr_eq_ok {α : Type} {value : Option α} {error : String} {a : α} :
    okOr value error = .ok a ↔ value = some a := by
  cases value with
  | none => simp [okOr]
  | some value => simp [okOr]

/-- The fields of an accepted event, each from the value. -/
theorem fromParams_inv {params : Value} {event : AgentEvent}
    (h : AgentEvent.fromParams serdeError params = .ok event) :
    readTool params = some event.tool ∧ event.pid = readPid params ∧
      event.toolName = optionalText params ["tool_name"] ∧
      event.message = optionalText params ["message"] ∧
      event.summary = optionalText params summaryKeys ∧ event.exitCode = readExitCode params ∧
      (event.kind = .exit → event.exitCode ≠ none) ∧ event.receivedAtMs = none ∧
      event.payload = (params.get "hook_payload").getD (.object []) := by
  unfold AgentEvent.fromParams at h
  obtain ⟨rawSession, -, h⟩ := bind_eq_ok.1 h
  obtain ⟨session, -, h⟩ := bind_eq_ok.1 h
  obtain ⟨generation, -, h⟩ := bind_eq_ok.1 h
  obtain ⟨rawKind, -, h⟩ := bind_eq_ok.1 h
  obtain ⟨kind, -, h⟩ := bind_eq_ok.1 h
  obtain ⟨tool, htool, h⟩ := bind_eq_ok.1 h
  obtain ⟨_, hexit, h⟩ := bind_eq_ok.1 h
  cases h
  have hexit := throwIf_eq_ok.1 hexit
  exact ⟨okOr_eq_ok.1 htool, rfl, rfl, rfl, rfl, rfl, fun hkind hnone => hexit ⟨hkind, hnone⟩, rfl, rfl⟩

theorem wellRead_fromParams {params : Value} {event : AgentEvent}
    (h : AgentEvent.fromParams serdeError params = .ok event) : WellRead event := by
  obtain ⟨htool, hpid, hname, hmessage, hsummary, hcode, hexit, hreceived, -⟩ := fromParams_inv h
  refine ⟨?_, fun pid hp => ?_, ?_, ?_, ?_, fun code hc => ?_, hexit, hreceived⟩
  · unfold readTool at htool
    obtain ⟨hclamped, hne⟩ := Option.filter_eq_some_iff.1 htool
    obtain ⟨raw, -, heq⟩ := Option.map_eq_some_iff.1 hclamped
    exact ⟨heq ▸ clampText_clampText raw, by simpa using hne⟩
  · rw [hpid] at hp
    unfold readPid at hp
    obtain ⟨hread, hpos⟩ := Option.filter_eq_some_iff.1 hp
    obtain ⟨value, -, heq⟩ := Option.bind_eq_some_iff.1 hread
    unfold u32TryFrom at heq
    split_ifs at heq with hlt
    obtain rfl := Option.some.inj heq
    exact ⟨by simpa using hpos, hlt⟩
  · exact hname ▸ settled_optionalText _ _
  · exact hmessage ▸ settled_optionalText _ _
  · exact hsummary ▸ settled_optionalText _ _
  · rw [hcode] at hc
    unfold readExitCode at hc
    obtain ⟨value, -, heq⟩ := Option.bind_eq_some_iff.1 hc
    unfold i32TryFrom at heq
    split_ifs at heq with hin
    obtain rfl := Option.some.inj heq
    exact hin

/-! ### What the worker reads -/

/-- The summary that the names of the payload alone give, before the published one. -/
def payloadSummary (payload : Value) : Option String :=
  ["last_assistant_message", "last_result"].findSome? fun key => usable (payload.get key)

theorem readPid_toFrame {event : AgentEvent} (h : WellRead event) (generation : ℕ) :
    readPid (event.toFrame generation) = event.pid := by
  show ((((some (natValue event.pid)).bind Value.asU64).bind u32TryFrom).filter fun pid => 0 < pid) = _
  cases hpid : event.pid with
  | none => rfl
  | some pid =>
    obtain ⟨hpos, hlt⟩ := h.pid pid hpid
    simpa [natValue, Value.asU64, u32TryFrom, hpos] using hlt

theorem readExitCode_toFrame {event : AgentEvent} (h : WellRead event) (generation : ℕ) :
    readExitCode (event.toFrame generation) = event.exitCode := by
  show ((some (intValue event.exitCode)).bind asI64).bind i32TryFrom = _
  cases hcode : event.exitCode with
  | none => rfl
  | some code =>
    obtain ⟨hlo, hhi⟩ := h.exitCode code hcode
    by_cases hnonneg : 0 ≤ code
    · have hlt : code.toNat < 2 ^ 63 := by omega
      simp only [intValue, hnonneg, if_true, Option.bind_some, asI64, hlt, Int.toNat_of_nonneg hnonneg]
      exact if_pos ⟨hlo, hhi⟩
    · simp only [intValue, hnonneg, if_false, Option.bind_some, asI64]
      exact if_pos ⟨hlo, hhi⟩

theorem readEventSource_toFrame (event : AgentEvent) (generation : ℕ) :
    readEventSource (event.toFrame generation) = event.eventSource := by
  show ((some (textValue (event.eventSource.map LifecycleEventSource.asStr))).bind Value.asStr).bind
    LifecycleEventSource.parse = _
  cases event.eventSource with
  | none => rfl
  | some source =>
    cases source
    rfl

theorem readTool_toFrame {event : AgentEvent} (h : WellRead event) (generation : ℕ) :
    readTool (event.toFrame generation) = some event.tool := by
  show (((some (Value.string event.tool)).bind Value.asStr).map clampText).filter
    (fun tool => decide (tool ≠ "")) = _
  simp [Value.asStr, h.tool.1, h.tool.2]

theorem summary_toFrame {event : AgentEvent} (h : WellRead event) (generation : ℕ) :
    optionalText (event.toFrame generation) summaryKeys =
      (payloadSummary event.payload).or event.summary := by
  have hfirst : lookup (event.toFrame generation) "last_assistant_message" =
      event.payload.get "last_assistant_message" := rfl
  have hsecond : lookup (event.toFrame generation) "last_result" = event.payload.get "last_result" :=
    rfl
  have hthird : usable (lookup (event.toFrame generation) "summary") = event.summary := h.summary
  unfold optionalText summaryKeys payloadSummary
  simp only [List.findSome?, hfirst, hsecond, hthird]
  cases usable (event.payload.get "last_assistant_message") with
  | some text => rfl
  | none =>
    cases usable (event.payload.get "last_result") with
    | some text => rfl
    | none => cases event.summary <;> rfl

/-- The worker reads the event of the host with the generation, and the summary that comes first among
the names of the payload, if there is one. -/
theorem fromParams_toFrame {event : AgentEvent} (h : WellRead event) (generation : ℕ) :
    AgentEvent.fromParams serdeError (event.toFrame generation) = .ok { event with
      generation := some generation
      summary := (payloadSummary event.payload).or event.summary } := by
  have hsession : (event.toFrame generation).text "session" = some (String.ofList event.session.text) :=
    rfl
  have hgeneration : readGeneration serdeError (event.toFrame generation) = .ok (some generation) := rfl
  have hkind : (event.toFrame generation).text "kind" = some event.kind.asStr := rfl
  have hname : optionalText (event.toFrame generation) ["tool_name"] = event.toolName :=
    (optionalText_single _ _).trans h.toolName
  have hmessage : optionalText (event.toFrame generation) ["message"] = event.message :=
    (optionalText_single _ _).trans h.message
  have hemitted : ((event.toFrame generation).get "emitted_at_ms").bind Value.asU64 =
      event.emittedAtMs := by
    show (some (natValue event.emittedAtMs)).bind Value.asU64 = _
    cases event.emittedAtMs <;> rfl
  have hpayload : ((event.toFrame generation).get "hook_payload").getD (.object []) = event.payload :=
    rfl
  unfold AgentEvent.fromParams
  rw [hsession, hgeneration, hkind, readTool_toFrame h, readExitCode_toFrame h, hname, hmessage,
    summary_toFrame h, readPid_toFrame h, hemitted, readEventSource_toFrame, hpayload]
  have hid : Uuid.parse "session id" (String.ofList event.session.text).toList = .ok event.session := by
    rw [String.toList_ofList, parse_text]
  have hexit : throwIf (event.kind = .exit ∧ event.exitCode = none)
      "an exit event needs an exit_code" = .ok () :=
    throwIf_eq_ok.2 fun hboth => h.exit hboth.1 hboth.2
  refine bind_eq_ok.2 ⟨_, rfl, bind_eq_ok.2 ⟨_, hid, bind_eq_ok.2 ⟨_, rfl, bind_eq_ok.2 ⟨_, rfl, ?_⟩⟩⟩⟩
  refine bind_eq_ok.2 ⟨_, okOr_eq_ok.2 (parseKind_asStr event.kind), ?_⟩
  refine bind_eq_ok.2 ⟨_, rfl, bind_eq_ok.2 ⟨_, hexit, ?_⟩⟩
  rw [← h.received]

/-- The frame of an accepted event is always read, as the same event with the generation but for the
summary; and that is the same exactly if the names that the payload has for it give nothing, or what
the lookup in the accepted value gave. -/
theorem fromParams_toFrame_iff {params : Value} {event : AgentEvent}
    (h : AgentEvent.fromParams serdeError params = .ok event) (generation : ℕ) :
    (∃ summary, AgentEvent.fromParams serdeError (event.toFrame generation) =
      .ok { event with generation := some generation, summary }) ∧
    (AgentEvent.fromParams serdeError (event.toFrame generation) =
        .ok { event with generation := some generation } ↔
      payloadSummary ((params.get "hook_payload").getD (.object [])) = none ∨
        payloadSummary ((params.get "hook_payload").getD (.object [])) =
          optionalText params summaryKeys) := by
  obtain ⟨-, -, -, -, hsummary, -, -, -, hpayload⟩ := fromParams_inv h
  have hread := @fromParams_toFrame serdeError _ (wellRead_fromParams h) generation
  refine ⟨⟨_, hread⟩, ?_⟩
  rw [hread, ← hpayload, ← hsummary]
  simp only [Except.ok.injEq, AgentEvent.mk.injEq, true_and, and_true]
  cases hfirst : payloadSummary event.payload with
  | none => simp
  | some text => simp

end

/-- A stop that names the last message itself, next to a hook payload with another one. -/
def stop (payloadText : String) : Value :=
  .object [("hook_payload", .object [("last_result", .string payloadText)]), ("kind", .string "ai.stop"),
    ("last_assistant_message", .string "done"),
    ("session", .string "00000000-0000-4000-8000-000000000000"), ("tool", .string "claude")]

theorem exists_of_isSome {α : Type} {result : Except String α}
    (h : result.toOption.isSome = true) : ∃ a, result = .ok a := by
  cases result with
  | error message => cases h
  | ok a => exact ⟨a, rfl⟩

/-- The same text under both names. -/
theorem fromParams_toFrame_iff_stop :
    ∃ event, AgentEvent.fromParams (fun _ => "") (stop "done") = .ok event ∧
      (∃ summary, AgentEvent.fromParams (fun _ => "") (event.toFrame 2) =
        .ok { event with generation := some 2, summary }) ∧
      (AgentEvent.fromParams (fun _ => "") (event.toFrame 2) =
          .ok { event with generation := some 2 } ↔
        payloadSummary (((stop "done").get "hook_payload").getD (.object [])) = none ∨
          payloadSummary (((stop "done").get "hook_payload").getD (.object [])) =
            optionalText (stop "done") summaryKeys) := by
  have haccepted : (AgentEvent.fromParams (fun _ => "") (stop "done")).toOption.isSome = true := by
    decide
  obtain ⟨event, hevent⟩ := exists_of_isSome haccepted
  exact ⟨event, hevent, fromParams_toFrame_iff hevent 2⟩

/-- The host takes the text at the top level, the worker that of the payload. -/
theorem stop_not_same :
    ∃ event, AgentEvent.fromParams (fun _ => "") (stop "old") = .ok event ∧
      AgentEvent.fromParams (fun _ => "") (event.toFrame 2) ≠
        .ok { event with generation := some 2 } := by
  have haccepted : (AgentEvent.fromParams (fun _ => "") (stop "old")).toOption.isSome = true := by
    decide
  obtain ⟨event, hevent⟩ := exists_of_isSome haccepted
  refine ⟨event, hevent, fun hsame => ?_⟩
  obtain ⟨-, -, -, -, hsummary, -, -, -, hpayload⟩ := fromParams_inv hevent
  rw [fromParams_toFrame (wellRead_fromParams hevent), Except.ok.injEq, AgentEvent.mk.injEq] at hsame
  have hsame := hsame.2.2.2.2.2.2.2.1
  rw [hsummary, hpayload] at hsame
  have hdiffers : (payloadSummary (((stop "old").get "hook_payload").getD (.object []))).or
      (optionalText (stop "old") summaryKeys) ≠ optionalText (stop "old") summaryKeys := by
    decide
  exact hdiffers hsame

end Paneflow.Host.AgentWire
