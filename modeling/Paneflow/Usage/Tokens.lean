import Paneflow.Json
import Paneflow.Lines
import Mathlib.Data.List.Infix
import Mathlib.Data.Nat.Basic

/-!
# Reading the tokens of a transcript

usage/tokens.rs. A transcript is a file of JSON lines that its agent appends to. A pass (`readTokens`) goes
on where the last one stopped: it reads a bounded chunk, handles the lines that are complete, and leaves the
beginning of a line for later, unless that is longer than a line may be: then the rest of it is skipped.

JSON, time stamps, hashing and the calendar are the parameter `Host`.
-/

namespace Paneflow.Usage.Tokens

open Paneflow.Json Paneflow.Lines

/-- What the reader takes from elsewhere: `serde_json::from_slice`, RFC 3339 time stamps in milliseconds,
`DefaultHasher`, the trimming of text and the day of a time. -/
structure Host (D : Type) where
  fromSlice : List UInt8 → Option Value
  parseStamp : String → Option ℕ
  hash : String → ℕ
  trim : String → String
  day : ℕ → D

inductive TranscriptKind where
  | claude
  | codex
  deriving DecidableEq, Repr

structure TokenCursor (D : Type) where
  offset : ℕ
  touchedMs : ℕ
  skipping : Bool
  totals : Option (ℕ × ℕ)
  seenDay : Option D
  seen : List String
  deriving DecidableEq

structure TokenEntry (D : Type) where
  day : D
  input : ℕ
  output : ℕ
  key : Option ℕ
  deriving DecidableEq

structure TurnStart (D : Type) where
  day : D
  key : Option ℕ
  deriving DecidableEq

structure TokenPass (D : Type) where
  path : String
  start : TokenCursor D
  cursor : TokenCursor D
  entries : List (TokenEntry D)
  turns : List (TurnStart D)
  deriving DecidableEq

def maxPassBytes : ℕ := 8 * 1024 * 1024

def maxLineBytes : ℕ := 1024 * 1024

def maxSeenIds : ℕ := 2048

def newline : UInt8 := 10

def TokenCursor.default {D : Type} : TokenCursor D := ⟨0, 0, false, none, none, []⟩

section
variable {D : Type} [DecidableEq D]

def Host.entryMs (host : Host D) (value : Value) : Option ℕ :=
  (value.text "timestamp").bind host.parseStamp

def Host.lineKey (host : Host D) (value : Value) (path : List String) : Option ℕ :=
  ((value.pointer path).bind Value.asStr).map host.hash

def Host.isClaudePrompt (host : Host D) (value : Value) : Bool :=
  let flagged (key : String) := (value.get key).bind Value.asBool = some true
  if value.text "type" ≠ some "user" ∨ flagged "isMeta" ∨ flagged "isSidechain" ∨
      flagged "isCompactSummary" then
    false
  else
    match value.pointer ["message", "content"] with
    | some (.string text) => !(host.trim text).isEmpty
    | some (.array parts) =>
      !parts.isEmpty && parts.all fun part => part.text "type" ≠ some "tool_result"
    | _ => false

def Host.turnStartMs (host : Host D) (value : Value) (kind : TranscriptKind) : Option ℕ :=
  let starts : Bool := match kind with
    | .claude => host.isClaudePrompt value
    | .codex =>
      value.text "type" = some "event_msg" &&
        ((value.pointer ["payload", "type"]).bind Value.asStr = some "task_started" ||
          (value.pointer ["payload", "type"]).bind Value.asStr = some "turn_started")
  if starts then host.entryMs value else none

def count (value : Value) (key : String) : ℕ := ((value.get key).bind Value.asU64).getD 0

/-- `claude_entry`: a message that was not seen, with its id. -/
def Host.claudeEntry (host : Host D) (value : Value) (seen : List String) (cursor : TokenCursor D)
    (today : D) : Option (ℕ × ℕ × ℕ) × List String × TokenCursor D :=
  let found : Option (String × Value × ℕ) :=
    if value.text "type" ≠ some "assistant" then none
    else do
      let message ← value.get "message"
      let id ← message.text "id"
      let usage ← (message.get "usage").filter Value.isObject
      let atMs ← host.entryMs value
      pure (id, usage, atMs)
  match found with
  | none => (none, seen, cursor)
  | some (id, usage, atMs) =>
    if id ∈ seen then (none, seen, cursor)
    else
      let cursor :=
        if cursor.seenDay = some today then
          let kept := if cursor.seen.length ≥ maxSeenIds then cursor.seen.drop 1 else cursor.seen
          { cursor with seen := kept ++ [id] }
        else cursor
      (some (atMs, count usage "input_tokens", count usage "output_tokens"), id :: seen, cursor)

/-- The time of a `token_count` event of Codex with its totals: the input that was not cached and the
output. -/
def Host.codexUsage (host : Host D) (value : Value) : Option (ℕ × ℕ × ℕ) :=
  if value.text "type" ≠ some "event_msg" then none
  else do
    let payload ← value.get "payload"
    if payload.text "type" ≠ some "token_count" then none
    else
      let info ← (payload.get "info").filter Value.isObject
      let total ← (info.get "total_token_usage").filter Value.isObject
      let atMs ← host.entryMs value
      pure (atMs, count total "input_tokens" - count total "cached_input_tokens",
        count total "output_tokens")

def Host.codexEntry (host : Host D) (value : Value) (cursor : TokenCursor D) :
    Option (ℕ × ℕ × ℕ) × TokenCursor D :=
  match host.codexUsage value with
  | none => (none, cursor)
  | some (atMs, input, output) =>
    let (lastInput, lastOutput) := cursor.totals.getD (0, 0)
    (some (atMs, input - lastInput, output - lastOutput),
      { cursor with totals := some (max lastInput input, max lastOutput output) })

/-- `u8::is_ascii_whitespace` -/
def isAsciiWhitespace (byte : UInt8) : Bool :=
  byte = 0x20 || byte = 0x09 || byte = 0x0A || byte = 0x0C || byte = 0x0D

def trimAscii (line : List UInt8) : List UInt8 :=
  ((line.dropWhile isAsciiWhitespace).reverse.dropWhile isAsciiWhitespace).reverse

/-- What a pass has come to; `lines` are the lines that it has handled, which the source does not keep. -/
structure Reading (D : Type) where
  cursor : TokenCursor D
  seen : List String
  entries : List (TokenEntry D)
  turns : List (TurnStart D)
  lines : List (List UInt8)

/-- The entry and the key that a line is read as. -/
def Host.entry (host : Host D) (kind : TranscriptKind) (today : D) (reading : Reading D)
    (value : Value) : Option (ℕ × ℕ × ℕ) × Option ℕ × Reading D :=
  match kind with
  | .claude =>
    let (entry, seen, cursor) := host.claudeEntry value reading.seen reading.cursor today
    (entry, host.lineKey value ["message", "id"], { reading with seen := seen, cursor := cursor })
  | .codex =>
    let (entry, cursor) := host.codexEntry value reading.cursor
    (entry, none, { reading with cursor := cursor })

/-- The turn that a line starts, if it does. -/
def Host.noteTurn (host : Host D) (kind : TranscriptKind) (value : Value) (reading : Reading D) :
    Reading D :=
  match host.turnStartMs value kind with
  | none => reading
  | some atMs =>
    let key := match kind with
      | .claude => host.lineKey value ["uuid"]
      | .codex => host.lineKey value ["payload", "turn_id"]
    { reading with turns := reading.turns ++ [⟨host.day atMs, key⟩] }

/-- The tokens that a line counts, if it does. -/
def Host.noteEntry (host : Host D) (kind : TranscriptKind) (today : D) (value : Value)
    (reading : Reading D) : Reading D :=
  match host.entry kind today reading value with
  | (none, _, reading) => reading
  | (some (atMs, input, output), key, reading) =>
    if input > 0 ∨ output > 0 then
      { reading with entries := reading.entries ++ [⟨host.day atMs, input, output, key⟩] }
    else reading

/-- What the loop of `read_tokens` does with a line. -/
def Host.handle (host : Host D) (kind : TranscriptKind) (today : D) (reading : Reading D)
    (line : List UInt8) : Reading D :=
  let reading := { reading with lines := reading.lines ++ [line] }
  match host.fromSlice (trimAscii line) with
  | none => reading
  | some value => host.noteEntry kind today value (host.noteTurn kind value reading)

/-- The loop of `read_tokens` over the chunk, for at most `fuel` lines. -/
def Host.readLines (host : Host D) (kind : TranscriptKind) (today : D) (chunk : List UInt8) :
    ℕ → ℕ → Reading D → ℕ × Reading D
  | 0, pos, reading => (pos, reading)
  | fuel + 1, pos, reading =>
    if pos < chunk.length then
      match (chunk.drop pos).findIdx? fun byte => byte = newline with
      | none =>
        if chunk.length - pos > maxLineBytes then
          (chunk.length, { reading with cursor := { reading.cursor with skipping := true } })
        else (pos, reading)
      | some length =>
        let line := (chunk.drop pos).take length
        if line.length > maxLineBytes then
          host.readLines kind today chunk fuel (pos + length + 1) reading
        else
          host.readLines kind today chunk fuel (pos + length + 1)
            (host.handle kind today reading line)
    else (pos, reading)

/-- The messages that were seen are forgotten when the day is over. -/
def TokenCursor.onDay (cursor : TokenCursor D) (today : D) : TokenCursor D :=
  if cursor.seenDay ≠ some today then { cursor with seenDay := some today, seen := [] } else cursor

def Reading.resume (reading : Reading D) : Reading D :=
  { reading with cursor := { reading.cursor with skipping := false } }

/-- The end of a line that is being skipped, and where the loop begins. -/
def skipLine (chunk : List UInt8) (reading : Reading D) : ℕ × Reading D :=
  if reading.cursor.skipping then
    match chunk.findIdx? fun byte => byte = newline with
    | some stop => (stop + 1, reading.resume)
    | none => (chunk.length, reading)
  else (0, reading)

/-- `read_tokens` on a file that can be read and has the content `file`, with the lines that it handles. -/
def Host.readTokens (host : Host D) (path : String) (file : List UInt8) (kind : TranscriptKind)
    (start : TokenCursor D) (nowMs : ℕ) : TokenPass D × List (List UInt8) :=
  let cursor :=
    if file.length < start.offset then { start with offset := 0, skipping := false } else start
  let chunk := (file.drop cursor.offset).take maxPassBytes
  let today := host.day nowMs
  let cursor := cursor.onDay today
  let (pos, reading) := skipLine chunk ⟨cursor, cursor.seen, [], [], []⟩
  let (pos, reading) := host.readLines kind today chunk chunk.length pos reading
  (⟨path, start, { reading.cursor with offset := reading.cursor.offset + pos, touchedMs := nowMs },
    reading.entries, reading.turns⟩, reading.lines)

/-- What a pass finds: the file, the time, and whether a pass over another file has cleared the messages
that were seen, which it does on another day. -/
structure Look where
  file : List UInt8
  nowMs : ℕ
  cleared : Bool

/-- The cursor as it is saved until the next pass. -/
def TokenCursor.saved (cursor : TokenCursor D) (cleared : Bool) : TokenCursor D :=
  if cleared then { cursor with seen := [] } else cursor

/-- The passes over a file, each from the saved cursor of the last one. -/
def Host.readPasses (host : Host D) (path : String) (kind : TranscriptKind) :
    TokenCursor D → List Look → List (TokenPass D × List (List UInt8))
  | _, [] => []
  | cursor, look :: looks =>
    let pass := host.readTokens path look.file kind (cursor.saved look.cleared) look.nowMs
    pass :: host.readPasses path kind pass.1.cursor looks

end

end Paneflow.Usage.Tokens
