import Paneflow.Host.Stream
import Paneflow.Transition
import Mathlib

/-!
# From the PTY to the stream

runtime.rs: `read_pty` pushes what it reads into a `PtyInbox`, and `serve_loop` takes slices of it and feeds them to the
stream and to the terminal engine. The flag `notified` says that the loop has been told; the loop remembers in a
variable of its own that there is more. Every block under the lock is one step, and so is a chunk that is fed.

`run` catches a panic of the engine, retires the engine and starts the loop again.

What commands, process listings and the stop of a session do has no part in this, and neither have the times.
-/

namespace Paneflow.Host.Inbox

open Paneflow.Host.Stream

/-! ### The inbox -/

def ptyInboxBytes : ℕ := 2 * 1024 * 1024

def drainSliceBytes : ℕ := 64 * 1024

def controlQueueSlots : ℕ := 64

abbrev Chunk := List UInt8

structure PtyInbox where
  chunks : List Chunk
  bytes : ℕ
  notified : Bool
  closed : Bool
  deriving DecidableEq, Repr

/-- `push` waits for the inbox to be drained. -/
def PtyInbox.waits (inbox : PtyInbox) (chunk : Chunk) : Prop :=
  inbox.closed = false ∧ ptyInboxBytes < inbox.bytes + chunk.length ∧ inbox.chunks ≠ []

instance (inbox : PtyInbox) (chunk : Chunk) : Decidable (inbox.waits chunk) :=
  inferInstanceAs (Decidable (_ ∧ _ ∧ _))

/-- The rest of `push`, and whether the loop has to be told. -/
def PtyInbox.push (inbox : PtyInbox) (chunk : Chunk) : Bool × PtyInbox :=
  if inbox.closed then (false, inbox)
  else
    (!inbox.notified, { inbox with
      chunks := inbox.chunks ++ [chunk]
      bytes := inbox.bytes + chunk.length
      notified := true })

/-- The loop of `take_slice`: what is taken, its bytes, and what is left. -/
def takeChunks (maxBytes : ℕ) : ℕ → List Chunk → List Chunk × ℕ × List Chunk
  | takenBytes, [] => ([], takenBytes, [])
  | takenBytes, chunk :: chunks =>
    if takenBytes > 0 ∧ takenBytes + chunk.length > maxBytes then ([], takenBytes, chunk :: chunks)
    else
      let (taken, bytes, left) := takeChunks maxBytes (takenBytes + chunk.length) chunks
      (chunk :: taken, bytes, left)

def PtyInbox.takeSlice (inbox : PtyInbox) (maxBytes : ℕ) : (List Chunk × Bool) × PtyInbox :=
  let (taken, takenBytes, left) := takeChunks maxBytes 0 inbox.chunks
  ((taken, !left.isEmpty), { inbox with
    chunks := left
    bytes := inbox.bytes - takenBytes
    notified := !left.isEmpty })

def PtyInbox.close (inbox : PtyInbox) : PtyInbox := { inbox with chunks := [], bytes := 0, closed := true }

/-! ### The threads -/

inductive Message where
  | outputReady
  | eof
  | childExited (outcome : Bool)
  | rootExiting
  | command
  | processListing
  deriving DecidableEq, Repr

/-- Where `read_pty` is. -/
inductive Reader where
  | reading
  | pushing (chunk : Chunk)
  /-- `push` has to send an `OutputReady`. -/
  | notifying
  | finishing
  | ended
  deriving DecidableEq, Repr

/-- The variables of `serve_loop`. -/
structure Locals where
  disconnected : Bool
  outputPending : Bool
  deriving DecidableEq, Repr

/-- What `drain_inbox` returns to: the loop, or `finalize`. -/
inductive Caller where
  | serveLoop
  | finalize (complete : Bool)
  deriving DecidableEq, Repr

/-- Where `serve_loop` is. -/
inductive Loop where
  | waiting (locals : Locals)
  | draining (caller : Caller) (rest : List Chunk) (more : Bool) (locals : Locals)
  /-- `finalize` has drained the inbox. -/
  | completing (complete : Bool) (locals : Locals)
  /-- `advance`, at its beginning, behind the check of the deadline, and behind `finalize`. -/
  | advancing (locals : Locals)
  | settling (locals : Locals)
  | resting (locals : Locals)
  | returned
  deriving DecidableEq, Repr

structure CompletedRecord where
  finalOffset : ℕ
  complete : Bool
  deriving DecidableEq, Repr

structure Session where
  inbox : PtyInbox
  stream : OutputStream
  queue : List Message
  /-- All senders but the reader are gone. -/
  dropped : Bool
  reader : Reader
  loop : Loop
  terminal : Bool
  readerEof : Bool
  exit : Bool
  drainDeadline : Bool
  tailRelease : Bool
  completed : Bool
  notice : Option CompletedRecord
  /-- What the reader has read. -/
  read : List Chunk

def Session.initial (capacity : ℕ) (wired : Bool) : Session where
  inbox := ⟨[], 0, false, false⟩
  stream := .new capacity
  queue := []
  dropped := false
  reader := if wired then .reading else .ended
  loop := .waiting ⟨false, false⟩
  terminal := true
  readerEof := false
  exit := false
  drainDeadline := false
  tailRelease := false
  completed := false
  notice := none
  read := []

inductive Label where
  | read (chunk : Chunk)
  | push
  | notify
  | eof
  | sendEof
  | post (message : Message)
  | drop
  | receive
  | idle
  | timeout
  | hangUp (quiet : Bool)
  | quit
  | feed (panics : Bool)
  | drained
  | advance (due : Bool)
  | settle
  | complete
  | rest (due quiet : Bool)
  deriving DecidableEq, Repr

variable (session : Session)

/-! ### The reader -/

def Session.stepRead (chunk : Chunk) : Option Session :=
  if session.reader = .reading ∧ chunk ≠ [] then
    some { session with reader := .pushing chunk, read := session.read ++ [chunk] }
  else none

def Session.stepPush : Option Session :=
  match session.reader with
  | .pushing chunk =>
    if session.inbox.waits chunk then none
    else
      let (notify, inbox) := session.inbox.push chunk
      some { session with inbox, reader := if notify then .notifying else .reading }
  | _ => none

/-- A message is sent when there is room for it; it is lost when the loop is gone. -/
def Session.room : Prop := session.queue.length < controlQueueSlots ∧ session.loop ≠ .returned

instance : Decidable session.room := inferInstanceAs (Decidable (_ ∧ _))

def Session.stepNotify : Option Session :=
  if session.reader = .notifying then
    if session.loop = .returned then some { session with reader := .ended }
    else if session.room then some { session with reader := .reading, queue := session.queue ++ [.outputReady] }
    else none
  else none

def Session.stepEof : Option Session :=
  if session.reader = .reading then some { session with reader := .finishing } else none

def Session.stepSendEof : Option Session :=
  if session.reader = .finishing then
    if session.loop = .returned then some { session with reader := .ended }
    else if session.room then some { session with reader := .ended, queue := session.queue ++ [.eof] }
    else none
  else none

/-! ### The others -/

def Session.stepPost (message : Message) : Option Session :=
  if session.dropped = false ∧ message ≠ .outputReady ∧ message ≠ .eof ∧ session.room then
    some { session with queue := session.queue ++ [message] }
  else none

def Session.stepDrop : Option Session := some { session with dropped := true }

/-! ### The loop -/

/-- `drain_inbox` takes a slice. -/
def Session.drainInbox (caller : Caller) (locals : Locals) : Session :=
  let ((rest, more), inbox) := session.inbox.takeSlice drainSliceBytes
  { session with inbox, loop := .draining caller rest more locals }

/-- `on_child_exited`; what the process tree says does not matter here. -/
def Session.recordExit : Session :=
  if session.exit then session
  else { session with exit := true, drainDeadline := session.drainDeadline || !session.readerEof }

def Session.dispatch (locals : Locals) : Message → Session
  | .outputReady => session.drainInbox .serveLoop locals
  | .eof => { session with readerEof := true, loop := .advancing locals }
  | .childExited outcome => { (if outcome then session.recordExit else session) with loop := .advancing locals }
  | .rootExiting => { session with loop := .advancing locals }
  | .command => { session with loop := .advancing locals }
  | .processListing => { session with loop := .advancing locals }

/-- All senders are gone. -/
def Session.hungUp : Prop := session.queue = [] ∧ session.dropped = true ∧ session.reader = .ended

instance : Decidable session.hungUp := inferInstanceAs (Decidable (_ ∧ _ ∧ _))

/-- `finished`, with what is outside: there is no stop, no descendant, and nothing is unverified. -/
def Session.finished (quiet : Bool) : Bool := session.completed && !session.tailRelease && session.exit && quiet

def Session.stepReceive : Option Session :=
  match session.loop, session.queue with
  | .waiting locals, message :: queue =>
    if locals.disconnected then none else some (({ session with queue } : Session).dispatch locals message)
  | _, _ => none

/-- Nothing has come, and the loop knows that there is more. -/
def Session.stepIdle : Option Session :=
  match session.loop with
  | .waiting locals =>
    if locals.disconnected = false ∧ locals.outputPending = true ∧ session.queue = [] ∧ ¬session.hungUp then
      some (session.dispatch locals .outputReady)
    else none
  | _ => none

def Session.stepTimeout : Option Session :=
  match session.loop with
  | .waiting locals =>
    if locals.disconnected = true ∨ locals.outputPending = false ∧ session.queue = [] ∧ ¬session.hungUp then
      some { session with loop := .advancing locals }
    else none
  | _ => none

def Session.stepHangUp (quiet : Bool) : Option Session :=
  match session.loop with
  | .waiting locals =>
    if locals.disconnected = false ∧ session.hungUp then
      some { session with
        loop := if session.finished quiet then .returned else .advancing { locals with disconnected := true } }
    else none
  | _ => none

def Session.stepQuit : Option Session :=
  match session.loop with
  | .waiting locals => if locals.disconnected then some { session with loop := .returned } else none
  | _ => none

/-- `retire_engine` -/
def Session.retireEngine : Session :=
  { session with terminal := false, inbox := if session.completed then session.inbox.close else session.inbox }

/-- `feed`: the chunk is appended before the engine gets it. After a panic `run` starts the loop again. -/
def Session.stepFeed (panics : Bool) : Option Session :=
  match session.loop with
  | .draining caller (chunk :: rest) more locals =>
    let fed := { session with stream := session.stream.append chunk }
    if panics then
      if session.terminal then some { fed.retireEngine with loop := .waiting ⟨false, false⟩ } else none
    else some { fed with loop := .draining caller rest more locals }
  | _ => none

/-- `drain_inbox` returns; `finalize` calls it as long as there is more. -/
def Session.stepDrained : Option Session :=
  match session.loop with
  | .draining .serveLoop [] more locals => some { session with loop := .advancing { locals with outputPending := more } }
  | .draining (.finalize complete) [] more locals =>
    if more then some (session.drainInbox (.finalize complete) locals)
    else some { session with loop := .completing complete locals, completed := true, stream := session.stream.finish }
  | _ => none

/-- `finalize` at its beginning. -/
def Session.finalize (complete : Bool) (locals : Locals) (next : Loop) : Session :=
  if session.completed || !session.exit then { session with loop := next }
  else session.drainInbox (.finalize complete) locals

def Session.stepAdvance (due : Bool) : Option Session :=
  match session.loop with
  | .advancing locals =>
    if due && session.drainDeadline then
      some (({ session with drainDeadline := false } : Session).finalize false locals (.settling locals))
    else some { session with loop := .settling locals }
  | _ => none

def Session.stepSettle : Option Session :=
  match session.loop with
  | .settling locals =>
    if session.exit && session.readerEof && !session.completed then
      some (({ session with drainDeadline := false } : Session).finalize true locals (.resting locals))
    else some { session with loop := .resting locals }
  | _ => none

/-- The end of `finalize`: the engine is retired, the inbox is closed, and the notice goes out. -/
def Session.stepComplete : Option Session :=
  match session.loop with
  | .completing complete locals =>
    some { session.retireEngine with
      tailRelease := true
      notice := some ⟨session.stream.endOffset, complete && session.readerEof⟩
      loop := if complete then .resting locals else .settling locals }
  | _ => none

def Session.stepRest (due quiet : Bool) : Option Session :=
  match session.loop with
  | .resting locals =>
    let rested := if due && session.tailRelease then
        { session with tailRelease := false, stream := session.stream.release }
      else session
    some { rested with loop := if rested.finished quiet then .returned else .waiting locals }
  | _ => none

def Session.step : Label → Option Session
  | .read chunk => session.stepRead chunk
  | .push => session.stepPush
  | .notify => session.stepNotify
  | .eof => session.stepEof
  | .sendEof => session.stepSendEof
  | .post message => session.stepPost message
  | .drop => session.stepDrop
  | .receive => session.stepReceive
  | .idle => session.stepIdle
  | .timeout => session.stepTimeout
  | .hangUp quiet => session.stepHangUp quiet
  | .quit => session.stepQuit
  | .feed panics => session.stepFeed panics
  | .drained => session.stepDrained
  | .advance due => session.stepAdvance due
  | .settle => session.stepSettle
  | .complete => session.stepComplete
  | .rest due quiet => session.stepRest due quiet

end Paneflow.Host.Inbox
