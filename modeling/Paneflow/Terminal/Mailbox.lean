import Mathlib

/-!
# The mailbox of a terminal's runtime

`RuntimeMailbox` of ghostty_session/mailbox.rs. Several threads send to it and one receives; every call holds the lock
from its beginning to its end, so that a run is a list of calls. A wait of `recv` gives the lock back, and each time
it looks again is a call of its own here.

Output and control messages share the queue and are counted apart. A checkpoint takes the place of one that waits, and
a row to scroll to takes the place of one that waits at the end.

The `Ledger` numbers the messages in the order in which they were accepted and says what has become of each:
`mailbox_accounts` is what holds of it in every state of every run.
-/

namespace Paneflow.Terminal.Mailbox

def controlCapacity : ℕ := 256

def outputBufferCount : ℕ := 4

def usizeMax : ℕ := 2 ^ 64 - 1

def saturatingAdd (a b : ℕ) : ℕ := min (a + b) usizeMax

/-- The sizes of the structures that are passed on to the terminal. -/
structure InputSizes where
  keyInput : ℕ
  mouseInput : ℕ
  focusEvent : ℕ

/-- A message: `ρ` is what the mailbox does not look at, `σ` the snapshots. -/
inductive RuntimeMessage (ρ σ : Type) where
  | output (bytes : List UInt8)
  | eof
  | input (bytes : List UInt8)
  | programInput (bytes : List UInt8)
  | keyInput (rest : ρ) (text : List UInt8)
  | mouseInput (rest : ρ) (times : ℕ)
  | focusInput (event : ρ)
  | pasteInput (rest : ρ) (text : List UInt8)
  | scrollToViewportRow (row : ℕ)
  | restoreCheckpoint (snapshot : σ)
  | other (rest : ρ)
  deriving DecidableEq, Repr

variable {ρ σ : Type}

namespace RuntimeMessage

def queuedInputBytes (sizes : InputSizes) : RuntimeMessage ρ σ → Option ℕ
  | input bytes | programInput bytes => some bytes.length
  | keyInput _ text => some (saturatingAdd sizes.keyInput text.length)
  | mouseInput _ times => some (saturatingAdd sizes.mouseInput times)
  | focusInput _ => some sizes.focusEvent
  | pasteInput _ text => some text.length
  | _ => none

def isOutput : RuntimeMessage ρ σ → Bool
  | output _ => true
  | _ => false

def isEof : RuntimeMessage ρ σ → Bool
  | eof => true
  | _ => false

def isScroll : RuntimeMessage ρ σ → Bool
  | scrollToViewportRow _ => true
  | _ => false

def checkpoint? : RuntimeMessage ρ σ → Option σ
  | restoreCheckpoint snapshot => some snapshot
  | _ => none

def isCheckpoint (message : RuntimeMessage ρ σ) : Bool := message.checkpoint?.isSome

/-- The messages of the input, which `stop_accepting_input` discards. -/
def isInput : RuntimeMessage ρ σ → Bool
  | input _ | programInput _ | keyInput _ _ | mouseInput _ _ | focusInput _ | pasteInput _ _ => true
  | _ => false

theorem isSome_queuedInputBytes (sizes : InputSizes) (message : RuntimeMessage ρ σ) :
    (message.queuedInputBytes sizes).isSome = message.isInput := by
  cases message <;> rfl

end RuntimeMessage

open RuntimeMessage

/-- `MailboxState`, without the buffers. -/
structure MailboxState (ρ σ : Type) where
  queue : List (RuntimeMessage ρ σ)
  controlCount : ℕ
  outputCount : ℕ
  acceptingInput : Bool
  acceptingOutput : Bool
  closed : Bool
  deriving DecidableEq, Repr

inductive Call (ρ σ : Type) where
  | trySendControl (message : RuntimeMessage ρ σ)
  | sendOutput (buffer : List UInt8)
  | sendEof
  | recv
  | tryRecvConsecutiveOutput
  | stopAcceptingInput
  | close
  deriving DecidableEq, Repr

/-- What a call comes to. `asserted` is the assertion of `try_send_control`, `waiting` is where `recv` waits or runs
out of time. -/
inductive Answer (ρ σ : Type) where
  | asserted
  | accepted
  | full (message : RuntimeMessage ρ σ)
  | disconnected (message : RuntimeMessage ρ σ)
  | refused
  | received (message : RuntimeMessage ρ σ)
  | waiting
  | hungUp
  | noOutput
  | discarded (bytes : ℕ)
  | closed
  deriving DecidableEq, Repr

namespace MailboxState

/-- `RuntimeMailbox::new` -/
def new : MailboxState ρ σ := ⟨[], 0, 0, true, true, false⟩

/-- The snapshot in the place of the one that waits, if there is one. -/
def replaceCheckpoint (snapshot : σ) : List (RuntimeMessage ρ σ) → Option (List (RuntimeMessage ρ σ))
  | [] => none
  | .restoreCheckpoint _ :: queue => some (.restoreCheckpoint snapshot :: queue)
  | message :: queue => (replaceCheckpoint snapshot queue).map (message :: ·)

/-- The end of `try_send_control`: the message is queued if there is room. -/
def pushControl (state : MailboxState ρ σ) (message : RuntimeMessage ρ σ) : MailboxState ρ σ × Answer ρ σ :=
  if state.controlCount ≥ controlCapacity then (state, .full message)
  else ({ state with controlCount := state.controlCount + 1, queue := state.queue ++ [message] }, .accepted)

def trySendControl (sizes : InputSizes) (state : MailboxState ρ σ) (message : RuntimeMessage ρ σ) :
    MailboxState ρ σ × Answer ρ σ :=
  if message.isOutput || message.isEof then (state, .asserted)
  else if state.closed then (state, .disconnected message)
  else if !state.acceptingInput && (message.queuedInputBytes sizes).isSome then (state, .disconnected message)
  else
    match message with
    | .scrollToViewportRow row =>
      match state.queue.getLast? with
      | some (.scrollToViewportRow _) =>
        ({ state with queue := state.queue.dropLast ++ [.scrollToViewportRow row] }, .accepted)
      | _ => state.pushControl (.scrollToViewportRow row)
    | .restoreCheckpoint snapshot =>
      match replaceCheckpoint snapshot state.queue with
      | some queue => ({ state with queue := queue }, .accepted)
      | none => state.pushControl (.restoreCheckpoint snapshot)
    | message => state.pushControl message

def sendOutput (state : MailboxState ρ σ) (buffer : List UInt8) : MailboxState ρ σ × Answer ρ σ :=
  if state.closed || !state.acceptingOutput || state.outputCount ≥ outputBufferCount then (state, .refused)
  else ({ state with outputCount := state.outputCount + 1, queue := state.queue ++ [.output buffer] }, .accepted)

def sendEof (state : MailboxState ρ σ) : MailboxState ρ σ × Answer ρ σ :=
  if state.closed then (state, .refused)
  else ({ state with controlCount := state.controlCount + 1, queue := state.queue ++ [.eof] }, .accepted)

def popFront (state : MailboxState ρ σ) : Option (MailboxState ρ σ × RuntimeMessage ρ σ) :=
  match state.queue with
  | [] => none
  | message :: queue =>
    if message.isOutput then some ({ state with queue := queue, outputCount := state.outputCount - 1 }, message)
    else some ({ state with queue := queue, controlCount := state.controlCount - 1 }, message)

/-- `recv`, each time it has the lock. -/
def recv (state : MailboxState ρ σ) : MailboxState ρ σ × Answer ρ σ :=
  match state.popFront with
  | some (state, message) => (state, .received message)
  | none => if state.closed then (state, .hungUp) else (state, .waiting)

def tryRecvConsecutiveOutput (state : MailboxState ρ σ) : MailboxState ρ σ × Answer ρ σ :=
  match state.queue with
  | .output bytes :: queue =>
    ({ state with queue := queue, outputCount := state.outputCount - 1 }, .received (.output bytes))
  | _ => (state, .noOutput)

/-- The loop of `stop_accepting_input`: what is retained, the control messages and the bytes that are discarded. -/
def retainLoop (sizes : InputSizes) :
    List (RuntimeMessage ρ σ) → (controlCount discarded : ℕ) → List (RuntimeMessage ρ σ) × ℕ × ℕ
  | [], controlCount, discarded => ([], controlCount, discarded)
  | message :: queue, controlCount, discarded =>
    match message.queuedInputBytes sizes with
    | some bytes => retainLoop sizes queue (controlCount - 1) (saturatingAdd discarded bytes)
    | none =>
      let (retained, rest) := retainLoop sizes queue controlCount discarded
      (message :: retained, rest)

def stopAcceptingInput (sizes : InputSizes) (state : MailboxState ρ σ) : MailboxState ρ σ × Answer ρ σ :=
  let (retained, controlCount, discarded) := retainLoop sizes state.queue state.controlCount 0
  ({ state with acceptingInput := false, queue := retained, controlCount := controlCount }, .discarded discarded)

def close (state : MailboxState ρ σ) : MailboxState ρ σ × Answer ρ σ :=
  ({ state with acceptingInput := false, acceptingOutput := false, closed := true }, .closed)

def call (sizes : InputSizes) (state : MailboxState ρ σ) : Call ρ σ → MailboxState ρ σ × Answer ρ σ
  | .trySendControl message => state.trySendControl sizes message
  | .sendOutput buffer => state.sendOutput buffer
  | .sendEof => state.sendEof
  | .recv => state.recv
  | .tryRecvConsecutiveOutput => state.tryRecvConsecutiveOutput
  | .stopAcceptingInput => state.stopAcceptingInput sizes
  | .close => state.close

end MailboxState

/-! ### What becomes of the messages -/

/-- A message with its number among those that were accepted. -/
abbrev Numbered (ρ σ : Type) := RuntimeMessage ρ σ × ℕ

/-- The messages that were accepted, and what has become of them; the messages that one call discards are a list. -/
structure Ledger (ρ σ : Type) where
  sent : List (RuntimeMessage ρ σ)
  queued : List (Numbered ρ σ)
  received : List (Numbered ρ σ)
  discarded : List (List (Numbered ρ σ))
  superseded : List (Numbered ρ σ)

namespace Ledger

def empty : Ledger ρ σ := ⟨[], [], [], [], []⟩

/-- The row to scroll to that waits at the end of the queue, if the message is another one. -/
def outdated (queued : List (Numbered ρ σ)) (message : RuntimeMessage ρ σ) : Option (Numbered ρ σ) :=
  if message.isScroll then queued.getLast?.filter (·.1.isScroll) else none

/-- A message is accepted. -/
def accept (ledger : Ledger ρ σ) (message : RuntimeMessage ρ σ) : Ledger ρ σ :=
  let entry := (message, ledger.sent.length)
  let sent := ledger.sent ++ [message]
  match outdated ledger.queued message with
  | some last =>
    { ledger with
      sent := sent
      queued := ledger.queued.dropLast ++ [entry]
      superseded := ledger.superseded ++ [last] }
  | none =>
    if message.isCheckpoint && ledger.queued.any (·.1.isCheckpoint) then
      { ledger with
        sent := sent
        queued := ledger.queued.map fun queued => if queued.1.isCheckpoint then entry else queued }
    else { ledger with sent := sent, queued := ledger.queued ++ [entry] }

def take (ledger : Ledger ρ σ) : Ledger ρ σ :=
  match ledger.queued with
  | [] => ledger
  | entry :: queued => { ledger with queued := queued, received := ledger.received ++ [entry] }

def discard (ledger : Ledger ρ σ) : Ledger ρ σ :=
  { ledger with
    queued := ledger.queued.filter fun entry => !entry.1.isInput
    discarded := ledger.discarded ++ [ledger.queued.filter (·.1.isInput)] }

/-- A call and its answer are noted. -/
def note (ledger : Ledger ρ σ) : Call ρ σ → Answer ρ σ → Ledger ρ σ
  | .trySendControl message, .accepted => ledger.accept message
  | .sendOutput buffer, .accepted => ledger.accept (.output buffer)
  | .sendEof, .accepted => ledger.accept .eof
  | .recv, .received _ | .tryRecvConsecutiveOutput, .received _ => ledger.take
  | .stopAcceptingInput, .discarded _ => ledger.discard
  | _, _ => ledger

/-- The messages that will never be received. -/
def lost (ledger : Ledger ρ σ) : List (Numbered ρ σ) := ledger.discarded.flatten ++ ledger.superseded

/-- The messages that were received and those that will be, without the checkpoints. -/
def kept (ledger : Ledger ρ σ) : List (Numbered ρ σ) :=
  (ledger.received ++ ledger.queued).filter fun entry => !entry.1.isCheckpoint

end Ledger

/-- A mailbox with its ledger and the answers that it has given. -/
structure Watched (ρ σ : Type) where
  mailbox : MailboxState ρ σ
  ledger : Ledger ρ σ
  answers : List (Answer ρ σ)

def Watched.new : Watched ρ σ := ⟨.new, .empty, []⟩

def Watched.step (sizes : InputSizes) (watched : Watched ρ σ) (c : Call ρ σ) : Watched ρ σ :=
  let (mailbox, answer) := watched.mailbox.call sizes c
  ⟨mailbox, watched.ledger.note c answer, watched.answers ++ [answer]⟩

/-- The mailbox after some calls, from any threads in any order. -/
def run (sizes : InputSizes) (calls : List (Call ρ σ)) : Watched ρ σ := calls.foldl (Watched.step sizes) .new

def Answer.message? : Answer ρ σ → Option (RuntimeMessage ρ σ)
  | .received message => some message
  | _ => none

def Answer.bytes? : Answer ρ σ → Option ℕ
  | .discarded bytes => some bytes
  | _ => none

/-- The bytes of some input messages. -/
def totalBytes (sizes : InputSizes) (messages : List (RuntimeMessage ρ σ)) : ℕ :=
  (messages.filterMap (queuedInputBytes sizes)).sum

/-! ### The ledger -/

theorem nodup_numbers {α : Type*} (xs : List α) : (xs.zipIdx.map Prod.snd).Nodup := by
  rw [List.zipIdx_map_snd]
  exact List.nodup_range'

theorem number_lt {α : Type*} {xs : List α} {entry : α × ℕ} (h : entry ∈ xs.zipIdx) : entry.2 < xs.length :=
  (List.getElem?_eq_some_iff.mp (List.mk_mem_zipIdx_iff_getElem?.mp h)).1

theorem zipIdx_concat {α : Type*} (xs : List α) (x : α) : (xs ++ [x]).zipIdx = xs.zipIdx ++ [(x, xs.length)] := by
  rw [List.zipIdx_append]
  simp

/-- Entries of the end that pass a test, taken out by their numbers. -/
theorem filter_numbers {α : Type*} {front rest : List (α × ℕ)} (h : ((front ++ rest).map Prod.snd).Nodup)
    (p : α × ℕ → Bool) :
    ((front ++ rest).filter fun entry => !((rest.filter p).map Prod.snd).contains entry.2) =
      front ++ rest.filter fun entry => !p entry := by
  have hfront : ∀ entry ∈ front, ((rest.filter p).map Prod.snd).contains entry.2 = false := by
    intro entry hentry
    rw [List.map_append] at h
    rw [List.contains_eq_mem, decide_eq_false_iff_not]
    intro hmem
    obtain ⟨other, hother, heq⟩ := List.mem_map.mp hmem
    exact List.disjoint_of_nodup_append h (List.mem_map_of_mem hentry)
      (heq ▸ List.mem_map_of_mem (List.mem_of_mem_filter hother))
  have hrest : ∀ entry ∈ rest, ((rest.filter p).map Prod.snd).contains entry.2 = p entry := by
    intro entry hentry
    have hnodup : (rest.map Prod.snd).Nodup := by
      rw [List.map_append] at h
      exact h.of_append_right
    rw [List.contains_eq_mem]
    cases hp : p entry with
    | true => exact decide_eq_true (List.mem_map_of_mem (List.mem_filter.mpr ⟨hentry, hp⟩))
    | false =>
      refine decide_eq_false fun hmem => ?_
      obtain ⟨other, hother, heq⟩ := List.mem_map.mp hmem
      have hsame := List.inj_on_of_nodup_map hnodup (List.mem_of_mem_filter hother) hentry heq
      rw [← hsame, List.of_mem_filter hother] at hp
      exact nomatch hp
  rw [List.filter_append, List.filter_eq_self.mpr fun entry hentry => by rw [hfront entry hentry]; rfl]
  congr 1
  exact List.filter_congr fun entry hentry => by rw [hrest entry hentry]

namespace Ledger

/-- The numbers of the messages that are lost. -/
def gone (ledger : Ledger ρ σ) : List ℕ := ledger.lost.map Prod.snd

/-- What is kept is what was accepted, without the checkpoints and without what is lost: the input that was
discarded and the rows to scroll to that were superseded. -/
structure Sound (ledger : Ledger ρ σ) : Prop where
  kept : ledger.kept =
    ledger.sent.zipIdx.filter fun entry => !entry.1.isCheckpoint && !ledger.gone.contains entry.2
  lost : ∀ entry ∈ ledger.lost, entry ∈ ledger.sent.zipIdx
  discarded : ∀ entry ∈ ledger.discarded.flatten, entry.1.isInput = true
  superseded : ∀ entry ∈ ledger.superseded, entry.1.isScroll = true

theorem sound_empty : Sound (empty : Ledger ρ σ) := by
  refine ⟨rfl, ?_, ?_, ?_⟩
  · exact fun _ h => absurd h List.not_mem_nil
  · exact fun _ h => absurd h List.not_mem_nil
  · exact fun _ h => absurd h List.not_mem_nil

theorem sent_accept (ledger : Ledger ρ σ) (message : RuntimeMessage ρ σ) :
    (ledger.accept message).sent = ledger.sent ++ [message] := by
  unfold accept
  cases outdated ledger.queued message with
  | some last => rfl
  | none =>
    dsimp only
    split_ifs <;> rfl

theorem received_accept (ledger : Ledger ρ σ) (message : RuntimeMessage ρ σ) :
    (ledger.accept message).received = ledger.received := by
  unfold accept
  cases outdated ledger.queued message with
  | some last => rfl
  | none =>
    dsimp only
    split_ifs <;> rfl

theorem discarded_accept (ledger : Ledger ρ σ) (message : RuntimeMessage ρ σ) :
    (ledger.accept message).discarded = ledger.discarded := by
  unfold accept
  cases outdated ledger.queued message with
  | some last => rfl
  | none =>
    dsimp only
    split_ifs <;> rfl

namespace Sound

variable {ledger : Ledger ρ σ}

theorem nodup_kept (h : Sound ledger) : (ledger.kept.map Prod.snd).Nodup := by
  rw [h.kept]
  exact (nodup_numbers ledger.sent).sublist (List.filter_sublist.map Prod.snd)

theorem mem_sent (h : Sound ledger) {entry : Numbered ρ σ} (hentry : entry ∈ ledger.queued)
    (hcheckpoint : entry.1.isCheckpoint = false) : entry ∈ ledger.sent.zipIdx := by
  have hkept : entry ∈ ledger.kept :=
    List.mem_filter.mpr ⟨List.mem_append_right _ hentry, by rw [hcheckpoint]; rfl⟩
  rw [h.kept] at hkept
  exact List.mem_of_mem_filter hkept

/-- The number of the next message is not among those that are gone. -/
theorem next_not_gone (h : Sound ledger) : ledger.gone.contains ledger.sent.length = false := by
  rw [List.contains_eq_mem]
  refine decide_eq_false fun hmem => ?_
  obtain ⟨entry, hentry, heq⟩ := List.mem_map.mp hmem
  have := number_lt (h.lost entry hentry)
  omega

/-- What was accepted and is not gone, after one more message. -/
theorem filter_sent (h : Sound ledger) (message : RuntimeMessage ρ σ) :
    ((ledger.sent ++ [message]).zipIdx.filter fun entry =>
        !entry.1.isCheckpoint && !ledger.gone.contains entry.2) =
      ledger.kept ++ if message.isCheckpoint then [] else [(message, ledger.sent.length)] := by
  rw [zipIdx_concat, List.filter_append, ← h.kept, List.filter_cons, h.next_not_gone, List.filter_nil]
  cases message.isCheckpoint <;> rfl

theorem lost_sent (h : Sound ledger) (message : RuntimeMessage ρ σ) :
    ∀ entry ∈ ledger.lost, entry ∈ (ledger.sent ++ [message]).zipIdx := fun entry hentry => by
  rw [zipIdx_concat]
  exact List.mem_append_left _ (h.lost entry hentry)

/-- A message that is put at the end of the queue. -/
theorem push (h : Sound ledger) (message : RuntimeMessage ρ σ) :
    Sound { ledger with
      sent := ledger.sent ++ [message]
      queued := ledger.queued ++ [(message, ledger.sent.length)] } where
  kept := by
    refine Eq.trans ?_ (h.filter_sent message).symm
    unfold Ledger.kept
    rw [← List.append_assoc, List.filter_append, List.filter_cons, List.filter_nil]
    cases message.isCheckpoint <;> rfl
  lost := h.lost_sent message
  discarded := h.discarded
  superseded := h.superseded

/-- A checkpoint in the place of the one that waits. -/
theorem replace (h : Sound ledger) {message : RuntimeMessage ρ σ} (hcheckpoint : message.isCheckpoint = true) :
    Sound { ledger with
      sent := ledger.sent ++ [message]
      queued := ledger.queued.map fun queued =>
        if queued.1.isCheckpoint then (message, ledger.sent.length) else queued } where
  kept := by
    refine Eq.trans ?_ (h.filter_sent message).symm
    unfold Ledger.kept
    rw [hcheckpoint, if_pos rfl, List.append_nil, List.filter_append, List.filter_append]
    congr 1
    induction ledger.queued with
    | nil => rfl
    | cons entry queued ih =>
      rw [List.map_cons, List.filter_cons, ih, List.filter_cons]
      cases hentry : entry.1.isCheckpoint with
      | true => simp [hcheckpoint]
      | false => simp [hentry]
  lost := h.lost_sent message
  discarded := h.discarded
  superseded := h.superseded

/-- What is left when some of the end of what is kept is gone as well. -/
theorem filter_gone (h : Sound ledger) {front rest : List (Numbered ρ σ)} (hkept : ledger.kept = front ++ rest)
    (p : Numbered ρ σ → Bool) (gone : List ℕ)
    (hgone : ∀ number, number ∈ gone ↔ number ∈ ledger.gone ∨ number ∈ (rest.filter p).map Prod.snd) :
    (ledger.sent.zipIdx.filter fun entry => !entry.1.isCheckpoint && !gone.contains entry.2) =
      front ++ rest.filter fun entry => !p entry := by
  have hnodup := h.nodup_kept
  rw [hkept] at hnodup
  rw [← filter_numbers hnodup p, ← hkept, h.kept, List.filter_filter]
  refine List.filter_congr fun entry _ => ?_
  have hor : gone.contains entry.2 =
      (((rest.filter p).map Prod.snd).contains entry.2 || ledger.gone.contains entry.2) := by
    rw [List.contains_eq_mem, List.contains_eq_mem, List.contains_eq_mem, ← Bool.decide_or, decide_eq_decide,
      hgone, or_comm]
  rw [hor, Bool.not_or, Bool.and_left_comm]

theorem not_checkpoint_of_scroll {message : RuntimeMessage ρ σ} (h : message.isScroll = true) :
    message.isCheckpoint = false := by
  cases message with
  | scrollToViewportRow row => rfl
  | _ => exact nomatch h

theorem not_checkpoint_of_input {message : RuntimeMessage ρ σ} (h : message.isInput = true) :
    message.isCheckpoint = false := by
  cases message with
  | restoreCheckpoint snapshot => exact nomatch h
  | _ => rfl

/-- A row to scroll to in the place of the one at the end. -/
theorem supersede (h : Sound ledger) {queued : List (Numbered ρ σ)} {last : Numbered ρ σ}
    (hqueued : ledger.queued = queued ++ [last]) (hlast : last.1.isScroll = true) {message : RuntimeMessage ρ σ}
    (hmessage : message.isScroll = true) :
    Sound { ledger with
      sent := ledger.sent ++ [message]
      queued := queued ++ [(message, ledger.sent.length)]
      superseded := ledger.superseded ++ [last] } := by
  have hlost : ∀ entry ∈ ledger.discarded.flatten ++ (ledger.superseded ++ [last]), entry ∈ ledger.sent.zipIdx := by
    intro entry hentry
    rw [← List.append_assoc] at hentry
    rcases List.mem_append.mp hentry with hentry | hentry
    · exact h.lost entry hentry
    · obtain rfl := List.mem_singleton.mp hentry
      exact h.mem_sent (by simp [hqueued]) (not_checkpoint_of_scroll hlast)
  refine ⟨?_, fun entry hentry => ?_, h.discarded, fun entry hentry => ?_⟩
  · have hkept : ledger.kept =
        ((ledger.received ++ queued).filter fun entry => !entry.1.isCheckpoint) ++ [last] := by
      unfold Ledger.kept
      rw [hqueued, ← List.append_assoc, List.filter_append, List.filter_cons, not_checkpoint_of_scroll hlast]
      rfl
    have hleft := h.filter_gone hkept (fun _ => true)
      ((ledger.discarded.flatten ++ (ledger.superseded ++ [last])).map Prod.snd) fun number => by
        rw [← List.append_assoc, List.map_append, List.mem_append]
        rfl
    have hnext : ((ledger.discarded.flatten ++ (ledger.superseded ++ [last])).map Prod.snd).contains
        ledger.sent.length = false := by
      rw [List.contains_eq_mem]
      refine decide_eq_false fun hmem => ?_
      obtain ⟨entry, hentry, heq⟩ := List.mem_map.mp hmem
      have := number_lt (hlost entry hentry)
      omega
    have hsent : ((ledger.sent ++ [message]).zipIdx.filter fun entry => !entry.1.isCheckpoint &&
        !((ledger.discarded.flatten ++ (ledger.superseded ++ [last])).map Prod.snd).contains entry.2) =
          ((ledger.received ++ queued).filter fun entry => !entry.1.isCheckpoint) ++
            [(message, ledger.sent.length)] := by
      have hnone : ([last].filter fun _ => !true) = [] := rfl
      rw [zipIdx_concat, List.filter_append, hleft, hnone, List.append_nil, List.filter_cons, hnext,
        not_checkpoint_of_scroll hmessage]
      rfl
    refine Eq.trans ?_ hsent.symm
    unfold Ledger.kept
    rw [← List.append_assoc, List.filter_append, List.filter_cons, not_checkpoint_of_scroll hmessage]
    rfl
  · rw [zipIdx_concat]
    exact List.mem_append_left _ (hlost entry hentry)
  · rcases List.mem_append.mp hentry with hentry | hentry
    · exact h.superseded entry hentry
    · rwa [List.mem_singleton.mp hentry]

theorem take (h : Sound ledger) : Sound ledger.take := by
  unfold Ledger.take
  cases hqueued : ledger.queued with
  | nil => exact h
  | cons entry queued =>
    refine ⟨?_, h.lost, h.discarded, h.superseded⟩
    refine Eq.trans ?_ h.kept
    unfold Ledger.kept
    rw [hqueued, List.append_assoc]
    rfl

theorem discard (h : Sound ledger) : Sound ledger.discard := by
  have hflatten : (ledger.discarded ++ [ledger.queued.filter (·.1.isInput)]).flatten =
      ledger.discarded.flatten ++ ledger.queued.filter (·.1.isInput) := by
    rw [List.flatten_append, List.flatten_singleton]
  unfold Ledger.discard
  refine ⟨?_, fun entry hentry => ?_, fun entry hentry => ?_, h.superseded⟩
  · have hkept : ledger.kept = (ledger.received.filter fun entry => !entry.1.isCheckpoint) ++
        ledger.queued.filter fun entry => !entry.1.isCheckpoint := List.filter_append ..
    have hinput : ((ledger.queued.filter fun entry => !entry.1.isCheckpoint).filter fun entry => entry.1.isInput) =
        ledger.queued.filter fun entry => entry.1.isInput := by
      rw [List.filter_filter]
      refine List.filter_congr fun entry _ => ?_
      cases hentry : entry.1.isInput with
      | false => rfl
      | true => rw [not_checkpoint_of_input hentry]; rfl
    have hleft := h.filter_gone hkept (fun entry => entry.1.isInput)
      (((ledger.discarded ++ [ledger.queued.filter (·.1.isInput)]).flatten ++
        ledger.superseded).map Prod.snd) fun number => by
        rw [hinput, hflatten]
        unfold Ledger.gone Ledger.lost
        simp only [List.map_append, List.mem_append]
        tauto
    refine Eq.trans ?_ hleft.symm
    unfold Ledger.kept
    rw [List.filter_append, List.filter_filter, List.filter_filter]
    congr 1
    exact List.filter_congr fun entry _ => Bool.and_comm _ _
  · rw [Ledger.lost, hflatten] at hentry
    simp only [List.mem_append] at hentry
    rcases hentry with (hentry | hentry) | hentry
    · exact h.lost entry (List.mem_append_left _ hentry)
    · obtain ⟨hmem, hinput⟩ := List.mem_filter.mp hentry
      exact h.mem_sent hmem (not_checkpoint_of_input hinput)
    · exact h.lost entry (List.mem_append_right _ hentry)
  · rw [hflatten] at hentry
    rcases List.mem_append.mp hentry with hentry | hentry
    · exact h.discarded entry hentry
    · exact (List.mem_filter.mp hentry).2

theorem accept (h : Sound ledger) (message : RuntimeMessage ρ σ) : Sound (ledger.accept message) := by
  unfold Ledger.accept
  cases houtdated : outdated ledger.queued message with
  | some last =>
    unfold outdated at houtdated
    split_ifs at houtdated with hmessage
    obtain ⟨hlast, hscroll⟩ := Option.filter_eq_some_iff.mp houtdated
    obtain ⟨queued, hqueued⟩ := List.getLast?_eq_some_iff.mp hlast
    have hsupersede := h.supersede hqueued hscroll hmessage
    dsimp only
    rwa [hqueued, List.dropLast_concat]
  | none =>
    dsimp only
    split_ifs with hcheckpoint
    · rw [Bool.and_eq_true] at hcheckpoint
      exact h.replace hcheckpoint.1
    · exact h.push message

end Sound

end Ledger

/-! ### The mailbox and its ledger -/

/-- What the mailbox and its ledger have in common, in every state of every run. -/
structure Accounts (sizes : InputSizes) (watched : Watched ρ σ) : Prop where
  sound : watched.ledger.Sound
  queue : watched.ledger.queued.map Prod.fst = watched.mailbox.queue
  controlCount : watched.mailbox.controlCount = watched.mailbox.queue.countP fun message => !message.isOutput
  outputCount : watched.mailbox.outputCount = watched.mailbox.queue.countP (·.isOutput)
  outputs : watched.mailbox.outputCount ≤ outputBufferCount
  oneCheckpoint : watched.mailbox.queue.countP (·.isCheckpoint) ≤ 1
  lastCheckpoint : ∀ snapshot, .restoreCheckpoint snapshot ∈ watched.mailbox.queue →
    (watched.ledger.sent.filterMap (·.checkpoint?)).getLast? = some snapshot
  received : watched.ledger.received.map Prod.fst = watched.answers.filterMap (·.message?)
  reported : watched.answers.filterMap (·.bytes?) =
    watched.ledger.discarded.map fun entries => min (totalBytes sizes (entries.map Prod.fst)) usizeMax

theorem accounts_new (sizes : InputSizes) : Accounts sizes (.new : Watched ρ σ) where
  sound := Ledger.sound_empty
  queue := rfl
  controlCount := rfl
  outputCount := rfl
  outputs := Nat.zero_le _
  oneCheckpoint := Nat.zero_le _
  lastCheckpoint _ h := absurd h List.not_mem_nil
  received := rfl
  reported := rfl

theorem countP_concat {α : Type*} (p : α → Bool) (xs : List α) (x : α) :
    (xs ++ [x]).countP p = xs.countP p + if p x then 1 else 0 := by
  rw [List.countP_append, List.countP_singleton]

/-- A checkpoint takes the place of the only one. -/
theorem replaceCheckpoint_eq {snapshot : σ} {queue : List (RuntimeMessage ρ σ)}
    (hone : queue.countP (·.isCheckpoint) ≤ 1) :
    MailboxState.replaceCheckpoint snapshot queue =
      if queue.any (·.isCheckpoint) then
        some (queue.map fun message => if message.isCheckpoint then .restoreCheckpoint snapshot else message)
      else none := by
  induction queue with
  | nil => rfl
  | cons message queue ih =>
    cases hmessage : message.isCheckpoint with
    | true =>
      rw [List.countP_cons_of_pos hmessage] at hone
      have hnone : ∀ other ∈ queue, other.isCheckpoint = false := fun other hother => by
        have hzero := List.countP_eq_zero.mp (Nat.le_zero.mp (Nat.le_of_succ_le_succ hone)) other hother
        exact Bool.not_eq_true _ ▸ hzero
      have hrest : (queue.map fun message => if message.isCheckpoint then .restoreCheckpoint snapshot
          else message) = queue := by
        nth_rewrite 2 [← List.map_id queue]
        exact List.map_congr_left fun other hother => by rw [hnone other hother]; rfl
      rw [List.any_cons, hmessage, List.map_cons, hmessage, hrest]
      cases message with
      | restoreCheckpoint waiting => rfl
      | _ => exact nomatch hmessage
    | false =>
      rw [List.countP_cons_of_neg (by simp [hmessage])] at hone
      have hstep : MailboxState.replaceCheckpoint snapshot (message :: queue) =
          (MailboxState.replaceCheckpoint snapshot queue).map (message :: ·) := by
        cases message with
        | restoreCheckpoint waiting => exact nomatch hmessage
        | _ => rfl
      rw [hstep, ih hone, List.any_cons, hmessage, Bool.false_or, List.map_cons, hmessage,
        if_neg Bool.false_ne_true]
      split_ifs <;> rfl

namespace Accounts

variable {sizes : InputSizes} {mailbox mailbox' : MailboxState ρ σ} {ledger : Ledger ρ σ}
  {answers : List (Answer ρ σ)}

/-- A call that only changes what is accepted from now on, or nothing. -/
theorem still (h : Accounts sizes ⟨mailbox, ledger, answers⟩) (hqueue : mailbox'.queue = mailbox.queue)
    (hcontrol : mailbox'.controlCount = mailbox.controlCount)
    (houtput : mailbox'.outputCount = mailbox.outputCount) {answer : Answer ρ σ} (hmessage : answer.message? = none)
    (hbytes : answer.bytes? = none) : Accounts sizes ⟨mailbox', ledger, answers ++ [answer]⟩ where
  sound := h.sound
  queue := h.queue.trans hqueue.symm
  controlCount := by rw [hcontrol, hqueue, h.controlCount]
  outputCount := by rw [houtput, hqueue, h.outputCount]
  outputs := houtput ▸ h.outputs
  oneCheckpoint := hqueue ▸ h.oneCheckpoint
  lastCheckpoint snapshot hmem := h.lastCheckpoint snapshot (hqueue ▸ hmem)
  received := by
    rw [List.filterMap_append, List.filterMap_cons, hmessage, List.filterMap_nil, List.append_nil, h.received]
  reported := by
    rw [List.filterMap_append, List.filterMap_cons, hbytes, List.filterMap_nil, List.append_nil, h.reported]

/-- An accepted message, by what it does to the queue and to the counts. -/
theorem accepted (h : Accounts sizes ⟨mailbox, ledger, answers⟩) (message : RuntimeMessage ρ σ)
    (hqueue : (ledger.accept message).queued.map Prod.fst = mailbox'.queue)
    (hcontrol : mailbox'.controlCount = mailbox'.queue.countP fun message => !message.isOutput)
    (houtput : mailbox'.outputCount = mailbox'.queue.countP (·.isOutput))
    (houtputs : mailbox'.outputCount ≤ outputBufferCount)
    (hcheckpoint : mailbox'.queue.countP (·.isCheckpoint) ≤ 1)
    (hlast : ∀ snapshot, .restoreCheckpoint snapshot ∈ mailbox'.queue →
      ((ledger.sent ++ [message]).filterMap (·.checkpoint?)).getLast? = some snapshot) :
    Accounts sizes ⟨mailbox', ledger.accept message, answers ++ [.accepted]⟩ where
  sound := h.sound.accept message
  queue := hqueue
  controlCount := hcontrol
  outputCount := houtput
  outputs := houtputs
  oneCheckpoint := hcheckpoint
  lastCheckpoint snapshot hmem := by
    rw [Ledger.sent_accept]
    exact hlast snapshot hmem
  received := by
    rw [List.filterMap_append, Ledger.received_accept, h.received]
    exact (List.append_nil _).symm
  reported := by
    rw [List.filterMap_append, Ledger.discarded_accept, ← h.reported]
    exact List.append_nil _

/-- A message at the end of the queue. -/
theorem pushed (h : Accounts sizes ⟨mailbox, ledger, answers⟩) (message : RuntimeMessage ρ σ)
    (hscroll : message.isScroll = true → ∀ last ∈ mailbox.queue.getLast?, last.isScroll = false)
    (hcheckpoint : message.isCheckpoint = true → mailbox.queue.any (·.isCheckpoint) = false)
    (hqueue : mailbox'.queue = mailbox.queue ++ [message])
    (hcontrol : mailbox'.controlCount = mailbox.controlCount + if message.isOutput then 0 else 1)
    (houtput : mailbox'.outputCount = mailbox.outputCount + if message.isOutput then 1 else 0)
    (houtputs : mailbox'.outputCount ≤ outputBufferCount) :
    Accounts sizes ⟨mailbox', ledger.accept message, answers ++ [.accepted]⟩ := by
  have houtdated : Ledger.outdated ledger.queued message = none := by
    unfold Ledger.outdated
    split_ifs with hmessage
    · rw [Option.filter_eq_none_iff]
      intro last hlast
      rw [Bool.not_eq_true]
      refine hscroll hmessage last.1 ?_
      rw [← h.queue, List.getLast?_map, hlast]
      rfl
    · rfl
  have hwaiting : (message.isCheckpoint && ledger.queued.any (·.1.isCheckpoint)) = false := by
    cases hmessage : message.isCheckpoint with
    | false => rfl
    | true =>
      have hnone := hcheckpoint hmessage
      rw [← h.queue, List.any_map] at hnone
      exact hnone
  have hsnapshot : ∀ snapshot, .restoreCheckpoint snapshot ∈ mailbox.queue ++ [message] →
      ((ledger.sent ++ [message]).filterMap (·.checkpoint?)).getLast? = some snapshot := by
    intro snapshot hmem
    rw [List.filterMap_append, List.filterMap_cons, List.filterMap_nil]
    rcases List.mem_append.mp hmem with hmem | hmem
    · cases hmessage : message.checkpoint? with
      | none =>
        rw [List.append_nil]
        exact h.lastCheckpoint snapshot hmem
      | some other =>
        have hnone := hcheckpoint (by rw [isCheckpoint, hmessage]; rfl)
        exact absurd rfl (List.any_eq_false.mp hnone _ hmem)
    · obtain rfl := List.mem_singleton.mp hmem
      exact List.getLast?_concat
  refine h.accepted message ?_ ?_ ?_ houtputs ?_ (hqueue ▸ hsnapshot)
  · unfold Ledger.accept
    rw [houtdated, hwaiting, hqueue, ← h.queue]
    exact List.map_append
  · rw [hcontrol, hqueue, countP_concat, h.controlCount]
    cases message.isOutput <;> rfl
  · rw [houtput, hqueue, countP_concat, h.outputCount]
  · rw [hqueue, countP_concat]
    cases hmessage : message.isCheckpoint with
    | false => exact h.oneCheckpoint
    | true =>
      have hzero : mailbox.queue.countP (·.isCheckpoint) = 0 := List.countP_eq_zero.mpr fun other hother =>
        List.any_eq_false.mp (hcheckpoint hmessage) other hother
      rw [hzero]
      exact Nat.le_refl _

/-- A row to scroll to in the place of the one at the end. -/
theorem superseded (h : Accounts sizes ⟨mailbox, ledger, answers⟩) (row : ℕ)
    {queue : List (RuntimeMessage ρ σ)} {row' : ℕ} (hqueue : mailbox.queue = queue ++ [.scrollToViewportRow row']) :
    Accounts sizes ⟨{ mailbox with queue := queue ++ [.scrollToViewportRow row] },
      ledger.accept (.scrollToViewportRow row), answers ++ [.accepted]⟩ := by
  have hmap := h.queue
  dsimp only at hmap
  rw [hqueue] at hmap
  obtain ⟨queued, lasts, hqueued, hfront, hlasts⟩ := List.map_eq_append_iff.mp hmap
  obtain ⟨last, rfl, hlast⟩ := List.map_eq_singleton_iff.mp hlasts
  have houtdated : Ledger.outdated ledger.queued (.scrollToViewportRow row) = some last := by
    have hlatest : ledger.queued.getLast? = some last := by rw [hqueued, List.getLast?_concat]
    have hscroll : last.1.isScroll = true := by rw [hlast]; rfl
    unfold Ledger.outdated
    exact (congrArg _ hlatest).trans (Option.filter_some_pos hscroll)
  have hcount : ∀ p : RuntimeMessage ρ σ → Bool, p (scrollToViewportRow row) = p (scrollToViewportRow row') →
      (queue ++ [scrollToViewportRow row]).countP p = mailbox.queue.countP p := fun p hp => by
    rw [hqueue, countP_concat, countP_concat, hp]
  refine h.accepted _ ?_ ?_ ?_ h.outputs ?_ fun snapshot hmem => ?_
  · unfold Ledger.accept
    rw [houtdated, hqueued]
    dsimp only
    rw [List.dropLast_concat, List.map_append, hfront]
    rfl
  · exact h.controlCount.trans (hcount (fun message => !message.isOutput) rfl).symm
  · exact h.outputCount.trans (hcount (·.isOutput) rfl).symm
  · exact Nat.le_trans (Nat.le_of_eq (hcount (·.isCheckpoint) rfl)) h.oneCheckpoint
  · rw [List.filterMap_append]
    refine (congrArg List.getLast? (List.append_nil _)).trans (h.lastCheckpoint snapshot ?_)
    rw [hqueue]
    rcases List.mem_append.mp hmem with hmem | hmem
    · exact List.mem_append_left _ hmem
    · exact nomatch List.mem_singleton.mp hmem

/-- A checkpoint in the place of the one that waits. -/
theorem replaced (h : Accounts sizes ⟨mailbox, ledger, answers⟩) {snapshot : σ}
    (hwaiting : mailbox.queue.any (·.isCheckpoint) = true) :
    Accounts sizes ⟨{ mailbox with queue := mailbox.queue.map fun message =>
        if message.isCheckpoint then .restoreCheckpoint snapshot else message },
      ledger.accept (.restoreCheckpoint snapshot), answers ++ [.accepted]⟩ := by
  have hcount : ∀ p : RuntimeMessage ρ σ → Bool, (∀ message : RuntimeMessage ρ σ, message.isCheckpoint = true →
      p message = p (.restoreCheckpoint snapshot)) → (mailbox.queue.map fun message =>
        if message.isCheckpoint then .restoreCheckpoint snapshot else message).countP p =
          mailbox.queue.countP p := by
    intro p hp
    rw [List.countP_map]
    refine List.countP_congr fun message _ => ?_
    rw [Function.comp_apply]
    split_ifs with hmessage
    · rw [hp message hmessage]
    · rfl
  have hkind : ∀ message : RuntimeMessage ρ σ, message.isCheckpoint = true → message.isOutput = false := by
    intro message hmessage
    cases message with
    | restoreCheckpoint other => rfl
    | _ => exact nomatch hmessage
  refine h.accepted _ ?_ ?_ ?_ h.outputs ?_ fun other hmem => ?_
  · have hany : ledger.queued.any (·.1.isCheckpoint) = true := by
      rw [← h.queue, List.any_map] at hwaiting
      exact hwaiting
    unfold Ledger.accept
    rw [show Ledger.outdated ledger.queued (.restoreCheckpoint snapshot) = none from rfl]
    dsimp only
    rw [if_pos (by rw [hany]; rfl), ← h.queue, List.map_map, List.map_map]
    refine List.map_congr_left fun entry _ => ?_
    rw [Function.comp_apply, Function.comp_apply]
    split_ifs <;> rfl
  · rw [hcount _ fun message hmessage => by rw [hkind message hmessage]; rfl]
    exact h.controlCount
  · rw [hcount _ fun message hmessage => by rw [hkind message hmessage]; rfl]
    exact h.outputCount
  · rw [hcount _ fun message hmessage => by rw [hmessage]; rfl]
    exact h.oneCheckpoint
  · obtain ⟨message, -, heq⟩ := List.mem_map.mp hmem
    have hsame : snapshot = other := by
      split_ifs at heq with hmessage
      · exact RuntimeMessage.restoreCheckpoint.inj heq
      · rw [heq] at hmessage
        exact absurd rfl hmessage
    rw [List.filterMap_append, ← hsame]
    exact List.getLast?_concat

/-- A message that is taken from the front. -/
theorem taken (h : Accounts sizes ⟨mailbox, ledger, answers⟩) {message : RuntimeMessage ρ σ}
    {queue : List (RuntimeMessage ρ σ)} (hfront : mailbox.queue = message :: queue)
    (hqueue : mailbox'.queue = queue)
    (hcontrol : mailbox'.controlCount = mailbox.controlCount - if message.isOutput then 0 else 1)
    (houtput : mailbox'.outputCount = mailbox.outputCount - if message.isOutput then 1 else 0) :
    Accounts sizes ⟨mailbox', ledger.take, answers ++ [.received message]⟩ := by
  have hmap := h.queue
  dsimp only at hmap
  rw [hfront] at hmap
  obtain ⟨entry, queued, hqueued, hentry, hrest⟩ := List.map_eq_cons_iff.mp hmap
  have htake : ledger.take = { ledger with queued := queued, received := ledger.received ++ [entry] } := by
    unfold Ledger.take
    rw [hqueued]
  have hcontrols := h.controlCount
  have houtputs := h.outputCount
  have hone := h.oneCheckpoint
  have hle := h.outputs
  dsimp only at hcontrols houtputs hone hle
  rw [hfront, List.countP_cons] at hcontrols houtputs hone
  have htaken := h.sound.take
  rw [htake] at htaken ⊢
  refine ⟨htaken, hrest.trans hqueue.symm, ?_, ?_, ?_, ?_, fun snapshot hmem => ?_, ?_, ?_⟩
  · dsimp only
    rw [hcontrol, hqueue, hcontrols]
    cases message.isOutput <;> simp
  · dsimp only
    rw [houtput, hqueue, houtputs]
    cases message.isOutput <;> simp
  · dsimp only
    rw [houtput]
    exact Nat.le_trans (Nat.sub_le _ _) hle
  · dsimp only
    rw [hqueue]
    exact Nat.le_trans (Nat.le_add_right _ _) hone
  · refine h.lastCheckpoint snapshot ?_
    dsimp only at hmem ⊢
    rw [hfront]
    exact List.mem_cons_of_mem _ (hqueue ▸ hmem)
  · dsimp only
    rw [List.map_append, List.filterMap_append, h.received, List.map_singleton, hentry]
    rfl
  · dsimp only
    rw [List.filterMap_append, h.reported]
    exact List.append_nil _

end Accounts

/-! ### The end of the input -/

theorem saturatingAdd_min (total bytes : ℕ) :
    saturatingAdd (min total usizeMax) bytes = min (total + bytes) usizeMax := by
  unfold saturatingAdd
  omega

/-- The loop retains what is no input, counts it off and adds its bytes up. -/
theorem retainLoop_eq (sizes : InputSizes) (queue : List (RuntimeMessage ρ σ)) (controlCount total : ℕ) :
    MailboxState.retainLoop sizes queue controlCount (min total usizeMax) =
      (queue.filter (fun message => !message.isInput), controlCount - queue.countP (·.isInput),
        min (total + totalBytes sizes (queue.filter (·.isInput))) usizeMax) := by
  induction queue generalizing controlCount total with
  | nil => rfl
  | cons message queue ih =>
    have hsome := isSome_queuedInputBytes sizes message
    unfold MailboxState.retainLoop
    cases hbytes : message.queuedInputBytes sizes with
    | none =>
      rw [hbytes] at hsome
      dsimp only
      rw [ih, List.filter_cons_of_pos (by rw [← hsome]; rfl), List.countP_cons_of_neg (by rw [← hsome]; decide),
        List.filter_cons_of_neg (by rw [← hsome]; decide)]
    | some bytes =>
      rw [hbytes] at hsome
      dsimp only
      rw [saturatingAdd_min, ih, List.filter_cons_of_neg (by rw [← hsome]; exact Bool.false_ne_true),
        List.countP_cons_of_pos hsome.symm, List.filter_cons_of_pos hsome.symm]
      unfold totalBytes
      rw [List.filterMap_cons, hbytes]
      dsimp only
      rw [List.sum_cons, Nat.sub_sub, Nat.add_comm 1, Nat.add_assoc total]

theorem countP_filter_add {α : Type*} (p q : α → Bool) (h : ∀ x, q x = true → p x = true) (xs : List α) :
    (xs.filter fun x => !q x).countP p + xs.countP q = xs.countP p := by
  induction xs with
  | nil => rfl
  | cons x xs ih =>
    cases hq : q x with
    | true =>
      rw [List.filter_cons_of_neg (by simp [hq]), List.countP_cons_of_pos hq, List.countP_cons_of_pos (h x hq)]
      omega
    | false =>
      rw [List.filter_cons_of_pos (by simp [hq]), List.countP_cons, List.countP_cons, List.countP_cons, hq,
        if_neg Bool.false_ne_true]
      omega

theorem Accounts.stopped {sizes : InputSizes} {mailbox : MailboxState ρ σ} {ledger : Ledger ρ σ}
    {answers : List (Answer ρ σ)} (h : Accounts sizes ⟨mailbox, ledger, answers⟩) :
    Accounts sizes ⟨(mailbox.stopAcceptingInput sizes).1, ledger.discard,
      answers ++ [(mailbox.stopAcceptingInput sizes).2]⟩ := by
  have hloop := retainLoop_eq sizes mailbox.queue mailbox.controlCount 0
  rw [Nat.zero_min, Nat.zero_add] at hloop
  unfold MailboxState.stopAcceptingInput
  rw [hloop]
  have hkind : ∀ message : RuntimeMessage ρ σ, message.isInput = true → message.isOutput = false := by
    intro message hmessage
    cases message with
    | output bytes => exact nomatch hmessage
    | _ => rfl
  have hqueue := h.queue
  have hcontrols := h.controlCount
  have houtputs := h.outputCount
  dsimp only at hqueue hcontrols houtputs
  have hfilter : ∀ p : RuntimeMessage ρ σ → Bool, (ledger.queued.filter fun entry => p entry.1).map Prod.fst =
      mailbox.queue.filter p := fun p => by
    rw [← hqueue, List.filter_map]
    rfl
  refine ⟨h.sound.discard, hfilter fun message => !message.isInput, ?_, ?_, h.outputs, ?_, fun snapshot hmem => ?_,
    ?_, ?_⟩
  · have hsum := countP_filter_add (fun message : RuntimeMessage ρ σ => !message.isOutput) (·.isInput)
      (fun message hmessage => by rw [hkind message hmessage]; rfl) mailbox.queue
    dsimp only
    omega
  · dsimp only
    rw [houtputs, List.countP_filter]
    refine List.countP_congr fun message _ => ?_
    cases hmessage : message.isInput with
    | false => simp
    | true => simp [hkind message hmessage]
  · exact Nat.le_trans List.filter_sublist.countP_le h.oneCheckpoint
  · exact h.lastCheckpoint snapshot (List.mem_of_mem_filter hmem)
  · dsimp only
    rw [List.filterMap_append]
    exact h.received.trans (List.append_nil _).symm
  · unfold Ledger.discard
    dsimp only
    rw [List.filterMap_append, h.reported, List.map_append, List.map_singleton, hfilter]
    rfl

/-! ### Runs -/

namespace Accounts

variable {sizes : InputSizes} {mailbox : MailboxState ρ σ} {ledger : Ledger ρ σ} {answers : List (Answer ρ σ)}

theorem pushControl (h : Accounts sizes ⟨mailbox, ledger, answers⟩) {message : RuntimeMessage ρ σ}
    (houtput : message.isOutput = false)
    (hscroll : message.isScroll = true → ∀ last ∈ mailbox.queue.getLast?, last.isScroll = false)
    (hcheckpoint : message.isCheckpoint = true → mailbox.queue.any (·.isCheckpoint) = false) :
    Accounts sizes ⟨(mailbox.pushControl message).1,
      ledger.note (.trySendControl message) (mailbox.pushControl message).2,
      answers ++ [(mailbox.pushControl message).2]⟩ := by
  unfold MailboxState.pushControl
  split_ifs
  · exact h.still rfl rfl rfl rfl rfl
  · exact h.pushed message hscroll hcheckpoint rfl (by rw [houtput]; rfl) (by rw [houtput]; rfl) h.outputs

theorem trySendControl (h : Accounts sizes ⟨mailbox, ledger, answers⟩) (message : RuntimeMessage ρ σ) :
    Accounts sizes ⟨(mailbox.trySendControl sizes message).1,
      ledger.note (.trySendControl message) (mailbox.trySendControl sizes message).2,
      answers ++ [(mailbox.trySendControl sizes message).2]⟩ := by
  unfold MailboxState.trySendControl
  split_ifs with hasserted
  · exact h.still rfl rfl rfl rfl rfl
  · exact h.still rfl rfl rfl rfl rfl
  · exact h.still rfl rfl rfl rfl rfl
  cases message with
  | scrollToViewportRow row =>
    dsimp only
    cases hlast : mailbox.queue.getLast? with
    | none => exact h.pushControl rfl (fun _ last hmem => by rw [hlast] at hmem; exact nomatch hmem) nofun
    | some last =>
      cases last with
      | scrollToViewportRow row' =>
        obtain ⟨queue, hqueue⟩ := List.getLast?_eq_some_iff.mp hlast
        have hsuperseded := h.superseded row hqueue
        dsimp only
        rw [hqueue, List.dropLast_concat]
        exact hsuperseded
      | _ =>
        refine h.pushControl rfl (fun _ last hmem => ?_) nofun
        rw [hlast] at hmem
        obtain rfl := Option.some.inj hmem
        rfl
  | restoreCheckpoint snapshot =>
    dsimp only
    rw [replaceCheckpoint_eq h.oneCheckpoint]
    cases hwaiting : mailbox.queue.any (·.isCheckpoint) with
    | true =>
      rw [if_pos rfl]
      exact h.replaced hwaiting
    | false =>
      rw [if_neg Bool.false_ne_true]
      exact h.pushControl rfl nofun fun _ => hwaiting
  | output bytes => exact absurd rfl hasserted
  | eof => exact absurd rfl hasserted
  | _ => exact h.pushControl rfl nofun nofun

/-- **One call.** -/
theorem step {watched : Watched ρ σ} (h : Accounts sizes watched) (c : Call ρ σ) :
    Accounts sizes (watched.step sizes c) := by
  obtain ⟨mailbox, ledger, answers⟩ := watched
  unfold Watched.step
  cases c with
  | trySendControl message => exact h.trySendControl message
  | sendOutput buffer =>
    dsimp only [MailboxState.call]
    unfold MailboxState.sendOutput
    split_ifs with hrefused
    · exact h.still rfl rfl rfl rfl rfl
    · simp only [Bool.or_eq_true, decide_eq_true_eq, not_or, Nat.not_le] at hrefused
      exact h.pushed (.output buffer) nofun nofun rfl rfl rfl hrefused.2
  | sendEof =>
    dsimp only [MailboxState.call]
    unfold MailboxState.sendEof
    split_ifs
    · exact h.still rfl rfl rfl rfl rfl
    · exact h.pushed .eof nofun nofun rfl rfl rfl h.outputs
  | recv =>
    dsimp only [MailboxState.call]
    unfold MailboxState.recv MailboxState.popFront
    cases hqueue : mailbox.queue with
    | nil =>
      dsimp only
      split_ifs
      · exact h.still rfl rfl rfl rfl rfl
      · exact h.still rfl rfl rfl rfl rfl
    | cons message queue =>
      dsimp only
      cases hmessage : message.isOutput with
      | true =>
        rw [if_pos rfl]
        exact h.taken hqueue rfl (by rw [hmessage]; rfl) (by rw [hmessage]; rfl)
      | false =>
        rw [if_neg Bool.false_ne_true]
        exact h.taken hqueue rfl (by rw [hmessage]; rfl) (by rw [hmessage]; rfl)
  | tryRecvConsecutiveOutput =>
    dsimp only [MailboxState.call]
    unfold MailboxState.tryRecvConsecutiveOutput
    cases hqueue : mailbox.queue with
    | nil => exact h.still rfl rfl rfl rfl rfl
    | cons message queue =>
      cases message with
      | output bytes => exact h.taken hqueue rfl rfl rfl
      | _ => exact h.still rfl rfl rfl rfl rfl
  | stopAcceptingInput => exact h.stopped
  | close =>
    have hqueue : mailbox.close.1.queue = mailbox.queue := rfl
    exact h.still hqueue rfl rfl rfl rfl

end Accounts

/-- **Any run.** -/
theorem accounts_run (sizes : InputSizes) (calls : List (Call ρ σ)) : Accounts sizes (run sizes calls) := by
  have hfrom : ∀ {watched : Watched ρ σ}, Accounts sizes watched →
      Accounts sizes (calls.foldl (Watched.step sizes) watched) := by
    induction calls with
    | nil => exact id
    | cons c calls ih => exact fun h => ih (h.step c)
  exact hfrom (accounts_new sizes)

/-- The message that a call with this answer has put into the mailbox. -/
def acceptedMessage : Call ρ σ × Answer ρ σ → Option (RuntimeMessage ρ σ)
  | (.trySendControl message, .accepted) => some message
  | (.sendOutput buffer, .accepted) => some (.output buffer)
  | (.sendEof, .accepted) => some .eof
  | _ => none

theorem sent_note (ledger : Ledger ρ σ) (c : Call ρ σ) (answer : Answer ρ σ) :
    (ledger.note c answer).sent = ledger.sent ++ (acceptedMessage (c, answer)).toList := by
  have htake : ledger.take.sent = ledger.sent := by
    unfold Ledger.take
    cases ledger.queued <;> rfl
  cases c with
  | trySendControl message =>
    cases answer with
    | accepted => exact Ledger.sent_accept ledger message
    | _ => exact (List.append_nil _).symm
  | sendOutput buffer =>
    cases answer with
    | accepted => exact Ledger.sent_accept ledger _
    | _ => exact (List.append_nil _).symm
  | sendEof =>
    cases answer with
    | accepted => exact Ledger.sent_accept ledger _
    | _ => exact (List.append_nil _).symm
  | recv =>
    cases answer with
    | received message => exact htake.trans (List.append_nil _).symm
    | _ => exact (List.append_nil _).symm
  | tryRecvConsecutiveOutput =>
    cases answer with
    | received message => exact htake.trans (List.append_nil _).symm
    | _ => exact (List.append_nil _).symm
  | stopAcceptingInput => cases answer <;> exact (List.append_nil _).symm
  | close => cases answer <;> exact (List.append_nil _).symm

/-- The ledger has the messages whose calls were answered so. -/
theorem sent_run (sizes : InputSizes) (calls : List (Call ρ σ)) :
    (run sizes calls).answers.length = calls.length ∧
      (run sizes calls).ledger.sent = (calls.zip (run sizes calls).answers).filterMap acceptedMessage := by
  induction calls using List.reverseRecOn with
  | nil => exact ⟨rfl, rfl⟩
  | append_singleton calls c ih =>
    obtain ⟨hlength, hsent⟩ := ih
    unfold run at hlength hsent ⊢
    rw [List.foldl_concat]
    generalize calls.foldl (Watched.step sizes) .new = watched at *
    unfold Watched.step
    refine ⟨by simp [hlength], ?_⟩
    dsimp only
    rw [sent_note, hsent, List.zip_append hlength.symm, List.filterMap_append]
    congr 1

/-- In every state of every run the counts are those of the queue, so that none is too small for what is taken off
it, there are at most four outputs and one checkpoint, which is the last that was accepted. What was received and
what is queued, without checkpoints, is what was accepted, in its order, without the input that the ends of the input
have discarded and the rows that another one has superseded; the bytes reported are those of the input discarded, as
far as they fit. -/
theorem mailbox_accounts (sizes : InputSizes) (calls : List (Call ρ σ)) :
    Accounts sizes (run sizes calls) ∧
      (∀ message queue, (run sizes calls).mailbox.queue = message :: queue →
        0 < if message.isOutput then (run sizes calls).mailbox.outputCount
          else (run sizes calls).mailbox.controlCount) ∧
      (run sizes calls).mailbox.queue.countP (·.isInput) ≤ (run sizes calls).mailbox.controlCount ∧
      (run sizes calls).ledger.sent = (calls.zip (run sizes calls).answers).filterMap acceptedMessage := by
  have haccounts := accounts_run sizes calls
  refine ⟨haccounts, fun message queue hqueue => ?_, ?_, (sent_run sizes calls).2⟩
  · rw [haccounts.controlCount, haccounts.outputCount, hqueue]
    cases hmessage : message.isOutput with
    | true =>
      rw [if_pos rfl, List.countP_cons_of_pos hmessage]
      exact Nat.succ_pos _
    | false =>
      rw [if_neg Bool.false_ne_true, List.countP_cons_of_pos (by rw [hmessage]; rfl)]
      exact Nat.succ_pos _
  · rw [haccounts.controlCount]
    refine List.countP_mono_left fun message _ hinput => ?_
    cases message with
    | output bytes => exact nomatch hinput
    | _ => rfl

/-- Two movements of a wheel whose turns do not fit: the bytes that are reported are not all of them. -/
theorem not_all_bytes_reported :
    (run ⟨0, 0, 0⟩ [.trySendControl (.mouseInput () usizeMax), .trySendControl (.mouseInput () usizeMax),
      .stopAcceptingInput] : Watched Unit Unit).answers = [.accepted, .accepted, .discarded usizeMax] ∧
      totalBytes ⟨0, 0, 0⟩ [(.mouseInput () usizeMax : RuntimeMessage Unit Unit), .mouseInput () usizeMax] ≠
        usizeMax := by
  decide

end Paneflow.Terminal.Mailbox
