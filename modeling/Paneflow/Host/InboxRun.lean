import Paneflow.Host.Inbox
import Mathlib.Algebra.BigOperators.Group.List.Basic
import Mathlib.Tactic.Common

/-!
# Runs of the inbox

`Counted` holds in every run. `Flowing` says where the chunks are that have been read and who knows about those that
wait; a panic breaks it unless it comes behind the last chunk of a slice and nothing is left that the loop alone knows
about.
-/

namespace Paneflow.Host.Inbox

open Paneflow.Host.Stream Paneflow.Transition

/-! ### Slices -/

def size (chunks : List Chunk) : ℕ := (chunks.map List.length).sum

theorem size_append (chunks chunks' : List Chunk) : size (chunks ++ chunks') = size chunks + size chunks' := by
  simp [size]

theorem takeChunks_spec (maxBytes takenBytes : ℕ) (chunks : List Chunk) :
    (takeChunks maxBytes takenBytes chunks).1 ++ (takeChunks maxBytes takenBytes chunks).2.2 = chunks ∧
      (takeChunks maxBytes takenBytes chunks).2.1 = takenBytes + size (takeChunks maxBytes takenBytes chunks).1 := by
  induction chunks generalizing takenBytes with
  | nil => exact ⟨rfl, rfl⟩
  | cons chunk chunks ih =>
    unfold takeChunks
    split_ifs
    · exact ⟨rfl, rfl⟩
    · obtain ⟨happend, hbytes⟩ := ih (takenBytes + chunk.length)
      refine ⟨congrArg (chunk :: ·) happend, ?_⟩
      dsimp only
      rw [hbytes, size, size, List.map_cons, List.sum_cons, Nat.add_assoc]

/-- A slice and what it leaves. -/
theorem takeSlice_spec (inbox : PtyInbox) (maxBytes : ℕ) :
    ∃ taken left, inbox.chunks = taken ++ left ∧ inbox.takeSlice maxBytes =
      ((taken, !left.isEmpty), ⟨left, inbox.bytes - size taken, !left.isEmpty, inbox.closed⟩) := by
  obtain ⟨happend, hbytes⟩ := takeChunks_spec maxBytes 0 inbox.chunks
  refine ⟨_, _, happend.symm, ?_⟩
  unfold PtyInbox.takeSlice
  dsimp only
  rw [hbytes, Nat.zero_add]

/-! ### Steps -/

/-- What has been taken out of the inbox and is still to be fed. -/
def Loop.rest : Loop → List Chunk
  | .draining _ rest _ _ => rest
  | _ => []

/-- `finalize` has drained the inbox. -/
def Loop.completes : Loop → Bool
  | .completing _ _ => true
  | _ => false

/-- The loop will come back to the inbox by itself, or is gone. -/
def Loop.knows : Loop → Bool
  | .waiting locals => locals.outputPending
  | .draining .serveLoop _ more _ => more
  | .draining (.finalize _) _ more locals => more || locals.outputPending
  | .completing _ locals => locals.outputPending
  | .advancing locals => locals.outputPending
  | .settling locals => locals.outputPending
  | .resting locals => locals.outputPending
  | .returned => true

/-- What a step can do. -/
inductive Did (session : Session) : Label → Session → Prop
  | read (chunk : Chunk) (hreader : session.reader = .reading) :
    Did session (.read chunk) { session with reader := .pushing chunk, read := session.read ++ [chunk] }
  | pushed (chunk : Chunk) (hreader : session.reader = .pushing chunk) (hroom : ¬session.inbox.waits chunk) :
    Did session .push { session with
      inbox := (session.inbox.push chunk).2
      reader := if (session.inbox.push chunk).1 then .notifying else .reading }
  | notified (hreader : session.reader = .notifying) :
    Did session .notify { session with reader := .reading, queue := session.queue ++ [.outputReady] }
  | unheard {label : Label} (hloop : session.loop = .returned) (hreader : ∀ chunk, session.reader ≠ .pushing chunk) :
    Did session label { session with reader := .ended }
  | eof (hreader : session.reader = .reading) : Did session .eof { session with reader := .finishing }
  | sentEof (hreader : session.reader = .finishing) :
    Did session .sendEof { session with reader := .ended, queue := session.queue ++ [.eof] }
  | posted (message : Message) : Did session (.post message) { session with queue := session.queue ++ [message] }
  | dropped : Did session .drop { session with dropped := true }
  /-- The loop goes on without the inbox. -/
  | went {label : Label} (queue : List Message) (readerEof exit drainDeadline : Bool) (loop : Loop)
    (hqueue : .outputReady ∈ session.queue → .outputReady ∈ queue)
    (hrest : session.loop.rest = [] ∧ loop.rest = [] ∧ loop.completes = false)
    (hknows : session.loop.knows = true → loop.knows = true) :
    Did session label { session with queue, readerEof, exit, drainDeadline, loop }
  | sliced {label : Label} (queue : List Message) (drainDeadline : Bool) (caller : Caller) (locals : Locals)
    (hrest : session.loop.rest = []) :
    Did session label (({ session with queue, drainDeadline } : Session).drainInbox caller locals)
  | fed (caller : Caller) (chunk : Chunk) (rest : List Chunk) (more : Bool) (locals : Locals)
    (hloop : session.loop = .draining caller (chunk :: rest) more locals) :
    Did session (.feed false) { session with
      stream := session.stream.append chunk
      loop := .draining caller rest more locals }
  | panicked (caller : Caller) (chunk : Chunk) (rest : List Chunk) (more : Bool) (locals : Locals)
    (hloop : session.loop = .draining caller (chunk :: rest) more locals) :
    Did session (.feed true) { ({ session with stream := session.stream.append chunk } : Session).retireEngine with
      loop := .waiting ⟨false, false⟩ }
  | emptied (complete : Bool) (locals : Locals) (hloop : session.loop = .draining (.finalize complete) [] false locals) :
    Did session .drained { session with
      loop := .completing complete locals
      completed := true
      stream := session.stream.finish }
  | completed (notice : Option CompletedRecord) (complete : Bool) (locals : Locals) (loop : Loop)
    (hloop : session.loop = .completing complete locals) (hrest : loop.rest = [] ∧ loop.completes = false)
    (hknows : loop.knows = locals.outputPending) :
    Did session .complete { session.retireEngine with tailRelease := true, notice, loop }
  | released (due quiet : Bool) (loop : Loop) (hrelease : session.tailRelease = true) (hrest : session.loop.rest = [])
    (hrest' : loop.rest = [] ∧ loop.completes = false) :
    Did session (.rest due quiet) { session with tailRelease := false, stream := session.stream.release, loop }

variable {session session' : Session} {label : Label} {capacity : ℕ} {chunk : Chunk} {inbox : PtyInbox}

/-- A message is that there is output, or it only changes what is known of the child. -/
theorem dispatch_cases (session : Session) (locals : Locals) (message : Message) :
    message = .outputReady ∧ session.dispatch locals message = session.drainInbox .serveLoop locals ∨
      message ≠ .outputReady ∧ ∃ readerEof exit drainDeadline, session.dispatch locals message =
        { session with readerEof, exit, drainDeadline, loop := .advancing locals } := by
  cases message with
  | outputReady => exact .inl ⟨rfl, rfl⟩
  | childExited outcome =>
    refine .inr ⟨nofun, ?_⟩
    rcases outcome with _ | _
    · exact ⟨_, _, _, rfl⟩
    · rcases hexit : session.exit with _ | _
      · exact ⟨session.readerEof, true, session.drainDeadline || !session.readerEof,
          by simp [Session.dispatch, Session.recordExit, hexit]⟩
      · exact ⟨session.readerEof, session.exit, session.drainDeadline,
          by simp [Session.dispatch, Session.recordExit, hexit]⟩
  | eof => exact .inr ⟨nofun, _, _, _, rfl⟩
  | rootExiting => exact .inr ⟨nofun, _, _, _, rfl⟩
  | command => exact .inr ⟨nofun, _, _, _, rfl⟩
  | processListing => exact .inr ⟨nofun, _, _, _, rfl⟩

theorem did_finalize (session : Session) (label : Label) (drainDeadline complete : Bool) (locals : Locals) (next : Loop)
    (hrest : session.loop.rest = [] ∧ next.rest = [] ∧ next.completes = false) (hknows : session.loop.knows = true → next.knows = true) :
    Did session label (({ session with drainDeadline } : Session).finalize complete locals next) := by
  unfold Session.finalize
  split_ifs
  · exact .went session.queue session.readerEof session.exit drainDeadline next id hrest hknows
  · exact .sliced session.queue drainDeadline (.finalize complete) locals hrest.1

theorem did_loop (session : Session) (label : Label) (loop : Loop)
    (hrest : session.loop.rest = [] ∧ loop.rest = [] ∧ loop.completes = false)
    (hknows : session.loop.knows = true → loop.knows = true) : Did session label { session with loop } :=
  .went session.queue session.readerEof session.exit session.drainDeadline loop id hrest hknows

theorem did_reader (h : session.step label = some session')
    (hlabel : label = .push ∨ label = .notify ∨ label = .eof ∨ label = .sendEof) : Did session label session' := by
  rcases hlabel with rfl | rfl | rfl | rfl
  · dsimp only [Session.step, Session.stepPush] at h
    rcases hreader : session.reader with _ | chunk | _ | _ | _ <;> rw [hreader] at h <;> try cases h
    dsimp only at h
    by_cases hroom : session.inbox.waits chunk
    · rw [if_pos hroom] at h
      cases h
    · rw [if_neg hroom] at h
      rw [← Option.some.inj h]
      exact .pushed chunk hreader hroom
  · dsimp only [Session.step, Session.stepNotify] at h
    split_ifs at h with hreader hloop
    · cases h
      exact .unheard hloop (by simp [hreader])
    · cases h
      exact .notified hreader
  · dsimp only [Session.step, Session.stepEof] at h
    split_ifs at h with hreader
    cases h
    exact .eof hreader
  · dsimp only [Session.step, Session.stepSendEof] at h
    split_ifs at h with hreader hloop
    · cases h
      exact .unheard hloop (by simp [hreader])
    · cases h
      exact .sentEof hreader

theorem did_message (h : session.step label = some session') (hlabel : label = .receive ∨ label = .idle ∨ label = .timeout) :
    Did session label session' := by
  rcases hlabel with rfl | rfl | rfl
  · dsimp only [Session.step, Session.stepReceive] at h
    rcases hloop : session.loop with locals | _ | _ | _ | _ | _ | _ <;> rw [hloop] at h <;> try cases h
    rcases hqueue : session.queue with _ | ⟨message, queue⟩
    · rw [hqueue] at h
      cases h
    rw [hqueue] at h
    dsimp only at h
    split_ifs at h
    rw [← Option.some.inj h]
    rcases dispatch_cases { session with queue, loop := .waiting locals } locals message with ⟨-, heq⟩ | ⟨hother, _, _, _, heq⟩
    · rw [heq]
      exact .sliced queue session.drainDeadline .serveLoop locals (by rw [hloop]; rfl)
    · rw [heq]
      refine .went queue _ _ _ (.advancing locals) ?_ (by rw [hloop]; exact ⟨rfl, rfl, rfl⟩) (by rw [hloop]; exact id)
      intro hmem
      rw [hqueue] at hmem
      exact (List.mem_cons.1 hmem).resolve_left hother.symm
  · dsimp only [Session.step, Session.stepIdle] at h
    rcases hloop : session.loop with locals | _ | _ | _ | _ | _ | _ <;> rw [hloop] at h <;> try cases h
    dsimp only at h
    split_ifs at h
    rw [← Option.some.inj h]
    exact .sliced session.queue session.drainDeadline .serveLoop locals (by rw [hloop]; rfl)
  · dsimp only [Session.step, Session.stepTimeout] at h
    rcases hloop : session.loop with locals | _ | _ | _ | _ | _ | _ <;> rw [hloop] at h <;> try cases h
    dsimp only at h
    split_ifs at h
    rw [← Option.some.inj h]
    exact did_loop session _ _ (by rw [hloop]; exact ⟨rfl, rfl, rfl⟩) (by rw [hloop]; exact id)

theorem did_drain {panics : Bool} (h : session.step label = some session')
    (hlabel : label = .feed panics ∨ label = .drained ∨ label = .complete) : Did session label session' := by
  rcases hlabel with rfl | rfl | rfl
  · dsimp only [Session.step, Session.stepFeed] at h
    rcases hloop : session.loop with _ | ⟨caller, _ | ⟨chunk, rest⟩, more, locals⟩ | _ | _ | _ | _ | _ <;>
      rw [hloop] at h <;> try cases h
    dsimp only at h
    split_ifs at h with hpanics hterminal
    · cases h
      subst hpanics
      exact .panicked caller chunk rest more locals hloop
    · cases h
      obtain rfl : panics = false := by simpa using hpanics
      exact .fed caller chunk rest more locals hloop
  · dsimp only [Session.step, Session.stepDrained] at h
    rcases hloop : session.loop with _ | ⟨_ | complete, _ | ⟨chunk, rest⟩, more, locals⟩ | _ | _ | _ | _ | _ <;>
      rw [hloop] at h <;> try cases h
    · exact did_loop session _ _ (by rw [hloop]; exact ⟨rfl, rfl, rfl⟩) (by rw [hloop]; exact id)
    · dsimp only at h
      split_ifs at h with hmore
      · cases h
        exact .sliced session.queue session.drainDeadline (.finalize complete) locals (by rw [hloop]; rfl)
      · cases h
        obtain rfl : more = false := by simpa using hmore
        exact .emptied complete locals hloop
  · dsimp only [Session.step, Session.stepComplete] at h
    rcases hloop : session.loop with _ | _ | ⟨complete, locals⟩ | _ | _ | _ | _ <;> rw [hloop] at h <;> try cases h
    refine .completed _ complete locals _ hloop ?_ ?_
    · split_ifs <;> exact ⟨rfl, rfl⟩
    · split_ifs <;> rfl

theorem did_advance {due quiet : Bool} (h : session.step label = some session')
    (hlabel : label = .advance due ∨ label = .settle ∨ label = .rest due quiet) : Did session label session' := by
  rcases hlabel with rfl | rfl | rfl
  · dsimp only [Session.step, Session.stepAdvance] at h
    rcases hloop : session.loop with _ | _ | _ | locals | _ | _ | _ <;> rw [hloop] at h <;> try cases h
    have hrest : session.loop.rest = [] ∧ (Loop.settling locals).rest = [] ∧
        (Loop.settling locals).completes = false := by rw [hloop]; exact ⟨rfl, rfl, rfl⟩
    have hknows : session.loop.knows = true → (Loop.settling locals).knows = true := by rw [hloop]; exact id
    dsimp only at h
    split_ifs at h
    · cases h
      exact did_finalize session _ false false locals _ hrest hknows
    · cases h
      exact did_loop session _ _ hrest hknows
  · dsimp only [Session.step, Session.stepSettle] at h
    rcases hloop : session.loop with _ | _ | _ | _ | locals | _ | _ <;> rw [hloop] at h <;> try cases h
    have hrest : session.loop.rest = [] ∧ (Loop.resting locals).rest = [] ∧
        (Loop.resting locals).completes = false := by rw [hloop]; exact ⟨rfl, rfl, rfl⟩
    have hknows : session.loop.knows = true → (Loop.resting locals).knows = true := by rw [hloop]; exact id
    dsimp only at h
    split_ifs at h
    · cases h
      exact did_finalize session _ false true locals _ hrest hknows
    · cases h
      exact did_loop session _ _ hrest hknows
  · dsimp only [Session.step, Session.stepRest] at h
    rcases hloop : session.loop with _ | _ | _ | _ | _ | locals | _ <;> rw [hloop] at h <;> try cases h
    have hrest : ∀ finished : Bool, (if finished then Loop.returned else .waiting locals).rest = [] ∧
        (if finished then Loop.returned else .waiting locals).completes = false := by
      rintro (_ | _) <;> exact ⟨rfl, rfl⟩
    by_cases hrelease : (due && session.tailRelease) = true
    · rw [if_pos hrelease]
      exact .released due quiet _ (by simpa using (Bool.and_eq_true_iff.1 hrelease).2) (by rw [hloop]; rfl) (hrest _)
    · rw [if_neg hrelease]
      refine did_loop session _ _ ⟨by rw [hloop]; rfl, hrest _⟩ ?_
      rw [hloop]
      intro hknows
      split_ifs
      · rfl
      · exact hknows

theorem did_of_step (h : session.step label = some session') : Did session label session' := by
  cases label with
  | read chunk =>
    dsimp only [Session.step, Session.stepRead] at h
    split_ifs at h with hreader
    cases h
    exact .read chunk hreader.1
  | push => exact did_reader h (by simp)
  | notify => exact did_reader h (by simp)
  | eof => exact did_reader h (by simp)
  | sendEof => exact did_reader h (by simp)
  | post message =>
    dsimp only [Session.step, Session.stepPost] at h
    split_ifs at h
    cases h
    exact .posted message
  | drop =>
    cases h
    exact .dropped
  | receive => exact did_message h (by simp)
  | idle => exact did_message h (by simp)
  | timeout => exact did_message h (by simp)
  | hangUp quiet =>
    dsimp only [Session.step, Session.stepHangUp] at h
    rcases hloop : session.loop with locals | _ | _ | _ | _ | _ | _ <;> rw [hloop] at h <;> try cases h
    dsimp only at h
    split_ifs at h with hwaits hfinished
    · cases h
      exact did_loop session _ _ (by rw [hloop]; exact ⟨rfl, rfl, rfl⟩) fun _ => rfl
    · cases h
      exact did_loop session _ _ (by rw [hloop]; exact ⟨rfl, rfl, rfl⟩) (by rw [hloop]; exact id)
  | quit =>
    dsimp only [Session.step, Session.stepQuit] at h
    rcases hloop : session.loop with locals | _ | _ | _ | _ | _ | _ <;> rw [hloop] at h <;> try cases h
    dsimp only at h
    split_ifs at h
    cases h
    exact did_loop session _ _ (by rw [hloop]; exact ⟨rfl, rfl, rfl⟩) fun _ => rfl
  | feed panics => exact did_drain h (.inl rfl)
  | drained => exact @did_drain _ _ _ false h (by simp)
  | advance due => exact @did_advance _ _ _ due false h (.inl rfl)
  | settle => exact @did_advance _ _ _ false false h (by simp)
  | complete => exact @did_drain _ _ _ false h (by simp)
  | rest due quiet => exact did_advance h (.inr (.inr rfl))

/-! ### The bytes of the inbox -/

/-- The inbox counts its bytes, and they fit unless a chunk does not. -/
structure PtyInbox.Counts (inbox : PtyInbox) (read : List Chunk) : Prop where
  bytes : inbox.bytes = size inbox.chunks
  fits : (∀ chunk ∈ read, chunk.length ≤ ptyInboxBytes) → inbox.bytes ≤ ptyInboxBytes

theorem PtyInbox.Counts.push {read : List Chunk} (h : inbox.Counts read) (hchunk : chunk ∈ read)
    (hroom : ¬inbox.waits chunk) : (inbox.push chunk).2.Counts read := by
  unfold PtyInbox.push
  split_ifs with hclosed
  · exact h
  · refine ⟨?_, fun hsmall => ?_⟩
    · rw [size_append, ← h.bytes]
      rfl
    · by_contra hlarge
      refine hroom ⟨by simpa using hclosed, by simpa using hlarge, fun hempty => ?_⟩
      rw [h.bytes, hempty] at hlarge
      exact hlarge (by simpa [size] using hsmall chunk hchunk)

theorem PtyInbox.Counts.takeSlice {read : List Chunk} (h : inbox.Counts read) (maxBytes : ℕ) :
    (inbox.takeSlice maxBytes).2.Counts read := by
  obtain ⟨taken, left, hchunks, hslice⟩ := takeSlice_spec inbox maxBytes
  rw [hslice]
  refine ⟨?_, fun hsmall => Nat.le_trans (Nat.sub_le _ _) (h.fits hsmall)⟩
  show inbox.bytes - size taken = size left
  rw [h.bytes, hchunks, size_append, Nat.add_sub_cancel_left]

theorem PtyInbox.Counts.close (inbox : PtyInbox) (read : List Chunk) : inbox.close.Counts read :=
  ⟨rfl, fun _ => Nat.zero_le _⟩

theorem PtyInbox.Counts.retireEngine {read : List Chunk} (h : session.inbox.Counts read) :
    session.retireEngine.inbox.Counts read := by
  unfold Session.retireEngine
  dsimp only
  split_ifs
  · exact .close _ _
  · exact h

structure Counted (session : Session) : Prop where
  inbox : session.inbox.Counts session.read
  hand : ∀ chunk, session.reader = .pushing chunk → chunk ∈ session.read

theorem Counted.step (h : Counted session) (hdid : Did session label session') : Counted session' := by
  cases hdid with
  | read chunk hreader =>
    refine ⟨⟨h.inbox.bytes, fun hsmall => h.inbox.fits fun other hother => hsmall other (by simp [hother])⟩, ?_⟩
    rintro _ ⟨⟩
    exact List.mem_append_right _ List.mem_cons_self
  | pushed chunk hreader hroom =>
    refine ⟨h.inbox.push (h.hand chunk hreader) hroom, fun other hother => ?_⟩
    dsimp only at hother
    split_ifs at hother
  | notified hreader => exact ⟨h.inbox, nofun⟩
  | unheard hloop hreader => exact ⟨h.inbox, nofun⟩
  | eof hreader => exact ⟨h.inbox, nofun⟩
  | sentEof hreader => exact ⟨h.inbox, nofun⟩
  | posted message => exact ⟨h.inbox, h.hand⟩
  | dropped => exact ⟨h.inbox, h.hand⟩
  | went => exact ⟨h.inbox, h.hand⟩
  | sliced => exact ⟨h.inbox.takeSlice _, h.hand⟩
  | fed => exact ⟨h.inbox, h.hand⟩
  | panicked => exact ⟨h.inbox.retireEngine, h.hand⟩
  | emptied => exact ⟨h.inbox, h.hand⟩
  | completed => exact ⟨h.inbox.retireEngine, h.hand⟩
  | released => exact ⟨h.inbox, h.hand⟩

/-! ### The chunks on their way -/

/-- What the reader has read and not pushed. -/
def Reader.hand : Reader → Chunk
  | .pushing chunk => chunk
  | _ => []

/-- Where what was read is, as long as the inbox is open, and who knows that there is something in it. -/
structure Flowing (capacity : ℕ) (session : Session) (all : List UInt8) : Prop where
  carries : Carries session.stream capacity all
  opened : session.inbox.closed = false →
    all ++ session.loop.rest.flatten ++ session.inbox.chunks.flatten ++ session.reader.hand = session.read.flatten
  closed : session.inbox.closed = true → all <+: session.read.flatten ∧ session.inbox.chunks = [] ∧ session.loop.rest = []
  tail : session.stream.tail = none ∨ session.tailRelease = true → session.inbox.closed = true
  completing : session.loop.completes = true → session.completed = true
  notified : session.inbox.closed = false → session.inbox.notified = !session.inbox.chunks.isEmpty
  wake : session.inbox.closed = false → session.inbox.chunks ≠ [] →
    .outputReady ∈ session.queue ∨ session.reader = .notifying ∨ session.loop.knows = true

variable {all : List UInt8}

theorem push_of_open (chunk : Chunk) (h : inbox.closed = false) :
    inbox.push chunk = (!inbox.notified, ⟨inbox.chunks ++ [chunk], inbox.bytes + chunk.length, true, inbox.closed⟩) := by
  unfold PtyInbox.push
  rw [h]
  rfl

theorem push_of_closed (chunk : Chunk) (h : inbox.closed = true) : inbox.push chunk = (false, inbox) := by
  unfold PtyInbox.push
  rw [if_pos h]

theorem Flowing.read (h : Flowing capacity session all) (chunk : Chunk) (hreader : session.reader = .reading) :
    Flowing capacity { session with reader := .pushing chunk, read := session.read ++ [chunk] } all where
  carries := h.carries
  opened hopen := by
    have hall := h.opened hopen
    rw [hreader] at hall
    rw [List.flatten_append, ← hall]
    simp [Reader.hand]
  closed hclosed := by
    obtain ⟨hpart, hrest⟩ := h.closed hclosed
    exact ⟨hpart.trans (by simp), hrest⟩
  tail := h.tail
  completing := h.completing
  notified := h.notified
  wake hopen hchunks := by
    rcases h.wake hopen hchunks with hmem | hnotify | hknows
    · exact .inl hmem
    · rw [hreader] at hnotify
      cases hnotify
    · exact .inr (.inr hknows)

theorem Flowing.pushed (h : Flowing capacity session all) (chunk : Chunk) (hreader : session.reader = .pushing chunk) :
    Flowing capacity { session with
      inbox := (session.inbox.push chunk).2
      reader := if (session.inbox.push chunk).1 then .notifying else .reading } all := by
  have hhand : ∀ notify : Bool, (if notify then Reader.notifying else .reading).hand = [] := by
    rintro (_ | _) <;> rfl
  rcases hclosed : session.inbox.closed with _ | _
  · rw [push_of_open chunk hclosed]
    refine ⟨h.carries, fun _ => ?_, fun hclose => ?_, h.tail, h.completing, fun _ => by simp, fun _ _ => ?_⟩
    · have hall := h.opened hclosed
      rw [hreader] at hall
      rw [← hall, hhand]
      simp [Reader.hand]
    · rw [hclosed] at hclose
      cases hclose
    · -- the flag says whether the loop has been told of what was there before
      rcases hnotified : session.inbox.notified with _ | _
      · exact .inr (.inl rfl)
      · have hchunks : session.inbox.chunks ≠ [] := by
          rw [h.notified hclosed] at hnotified
          simpa using hnotified
        rcases h.wake hclosed hchunks with hmem | hnotify | hknows
        · exact .inl hmem
        · rw [hreader] at hnotify
          cases hnotify
        · exact .inr (.inr hknows)
  · rw [push_of_closed chunk hclosed]
    refine ⟨h.carries, fun hopen => ?_, h.closed, h.tail, h.completing, h.notified, fun hopen => ?_⟩
    · rw [hclosed] at hopen
      cases hopen
    · rw [hclosed] at hopen
      cases hopen

/-- A slice is taken: the loop knows what is left. -/
theorem Flowing.sliced (h : Flowing capacity session all) (queue : List Message) (drainDeadline : Bool) (caller : Caller)
    (locals : Locals) (hrest : session.loop.rest = []) :
    Flowing capacity (({ session with queue, drainDeadline } : Session).drainInbox caller locals) all := by
  obtain ⟨taken, left, hchunks, hslice⟩ := takeSlice_spec session.inbox drainSliceBytes
  have hdrained : ({ session with queue, drainDeadline } : Session).drainInbox caller locals =
      { session with
        queue, drainDeadline
        inbox := ⟨left, session.inbox.bytes - size taken, !left.isEmpty, session.inbox.closed⟩
        loop := .draining caller taken (!left.isEmpty) locals } := by
    unfold Session.drainInbox
    dsimp only
    rw [hslice]
  rw [hdrained]
  refine ⟨h.carries, fun hopen => ?_, fun hclosed => ?_, h.tail, nofun, fun _ => rfl, fun hopen hleft => ?_⟩
  · have hall := h.opened hopen
    rw [hrest, hchunks] at hall
    rw [← hall]
    simp [Loop.rest]
  · obtain ⟨hpart, hempty, -⟩ := h.closed hclosed
    rw [hchunks] at hempty
    obtain ⟨rfl, rfl⟩ := List.append_eq_nil_iff.1 hempty
    exact ⟨hpart, rfl, rfl⟩
  · right
    right
    have hmore : (!left.isEmpty) = true := by simpa using hleft
    cases caller with
    | serveLoop => exact hmore
    | finalize complete => simp [Loop.knows, hmore]

/-- A chunk is appended, from which the stream grows. -/
theorem Flowing.append (h : Flowing capacity session all) {rest : List Chunk}
    (hrest : session.loop.rest = chunk :: rest) :
    session.inbox.closed = false ∧ Carries (session.stream.append chunk) capacity (all ++ chunk) ∧
      (session.stream.append chunk).tail ≠ none := by
  have hopen : session.inbox.closed = false := by
    rcases hclosed : session.inbox.closed with _ | _
    · rfl
    · rw [(h.closed hclosed).2.2] at hrest
      cases hrest
  have hsome : session.stream.tail ≠ none := by
    intro hnone
    rw [h.tail (.inl hnone)] at hopen
    cases hopen
  obtain ⟨tail, htail⟩ := Option.ne_none_iff_exists'.1 hsome
  have hcarries := h.carries.handle (.append chunk)
  simp only [OutputStream.adds, htail, Option.isSome_some, if_true] at hcarries
  refine ⟨hopen, hcarries, ?_⟩
  simp [OutputStream.append, htail]

/-- A panic comes behind the last chunk of a slice, and nothing is left that the loop alone knows about. -/
def Spares (session : Session) : Label → Prop
  | .feed true => session.loop.rest.length ≤ 1 ∧
    (session.inbox.chunks = [] ∨ .outputReady ∈ session.queue ∨ session.reader = .notifying)
  | _ => True

instance (session : Session) (label : Label) : Decidable (Spares session label) := by
  unfold Spares
  split <;> infer_instance

theorem Flowing.retireEngine (h : Flowing capacity session all) (hrest : session.loop.rest = []) (loop : Loop)
    (hloop : loop.rest = [] ∧ loop.completes = false) (notice : Option CompletedRecord) (tailRelease : Bool)
    (hrelease : tailRelease = true → session.tailRelease = true ∨ session.completed = true)
    (hwake : session.completed = false → session.inbox.closed = false → session.inbox.chunks ≠ [] →
      .outputReady ∈ session.queue ∨ session.reader = .notifying ∨ loop.knows = true) :
    Flowing capacity { session.retireEngine with tailRelease, notice, loop } all := by
  have hall : all <+: session.read.flatten := by
    rcases hclosed : session.inbox.closed with _ | _
    · rw [← h.opened hclosed, List.append_assoc, List.append_assoc]
      exact List.prefix_append _ _
    · exact (h.closed hclosed).1
  unfold Session.retireEngine
  rcases hcompleted : session.completed with _ | _
  · refine ⟨h.carries, fun hopen => ?_, fun hclosed => ?_, fun htail => h.tail (htail.imp id fun ht => ?_), ?_,
      h.notified, hwake hcompleted⟩
    · have hread := h.opened hopen
      rw [hrest] at hread
      rw [← hread, hloop.1]
      rfl
    · exact ⟨hall, (h.closed hclosed).2.1, hloop.1⟩
    · refine (hrelease ht).resolve_right fun hdone => ?_
      cases hcompleted.symm.trans hdone
    · exact fun hcompletes => by cases hloop.2.symm.trans hcompletes
  · exact ⟨h.carries, nofun, fun _ => ⟨hall, rfl, hloop.1⟩, fun _ => rfl, fun _ => rfl, nofun, nofun⟩

theorem Flowing.fed (h : Flowing capacity session all) {loop : Loop} {rest : List Chunk}
    (hrest : session.loop.rest = chunk :: rest) (hloop : loop.rest = rest ∧ loop.completes = false)
    (hwake : session.inbox.chunks ≠ [] →
      .outputReady ∈ session.queue ∨ session.reader = .notifying ∨ loop.knows = true) :
    Flowing capacity { session with stream := session.stream.append chunk, loop } (all ++ chunk) := by
  obtain ⟨hopen, hcarries, htail⟩ := h.append hrest
  refine ⟨hcarries, fun _ => ?_, fun hclosed => ?_, fun hnone => ?_, fun hcompletes => ?_, h.notified, fun _ => hwake⟩
  · have hall := h.opened hopen
    rw [hrest] at hall
    rw [← hall, hloop.1]
    simp
  · rw [hopen] at hclosed
    cases hclosed
  · rcases hnone with hnone | hrelease
    · exact absurd hnone htail
    · exact h.tail (.inr hrelease)
  · cases hloop.2.symm.trans hcompletes

theorem Flowing.step (h : Flowing capacity session all) (hspares : Spares session label)
    (hdid : Did session label session') : ∃ all', Flowing capacity session' all' := by
  cases hdid with
  | read chunk hreader => exact ⟨all, h.read chunk hreader⟩
  | pushed chunk hreader hroom => exact ⟨all, h.pushed chunk hreader⟩
  | notified hreader =>
    refine ⟨all, h.carries, fun hopen => ?_, h.closed, h.tail, h.completing, h.notified, fun _ _ => ?_⟩
    · have hall := h.opened hopen
      rw [hreader] at hall
      exact hall
    · exact .inl (List.mem_append_right _ List.mem_cons_self)
  | unheard hloop hreader =>
    refine ⟨all, h.carries, fun hopen => ?_, h.closed, h.tail, h.completing, h.notified, fun _ _ => ?_⟩
    · have hall := h.opened hopen
      rcases hhand : session.reader with _ | chunk | _ | _ | _
      · rwa [hhand] at hall
      · exact absurd hhand (hreader chunk)
      all_goals rwa [hhand] at hall
    · exact .inr (.inr (by rw [hloop]; rfl))
  | eof hreader =>
    refine ⟨all, h.carries, fun hopen => ?_, h.closed, h.tail, h.completing, h.notified, fun hopen hchunks => ?_⟩
    · have hall := h.opened hopen
      rw [hreader] at hall
      exact hall
    · rcases h.wake hopen hchunks with hmem | hnotify | hknows
      · exact .inl hmem
      · rw [hreader] at hnotify
        cases hnotify
      · exact .inr (.inr hknows)
  | sentEof hreader =>
    refine ⟨all, h.carries, fun hopen => ?_, h.closed, h.tail, h.completing, h.notified, fun hopen hchunks => ?_⟩
    · have hall := h.opened hopen
      rw [hreader] at hall
      exact hall
    · rcases h.wake hopen hchunks with hmem | hnotify | hknows
      · exact .inl (List.mem_append_left _ hmem)
      · rw [hreader] at hnotify
        cases hnotify
      · exact .inr (.inr hknows)
  | posted message =>
    refine ⟨all, h.carries, h.opened, h.closed, h.tail, h.completing, h.notified, fun hopen hchunks => ?_⟩
    exact (h.wake hopen hchunks).imp (List.mem_append_left _) id
  | dropped => exact ⟨all, h.carries, h.opened, h.closed, h.tail, h.completing, h.notified, h.wake⟩
  | went queue readerEof exit drainDeadline loop hqueue hrest hknows =>
    refine ⟨all, h.carries, fun hopen => ?_, fun hclosed => ?_, h.tail, fun hcompletes => ?_, h.notified, fun hopen hchunks => ?_⟩
    · have hall := h.opened hopen
      rw [hrest.1, ← hrest.2.1] at hall
      exact hall
    · obtain ⟨hpart, hempty, -⟩ := h.closed hclosed
      exact ⟨hpart, hempty, hrest.2.1⟩
    · cases hrest.2.2.symm.trans hcompletes
    · exact (h.wake hopen hchunks).imp hqueue (Or.imp id hknows)
  | sliced queue drainDeadline caller locals hrest => exact ⟨all, h.sliced queue drainDeadline caller locals hrest⟩
  | fed caller chunk rest more locals hloop =>
    have hrest : session.loop.rest = chunk :: rest := by rw [hloop]; rfl
    refine ⟨all ++ chunk, h.fed hrest ⟨rfl, rfl⟩ fun hchunks => ?_⟩
    refine (h.wake (h.append hrest).1 hchunks).imp id (Or.imp id fun hknows => ?_)
    rw [hloop] at hknows
    cases caller <;> exact hknows
  | panicked caller chunk rest more locals hloop =>
    have hrest : session.loop.rest = chunk :: rest := by rw [hloop]; rfl
    obtain ⟨hlast, hleft⟩ := hspares
    obtain rfl : rest = [] := by
      rw [hrest] at hlast
      simpa using hlast
    have hwake : session.inbox.chunks ≠ [] → .outputReady ∈ session.queue ∨ session.reader = .notifying ∨
        (Loop.waiting ⟨false, false⟩).knows = true := by
      intro hchunks
      rcases hleft with hempty | hmem | hnotify
      · exact absurd hempty hchunks
      · exact .inl hmem
      · exact .inr (.inl hnotify)
    have hfed := @Flowing.fed _ _ _ _ h (.waiting ⟨false, false⟩) _ hrest ⟨rfl, rfl⟩ hwake
    exact ⟨all ++ chunk, hfed.retireEngine rfl (.waiting ⟨false, false⟩) ⟨rfl, rfl⟩ session.notice session.tailRelease
      .inl fun _ _ => hwake⟩
  | emptied complete locals hloop =>
    refine ⟨all, ⟨h.carries.endOffset, h.carries.tail⟩, fun hopen => ?_, fun hclosed => ?_, h.tail, fun _ => rfl, h.notified,
      fun hopen hchunks => ?_⟩
    · have hall := h.opened hopen
      rw [hloop] at hall
      exact hall
    · obtain ⟨hpart, hempty, -⟩ := h.closed hclosed
      exact ⟨hpart, hempty, rfl⟩
    · refine (h.wake hopen hchunks).imp id (Or.imp id fun hknows => ?_)
      rw [hloop] at hknows
      exact hknows
  | completed notice complete locals loop hloop hrest hknows =>
    have hcompleted : session.completed = true := h.completing (by rw [hloop]; rfl)
    refine ⟨all, h.retireEngine (by rw [hloop]; rfl) loop hrest notice true (fun _ => .inr hcompleted) fun hnot => ?_⟩
    cases hnot.symm.trans hcompleted
  | released due quiet loop hrelease hrest hrest' =>
    have hclosed := h.tail (.inr hrelease)
    obtain ⟨hpart, hempty, -⟩ := h.closed hclosed
    refine ⟨all, ⟨h.carries.endOffset, nofun⟩, fun hopen => ?_, fun _ => ⟨hpart, hempty, hrest'.1⟩, fun _ => hclosed,
      fun hcompletes => ?_, h.notified, fun hopen => ?_⟩
    · cases hclosed.symm.trans hopen
    · cases hrest'.2.symm.trans hcompletes
    · cases hclosed.symm.trans hopen

/-! ### What a run keeps -/

def Started (capacity : ℕ) (session : Session) : Prop := ∃ wired, session = .initial capacity wired

theorem flowing_initial (capacity : ℕ) (wired : Bool) : Flowing capacity (.initial capacity wired) [] where
  carries := carries_new capacity
  opened _ := by cases wired <;> rfl
  closed := nofun
  tail := by rintro (h | h) <;> cases h
  completing := nofun
  notified _ := rfl
  wake _ h := absurd rfl h

/-- The stream holds what was read up to some point. -/
def Lossless (capacity : ℕ) (session : Session) : Prop :=
  ∃ all, Carries session.stream capacity all ∧ all <+: session.read.flatten

/-- Whoever waits while there is something in the inbox will be woken, or knows. -/
def Awake (session : Session) : Prop :=
  ∀ locals, session.loop = .waiting locals → session.inbox.closed = false → session.inbox.chunks ≠ [] →
    .outputReady ∈ session.queue ∨ session.reader = .notifying ∨ locals.outputPending = true

theorem Flowing.lossless (h : Flowing capacity session all) : Lossless capacity session := by
  refine ⟨all, h.carries, ?_⟩
  rcases hclosed : session.inbox.closed with _ | _
  · rw [← h.opened hclosed, List.append_assoc, List.append_assoc]
    exact List.prefix_append _ _
  · exact (h.closed hclosed).1

theorem Flowing.awake (h : Flowing capacity session all) : Awake session := by
  intro locals hloop hopen hchunks
  refine (h.wake hopen hchunks).imp id (Or.imp id fun hknows => ?_)
  rwa [hloop] at hknows

/-- The inbox counts its bytes in every run. Where a panic strikes only behind the last chunk of a slice, and the loop
alone knows of nothing that is left, no byte and no wake-up is lost. -/
theorem inbox_spec (capacity : ℕ) (session : Session) :
    (Reach Session.step (Started capacity) (fun _ _ => True) session → session.inbox.Counts session.read) ∧
      (Reach Session.step (Started capacity) Spares session → Lossless capacity session ∧ Awake session) := by
  constructor
  · intro h
    have hcounted : Counted session := by
      refine h.invariant ?_ fun _ _ _ hcounted _ hstep => hcounted.step (did_of_step hstep)
      rintro _ ⟨wired, rfl⟩
      exact ⟨⟨rfl, fun _ => Nat.zero_le _⟩, by cases wired <;> nofun⟩
    exact hcounted.inbox
  · intro h
    have hflowing : ∃ all, Flowing capacity session all := by
      refine h.invariant (I := fun session => ∃ all, Flowing capacity session all) ?_ ?_
      · rintro _ ⟨wired, rfl⟩
        exact ⟨[], flowing_initial capacity wired⟩
      · rintro _ _ _ ⟨all, hflowing⟩ hspares hstep
        exact hflowing.step hspares (did_of_step hstep)
    obtain ⟨all, hflowing⟩ := hflowing
    exact ⟨hflowing.lossless, hflowing.awake⟩

/-- The engine panics at the only chunk, and the loop goes on with the next. -/
def panicAtLast : List Label :=
  [.read [1], .push, .notify, .receive, .feed true, .read [2], .push, .notify, .receive, .feed false, .drained]

theorem inbox_spec_panicAtLast : ∃ session, Lossless 100 session ∧ Awake session ∧
    session.inbox.Counts session.read ∧ session.stream.endOffset = 2 ∧ session.read = [[1], [2]] ∧
    session.terminal = false := by
  have hstart : ∀ cond, Reach Session.step (Started 100) cond (.initial 100 true) := fun _ => .init ⟨true, rfl⟩
  have hreach := (hstart Spares).follow panicAtLast rfl
  obtain ⟨hlossless, hawake⟩ := (inbox_spec 100 _).2 hreach
  exact ⟨_, hlossless, hawake, (inbox_spec 100 _).1 (hreach.mono fun _ _ _ => trivial), rfl, rfl, rfl⟩

/-- Two chunks wait in the inbox, and the engine panics at the first of them. -/
def panicAtFirst : List Label :=
  [.read [1], .push, .notify, .read [2], .push, .receive, .feed true, .read [3], .push, .notify, .receive, .feed false]

/-- The second chunk is gone, and the stream goes on with the third. -/
theorem panicAtFirst_loses : ¬∀ (capacity : ℕ) (session : Session),
    Reach Session.step (Started capacity) (fun _ _ => True) session →
      session.inbox.Counts session.read ∧ Lossless capacity session ∧ Awake session := by
  intro h
  have hstart : Reach Session.step (Started 100) (fun _ _ => True) (.initial 100 true) := .init ⟨true, rfl⟩
  obtain ⟨-, ⟨all, hcarries, hpart⟩, -⟩ := h 100 _ (hstart.follow panicAtFirst rfl)
  obtain ⟨hholds, -⟩ := hcarries.tail _ rfl
  have hall : all = [1, 3] := hholds.bytes.symm
  subst hall
  revert hpart
  decide

end Paneflow.Host.Inbox
