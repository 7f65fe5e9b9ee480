import Mathlib.Data.List.Basic
import Mathlib.Tactic.SplitIfs

/-!
# When a terminal's frames are published

`PublishGate` of ghostty_session/publish.rs. Output makes the gate pending; a poll commits a frame when the gate
decides to, and between two polls the loop sleeps for as long as `nextWake` says. While the program holds its output
back (synchronized output) the frame of the hold's beginning is shown, up to `syncOutputMaxHold`.

The clock is read by the caller, except in `commit`, which reads it again; what the terminal answers is a parameter
(`PollAnswers`, `CommitAnswers`). Times are in nanoseconds. `request` is `noteOutput` and a poll.

* what the gate does: `nextWake` and `decide`, which look at the hold, at the visibility and at the urgency one after
  the other, and `commit`, which arms the gate again for a held frame and for a search that goes on;
* `Ordered`: no time that the gate keeps is in the future;
* `gate_rules`: what holds of every run.
-/

namespace Paneflow.Terminal.PublishGate

def millis (n : ℕ) : ℕ := n * 1000000

def searchRailRefreshInterval : ℕ := millis 100

def minPublishInterval : ℕ := millis 8

def hiddenPublishInterval : ℕ := millis 1000

def interactiveOutputWindow : ℕ := millis 100

def syncOutputMaxHold : ℕ := millis 150

structure RenderHold where
  startedAt : ℕ
  generation : ℕ
  deriving DecidableEq, Repr

/-- What the terminal's search found, as far as the gate looks at it. -/
structure SearchSnapshot where
  complete : Bool
  railPending : Bool

structure NativeSearchState where
  query : String
  navigationGeneration : ℕ
  complete : Bool
  error : Option String
  deriving DecidableEq, Repr

/-- What `commit` is told on its way: the clock, each time it is read, and the terminal's answers. -/
structure CommitAnswers where
  searchedAt : ℕ
  searchStep : Bool → Except String (Option SearchSnapshot)
  foundAt : ℕ
  update : Except String Unit
  committedAt : ℕ
  holdAfter : Option RenderHold

structure PollAnswers where
  shown : Bool
  hold : Option RenderHold
  release : Except String Unit
  commit : CommitAnswers

/-- A frame that was committed: what it shows, and how the gate stood when it was. -/
structure Frame where
  live : Bool
  search : NativeSearchState
  hold : Option RenderHold
  hidden : Bool
  urgent : Bool
  committedAt : ℕ
  deriving DecidableEq, Repr

structure Gate where
  lastPublish : ℕ
  pending : Bool
  interactiveUntil : Option ℕ
  urgent : Bool
  renderHold : Option RenderHold
  publishedHold : Option ℕ
  hidden : Bool
  searchQuery : String
  searchError : Option String
  navigationGeneration : ℕ
  lastSearchRailRefresh : Option ℕ
  searchRailPending : Bool
  deriving DecidableEq, Repr

namespace Gate

def startAt (lastPublish : ℕ) : Gate where
  lastPublish := lastPublish
  pending := false
  interactiveUntil := none
  urgent := false
  renderHold := none
  publishedHold := none
  hidden := false
  searchQuery := ""
  searchError := none
  navigationGeneration := 0
  lastSearchRailRefresh := none
  searchRailPending := false

def noteProgramReset (gate : Gate) : Gate := { gate with urgent := true }

/-- The loop does this when it takes input out of its mailbox. -/
def interactiveInput (gate : Gate) (now : ℕ) : Gate :=
  { gate with interactiveUntil := some (now + interactiveOutputWindow) }

def noteOutput (gate : Gate) (now : ℕ) : Gate :=
  { gate with
    pending := true
    urgent := gate.urgent || gate.interactiveUntil.any (fun until_ => now ≤ until_)
    interactiveUntil := none }

def showingHeldFrame (gate : Gate) : Bool :=
  gate.renderHold.any fun hold => gate.publishedHold == some hold.generation

def renderHoldExpired (gate : Gate) (now : ℕ) : Bool :=
  gate.renderHold.any fun hold => syncOutputMaxHold ≤ now - hold.startedAt

def decide (gate : Gate) (now : ℕ) : Bool :=
  if !gate.pending || gate.showingHeldFrame then false
  else if gate.hidden then hiddenPublishInterval ≤ now - gate.lastPublish
  else gate.urgent || minPublishInterval ≤ now - gate.lastPublish

def nextWake (gate : Gate) (now : ℕ) : Option ℕ :=
  if !gate.pending then none
  else
    match gate.renderHold.filter fun _ => gate.showingHeldFrame with
    | some hold => some (syncOutputMaxHold - (now - hold.startedAt))
    | none =>
      if gate.hidden then some (hiddenPublishInterval - (now - gate.lastPublish))
      else if gate.urgent then some 0
      else some (minPublishInterval - (now - gate.lastPublish))

def advanceSearch (gate : Gate) (answers : CommitAnswers) : NativeSearchState × Gate :=
  let state : NativeSearchState :=
    { query := gate.searchQuery, navigationGeneration := gate.navigationGeneration, complete := true,
      error := gate.searchError }
  if state.query.isEmpty || state.error.isSome then (state, { gate with searchRailPending := false })
  else
    let refreshRail :=
      gate.lastSearchRailRefresh.all fun last => searchRailRefreshInterval ≤ answers.searchedAt - last
    match answers.searchStep refreshRail with
    | .ok (some snapshot) =>
      ({ state with complete := snapshot.complete && !snapshot.railPending },
        { gate with
          searchRailPending := snapshot.railPending
          lastSearchRailRefresh := if refreshRail then some answers.foundAt else gate.lastSearchRailRefresh })
    | .ok none => (state, { gate with searchRailPending := false })
    | .error error =>
      ({ state with error := some error }, { gate with searchError := some error, searchRailPending := false })

def commit (gate : Gate) (answers : CommitAnswers) (live : Bool) : Gate × Except String Frame :=
  let (search, gate) := gate.advanceSearch answers
  let searchPending := !search.query.isEmpty && !search.complete && search.error.isNone
  match answers.update with
  | .error error => (gate, .error error)
  | .ok () =>
    let publishedHold := (answers.holdAfter.filter fun _ => !live).map (·.generation)
    ({ gate with
        lastPublish := answers.committedAt
        renderHold := answers.holdAfter
        publishedHold := publishedHold
        pending := searchPending || gate.searchRailPending || publishedHold.isSome
        urgent := false },
      .ok
        { live := live, search := search, hold := gate.renderHold, hidden := gate.hidden, urgent := gate.urgent,
          committedAt := answers.committedAt })

def publishNow (gate : Gate) (answers : CommitAnswers) : Gate × Except String (Option Frame) :=
  let (gate, frame) := gate.commit answers true
  (gate, frame.map some)

/-- A poll finds out by itself that the pane is shown again. -/
def reveal (gate : Gate) (shown : Bool) : Gate :=
  if gate.hidden && shown then { gate with hidden := false, urgent := gate.urgent || gate.pending } else gate

def pollAt (gate : Gate) (now : ℕ) (answers : PollAnswers) : Gate × Except String (Option Frame) :=
  let gate := gate.reveal answers.shown
  if !gate.pending then (gate, .ok none)
  else
    let gate := { gate with renderHold := answers.hold }
    if gate.renderHoldExpired now then
      match answers.release with
      | .error error => (gate, .error error)
      | .ok () =>
        let (gate, frame) := gate.commit answers.commit true
        (gate, frame.map some)
    else if !gate.decide now then (gate, .ok none)
    else
      let (gate, frame) := gate.commit answers.commit false
      (gate, frame.map some)

def setVisible (gate : Gate) (visible : Bool) (now : ℕ) (answers : PollAnswers) :
    Gate × Except String (Option Frame) :=
  let revealed := visible && gate.hidden
  let gate := { gate with hidden := !visible }
  if !revealed then (gate, .ok none)
  else { gate with urgent := gate.urgent || gate.pending }.pollAt now answers

def setNativeSearch (gate : Gate) (query : String) (error : Option String) : Gate :=
  { gate with searchQuery := query, lastSearchRailRefresh := none, searchError := error }

def selectNativeSearch (gate : Gate) (generation : ℕ) (error : Option String) : Gate :=
  { gate with navigationGeneration := generation, searchError := error }

end Gate

/-! ### Runs -/

/-- What happens to a gate: the four kinds of its own, and what the handlers of the other messages do to it. -/
inductive Event where
  | noteOutput (now : ℕ)
  | interactiveInput (now : ℕ)
  | poll (now : ℕ) (answers : PollAnswers)
  | setVisible (visible : Bool) (now : ℕ) (answers : PollAnswers)
  | noteProgramReset
  | setNativeSearch (query : String) (error : Option String)
  | selectNativeSearch (generation : ℕ) (error : Option String)
  | publishNow (now : ℕ) (answers : CommitAnswers)

/-- The frames of a poll, and not those of `publish_now`. -/
def Event.polls : Event → Bool
  | poll _ _ | setVisible _ _ _ => true
  | _ => false

def Gate.react (gate : Gate) : Event → Gate × Except String (Option Frame)
  | .noteOutput now => (gate.noteOutput now, .ok none)
  | .interactiveInput now => (gate.interactiveInput now, .ok none)
  | .poll now answers => gate.pollAt now answers
  | .setVisible visible now answers => gate.setVisible visible now answers
  | .noteProgramReset => (gate.noteProgramReset, .ok none)
  | .setNativeSearch query error => (gate.setNativeSearch query error, .ok none)
  | .selectNativeSearch generation error => (gate.selectNativeSearch generation error, .ok none)
  | .publishNow _ answers => gate.publishNow answers

def committed : Except String (Option Frame) → Option Frame
  | .ok frame => frame
  | .error _ => none

/-- The frames that some events commit, each with its event. -/
def frames (gate : Gate) : List Event → List (Event × Frame)
  | [] => []
  | event :: events =>
    ((committed (gate.react event).2).map fun frame => (event, frame)).toList ++ frames (gate.react event).1 events

def CommitAnswers.Timed (now after : ℕ) (answers : CommitAnswers) : Prop :=
  now ≤ answers.committedAt ∧ answers.committedAt ≤ after ∧ ∀ hold ∈ answers.holdAfter, hold.startedAt ≤ after

def PollAnswers.Timed (now after : ℕ) (answers : PollAnswers) : Prop :=
  answers.commit.Timed now after ∧ ∀ hold ∈ answers.hold, hold.startedAt ≤ after

/-- The event takes place between two times, and no hold is reported before it has begun. -/
def Event.Timed (before after : ℕ) : Event → Prop
  | noteOutput now | interactiveInput now => before ≤ now ∧ now ≤ after
  | poll now answers | setVisible _ now answers => before ≤ now ∧ answers.Timed now after
  | noteProgramReset | setNativeSearch _ _ | selectNativeSearch _ _ => before ≤ after
  | publishNow now answers => before ≤ now ∧ answers.Timed now after

/-- The gates that runs reach whose times do not decrease, with the time then and the frames so far. -/
inductive Reach : ℕ → Gate → List (Event × Frame) → Prop
  | new {origin now : ℕ} : origin ≤ now → Reach now (.startAt origin) []
  | step {before after : ℕ} {gate : Gate} {log : List (Event × Frame)} {event : Event} :
    Reach before gate log → event.Timed before after →
      Reach after (gate.react event).1 (log ++ frames gate [event])

/-- The terminal still reports the hold `generation`, and the hold has not lasted for too long. -/
def PollAnswers.Holds (generation now : ℕ) (answers : PollAnswers) : Prop :=
  ∃ hold, answers.hold = some hold ∧ hold.generation = generation ∧ now < hold.startedAt + syncOutputMaxHold

/-- Every poll of the event is told the hold, and no frame is asked for without a poll. -/
def Event.Holds (generation : ℕ) : Event → Prop
  | poll now answers | setVisible _ now answers => answers.Holds generation now
  | publishNow _ _ => False
  | _ => True

/-! ### What a commit and a poll do -/

namespace Gate

variable {gate : Gate}

/-- A search touches nothing but what belongs to the search. -/
theorem advanceSearch_kept (gate : Gate) (answers : CommitAnswers) :
    ∃ error refresh rail, (gate.advanceSearch answers).2 =
      { gate with searchError := error, lastSearchRailRefresh := refresh, searchRailPending := rail } := by
  unfold advanceSearch
  dsimp only
  by_cases hoff : (gate.searchQuery.isEmpty || gate.searchError.isSome) = true
  · rw [if_pos hoff]
    exact ⟨gate.searchError, gate.lastSearchRailRefresh, false, rfl⟩
  · rw [if_neg hoff]
    cases answers.searchStep
      (gate.lastSearchRailRefresh.all fun last => searchRailRefreshInterval ≤ answers.searchedAt - last) with
    | error error => exact ⟨some error, gate.lastSearchRailRefresh, false, rfl⟩
    | ok found =>
      cases found with
      | none => exact ⟨gate.searchError, gate.lastSearchRailRefresh, false, rfl⟩
      | some snapshot => exact ⟨gate.searchError, _, snapshot.railPending, rfl⟩

/-- What is left of a gate by a commit that failed. -/
structure Failed (gate after : Gate) : Prop where
  lastPublish : after.lastPublish = gate.lastPublish
  renderHold : after.renderHold = gate.renderHold
  publishedHold : after.publishedHold = gate.publishedHold

structure Commits (gate : Gate) (answers : CommitAnswers) (live : Bool) (after : Gate) (frame : Frame) : Prop where
  frame_live : frame.live = live
  frame_hold : frame.hold = gate.renderHold
  frame_hidden : frame.hidden = gate.hidden
  frame_urgent : frame.urgent = gate.urgent
  frame_committedAt : frame.committedAt = answers.committedAt
  lastPublish : after.lastPublish = answers.committedAt
  renderHold : after.renderHold = answers.holdAfter
  publishedHold : after.publishedHold = (answers.holdAfter.filter fun _ => !live).map (·.generation)

theorem commit_failed (gate : Gate) {answers : CommitAnswers} {error : String} (h : answers.update = .error error)
    (live : Bool) :
    (gate.commit answers live).2 = .error error ∧ Failed gate (gate.commit answers live).1 := by
  obtain ⟨searchError, refresh, rail, hkept⟩ := advanceSearch_kept gate answers
  unfold commit
  rw [h]
  dsimp only
  rw [hkept]
  exact ⟨rfl, ⟨rfl, rfl, rfl⟩⟩

theorem commit_done (gate : Gate) {answers : CommitAnswers} (h : answers.update = .ok ()) (live : Bool) :
    ∃ frame, (gate.commit answers live).2 = .ok frame ∧
      Commits gate answers live (gate.commit answers live).1 frame := by
  obtain ⟨searchError, refresh, rail, hkept⟩ := advanceSearch_kept gate answers
  unfold commit
  rw [h]
  dsimp only
  rw [hkept]
  exact ⟨_, rfl, ⟨rfl, rfl, rfl, rfl, rfl, rfl, rfl, rfl⟩⟩

/-- The gate that a poll decides with. -/
def told (gate : Gate) (answers : PollAnswers) : Gate :=
  { gate.reveal answers.shown with renderHold := answers.hold }

/-- The ways in which a poll ends. -/
inductive Polled (gate : Gate) (now : ℕ) (answers : PollAnswers) : Gate → Except String (Option Frame) → Prop
  | idle : (gate.reveal answers.shown).pending = false → Polled gate now answers (gate.reveal answers.shown) (.ok none)
  | held {error : String} : (gate.reveal answers.shown).pending = true → answers.release = .error error →
    Polled gate now answers (gate.told answers) (.error error)
  | waits : (gate.reveal answers.shown).pending = true → (gate.told answers).renderHoldExpired now = false →
    (gate.told answers).decide now = false → Polled gate now answers (gate.told answers) (.ok none)
  | failed {after : Gate} {error : String} : (gate.reveal answers.shown).pending = true →
    answers.commit.update = .error error → Failed (gate.told answers) after →
    Polled gate now answers after (.error error)
  | expired {after : Gate} {frame : Frame} : (gate.reveal answers.shown).pending = true →
    (gate.told answers).renderHoldExpired now = true → Commits (gate.told answers) answers.commit true after frame →
    Polled gate now answers after (.ok (some frame))
  | decided {after : Gate} {frame : Frame} : (gate.reveal answers.shown).pending = true →
    (gate.told answers).renderHoldExpired now = false → (gate.told answers).decide now = true →
    Commits (gate.told answers) answers.commit false after frame → Polled gate now answers after (.ok (some frame))

theorem pollAt_eq (gate : Gate) (now : ℕ) (answers : PollAnswers) :
    gate.pollAt now answers =
      if !(gate.reveal answers.shown).pending then (gate.reveal answers.shown, .ok none)
      else if (gate.told answers).renderHoldExpired now then
        match answers.release with
        | .error error => (gate.told answers, .error error)
        | .ok () =>
          (((gate.told answers).commit answers.commit true).1,
            ((gate.told answers).commit answers.commit true).2.map some)
      else if !(gate.told answers).decide now then (gate.told answers, .ok none)
      else
        (((gate.told answers).commit answers.commit false).1,
          ((gate.told answers).commit answers.commit false).2.map some) :=
  rfl

theorem polled (gate : Gate) (now : ℕ) (answers : PollAnswers) :
    Polled gate now answers (gate.pollAt now answers).1 (gate.pollAt now answers).2 := by
  rw [pollAt_eq]
  split_ifs with hidle hexpired hwaits
  · exact .idle (by simpa using hidle)
  · have hpending : (gate.reveal answers.shown).pending = true := by simpa using hidle
    cases hrelease : answers.release with
    | error error => exact .held hpending hrelease
    | ok _ =>
      cases hupdate : answers.commit.update with
      | error error =>
        obtain ⟨hresult, hfailed⟩ := commit_failed (gate.told answers) hupdate true
        dsimp only
        rw [hresult]
        exact .failed hpending hupdate hfailed
      | ok _ =>
        obtain ⟨frame, hresult, hcommits⟩ := commit_done (gate.told answers) hupdate true
        dsimp only
        rw [hresult]
        exact .expired hpending hexpired hcommits
  · exact .waits (by simpa using hidle) (by simpa using hexpired) (by simpa using hwaits)
  · have hpending : (gate.reveal answers.shown).pending = true := by simpa using hidle
    cases hupdate : answers.commit.update with
    | error error =>
      obtain ⟨hresult, hfailed⟩ := commit_failed (gate.told answers) hupdate false
      dsimp only
      rw [hresult]
      exact .failed hpending hupdate hfailed
    | ok _ =>
      obtain ⟨frame, hresult, hcommits⟩ := commit_done (gate.told answers) hupdate false
      dsimp only
      rw [hresult]
      exact .decided hpending (by simpa using hexpired) (by simpa using hwaits) hcommits

/-! ### A gate that waits -/

theorem lastPublish_told (gate : Gate) (answers : PollAnswers) :
    (gate.told answers).lastPublish = gate.lastPublish := by
  unfold told reveal
  split_ifs <;> rfl

theorem publishedHold_told (gate : Gate) (answers : PollAnswers) :
    (gate.told answers).publishedHold = gate.publishedHold := by
  unfold told reveal
  split_ifs <;> rfl

theorem pending_reveal (gate : Gate) (shown : Bool) : (gate.reveal shown).pending = gate.pending := by
  unfold reveal
  split_ifs <;> rfl

theorem lastPublish_reveal (gate : Gate) (shown : Bool) : (gate.reveal shown).lastPublish = gate.lastPublish := by
  unfold reveal
  split_ifs <;> rfl

theorem renderHold_reveal (gate : Gate) (shown : Bool) : (gate.reveal shown).renderHold = gate.renderHold := by
  unfold reveal
  split_ifs <;> rfl

theorem publishedHold_reveal (gate : Gate) (shown : Bool) :
    (gate.reveal shown).publishedHold = gate.publishedHold := by
  unfold reveal
  split_ifs <;> rfl

/-- A gate that is not hidden is as urgent when it decides as it was before. -/
theorem told_of_shown (h : gate.hidden = false) (answers : PollAnswers) :
    gate.told answers = { gate with renderHold := answers.hold } := by
  unfold told reveal
  rw [if_neg (by simp [h])]

theorem showing_told {answers : PollAnswers} (h : answers.hold = gate.renderHold) :
    (gate.told answers).showingHeldFrame = gate.showingHeldFrame := by
  unfold showingHeldFrame
  rw [publishedHold_told]
  change answers.hold.any _ = _
  rw [h]

/-- A poll whose time has come commits, if the terminal does what it is asked for. -/
theorem pollAt_commits {now : ℕ} {answers : PollAnswers} (hpending : gate.pending = true)
    (htime : (gate.told answers).renderHoldExpired now = true ∨ (gate.told answers).decide now = true)
    (hrelease : answers.release = .ok ()) (hupdate : answers.commit.update = .ok ()) :
    ∃ frame, (gate.pollAt now answers).2 = .ok (some frame) := by
  have h := polled gate now answers
  generalize gate.pollAt now answers = polled at h ⊢
  obtain ⟨after, result⟩ := polled
  cases h with
  | idle hidle =>
    rw [pending_reveal, hpending] at hidle
    exact nomatch hidle
  | held _ herror =>
    rw [hrelease] at herror
    exact nomatch herror
  | waits _ hexpired hwaits =>
    rw [hexpired, hwaits] at htime
    simp at htime
  | failed _ herror _ =>
    rw [hupdate] at herror
    exact nomatch herror
  | expired _ _ _ => exact ⟨_, rfl⟩
  | decided _ _ _ _ => exact ⟨_, rfl⟩

/-- No time that the gate keeps is in the future. -/
structure Ordered (now : ℕ) (gate : Gate) : Prop where
  lastPublish : gate.lastPublish ≤ now
  renderHold : ∀ hold ∈ gate.renderHold, hold.startedAt ≤ now

/-- **The wake-up**: a gate with pending output names a time, and by then the terminal only has to report the hold
that it reported last. -/
theorem nextWake_commits {now later : ℕ} (h : Ordered now gate) (hlater : now ≤ later)
    (hpending : gate.pending = true) :
    ∃ wait, gate.nextWake later = some wait ∧ ∀ answers : PollAnswers, answers.hold = gate.renderHold →
      (gate.told answers).renderHoldExpired (later + wait) = true ∨
        (gate.told answers).decide (later + wait) = true := by
  have hlast := h.lastPublish
  unfold nextWake
  rw [if_neg (by simp [hpending])]
  cases hshowing : gate.showingHeldFrame with
  | true =>
    -- the held frame is shown until the hold has lasted for too long
    cases hhold : gate.renderHold with
    | none =>
      unfold showingHeldFrame at hshowing
      rw [hhold] at hshowing
      exact nomatch hshowing
    | some hold =>
      have hstarted := h.renderHold hold hhold
      refine ⟨_, rfl, fun answers hanswers => Or.inl ?_⟩
      unfold renderHoldExpired
      change answers.hold.any _ = true
      rw [hanswers]
      exact decide_eq_true (by omega)
  | false =>
    have hnone : (gate.renderHold.filter fun _ => false) = none := by cases gate.renderHold <;> rfl
    rw [hnone]
    dsimp only
    have hdecide : ∀ answers : PollAnswers, answers.hold = gate.renderHold → ∀ time,
        (gate.told answers).decide time =
          if (gate.told answers).hidden then Decidable.decide (hiddenPublishInterval ≤ time - gate.lastPublish)
          else (gate.told answers).urgent || Decidable.decide (minPublishInterval ≤ time - gate.lastPublish) := by
      intro answers hanswers time
      unfold decide
      rw [showing_told hanswers, hshowing, lastPublish_told,
        show (gate.told answers).pending = true from (pending_reveal gate answers.shown).trans hpending]
      rfl
    have hintervals : minPublishInterval ≤ hiddenPublishInterval := by decide
    split_ifs with hhidden hurgent
    · refine ⟨_, rfl, fun answers hanswers => Or.inr ?_⟩
      rw [hdecide answers hanswers]
      split_ifs
      · exact decide_eq_true (by omega)
      · rw [Bool.or_eq_true, decide_eq_true_eq]
        exact Or.inr (by omega)
    · refine ⟨_, rfl, fun answers hanswers => Or.inr ?_⟩
      rw [hdecide answers hanswers, told_of_shown (by simpa using hhidden)]
      dsimp only
      rw [if_neg hhidden, hurgent]
      rfl
    · refine ⟨_, rfl, fun answers hanswers => Or.inr ?_⟩
      rw [hdecide answers hanswers, told_of_shown (by simpa using hhidden)]
      dsimp only
      rw [if_neg hhidden, Bool.or_eq_true, decide_eq_true_eq]
      exact Or.inr (by omega)

/-! ### A held frame -/

/-- While the terminal reports the hold whose frame is shown, a poll commits nothing. -/
theorem pollAt_held {generation now : ℕ} {answers : PollAnswers} (hshown : gate.publishedHold = some generation)
    (h : answers.Holds generation now) :
    committed (gate.pollAt now answers).2 = none ∧ (gate.pollAt now answers).1.publishedHold = some generation := by
  obtain ⟨hold, hhold, hgeneration, hnow⟩ := h
  have hshowing : (gate.told answers).showingHeldFrame = true := by
    unfold showingHeldFrame
    rw [publishedHold_told, hshown]
    change answers.hold.any _ = true
    rw [hhold, ← hgeneration]
    simp
  have hexpired : (gate.told answers).renderHoldExpired now = false := by
    unfold renderHoldExpired
    change answers.hold.any _ = false
    rw [hhold]
    have hpositive : 0 < syncOutputMaxHold := by decide
    exact decide_eq_false (by omega)
  have hwaits : (gate.told answers).decide now = false := by
    unfold decide
    rw [hshowing, Bool.or_true, if_pos rfl]
  have hpoll := polled gate now answers
  generalize gate.pollAt now answers = polled at hpoll ⊢
  obtain ⟨after, result⟩ := polled
  cases hpoll with
  | idle _ => exact ⟨rfl, (publishedHold_reveal gate _).trans hshown⟩
  | held _ _ => exact ⟨rfl, (publishedHold_told gate answers).trans hshown⟩
  | waits _ _ _ => exact ⟨rfl, (publishedHold_told gate answers).trans hshown⟩
  | failed _ _ hfailed => exact ⟨rfl, hfailed.publishedHold.trans ((publishedHold_told gate answers).trans hshown)⟩
  | expired _ hyes _ => exact nomatch hexpired.symm.trans hyes
  | decided _ _ hyes _ => exact nomatch hwaits.symm.trans hyes

theorem react_held {generation : ℕ} {event : Event} (hshown : gate.publishedHold = some generation)
    (h : event.Holds generation) :
    committed (gate.react event).2 = none ∧ (gate.react event).1.publishedHold = some generation := by
  cases event with
  | noteOutput _ => exact ⟨rfl, hshown⟩
  | interactiveInput _ => exact ⟨rfl, hshown⟩
  | noteProgramReset => exact ⟨rfl, hshown⟩
  | setNativeSearch _ _ => exact ⟨rfl, hshown⟩
  | selectNativeSearch _ _ => exact ⟨rfl, hshown⟩
  | publishNow _ _ => exact h.elim
  | poll now answers => exact pollAt_held hshown h
  | setVisible visible now answers =>
    change committed (gate.setVisible visible now answers).2 = none ∧
      (gate.setVisible visible now answers).1.publishedHold = some generation
    unfold setVisible
    dsimp only
    split_ifs
    · exact ⟨rfl, hshown⟩
    · exact pollAt_held hshown h

theorem frames_held {generation : ℕ} {events : List Event} (hshown : gate.publishedHold = some generation)
    (h : ∀ event ∈ events, event.Holds generation) : frames gate events = [] := by
  induction events generalizing gate with
  | nil => rfl
  | cons event events ih =>
    obtain ⟨hnone, hstill⟩ := react_held hshown (h event List.mem_cons_self)
    unfold frames
    rw [hnone, ih hstill fun later hlater => h later (List.mem_cons_of_mem _ hlater)]
    rfl

end Gate

/-! ### The distance between two frames -/

/-- A frame that a poll of a visible and non-urgent gate commits comes an interval after the one before; only the live
frame of a hold that has lasted for too long does not wait. -/
def Apart (earlier later : Event × Frame) : Prop :=
  later.1.polls = true → later.2.hidden = false → later.2.urgent = false →
    earlier.2.committedAt + minPublishInterval ≤ later.2.committedAt ∨
      later.2.live = true ∧
        ∃ hold, later.2.hold = some hold ∧ hold.startedAt + syncOutputMaxHold ≤ later.2.committedAt

/-- What a step does to the times: `last` is when the gate committed before. -/
structure Stepped (last now : ℕ) (event : Event) (after : Gate) (result : Except String (Option Frame)) : Prop where
  ordered : Gate.Ordered now after
  quiet : committed result = none → after.lastPublish = last
  forward : ∀ frame, committed result = some frame → last ≤ frame.committedAt ∧ after.lastPublish = frame.committedAt
  apart : ∀ frame, committed result = some frame → ∀ earlier : Event × Frame, earlier.2.committedAt ≤ last →
    Apart earlier (event, frame)

namespace Gate

variable {gate : Gate}

theorem Ordered.mono {now later : ℕ} (h : Ordered now gate) (hlater : now ≤ later) : Ordered later gate :=
  ⟨Nat.le_trans h.lastPublish hlater, fun hold hhold => Nat.le_trans (h.renderHold hold hhold) hlater⟩

/-- A step that commits nothing. -/
theorem stepped_quiet {last now : ℕ} {event : Event} {after : Gate} {result : Except String (Option Frame)}
    (hordered : Ordered now after) (hlast : after.lastPublish = last) (hresult : committed result = none) :
    Stepped last now event after result := by
  refine ⟨hordered, fun _ => hlast, fun frame hframe => ?_, fun frame hframe => ?_⟩
  · rw [hresult] at hframe
    exact nomatch hframe
  · rw [hresult] at hframe
    exact nomatch hframe

theorem ordered_commits {now after : ℕ} {answers : CommitAnswers} {live : Bool} {next : Gate} {frame : Frame}
    (h : Commits gate answers live next frame) (htimed : answers.Timed now after) : Ordered after next := by
  refine ⟨h.lastPublish ▸ htimed.2.1, fun hold hhold => htimed.2.2 hold ?_⟩
  rwa [h.renderHold] at hhold

/-- The hold of a poll that releases it has lasted for too long. -/
theorem hold_of_expired {now : ℕ} (h : gate.renderHoldExpired now = true) :
    ∃ hold, gate.renderHold = some hold ∧ hold.startedAt + syncOutputMaxHold ≤ now := by
  unfold renderHoldExpired at h
  cases hhold : gate.renderHold with
  | none =>
    rw [hhold] at h
    exact nomatch h
  | some hold =>
    rw [hhold] at h
    have hlong : syncOutputMaxHold ≤ now - hold.startedAt := of_decide_eq_true h
    have hpositive : 0 < syncOutputMaxHold := by decide
    exact ⟨hold, rfl, by omega⟩

theorem interval_of_decide {now : ℕ} (h : gate.decide now = true) (hlast : gate.lastPublish ≤ now)
    (hhidden : gate.hidden = false) (hurgent : gate.urgent = false) :
    gate.lastPublish + minPublishInterval ≤ now := by
  unfold decide at h
  rw [hhidden, hurgent] at h
  split_ifs at h with hno hfalse
  · exact hfalse.elim
  · have hinterval : minPublishInterval ≤ now - gate.lastPublish := by simpa using h
    omega

theorem stepped_pollAt {before now after : ℕ} {answers : PollAnswers} {event : Event} (h : Ordered before gate)
    (hnow : before ≤ now) (htimed : answers.Timed now after) :
    Stepped gate.lastPublish after event (gate.pollAt now answers).1 (gate.pollAt now answers).2 := by
  have hcommitted := htimed.1.1
  have hafter : now ≤ after := Nat.le_trans hcommitted htimed.1.2.1
  have hlast : gate.lastPublish ≤ now := Nat.le_trans h.lastPublish hnow
  have htold : Ordered after (gate.told answers) :=
    ⟨(lastPublish_told gate answers).symm ▸ Nat.le_trans hlast hafter, fun hold hhold => htimed.2 hold hhold⟩
  have hpoll := polled gate now answers
  generalize gate.pollAt now answers = polled at hpoll ⊢
  obtain ⟨next, result⟩ := polled
  cases hpoll with
  | idle _ =>
    have hreveal : Ordered after (gate.reveal answers.shown) := by
      refine ⟨(lastPublish_reveal gate _).symm ▸ Nat.le_trans hlast hafter, fun hold hhold => ?_⟩
      rw [renderHold_reveal] at hhold
      exact Nat.le_trans (h.renderHold hold hhold) (Nat.le_trans hnow hafter)
    exact stepped_quiet hreveal (lastPublish_reveal gate _) rfl
  | held _ _ => exact stepped_quiet htold (lastPublish_told gate answers) rfl
  | waits _ _ _ => exact stepped_quiet htold (lastPublish_told gate answers) rfl
  | failed _ _ hfailed =>
    refine stepped_quiet ⟨hfailed.lastPublish ▸ htold.lastPublish, fun hold hhold => htold.renderHold hold ?_⟩
      (hfailed.lastPublish.trans (lastPublish_told gate answers)) rfl
    rwa [hfailed.renderHold] at hhold
  | expired _ hexpired hcommits =>
    refine ⟨ordered_commits hcommits htimed.1, (nomatch ·), fun frame hframe => ?_,
      fun frame hframe earlier hearlier _ _ _ => Or.inr ?_⟩
    · obtain rfl := Option.some.inj hframe
      rw [hcommits.frame_committedAt]
      exact ⟨Nat.le_trans hlast hcommitted, hcommits.lastPublish⟩
    · obtain rfl := Option.some.inj hframe
      obtain ⟨hold, hhold, hlong⟩ := hold_of_expired hexpired
      refine ⟨hcommits.frame_live, hold, hcommits.frame_hold.trans hhold, ?_⟩
      dsimp only
      rw [hcommits.frame_committedAt]
      exact Nat.le_trans hlong hcommitted
  | decided _ _ hdecide hcommits =>
    refine ⟨ordered_commits hcommits htimed.1, (nomatch ·), fun frame hframe => ?_,
      fun frame hframe earlier hearlier _ hhidden hurgent => Or.inl ?_⟩
    · obtain rfl := Option.some.inj hframe
      rw [hcommits.frame_committedAt]
      exact ⟨Nat.le_trans hlast hcommitted, hcommits.lastPublish⟩
    · obtain rfl := Option.some.inj hframe
      have hinterval := interval_of_decide hdecide ((lastPublish_told gate answers).symm ▸ hlast)
        (hcommits.frame_hidden.symm.trans hhidden) (hcommits.frame_urgent.symm.trans hurgent)
      rw [lastPublish_told] at hinterval
      dsimp only at hearlier ⊢
      rw [hcommits.frame_committedAt]
      omega

theorem stepped_publishNow {before now after : ℕ} {answers : CommitAnswers} (h : Ordered before gate)
    (hnow : before ≤ now) (htimed : answers.Timed now after) :
    Stepped gate.lastPublish after (.publishNow now answers) (gate.publishNow answers).1
      (gate.publishNow answers).2 := by
  have hafter : now ≤ after := Nat.le_trans htimed.1 htimed.2.1
  unfold publishNow
  dsimp only
  cases hupdate : answers.update with
  | error error =>
    obtain ⟨hresult, hfailed⟩ := commit_failed gate hupdate true
    rw [hresult]
    refine stepped_quiet ⟨?_, fun hold hhold => ?_⟩ hfailed.lastPublish rfl
    · rw [hfailed.lastPublish]
      exact Nat.le_trans h.lastPublish (Nat.le_trans hnow hafter)
    · rw [hfailed.renderHold] at hhold
      exact Nat.le_trans (h.renderHold hold hhold) (Nat.le_trans hnow hafter)
  | ok _ =>
    obtain ⟨frame, hresult, hcommits⟩ := commit_done gate hupdate true
    rw [hresult]
    refine ⟨ordered_commits hcommits htimed, (nomatch ·), fun committed hframe => ?_,
      fun committed hframe earlier hearlier hpolls => nomatch hpolls⟩
    obtain rfl := Option.some.inj hframe
    rw [hcommits.frame_committedAt]
    exact ⟨Nat.le_trans h.lastPublish (Nat.le_trans hnow htimed.1), hcommits.lastPublish⟩

theorem stepped_react {before after : ℕ} {event : Event} (h : Ordered before gate) (htimed : event.Timed before after) :
    Stepped gate.lastPublish after event (gate.react event).1 (gate.react event).2 := by
  cases event with
  | noteOutput now =>
    have hlater := (h.mono htimed.1).mono htimed.2
    exact stepped_quiet ⟨hlater.1, hlater.2⟩ rfl rfl
  | interactiveInput now =>
    have hlater := (h.mono htimed.1).mono htimed.2
    exact stepped_quiet ⟨hlater.1, hlater.2⟩ rfl rfl
  | noteProgramReset => exact stepped_quiet ⟨(h.mono htimed).1, (h.mono htimed).2⟩ rfl rfl
  | setNativeSearch _ _ => exact stepped_quiet ⟨(h.mono htimed).1, (h.mono htimed).2⟩ rfl rfl
  | selectNativeSearch _ _ => exact stepped_quiet ⟨(h.mono htimed).1, (h.mono htimed).2⟩ rfl rfl
  | publishNow now answers => exact stepped_publishNow h htimed.1 htimed.2
  | poll now answers => exact stepped_pollAt h htimed.1 htimed.2
  | setVisible visible now answers =>
    change Stepped gate.lastPublish after _ (gate.setVisible visible now answers).1
      (gate.setVisible visible now answers).2
    have hafter : now ≤ after := Nat.le_trans htimed.2.1.1 htimed.2.1.2.1
    unfold setVisible
    dsimp only
    split_ifs
    · exact stepped_quiet ⟨((h.mono htimed.1).mono hafter).1, ((h.mono htimed.1).mono hafter).2⟩ rfl rfl
    · have hvisible : Ordered before { gate with hidden := !visible, urgent := gate.urgent || gate.pending } :=
        ⟨h.1, h.2⟩
      exact stepped_pollAt hvisible htimed.1 htimed.2

end Gate

/-- What holds in every state of a run: the frames so far are apart, and none is later than the last publication. -/
structure Sound (now : ℕ) (gate : Gate) (log : List (Event × Frame)) : Prop where
  ordered : gate.Ordered now
  last : ∀ entry ∈ log, entry.2.committedAt ≤ gate.lastPublish
  apart : log.Pairwise Apart

theorem sound_reach {now : ℕ} {gate : Gate} {log : List (Event × Frame)} (h : Reach now gate log) :
    Sound now gate log := by
  induction h with
  | new horigin => exact ⟨⟨horigin, (fun _ hhold => nomatch hhold)⟩, (fun _ hentry => nomatch hentry), .nil⟩
  | @step before after gate log event _ htimed ih =>
    obtain ⟨hordered, hquiet, hforward, hapart⟩ := Gate.stepped_react ih.ordered htimed
    unfold frames frames
    rw [List.append_nil]
    cases hresult : committed (gate.react event).2 with
    | none =>
      rw [Option.map_none, Option.toList_none, List.append_nil]
      refine ⟨hordered, fun entry hentry => ?_, ih.apart⟩
      rw [hquiet hresult]
      exact ih.last entry hentry
    | some frame =>
      obtain ⟨hle, heq⟩ := hforward frame hresult
      rw [Option.map_some, Option.toList_some]
      refine ⟨hordered, fun entry hentry => ?_, ?_⟩
      · rw [heq]
        rcases List.mem_append.mp hentry with hold | hnew
        · exact Nat.le_trans (ih.last entry hold) hle
        · exact Nat.le_of_eq (congrArg (fun entry => entry.2.committedAt) (List.mem_singleton.mp hnew))
      · refine List.pairwise_append.mpr ⟨ih.apart, List.pairwise_singleton _ _, fun earlier hearlier later hlater => ?_⟩
        rw [List.mem_singleton.mp hlater]
        exact hapart frame hresult earlier (ih.last earlier hearlier)

/-- A frame that is not live leaves the gate with the hold that the terminal reported after it. -/
theorem Gate.publishedHold_pollAt {gate : Gate} {now : ℕ} {answers : PollAnswers} {frame : Frame}
    (hframe : committed (gate.pollAt now answers).2 = some frame) (hlive : frame.live = false) :
    (gate.pollAt now answers).1.publishedHold = (gate.pollAt now answers).1.renderHold.map (·.generation) := by
  have hpoll := Gate.polled gate now answers
  generalize gate.pollAt now answers = polled at hpoll hframe ⊢
  obtain ⟨next, result⟩ := polled
  cases hpoll with
  | idle _ => exact nomatch hframe
  | held _ _ => exact nomatch hframe
  | waits _ _ _ => exact nomatch hframe
  | failed _ _ _ => exact nomatch hframe
  | expired _ _ hcommits =>
    obtain rfl := Option.some.inj hframe
    rw [hcommits.frame_live] at hlive
    exact nomatch hlive
  | decided _ _ _ hcommits =>
    dsimp only
    rw [hcommits.publishedHold, hcommits.renderHold]
    cases answers.commit.holdAfter <;> rfl

theorem Gate.publishedHold_react {gate : Gate} {event : Event} {frame : Frame}
    (hframe : committed (gate.react event).2 = some frame) (hlive : frame.live = false) :
    (gate.react event).1.publishedHold = (gate.react event).1.renderHold.map (·.generation) := by
  cases event with
  | noteOutput _ => exact nomatch hframe
  | interactiveInput _ => exact nomatch hframe
  | noteProgramReset => exact nomatch hframe
  | setNativeSearch _ _ => exact nomatch hframe
  | selectNativeSearch _ _ => exact nomatch hframe
  | poll now answers => exact publishedHold_pollAt hframe hlive
  | publishNow now answers =>
    change committed ((gate.commit answers true).2.map some) = some frame at hframe
    cases hupdate : answers.update with
    | error error =>
      rw [(commit_failed gate hupdate true).1] at hframe
      exact nomatch hframe
    | ok _ =>
      obtain ⟨other, hresult, hcommits⟩ := commit_done gate hupdate true
      rw [hresult] at hframe
      obtain rfl := Option.some.inj hframe
      rw [hcommits.frame_live] at hlive
      exact nomatch hlive
  | setVisible visible now answers =>
    change committed (gate.setVisible visible now answers).2 = some frame at hframe
    change (gate.setVisible visible now answers).1.publishedHold =
      (gate.setVisible visible now answers).1.renderHold.map (·.generation)
    unfold setVisible at hframe ⊢
    dsimp only at hframe ⊢
    split_ifs at hframe ⊢ with hrevealed
    · exact nomatch hframe
    · exact publishedHold_pollAt hframe hlive

/-- **The gate**, in every run: pending output has a wake-up, and a poll then commits a frame if nothing has changed; a
held frame stays until the hold ends or has lasted for too long; and the frames of polls are apart. -/
theorem gate_rules {now : ℕ} {gate : Gate} {log : List (Event × Frame)} (h : Reach now gate log) :
    (gate.pending = true → ∀ later, now ≤ later → ∃ wait, gate.nextWake later = some wait ∧
      ∀ answers : PollAnswers, answers.hold = gate.renderHold → answers.release = .ok () →
        answers.commit.update = .ok () → ∃ frame, (gate.pollAt (later + wait) answers).2 = .ok (some frame)) ∧
    (∀ event frame, committed (gate.react event).2 = some frame → frame.live = false →
      ∀ hold, (gate.react event).1.renderHold = some hold → ∀ events : List Event,
        (∀ later ∈ events, later.Holds hold.generation) → frames (gate.react event).1 events = []) ∧
    log.Pairwise Apart := by
  have hsound := sound_reach h
  refine ⟨fun hpending later hlater => ?_, fun event frame hframe hlive hold hhold events hevents => ?_,
    hsound.apart⟩
  · obtain ⟨wait, hwait, htime⟩ := Gate.nextWake_commits hsound.ordered hlater hpending
    exact ⟨wait, hwait, fun answers hanswers hrelease hupdate =>
      Gate.pollAt_commits hpending (htime answers hanswers) hrelease hupdate⟩
  · have hshown := Gate.publishedHold_react hframe hlive
    rw [hhold] at hshown
    exact Gate.frames_held hshown hevents

/-! ### A hold that ends while its frame is new -/

/-- A poll that is told of a hold which began a second after the start. -/
def heldPoll (now : ℕ) : Event :=
  let hold : RenderHold := { startedAt := millis 1000, generation := 1 }
  .poll now
    { shown := true
      hold := some hold
      release := .ok ()
      commit :=
        { searchedAt := now
          searchStep := fun _ => .ok none
          foundAt := now
          update := .ok ()
          committedAt := now
          holdAfter := some hold } }

/-- The first poll comes late: the frame of the hold's beginning is committed a millisecond before the hold has lasted
for too long. -/
def lateRun : List Event := [.noteOutput (millis 1000), heldPoll (millis 1149), heldPoll (millis 1150)]

theorem timed_heldPoll {now : ℕ} (h : millis 1000 ≤ now) : (heldPoll now).Timed now now := by
  refine ⟨Nat.le_refl _, ⟨Nat.le_refl _, Nat.le_refl _, fun hold hhold => ?_⟩, fun hold hhold => ?_⟩
  · rw [← Option.some.inj hhold]
    exact h
  · rw [← Option.some.inj hhold]
    exact h

theorem reach_lateRun : ∃ gate, Reach (millis 1150) gate (frames (.startAt 0) lateRun) := by
  have houtput : (Event.noteOutput (millis 1000)).Timed 0 (millis 1149) := ⟨by decide, by decide⟩
  have hlater : (heldPoll (millis 1150)).Timed (millis 1149) (millis 1150) :=
    ⟨by decide, (timed_heldPoll (by decide)).2⟩
  have hreach := ((Reach.new (Nat.le_refl 0)).step houtput).step (timed_heldPoll (by decide)) |>.step hlater
  exact ⟨_, hreach⟩

theorem lateRun_shows : (frames (.startAt 0) lateRun).map (fun entry => (entry.1.polls, entry.2.hidden,
    entry.2.urgent, entry.2.live, entry.2.committedAt)) =
      [(true, false, false, false, millis 1149), (true, false, false, true, millis 1150)] := by
  rfl

theorem gate_rules_lateRun : (frames (.startAt 0) lateRun).Pairwise Apart := by
  obtain ⟨gate, hreach⟩ := reach_lateRun
  exact (gate_rules hreach).2.2

theorem not_always_apart : ¬∀ (now : ℕ) (gate : Gate) (log : List (Event × Frame)), Reach now gate log →
    log.Pairwise fun earlier later => earlier.1.polls = true → later.1.polls = true →
      earlier.2.hidden = false → later.2.hidden = false → earlier.2.urgent = false → later.2.urgent = false →
        earlier.2.committedAt + minPublishInterval ≤ later.2.committedAt := by
  intro h
  obtain ⟨gate, hreach⟩ := reach_lateRun
  have hapart := h _ gate _ hreach
  have hmap : ((frames (.startAt 0) lateRun).map fun entry => (entry.1.polls, entry.2.hidden, entry.2.urgent,
      entry.2.live, entry.2.committedAt)).Pairwise fun earlier later => earlier.1 = true → later.1 = true →
        earlier.2.1 = false → later.2.1 = false → earlier.2.2.1 = false → later.2.2.1 = false →
          earlier.2.2.2.2 + minPublishInterval ≤ later.2.2.2.2 := List.pairwise_map.mpr hapart
  rw [lateRun_shows] at hmap
  have hpair := (List.pairwise_cons.mp hmap).1 _ List.mem_cons_self rfl rfl rfl rfl rfl rfl
  exact absurd hpair (by decide)

end Paneflow.Terminal.PublishGate
