import Paneflow.OrdMap
import Paneflow.Usage.Tokens
import Mathlib.Data.Finset.Basic
import Mathlib.Data.String.Basic
import Mathlib.Tactic.SplitIfs

/-!
# The usage ledger

usage/ledger.rs. `TurnBook` counts turns, active time and tokens by day and account. A turn is opened by a
prompt or by work, goes through working and blocked intervals, and is booked when it finishes; hook signals
carry a mark, and one that is not above the watermark of its session is a replay. `Ledger.flush` writes the
book when its revision has moved since the last write.

Times are in milliseconds. Sessions, accounts and days are arbitrary ordered types.
-/

namespace Paneflow.Usage.Ledger

open Paneflow.Usage.Tokens

def ledgerWriteInterval : ℕ := 60 * 10 ^ 3

def turnIdleLimitMs : ℕ := 4 * 3600 * 1000

def maxTurnActiveMs : ℕ := 4 * 3600 * 1000

def maxTurnIntervals : ℕ := 256

def maxWatermarks : ℕ := 512

def maxCursors : ℕ := 200

/-- A calendar; the next midnight of `ZoneCalendar` is after the time, as it is the greatest number when
there is none. -/
structure Calendar (D : Type) where
  day : ℕ → D
  nextMidnightMs : ℕ → ℕ
  next_gt : ∀ t, t < nextMidnightMs t

structure DayTally where
  turns : ℕ
  activeMs : ℕ
  tokensIn : ℕ
  tokensOut : ℕ
  deriving DecidableEq, Repr

def DayTally.default : DayTally := ⟨0, 0, 0, 0⟩

structure ImportRecord where
  finishedAtMs : ℕ
  files : ℕ
  limitedDays : Option ℕ
  deriving DecidableEq, Repr

inductive TurnInput where
  | prompt
  | stop
  | working
  | blocked
  | settled
  | ended
  | vanished
  deriving DecidableEq, Repr

def TurnInput.fromHook : TurnInput → Bool
  | .prompt | .stop | .ended => true
  | _ => false

structure TurnSignal (S A : Type) where
  session : S
  account : A
  input : TurnInput
  atMs : ℕ
  order : ℕ
  deriving DecidableEq, Repr

structure OpenTurn (A : Type) where
  account : A
  startedAtMs : ℕ
  lastEventMs : ℕ
  promptAtMs : Option ℕ
  workingSinceMs : Option ℕ
  working : List (ℕ × ℕ)
  declared : Bool
  deriving DecidableEq, Repr

namespace OpenTurn

variable {A : Type}

def closeWorking (turn : OpenTurn A) (atMs : ℕ) : OpenTurn A :=
  match turn.workingSinceMs with
  | none => turn
  | some since =>
    let stop := max atMs since
    let full := turn.working.length ≥ maxTurnIntervals
    let working := match turn.working.getLast? with
      | some last =>
        if full then turn.working.dropLast ++ [(last.1, stop)] else turn.working ++ [(since, stop)]
      | none => turn.working ++ [(since, stop)]
    { turn with workingSinceMs := none, working := working }

/-- When the turn ends: at the time that is given, or with its last event. -/
def endAt (turn : OpenTurn A) (endMs : Option ℕ) : ℕ :=
  max (endMs.getD turn.lastEventMs) turn.startedAtMs

/-- The intervals as far as the budget goes. -/
def capped : ℕ → List (ℕ × ℕ) → List (ℕ × ℕ)
  | _, [] => []
  | budget, (start, stop) :: intervals =>
    let length := min (stop - start) budget
    let rest := capped (budget - length) intervals
    if length > 0 then (start, start + length) :: rest else rest

/-- The intervals before they are capped. -/
def rawIntervals (turn : OpenTurn A) (endMs : ℕ) : List (ℕ × ℕ) :=
  if turn.declared then turn.working else [(turn.promptAtMs.getD turn.startedAtMs, endMs)]

def activeIntervals (turn : OpenTurn A) (endMs : ℕ) : List (ℕ × ℕ) :=
  capped maxTurnActiveMs (turn.rawIntervals endMs)

end OpenTurn

section
variable {S A D : Type} [LinearOrder S] [LinearOrder A] [LinearOrder D]

structure TurnBook (S A D : Type) [LinearOrder S] [LinearOrder A] [LinearOrder D] where
  days : OrdMap D (OrdMap A DayTally)
  openTurns : OrdMap S (OpenTurn A)
  watermarks : OrdMap S (ℕ × ℕ)
  cursors : OrdMap String (TokenCursor D)
  imported : OrdMap D (OrdMap A Unit)
  importRecord : Option ImportRecord
  revision : ℕ
  deriving DecidableEq

namespace TurnBook

def default : TurnBook S A D := ⟨.empty, .empty, .empty, .empty, .empty, none, 0⟩

/-- The tallies of the day. -/
def onDay (book : TurnBook S A D) (day : D) : OrdMap A DayTally :=
  (book.days.get? day).getD .empty

def tally (book : TurnBook S A D) (day : D) (account : A) : DayTally :=
  ((book.onDay day).get? account).getD .default

def tokenCursor (book : TurnBook S A D) (path : String) : TokenCursor D :=
  (book.cursors.get? path).getD .default

def isImported (book : TurnBook S A D) (day : D) (account : A) : Bool :=
  match book.imported.get? day with
  | some accounts => (accounts.get? account).isSome
  | none => false

def book (book : TurnBook S A D) (day : D) (account : A) (change : DayTally → DayTally) :
    TurnBook S A D :=
  if book.isImported day account then book
  else
    { book with
      days := book.days.insert day
        ((book.onDay day).insert account (change (book.tally day account)))
      revision := book.revision + 1 }

/-- One tally of `import_days`. -/
def importDay (book : TurnBook S A D) (day : D) (account : A) (tally : DayTally) : TurnBook S A D :=
  if tally = .default ∨ ((book.onDay day).get? account).isSome then book
  else
    { book with
      days := book.days.insert day ((book.onDay day).insert account tally)
      imported := book.imported.insert day
        (((book.imported.get? day).getD .empty).insert account ()) }

def importDays (book : TurnBook S A D) (days : OrdMap D (OrdMap A DayTally)) (today : D)
    (record : ImportRecord) : TurnBook S A D :=
  let book := (days.entries.filter fun entry => entry.1 < today).foldl
    (fun book entry =>
      entry.2.entries.foldl (fun book tally => book.importDay entry.1 tally.1 tally.2) book) book
  { book with importRecord := some record, revision := book.revision + 1 }

/-- The path of the cursor that was touched first, the first one of these. -/
def oldestCursor (cursors : OrdMap String (TokenCursor D)) : Option String :=
  (cursors.entries.foldl
    (fun oldest entry =>
      match oldest with
      | some (path, touched) =>
        if entry.2.touchedMs < touched then some (entry.1, entry.2.touchedMs)
        else some (path, touched)
      | none => some (entry.1, entry.2.touchedMs)) none).map Prod.fst

/-- The loop that drops cursors while there are too many, for at most `fuel` of them. -/
def dropCursors : ℕ → OrdMap String (TokenCursor D) → OrdMap String (TokenCursor D)
  | 0, cursors => cursors
  | fuel + 1, cursors =>
    if cursors.entries.length > maxCursors then
      match oldestCursor cursors with
      | some path => dropCursors fuel (cursors.erase path)
      | none => cursors
    else cursors

def recordTokens (book : TurnBook S A D) (account : A) (pass : TokenPass D) :
    Bool × TurnBook S A D :=
  if book.tokenCursor pass.path ≠ pass.start then (false, book)
  else
    let book := pass.entries.foldl (fun book entry => book.book entry.day account fun tally =>
      { tally with
        tokensIn := tally.tokensIn + entry.input
        tokensOut := tally.tokensOut + entry.output }) book
    if pass.cursor = pass.start then (!pass.entries.isEmpty, book)
    else
      let cursors := book.cursors.insert pass.path pass.cursor
      let cursors := cursors.mapValues fun cursor =>
        if cursor.seenDay ≠ pass.cursor.seenDay then { cursor with seen := [] } else cursor
      (true, { book with
        cursors := dropCursors cursors.entries.length cursors
        revision := book.revision + 1 })

/-- The order of marks, as that of pairs in the source. -/
def markLe (mark watermark : ℕ × ℕ) : Bool :=
  mark.1 < watermark.1 || (mark.1 = watermark.1 && mark.2 ≤ watermark.2)

/-- The oldest watermark of a session without an open turn, the first one of these. -/
def oldestWatermark (book : TurnBook S A D) : Option S :=
  ((book.watermarks.entries.filter fun entry => (book.openTurns.get? entry.1).isNone).foldl
    (fun oldest entry =>
      match oldest with
      | some (session, mark) => if markLe mark entry.2 then some (session, mark) else some entry
      | none => some entry) none).map Prod.fst

/-- The loop of `trim_watermarks`, for at most `fuel` of them. -/
def trimLoop : ℕ → TurnBook S A D → TurnBook S A D
  | 0, book => book
  | fuel + 1, book =>
    if book.watermarks.entries.length > maxWatermarks then
      match book.oldestWatermark with
      | some oldest => trimLoop fuel { book with watermarks := book.watermarks.erase oldest }
      | none => book
    else book

def trimWatermarks (book : TurnBook S A D) : TurnBook S A D :=
  trimLoop book.watermarks.entries.length book

/-- `book_span`: the time from `cursor` on, day by day. -/
def bookSpan (book : TurnBook S A D) (account : A) (cursor stop : ℕ) (calendar : Calendar D) :
    TurnBook S A D :=
  if cursor < stop then
    let boundary := min (calendar.nextMidnightMs cursor) stop
    (book.book (calendar.day cursor) account fun tally =>
      { tally with activeMs := tally.activeMs + (boundary - cursor) }).bookSpan account boundary stop
        calendar
  else book
termination_by stop - cursor
decreasing_by
  have := calendar.next_gt cursor
  omega

def finish (book : TurnBook S A D) (session : S) (endMs : Option ℕ) (calendar : Calendar D) :
    TurnBook S A D :=
  match book.openTurns.get? session with
  | none => book
  | some turn =>
    let book := { book with openTurns := book.openTurns.erase session }
    let stop := turn.endAt endMs
    let turn := turn.closeWorking stop
    let book := (turn.activeIntervals stop).foldl
      (fun book span => book.bookSpan turn.account span.1 span.2 calendar) book
    { book with revision := book.revision + 1 }

/-- `open_or_start`, and what the caller does with the turn. -/
def openOrStart (book : TurnBook S A D) (signal : TurnSignal S A) (calendar : Calendar D)
    (change : OpenTurn A → OpenTurn A) : TurnBook S A D :=
  let book :=
    if (book.openTurns.get? signal.session).isSome then book
    else book.book (calendar.day signal.atMs) signal.account fun tally =>
      { tally with turns := tally.turns + 1 }
  let turn := (book.openTurns.get? signal.session).getD
    ⟨signal.account, signal.atMs, signal.atMs, none, none, [], false⟩
  { book with openTurns := book.openTurns.insert signal.session (change turn) }

/-- What `apply` does with a signal that is not a replay. -/
def applyInput (book : TurnBook S A D) (signal : TurnSignal S A) (calendar : Calendar D) :
    TurnBook S A D :=
  let t := signal.atMs
  match signal.input with
  | .prompt => book.openOrStart signal calendar fun turn =>
    { turn with
      promptAtMs := some (turn.promptAtMs.getD t)
      lastEventMs := max turn.lastEventMs t }
  | .working => book.openOrStart signal calendar fun turn =>
    { turn with
      declared := true
      workingSinceMs := some (turn.workingSinceMs.getD t)
      lastEventMs := max turn.lastEventMs t }
  | .blocked =>
    match book.openTurns.get? signal.session with
    | some turn =>
      let turn := turn.closeWorking t
      { book with
        openTurns := book.openTurns.insert signal.session
          { turn with lastEventMs := max turn.lastEventMs t } }
    | none => book
  | .settled | .stop | .ended => book.finish signal.session (some t) calendar
  | .vanished => book.finish signal.session none calendar

/-- The watermark of the session, zero when there is none. -/
def watermark (book : TurnBook S A D) (session : S) : ℕ × ℕ :=
  (book.watermarks.get? session).getD (0, 0)

def apply (book : TurnBook S A D) (signal : TurnSignal S A) (calendar : Calendar D) :
    TurnBook S A D :=
  if signal.input.fromHook then
    if markLe (signal.atMs, signal.order) (book.watermark signal.session) then
      { book with
        watermarks := book.watermarks.insert signal.session (book.watermark signal.session) }
    else
      ({ book with
        watermarks := book.watermarks.insert signal.session (signal.atMs, signal.order) }.applyInput
          signal calendar).trimWatermarks
  else (book.applyInput signal calendar).trimWatermarks

/-- Whether and when `expire` ends the turn. -/
def expiry (running inTurn : Finset S) (nowMs : ℕ) (session : S) (turn : OpenTurn A) :
    Option (Option ℕ) :=
  if session ∉ running ∨ (turn.declared ∧ session ∉ inTurn) then some none
  else if nowMs - turn.lastEventMs ≥ turnIdleLimitMs then
    some (turn.workingSinceMs.map fun _ => nowMs)
  else none

/-- The turns that `expire` ends. -/
def expired (book : TurnBook S A D) (running inTurn : Finset S) (nowMs : ℕ) :
    List (S × Option ℕ) :=
  book.openTurns.entries.filterMap fun entry =>
    (expiry running inTurn nowMs entry.1 entry.2).map fun endMs => (entry.1, endMs)

def expire (book : TurnBook S A D) (running inTurn : Finset S) (nowMs : ℕ)
    (calendar : Calendar D) : TurnBook S A D :=
  (book.expired running inTurn nowMs).foldl
    (fun book entry => book.finish entry.1 entry.2 calendar) book

end TurnBook

/-- A hook signal that is not above the watermark of its session. -/
def replayed (book : TurnBook S A D) (signal : TurnSignal S A) : Bool :=
  signal.input.fromHook &&
    TurnBook.markLe (signal.atMs, signal.order) (book.watermark signal.session)

/-! ### What booking does not touch -/

/-- `book'` has other tallies than `book` at most, and then a greater revision. -/
structure Rebooked (book book' : TurnBook S A D) : Prop where
  openTurns : book'.openTurns = book.openTurns
  watermarks : book'.watermarks = book.watermarks
  cursors : book'.cursors = book.cursors
  imported : book'.imported = book.imported
  importRecord : book'.importRecord = book.importRecord
  revision : book' = book ∨ book.revision < book'.revision

theorem Rebooked.refl (book : TurnBook S A D) : Rebooked book book :=
  ⟨rfl, rfl, rfl, rfl, rfl, .inl rfl⟩

theorem Rebooked.le {book book' : TurnBook S A D} (h : Rebooked book book') :
    book.revision ≤ book'.revision := by
  rcases h.revision with rfl | hlt
  · exact le_rfl
  · exact hlt.le

theorem Rebooked.trans {book book' book'' : TurnBook S A D} (h : Rebooked book book')
    (h' : Rebooked book' book'') : Rebooked book book'' := by
  refine ⟨h'.openTurns.trans h.openTurns, h'.watermarks.trans h.watermarks,
    h'.cursors.trans h.cursors, h'.imported.trans h.imported,
    h'.importRecord.trans h.importRecord, ?_⟩
  rcases h.revision with rfl | hlt
  · exact h'.revision
  · exact .inr (hlt.trans_le h'.le)

theorem book_rebooked (book : TurnBook S A D) (day : D) (account : A)
    (change : DayTally → DayTally) : Rebooked book (book.book day account change) := by
  unfold TurnBook.book
  split_ifs
  · exact .refl book
  · exact ⟨rfl, rfl, rfl, rfl, rfl, .inr (Nat.lt_succ_self _)⟩

theorem bookSpan_rebooked (book : TurnBook S A D) (account : A) (cursor stop : ℕ)
    (calendar : Calendar D) : Rebooked book (book.bookSpan account cursor stop calendar) := by
  induction hsize : stop - cursor using Nat.strong_induction_on generalizing cursor book with
  | _ size ih =>
    unfold TurnBook.bookSpan
    split_ifs with hlt
    · have hnext := calendar.next_gt cursor
      exact (book_rebooked ..).trans (ih _ (by omega) _ _ rfl)
    · exact .refl book

theorem bookSpans_rebooked (book : TurnBook S A D) (account : A) (spans : List (ℕ × ℕ))
    (calendar : Calendar D) :
    Rebooked book
      (spans.foldl (fun book span => book.bookSpan account span.1 span.2 calendar) book) := by
  induction spans generalizing book with
  | nil => exact .refl book
  | cons span spans ih => exact (bookSpan_rebooked ..).trans (ih _)

/-- A turn that is finished is taken out of the open ones, and the revision moves. -/
theorem finish_cases (book : TurnBook S A D) (session : S) (endMs : Option ℕ)
    (calendar : Calendar D) :
    (book.openTurns.get? session = none ∧ book.finish session endMs calendar = book) ∨
    ((book.openTurns.get? session).isSome = true ∧
      ∃ booked, Rebooked { book with openTurns := book.openTurns.erase session } booked ∧
        book.finish session endMs calendar = { booked with revision := booked.revision + 1 }) := by
  unfold TurnBook.finish
  cases hturn : book.openTurns.get? session with
  | none => exact .inl ⟨rfl, rfl⟩
  | some turn => exact .inr ⟨rfl, _, bookSpans_rebooked .., rfl⟩

end

end Paneflow.Usage.Ledger
