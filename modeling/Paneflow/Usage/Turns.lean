import Paneflow.Intervals
import Paneflow.Usage.Ledger

/-!
# What the turns are booked as

Every turn is counted once, on the day it started, and its active time is booked when it finishes, on the
days it falls in and up to the limit (`runs_accounted`). What a step opens and finishes is listed by
`stepEvents`.
-/

namespace Paneflow.Usage.Ledger

open Paneflow.Intervals

/-- The days are constant from a time to the next midnight. -/
def Calendar.Constant {D : Type} (calendar : Calendar D) : Prop :=
  ∀ t t', t ≤ t' → t' < calendar.nextMidnightMs t → calendar.day t' = calendar.day t

/-! ### Intervals of a turn -/

section
variable {A : Type} {turn : OpenTurn A} {now stop : ℕ}

/-- What holds of an open turn whose events were not after `now`. -/
structure Shaped (now : ℕ) (turn : OpenTurn A) : Prop where
  started : turn.startedAtMs ≤ turn.lastEventMs
  last : turn.lastEventMs ≤ now
  prompt : ∀ t, turn.promptAtMs = some t → turn.startedAtMs ≤ t ∧ t ≤ turn.lastEventMs
  since : ∀ t, turn.workingSinceMs = some t →
    Within turn.startedAtMs t turn.working ∧ t ≤ turn.lastEventMs
  working : Within turn.startedAtMs turn.lastEventMs turn.working

theorem closeWorking_eq (turn : OpenTurn A) (stop : ℕ) :
    turn.closeWorking stop =
      { turn with workingSinceMs := none, working := (turn.closeWorking stop).working } := by
  unfold OpenTurn.closeWorking
  cases hsince : turn.workingSinceMs with
  | none => cases turn; simp_all
  | some since => rfl

/-- The working intervals stay in order when one is closed. -/
theorem Shaped.closeWorking (h : Shaped now turn) (hstop : turn.lastEventMs ≤ stop) :
    Within turn.startedAtMs stop (turn.closeWorking stop).working := by
  unfold OpenTurn.closeWorking
  cases hsince : turn.workingSinceMs with
  | none => exact h.working.mono hstop
  | some since =>
    obtain ⟨hwithin, hle⟩ := h.since since hsince
    have hmax : max stop since = stop := max_eq_left (hle.trans hstop)
    dsimp only
    rw [hmax]
    have hpush : Within turn.startedAtMs stop (turn.working ++ [(since, stop)]) :=
      hwithin.concat (hle.trans hstop)
    cases hlast : turn.working.getLast? with
    | none => exact hpush
    | some last =>
      dsimp only
      split_ifs
      · obtain ⟨init, hinit⟩ := List.getLast?_eq_some_iff.1 hlast
        have hworking := h.working
        rw [hinit] at hworking ⊢
        rw [List.dropLast_concat]
        exact hworking.extend hstop
      · exact hpush

theorem total_capped (budget : ℕ) (intervals : List (ℕ × ℕ)) :
    total (OpenTurn.capped budget intervals) = min budget (total intervals) := by
  induction intervals generalizing budget with
  | nil => simp [OpenTurn.capped]
  | cons span intervals ih =>
    obtain ⟨start, stop⟩ := span
    unfold OpenTurn.capped
    dsimp only
    split_ifs with hpos
    · rw [total_cons, total_cons, ih]
      dsimp only
      omega
    · rw [total_cons, ih]
      dsimp only
      omega

end

/-! ### What is booked -/

section
variable {S A D : Type} [LinearOrder S] [LinearOrder A] [LinearOrder D]
variable {book book' book'' : TurnBook S A D} {calendar : Calendar D}

/-- `book'` is `book` with turns and active time added to its tallies. -/
structure Adds (book book' : TurnBook S A D) (turns active : D → A → ℕ) : Prop where
  openTurns : book'.openTurns = book.openTurns
  watermarks : book'.watermarks = book.watermarks
  imported : book'.imported = book.imported
  turns : ∀ day account,
    (book'.tally day account).turns = (book.tally day account).turns + turns day account
  active : ∀ day account,
    (book'.tally day account).activeMs = (book.tally day account).activeMs + active day account

theorem Adds.refl (book : TurnBook S A D) : Adds book book (fun _ _ => 0) (fun _ _ => 0) :=
  ⟨rfl, rfl, rfl, fun _ _ => rfl, fun _ _ => rfl⟩

theorem Adds.trans {turns turns' active active' : D → A → ℕ} (h : Adds book book' turns active)
    (h' : Adds book' book'' turns' active') :
    Adds book book'' (fun day account => turns day account + turns' day account)
      (fun day account => active day account + active' day account) := by
  refine ⟨h'.openTurns.trans h.openTurns, h'.watermarks.trans h.watermarks,
    h'.imported.trans h.imported, fun day account => ?_, fun day account => ?_⟩
  · rw [h'.turns, h.turns, Nat.add_assoc]
  · rw [h'.active, h.active, Nat.add_assoc]

theorem Adds.congr {turns turns' active active' : D → A → ℕ} (h : Adds book book' turns active)
    (hturns : ∀ day account, turns day account = turns' day account)
    (hactive : ∀ day account, active day account = active' day account) :
    Adds book book' turns' active' :=
  ⟨h.openTurns, h.watermarks, h.imported,
    fun day account => hturns day account ▸ h.turns day account,
    fun day account => hactive day account ▸ h.active day account⟩

theorem isImported_eq_false (h : book.imported = .empty) (day : D) (account : A) :
    book.isImported day account = false := by
  simp [TurnBook.isImported, h]

theorem tally_book (h : book.imported = .empty) (day day' : D) (account account' : A)
    (change : DayTally → DayTally) :
    (book.book day account change).tally day' account' =
      if day' = day ∧ account' = account then change (book.tally day account)
      else book.tally day' account' := by
  unfold TurnBook.book
  rw [if_neg (by simp [isImported_eq_false h])]
  unfold TurnBook.tally TurnBook.onDay
  dsimp only
  rw [OrdMap.get?_insert]
  by_cases hday : day' = day
  · subst hday
    simp only [if_true, Option.getD_some, OrdMap.get?_insert, true_and]
    by_cases haccount : account' = account
    · simp [haccount]
    · simp [haccount]
  · simp [hday]

theorem book_kept (book : TurnBook S A D) (day : D) (account : A) (change : DayTally → DayTally) :
    (book.book day account change).openTurns = book.openTurns ∧
      (book.book day account change).watermarks = book.watermarks ∧
      (book.book day account change).imported = book.imported := by
  unfold TurnBook.book
  split_ifs <;> exact ⟨rfl, rfl, rfl⟩

/-- One booking of turns and active time. -/
theorem book_adds (h : book.imported = .empty) (day : D) (account : A) (turns active : ℕ) :
    Adds book (book.book day account fun tally =>
        { tally with turns := tally.turns + turns, activeMs := tally.activeMs + active })
      (fun day' account' => if day' = day ∧ account' = account then turns else 0)
      (fun day' account' => if day' = day ∧ account' = account then active else 0) := by
  obtain ⟨hopen, hmarks, himported⟩ := book_kept book day account fun tally =>
    { tally with turns := tally.turns + turns, activeMs := tally.activeMs + active }
  refine ⟨hopen, hmarks, himported, fun day' account' => ?_, fun day' account' => ?_⟩
  · rw [tally_book h]
    split_ifs with hsame
    · rw [hsame.1, hsame.2]
    · rfl
  · rw [tally_book h]
    split_ifs with hsame
    · rw [hsame.1, hsame.2]
    · rfl

/-- How much of the interval falls on the day. -/
def Calendar.falls (calendar : Calendar D) (day : D) (span : ℕ × ℕ) : ℕ :=
  during (fun t => calendar.day t = day) span

/-- The time of an interval is booked on the days it falls on. -/
theorem bookSpan_adds (hcal : calendar.Constant) (account : A) (cursor stop : ℕ)
    (book : TurnBook S A D) (h : book.imported = .empty) :
    Adds book (book.bookSpan account cursor stop calendar) (fun _ _ => 0)
      (fun day account' => if account' = account then calendar.falls day (cursor, stop) else 0) := by
  induction hsize : stop - cursor using Nat.strong_induction_on generalizing cursor book with
  | _ size ih =>
    unfold TurnBook.bookSpan
    split_ifs with hlt
    · have hnext := calendar.next_gt cursor
      generalize hboundary : min (calendar.nextMidnightMs cursor) stop = boundary
      have hlow : cursor < boundary := by omega
      have hhigh : boundary ≤ stop := by omega
      have hfirst : Adds book (book.book (calendar.day cursor) account fun tally =>
          { tally with activeMs := tally.activeMs + (boundary - cursor) }) _ _ :=
        book_adds h (calendar.day cursor) account 0 (boundary - cursor)
      have hrest := ih _ (by omega) boundary _ (hfirst.imported.trans h) rfl
      refine (hfirst.trans hrest).congr (fun day account' => by simp) fun day account' => ?_
      -- until the boundary it is the day of the cursor
      have hday : calendar.falls day (cursor, boundary) =
          if day = calendar.day cursor then boundary - cursor else 0 := by
        have hsame (t : ℕ) (hle : cursor ≤ t) (htop : t < boundary) :
            calendar.day t = calendar.day cursor := hcal cursor t hle (by omega)
        split_ifs with heq
        · exact during_all fun t hle htop => (hsame t hle htop).trans heq.symm
        · exact during_none fun t hle htop hd => heq (hd.symm.trans (hsame t hle htop))
      have hsplit : calendar.falls day (cursor, stop) =
          calendar.falls day (cursor, boundary) + calendar.falls day (boundary, stop) :=
        during_split hlow.le hhigh
      rw [hsplit, hday]
      by_cases haccount : account' = account
      · simp [haccount]
      · simp [haccount]
    · refine (Adds.refl book).congr (fun _ _ => rfl) fun day account' => ?_
      have hempty : calendar.falls day (cursor, stop) = 0 := during_empty (not_lt.1 hlt)
      simp [hempty]

/-- The time of intervals is booked on the days it falls on. -/
theorem bookSpans_adds (hcal : calendar.Constant) (account : A) (spans : List (ℕ × ℕ))
    (book : TurnBook S A D) (h : book.imported = .empty) :
    Adds book (spans.foldl (fun book span => book.bookSpan account span.1 span.2 calendar) book)
      (fun _ _ => 0)
      (fun day account' => if account' = account then (spans.map (calendar.falls day)).sum else 0) := by
  induction spans generalizing book with
  | nil => exact (Adds.refl book).congr (fun _ _ => rfl) (by simp)
  | cons span spans ih =>
    have hspan := bookSpan_adds hcal account span.1 span.2 book h
    refine (hspan.trans (ih _ (hspan.imported.trans h))).congr (by simp) fun day account' => ?_
    by_cases haccount : account' = account
    · simp [haccount]
    · simp [haccount]

/-! ### What happens to turns -/

inductive TurnEvent (S A : Type) where
  | opened (session : S) (account : A) (startMs : ℕ)
  | finished (session : S) (turn : OpenTurn A) (endMs : ℕ)

/-- The turn that `finish` ends, as it is booked. -/
def finishEvents (book : TurnBook S A D) (session : S) (endMs : Option ℕ) : List (TurnEvent S A) :=
  match book.openTurns.get? session with
  | none => []
  | some turn =>
    [.finished session (turn.closeWorking (turn.endAt endMs)) (turn.endAt endMs)]

def inputEvents (book : TurnBook S A D) (signal : TurnSignal S A) : List (TurnEvent S A) :=
  match signal.input with
  | .prompt | .working =>
    if (book.openTurns.get? signal.session).isSome then []
    else [.opened signal.session signal.account signal.atMs]
  | .blocked => []
  | .settled | .stop | .ended => finishEvents book signal.session (some signal.atMs)
  | .vanished => finishEvents book signal.session none

def finishAllEvents (calendar : Calendar D) :
    TurnBook S A D → List (S × Option ℕ) → List (TurnEvent S A)
  | _, [] => []
  | book, (session, endMs) :: ended =>
    finishEvents book session endMs ++
      finishAllEvents calendar (book.finish session endMs calendar) ended

inductive Op (S A : Type) where
  | apply (signal : TurnSignal S A)
  | expire (running inTurn : Finset S) (nowMs : ℕ)

def Op.time : Op S A → ℕ
  | .apply signal => signal.atMs
  | .expire _ _ nowMs => nowMs

def step (book : TurnBook S A D) (calendar : Calendar D) : Op S A → TurnBook S A D
  | .apply signal => book.apply signal calendar
  | .expire running inTurn nowMs => book.expire running inTurn nowMs calendar

/-- The turns that a step opens and finishes. -/
def stepEvents (book : TurnBook S A D) (calendar : Calendar D) : Op S A → List (TurnEvent S A)
  | .apply signal => if replayed book signal then [] else inputEvents book signal
  | .expire running inTurn nowMs =>
    finishAllEvents calendar book (book.expired running inTurn nowMs)

/-- The runs from an empty book over the given sessions, with non-decreasing times. -/
inductive Runs (calendar : Calendar D) (sessions : Finset S) :
    List (Op S A) → List (TurnEvent S A) → ℕ → TurnBook S A D → Prop
  | start : Runs calendar sessions [] [] 0 .default
  | step {ops : List (Op S A)} {events : List (TurnEvent S A)} {before : ℕ} {book : TurnBook S A D}
    (op : Op S A) : Runs calendar sessions ops events before book → before ≤ op.time →
    (∀ signal, op = .apply signal → signal.session ∈ sessions) →
    Runs calendar sessions (ops ++ [op]) (events ++ stepEvents book calendar op) op.time
      (step book calendar op)

namespace TurnEvent

/-- One for a turn of the account that was opened on the day. -/
def startsOn (calendar : Calendar D) (day : D) (account : A) : TurnEvent S A → ℕ
  | .opened _ account' startMs =>
    if account' = account ∧ calendar.day startMs = day then 1 else 0
  | .finished .. => 0

/-- The active time, up to the limit, of a turn of the account that falls on the day. -/
def activeOn (calendar : Calendar D) (day : D) (account : A) : TurnEvent S A → ℕ
  | .opened .. => 0
  | .finished _ turn endMs =>
    if turn.account = account then ((turn.activeIntervals endMs).map (calendar.falls day)).sum else 0

def opens (session : S) : TurnEvent S A → ℕ
  | .opened session' _ _ => if session' = session then 1 else 0
  | .finished .. => 0

def finishes (session : S) : TurnEvent S A → ℕ
  | .opened .. => 0
  | .finished session' _ _ => if session' = session then 1 else 0

end TurnEvent

/-- What holds of a turn that is booked. -/
structure Booked (turn : OpenTurn A) (endMs : ℕ) : Prop where
  /-- The working intervals are ordered, disjoint and within the turn. -/
  working : Within turn.startedAtMs endMs turn.working
  active : Within turn.startedAtMs endMs (turn.rawIntervals endMs)
  capped : total (turn.activeIntervals endMs) =
    min maxTurnActiveMs (total (turn.rawIntervals endMs))
  total_le : total (turn.activeIntervals endMs) ≤ endMs - turn.startedAtMs

/-- The tallies and the open turns are what the events say. -/
structure Accounted (calendar : Calendar D) (ops : List (Op S A)) (events : List (TurnEvent S A))
    (book : TurnBook S A D) : Prop where
  /-- Each turn is counted once, on the day it started. -/
  turns : ∀ day account, (book.tally day account).turns =
    (events.map (TurnEvent.startsOn calendar day account)).sum
  /-- Each day receives the part of the capped intervals that falls on it. -/
  active : ∀ day account, (book.tally day account).activeMs =
    (events.map (TurnEvent.activeOn calendar day account)).sum
  /-- A session opens a turn when it has none, and finishes the one that it has. -/
  alternate : ∀ session, (events.map (TurnEvent.opens session)).sum =
    (events.map (TurnEvent.finishes session)).sum +
      if (book.openTurns.get? session).isSome then 1 else 0
  opened : ∀ session turn, book.openTurns.get? session = some turn →
    .opened session turn.account turn.startedAtMs ∈ events ∧
      Within turn.startedAtMs turn.lastEventMs turn.working
  finished : ∀ session turn endMs, .finished session turn endMs ∈ events →
    .opened session turn.account turn.startedAtMs ∈ events ∧ Booked turn endMs
  /-- A hook signal that was applied before changes nothing. -/
  replay : ∀ signal, .apply signal ∈ ops → signal.input.fromHook = true →
    (book.apply signal calendar).days = book.days ∧
      (book.apply signal calendar).openTurns = book.openTurns

/-! ### Every step keeps the accounts -/

structure Kept (calendar : Calendar D) (events : List (TurnEvent S A)) (now : ℕ)
    (book : TurnBook S A D) : Prop where
  imported : book.imported = .empty
  turns : ∀ day account, (book.tally day account).turns =
    (events.map (TurnEvent.startsOn calendar day account)).sum
  active : ∀ day account, (book.tally day account).activeMs =
    (events.map (TurnEvent.activeOn calendar day account)).sum
  alternate : ∀ session, (events.map (TurnEvent.opens session)).sum =
    (events.map (TurnEvent.finishes session)).sum +
      if (book.openTurns.get? session).isSome then 1 else 0
  opened : ∀ session turn, book.openTurns.get? session = some turn →
    .opened session turn.account turn.startedAtMs ∈ events ∧ Shaped now turn
  finished : ∀ session turn endMs, .finished session turn endMs ∈ events →
    .opened session turn.account turn.startedAtMs ∈ events ∧ Booked turn endMs

variable {events : List (TurnEvent S A)} {now : ℕ} {session : S} {signal : TurnSignal S A}

theorem kept_start : Kept calendar [] 0 (.default : TurnBook S A D) := by
  constructor <;> simp [TurnBook.default, TurnBook.tally, TurnBook.onDay, DayTally.default]

omit [LinearOrder S] [LinearOrder A] [LinearOrder D] in
theorem Shaped.later {turn : OpenTurn A} {time : ℕ} (h : Shaped now turn) (hle : now ≤ time) :
    Shaped time turn :=
  ⟨h.started, h.last.trans hle, h.prompt, h.since, h.working⟩

theorem Kept.later {time : ℕ} (h : Kept calendar events now book) (hle : now ≤ time) :
    Kept calendar events time book :=
  { h with
    opened := fun session turn hturn =>
      ⟨(h.opened session turn hturn).1, (h.opened session turn hturn).2.later hle⟩ }

omit [LinearOrder S] [LinearOrder A] [LinearOrder D] in
/-- What is booked of a turn that ends no earlier than its last event. -/
theorem Shaped.booked {turn : OpenTurn A} {stop : ℕ} (h : Shaped now turn)
    (hstop : turn.lastEventMs ≤ stop) : Booked (turn.closeWorking stop) stop := by
  have hworking := h.closeWorking hstop
  have hstarted : (turn.closeWorking stop).startedAtMs = turn.startedAtMs := by
    rw [closeWorking_eq]
  have hprompt : (turn.closeWorking stop).promptAtMs = turn.promptAtMs := by
    rw [closeWorking_eq]
  have hraw : Within turn.startedAtMs stop ((turn.closeWorking stop).rawIntervals stop) := by
    unfold OpenTurn.rawIntervals
    split_ifs
    · exact hworking
    · rw [hprompt, hstarted]
      cases hcase : turn.promptAtMs with
      | none => exact ⟨le_rfl, h.started.trans hstop, le_rfl⟩
      | some t =>
        obtain ⟨hlow, hhigh⟩ := h.prompt t hcase
        exact ⟨hlow, hhigh.trans hstop, le_rfl⟩
  have hcapped : total ((turn.closeWorking stop).activeIntervals stop) = _ := total_capped _ _
  refine ⟨hstarted ▸ hworking, hstarted ▸ hraw, hcapped, ?_⟩
  rw [hcapped, hstarted]
  exact (min_le_right _ _).trans hraw.total_le

theorem Kept.finish (hcal : calendar.Constant) (h : Kept calendar events now book)
    {endMs : Option ℕ} (hend : ∀ t, endMs = some t → now ≤ t) (session : S) :
    Kept calendar (events ++ finishEvents book session endMs) now
      (book.finish session endMs calendar) := by
  unfold finishEvents TurnBook.finish
  cases hturn : book.openTurns.get? session with
  | none => simpa using h
  | some turn =>
    dsimp only
    obtain ⟨hopened, hshaped⟩ := h.opened session turn hturn
    have hstop : turn.lastEventMs ≤ turn.endAt endMs := by
      unfold OpenTurn.endAt
      cases hcase : endMs with
      | none => exact le_max_left _ _
      | some t => exact (hshaped.last.trans (hend t hcase)).trans (le_max_left _ _)
    generalize turn.endAt endMs = stop at *
    have haccount : (turn.closeWorking stop).account = turn.account := by rw [closeWorking_eq]
    have hstarted : (turn.closeWorking stop).startedAtMs = turn.startedAtMs := by
      rw [closeWorking_eq]
    have hbooked := hshaped.booked hstop
    generalize turn.closeWorking stop = closed at *
    have hadds := bookSpans_adds hcal closed.account (closed.activeIntervals stop)
      { book with openTurns := book.openTurns.erase session } h.imported
    generalize (closed.activeIntervals stop).foldl
      (fun book span => book.bookSpan closed.account span.1 span.2 calendar)
      { book with openTurns := book.openTurns.erase session } = booked at *
    refine ⟨hadds.imported.trans h.imported, ?_, ?_, ?_, ?_, ?_⟩
    · intro day account
      rw [List.map_append, List.sum_append, ← h.turns]
      exact hadds.turns day account
    · intro day account
      rw [List.map_append, List.sum_append, ← h.active]
      refine (hadds.active day account).trans ?_
      simp only [List.map_cons, List.map_nil, List.sum_singleton, TurnEvent.activeOn, eq_comm]
      rfl
    · intro other
      rw [List.map_append, List.sum_append, List.map_append, List.sum_append, h.alternate other]
      show _ = _ + if (booked.openTurns.get? other).isSome then 1 else 0
      rw [hadds.openTurns, OrdMap.get?_erase]
      by_cases hother : other = session
      · simp [hother, hturn, TurnEvent.opens, TurnEvent.finishes]
      · simp [hother, Ne.symm hother, TurnEvent.opens, TurnEvent.finishes]
    · intro other turn' hget
      have hget : booked.openTurns.get? other = some turn' := hget
      rw [hadds.openTurns, OrdMap.get?_erase] at hget
      split_ifs at hget
      obtain ⟨hopen, hshape⟩ := h.opened other turn' hget
      exact ⟨List.mem_append_left _ hopen, hshape⟩
    · intro other turn' endMs' hmem
      rcases List.mem_append.1 hmem with hmem | hmem
      · obtain ⟨hopen, hbook⟩ := h.finished other turn' endMs' hmem
        exact ⟨List.mem_append_left _ hopen, hbook⟩
      · cases List.mem_singleton.1 hmem
        rw [haccount, hstarted]
        exact ⟨List.mem_append_left _ hopened, hbooked⟩

theorem Kept.finishAll (hcal : calendar.Constant) {ended : List (S × Option ℕ)}
    (h : Kept calendar events now book) (hend : ∀ entry ∈ ended, ∀ t, entry.2 = some t → now ≤ t) :
    Kept calendar (events ++ finishAllEvents calendar book ended) now
      (ended.foldl (fun book entry => book.finish entry.1 entry.2 calendar) book) := by
  induction ended generalizing events book with
  | nil => simpa [finishAllEvents] using h
  | cons entry ended ih =>
    have hfirst := h.finish hcal (hend entry List.mem_cons_self) entry.1
    have hrest := ih hfirst fun other hother => hend other (List.mem_cons_of_mem _ hother)
    rw [List.append_assoc] at hrest
    exact hrest

/-- An open turn goes on. -/
theorem Kept.replace {turn turn' : OpenTurn A} (h : Kept calendar events now book)
    (hturn : book.openTurns.get? session = some turn) (hshaped : Shaped now turn')
    (haccount : turn'.account = turn.account) (hstarted : turn'.startedAtMs = turn.startedAtMs) :
    Kept calendar events now { book with openTurns := book.openTurns.insert session turn' } := by
  refine ⟨h.imported, h.turns, h.active, fun other => ?_, fun other turn'' hget => ?_, h.finished⟩
  · rw [h.alternate other]
    dsimp only
    rw [OrdMap.get?_insert]
    by_cases hother : other = session
    · simp [hother, hturn]
    · simp [hother]
  · dsimp only at hget
    rw [OrdMap.get?_insert] at hget
    split_ifs at hget with hother
    · cases hget
      rw [hother, haccount, hstarted]
      exact ⟨(h.opened session turn hturn).1, hshaped⟩
    · exact h.opened other turn'' hget

/-- A turn is opened and counted. -/
theorem Kept.start {turn : OpenTurn A} (h : Kept calendar events now book)
    (hnone : book.openTurns.get? session = none) (hshaped : Shaped now turn) :
    Kept calendar (events ++ [.opened session turn.account turn.startedAtMs]) now
      { book.book (calendar.day turn.startedAtMs) turn.account (fun tally =>
          { tally with turns := tally.turns + 1 }) with
        openTurns := book.openTurns.insert session turn } := by
  have hadds : Adds book (book.book (calendar.day turn.startedAtMs) turn.account fun tally =>
      { tally with turns := tally.turns + 1 }) _ _ :=
    book_adds h.imported (calendar.day turn.startedAtMs) turn.account 1 0
  refine ⟨hadds.imported.trans h.imported, ?_, ?_, ?_, ?_, ?_⟩
  · intro day account
    rw [List.map_append, List.sum_append, ← h.turns]
    refine (hadds.turns day account).trans ?_
    simp only [List.map_cons, List.map_nil, List.sum_singleton, TurnEvent.startsOn]
    congr 1
    simp only [eq_comm, and_comm]
  · intro day account
    rw [List.map_append, List.sum_append, ← h.active]
    refine (hadds.active day account).trans ?_
    simp [TurnEvent.activeOn]
  · intro other
    rw [List.map_append, List.sum_append, List.map_append, List.sum_append, h.alternate other]
    dsimp only
    rw [OrdMap.get?_insert]
    by_cases hother : other = session
    · simp [hother, hnone, TurnEvent.opens, TurnEvent.finishes]
    · simp [hother, Ne.symm hother, TurnEvent.opens, TurnEvent.finishes]
  · intro other turn' hget
    dsimp only at hget
    rw [OrdMap.get?_insert] at hget
    split_ifs at hget with hother
    · cases hget
      rw [hother]
      exact ⟨List.mem_append_right _ (List.mem_singleton.2 rfl), hshaped⟩
    · obtain ⟨hopen, hshape⟩ := h.opened other turn' hget
      exact ⟨List.mem_append_left _ hopen, hshape⟩
  · intro other turn' endMs hmem
    rcases List.mem_append.1 hmem with hmem | hmem
    · obtain ⟨hopen, hbook⟩ := h.finished other turn' endMs hmem
      exact ⟨List.mem_append_left _ hopen, hbook⟩
    · cases List.mem_singleton.1 hmem

/-- A prompt or work, which opens a turn when there is none. -/
theorem Kept.openOrStart (h : Kept calendar events signal.atMs book)
    {change : OpenTurn A → OpenTurn A}
    (hchange : ∀ turn, Shaped signal.atMs turn → Shaped signal.atMs (change turn) ∧
      (change turn).account = turn.account ∧ (change turn).startedAtMs = turn.startedAtMs) :
    Kept calendar (events ++ if (book.openTurns.get? signal.session).isSome then []
        else [.opened signal.session signal.account signal.atMs]) signal.atMs
      (book.openOrStart signal calendar change) := by
  unfold TurnBook.openOrStart
  cases hturn : book.openTurns.get? signal.session with
  | some turn =>
    obtain ⟨hshaped, haccount, hstarted⟩ := hchange turn (h.opened _ turn hturn).2
    simp only [Option.isSome_some, if_true, hturn, Option.getD_some, List.append_nil]
    exact h.replace hturn hshaped haccount hstarted
  | none =>
    have hfresh : Shaped signal.atMs
        (⟨signal.account, signal.atMs, signal.atMs, none, none, [], false⟩ : OpenTurn A) :=
      ⟨le_rfl, le_rfl, (fun _ ht => nomatch ht), (fun _ ht => nomatch ht), le_rfl⟩
    obtain ⟨hshaped, haccount, hstarted⟩ := hchange _ hfresh
    obtain ⟨hopen, -, -⟩ := book_kept book (calendar.day signal.atMs) signal.account fun tally =>
      { tally with turns := tally.turns + 1 }
    have hkept := h.start hturn hshaped
    rw [haccount, hstarted] at hkept
    simp only [Option.isSome_none, Bool.false_eq_true, if_false, hopen, hturn, Option.getD_none]
    exact hkept

omit [LinearOrder S] [LinearOrder A] [LinearOrder D] in
theorem Shaped.prompted {turn : OpenTurn A} (h : Shaped now turn) :
    Shaped now { turn with
      promptAtMs := some (turn.promptAtMs.getD now), lastEventMs := max turn.lastEventMs now } := by
  have hmax : max turn.lastEventMs now = now := max_eq_right h.last
  rw [hmax]
  have hstarted := h.started.trans h.last
  refine ⟨hstarted, le_rfl, fun t ht => ?_, fun t ht => ?_, h.working.mono h.last⟩
  · cases hcase : turn.promptAtMs with
    | none =>
      rw [hcase] at ht
      cases ht
      exact ⟨hstarted, le_rfl⟩
    | some since =>
      rw [hcase] at ht
      cases ht
      obtain ⟨hlow, hhigh⟩ := h.prompt since hcase
      exact ⟨hlow, hhigh.trans h.last⟩
  · obtain ⟨hwithin, hle⟩ := h.since t ht
    exact ⟨hwithin, hle.trans h.last⟩

omit [LinearOrder S] [LinearOrder A] [LinearOrder D] in
theorem Shaped.worked {turn : OpenTurn A} (h : Shaped now turn) :
    Shaped now { turn with
      declared := true
      workingSinceMs := some (turn.workingSinceMs.getD now)
      lastEventMs := max turn.lastEventMs now } := by
  have hmax : max turn.lastEventMs now = now := max_eq_right h.last
  rw [hmax]
  refine ⟨h.started.trans h.last, le_rfl, fun t ht => ?_, fun t ht => ?_, h.working.mono h.last⟩
  · obtain ⟨hlow, hhigh⟩ := h.prompt t ht
    exact ⟨hlow, hhigh.trans h.last⟩
  · cases hcase : turn.workingSinceMs with
    | none =>
      rw [hcase] at ht
      cases ht
      exact ⟨h.working.mono h.last, le_rfl⟩
    | some since =>
      rw [hcase] at ht
      cases ht
      obtain ⟨hwithin, hle⟩ := h.since since hcase
      exact ⟨hwithin, hle.trans h.last⟩

omit [LinearOrder S] [LinearOrder A] [LinearOrder D] in
theorem Shaped.blocked {turn : OpenTurn A} (h : Shaped now turn) :
    Shaped now { turn.closeWorking now with
      lastEventMs := max (turn.closeWorking now).lastEventMs now } := by
  have hworking := h.closeWorking h.last
  rw [closeWorking_eq]
  have hmax : max turn.lastEventMs now = now := max_eq_right h.last
  dsimp only
  rw [hmax]
  refine ⟨h.started.trans h.last, le_rfl, fun t ht => ?_, (fun _ ht => nomatch ht), hworking⟩
  obtain ⟨hlow, hhigh⟩ := h.prompt t ht
  exact ⟨hlow, hhigh.trans h.last⟩

theorem Kept.applyInput (hcal : calendar.Constant) (h : Kept calendar events signal.atMs book) :
    Kept calendar (events ++ inputEvents book signal) signal.atMs
      (book.applyInput signal calendar) := by
  unfold inputEvents TurnBook.applyInput
  cases hinput : signal.input with
  | prompt => exact h.openOrStart fun turn hshaped => ⟨hshaped.prompted, rfl, rfl⟩
  | working => exact h.openOrStart fun turn hshaped => ⟨hshaped.worked, rfl, rfl⟩
  | blocked =>
    dsimp only
    rw [List.append_nil]
    cases hturn : book.openTurns.get? signal.session with
    | none => exact h
    | some turn =>
      refine h.replace hturn (h.opened _ turn hturn).2.blocked ?_ ?_
      · rw [closeWorking_eq]
      · rw [closeWorking_eq]
  | settled => exact h.finish hcal (fun t ht => by cases ht; exact le_rfl) signal.session
  | stop => exact h.finish hcal (fun t ht => by cases ht; exact le_rfl) signal.session
  | ended => exact h.finish hcal (fun t ht => by cases ht; exact le_rfl) signal.session
  | vanished => exact h.finish hcal (fun t ht => by cases ht) signal.session

theorem finish_watermarks (book : TurnBook S A D) (session : S) (endMs : Option ℕ)
    (calendar : Calendar D) :
    (book.finish session endMs calendar).watermarks = book.watermarks := by
  rcases finish_cases book session endMs calendar with ⟨-, hsame⟩ | ⟨-, booked, hbooked, hsame⟩
  · rw [hsame]
  · rw [hsame]
    exact hbooked.watermarks

theorem expire_watermarks (book : TurnBook S A D) (ended : List (S × Option ℕ))
    (calendar : Calendar D) :
    (ended.foldl (fun book entry => book.finish entry.1 entry.2 calendar) book).watermarks =
      book.watermarks := by
  induction ended generalizing book with
  | nil => rfl
  | cons entry ended ih => exact (ih _).trans (finish_watermarks ..)

theorem applyInput_watermarks (book : TurnBook S A D) (signal : TurnSignal S A)
    (calendar : Calendar D) :
    (book.applyInput signal calendar).watermarks = book.watermarks := by
  have hopen (change : OpenTurn A → OpenTurn A) :
      (book.openOrStart signal calendar change).watermarks = book.watermarks := by
    unfold TurnBook.openOrStart
    dsimp only
    split_ifs
    · rfl
    · exact (book_rebooked ..).watermarks
  unfold TurnBook.applyInput
  cases signal.input with
  | prompt => exact hopen _
  | working => exact hopen _
  | blocked =>
    dsimp only
    split <;> rfl
  | settled => exact finish_watermarks ..
  | stop => exact finish_watermarks ..
  | ended => exact finish_watermarks ..
  | vanished => exact finish_watermarks ..

theorem trimWatermarks_of_le (h : book.watermarks.entries.length ≤ maxWatermarks) :
    book.trimWatermarks = book := by
  unfold TurnBook.trimWatermarks
  cases book.watermarks.entries.length with
  | zero => rfl
  | succ n => simp [TurnBook.trimLoop, not_lt.2 h]

variable {sessions : Finset S} {ops : List (Op S A)}

theorem markLe_refl (mark : ℕ × ℕ) : TurnBook.markLe mark mark = true := by
  simp [TurnBook.markLe]

theorem markLe_trans {a b c : ℕ × ℕ} (h : TurnBook.markLe a b = true)
    (h' : TurnBook.markLe b c = true) : TurnBook.markLe a c = true := by
  simp only [TurnBook.markLe, Bool.or_eq_true, Bool.and_eq_true, decide_eq_true_eq] at *
  omega

theorem markLe_of_not {a b : ℕ × ℕ} (h : ¬ TurnBook.markLe a b = true) :
    TurnBook.markLe b a = true := by
  simp only [TurnBook.markLe, Bool.or_eq_true, Bool.and_eq_true, decide_eq_true_eq] at *
  omega

/-- The sessions that have a watermark are of the run. -/
def Known (sessions : Finset S) (watermarks : OrdMap S (ℕ × ℕ)) : Prop :=
  ∀ session, (watermarks.get? session).isSome = true → session ∈ sessions

omit [LinearOrder A] [LinearOrder D] in
theorem Known.length_le {watermarks : OrdMap S (ℕ × ℕ)} (h : Known sessions watermarks) :
    watermarks.entries.length ≤ sessions.card := by
  have hnodup : (watermarks.entries.map Prod.fst).Nodup :=
    List.pairwise_map.2 (watermarks.sorted.imp fun hlt => hlt.ne)
  rw [← List.length_map (f := Prod.fst), ← List.toFinset_card_of_nodup hnodup]
  refine Finset.card_le_card fun session hsession => h session ?_
  obtain ⟨entry, hentry, rfl⟩ := List.mem_map.1 (List.mem_toFinset.1 hsession)
  have hget : watermarks.get? entry.1 = some entry.2 := OrdMap.get?_eq_some.2 hentry
  rw [hget]
  rfl

omit [LinearOrder A] [LinearOrder D] in
theorem Known.insert {watermarks : OrdMap S (ℕ × ℕ)} (h : Known sessions watermarks)
    (hsession : session ∈ sessions) (mark : ℕ × ℕ) :
    Known sessions (watermarks.insert session mark) := by
  intro other hother
  rw [OrdMap.get?_insert] at hother
  split_ifs at hother with heq
  · exact heq ▸ hsession
  · exact h other hother

/-- The watermark after a signal. -/
def raised (book : TurnBook S A D) (signal : TurnSignal S A) : OrdMap S (ℕ × ℕ) :=
  if signal.input.fromHook then
    book.watermarks.insert signal.session
      (if replayed book signal then book.watermark signal.session else (signal.atMs, signal.order))
  else book.watermarks

/-- What `apply` does when there are not too many watermarks. -/
theorem apply_eq (h : Known sessions book.watermarks) (hsession : signal.session ∈ sessions)
    (hcard : sessions.card ≤ maxWatermarks) :
    book.apply signal calendar =
      if replayed book signal then { book with watermarks := raised book signal }
      else { book with watermarks := raised book signal }.applyInput signal calendar := by
  have htrim {book : TurnBook S A D} (hknown : Known sessions book.watermarks) :
      book.trimWatermarks = book := trimWatermarks_of_le (hknown.length_le.trans hcard)
  unfold TurnBook.apply raised replayed
  cases hhook : signal.input.fromHook with
  | false =>
    simp only [Bool.false_eq_true, if_false, Bool.false_and]
    exact htrim (by rw [applyInput_watermarks]; exact h)
  | true =>
    simp only [if_true, Bool.true_and]
    split_ifs
    · rfl
    · exact htrim (by rw [applyInput_watermarks]; exact h.insert hsession _)

/-- The watermarks are of the sessions of the run, and above every hook signal of it. -/
structure Marked (sessions : Finset S) (ops : List (Op S A)) (book : TurnBook S A D) : Prop where
  known : Known sessions book.watermarks
  marks : ∀ signal, .apply signal ∈ ops → signal.input.fromHook = true →
    replayed book signal = true

/-- A watermark only rises, and to the signal at least. -/
theorem raised_spec (book : TurnBook S A D) (signal : TurnSignal S A) :
    (∀ session, TurnBook.markLe (book.watermark session)
      (((raised book signal).get? session).getD (0, 0)) = true) ∧
    (signal.input.fromHook = true → TurnBook.markLe (signal.atMs, signal.order)
      (((raised book signal).get? signal.session).getD (0, 0)) = true) := by
  unfold raised
  split_ifs with hhook hreplayed
  · have hmark : TurnBook.markLe (signal.atMs, signal.order) (book.watermark signal.session) = true := by
      simpa [replayed, hhook] using hreplayed
    refine ⟨fun session => ?_, fun _ => ?_⟩
    · rw [OrdMap.get?_insert]
      split_ifs with heq
      · rw [heq]
        exact markLe_refl _
      · exact markLe_refl _
    · rw [OrdMap.get?_insert, if_pos rfl]
      exact hmark
  · have hmark : ¬ TurnBook.markLe (signal.atMs, signal.order) (book.watermark signal.session) = true := by
      simpa [replayed, hhook] using hreplayed
    refine ⟨fun session => ?_, fun _ => ?_⟩
    · rw [OrdMap.get?_insert]
      split_ifs with heq
      · rw [heq]
        exact markLe_of_not hmark
      · exact markLe_refl _
    · rw [OrdMap.get?_insert, if_pos rfl]
      exact markLe_refl _
  · exact ⟨fun session => markLe_refl _, fun h => absurd h hhook⟩

theorem Marked.apply (h : Marked sessions ops book) (hsession : signal.session ∈ sessions)
    (hcard : sessions.card ≤ maxWatermarks) :
    Marked sessions (ops ++ [.apply signal]) (book.apply signal calendar) := by
  have hwater : (book.apply signal calendar).watermarks = raised book signal := by
    rw [apply_eq h.known hsession hcard]
    split_ifs
    · rfl
    · exact applyInput_watermarks ..
  obtain ⟨hrise, hmark⟩ := raised_spec book signal
  refine ⟨?_, fun other hother hhook => ?_⟩
  · rw [hwater]
    unfold raised
    split_ifs
    · exact h.known.insert hsession _
    · exact h.known.insert hsession _
    · exact h.known
  · unfold replayed TurnBook.watermark
    rw [hwater, hhook, Bool.true_and]
    rcases List.mem_append.1 hother with hother | hother
    · have hold := h.marks other hother hhook
      unfold replayed at hold
      rw [hhook, Bool.true_and] at hold
      exact markLe_trans hold (hrise _)
    · cases List.mem_singleton.1 hother
      exact hmark hhook

theorem Marked.expire (h : Marked sessions ops book) (running inTurn : Finset S) (nowMs : ℕ) :
    Marked sessions (ops ++ [.expire running inTurn nowMs])
      (book.expire running inTurn nowMs calendar) := by
  have hwater : (book.expire running inTurn nowMs calendar).watermarks = book.watermarks :=
    expire_watermarks ..
  refine ⟨hwater ▸ h.known, fun signal hsignal hhook => ?_⟩
  rcases List.mem_append.1 hsignal with hsignal | hsignal
  · have hold := h.marks signal hsignal hhook
    unfold replayed TurnBook.watermark at hold ⊢
    rwa [hwater]
  · cases List.mem_singleton.1 hsignal

theorem Kept.apply (hcal : calendar.Constant) (h : Kept calendar events now book)
    (hnow : now ≤ signal.atMs) (hknown : Known sessions book.watermarks)
    (hsession : signal.session ∈ sessions) (hcard : sessions.card ≤ maxWatermarks) :
    Kept calendar (events ++ stepEvents book calendar (.apply signal)) signal.atMs
      (book.apply signal calendar) := by
  have hmarked : Kept calendar events signal.atMs { book with watermarks := raised book signal } :=
    { h.later hnow with }
  rw [apply_eq hknown hsession hcard]
  simp only [stepEvents]
  split_ifs
  · rw [List.append_nil]
    exact hmarked
  · exact hmarked.applyInput hcal

theorem Kept.expire (hcal : calendar.Constant) {nowMs : ℕ} (h : Kept calendar events now book)
    (hnow : now ≤ nowMs) (running inTurn : Finset S) :
    Kept calendar (events ++ stepEvents book calendar (.expire running inTurn nowMs)) nowMs
      (book.expire running inTurn nowMs calendar) := by
  refine (h.later hnow).finishAll hcal fun entry hentry t ht => ?_
  obtain ⟨⟨session, turn⟩, -, hexpiry⟩ := List.mem_filterMap.1 hentry
  obtain ⟨endMs, hend, rfl⟩ := Option.map_eq_some_iff.1 hexpiry
  have ht : endMs = some t := ht
  subst ht
  unfold TurnBook.expiry at hend
  split_ifs at hend
  · cases hend
  · obtain ⟨since, -, htime⟩ := Option.map_eq_some_iff.1 (Option.some.inj hend)
    exact htime.le

/-- Every step keeps the accounts and the watermarks. -/
theorem Runs.kept (hcal : calendar.Constant) (hcard : sessions.card ≤ maxWatermarks)
    (h : Runs calendar sessions ops events now book) :
    Kept calendar events now book ∧ Marked sessions ops book := by
  induction h with
  | start =>
    refine ⟨kept_start, fun session hsession => ?_, fun signal hsignal => ?_⟩
    · simp [TurnBook.default] at hsession
    · simp at hsignal
  | step op _ hnow hsession ih =>
    obtain ⟨hkept, hmarked⟩ := ih
    cases op with
    | apply signal =>
      have hmem := hsession signal rfl
      exact ⟨hkept.apply hcal hnow hmarked.known hmem hcard, hmarked.apply hmem hcard⟩
    | expire running inTurn nowMs =>
      exact ⟨hkept.expire hcal hnow running inTurn, hmarked.expire running inTurn nowMs⟩

/-- **Every turn is booked once.** In every run with non-decreasing times over at most as many sessions as
there may be watermarks, each turn is counted once, on the day it started; a finished turn is booked on the
days its active time falls on, up to the limit; and hook signals that come again change nothing. -/
theorem runs_accounted (hcal : calendar.Constant) (hcard : sessions.card ≤ maxWatermarks)
    (h : Runs calendar sessions ops events now book) : Accounted calendar ops events book := by
  obtain ⟨hkept, hmarked⟩ := h.kept hcal hcard
  refine ⟨hkept.turns, hkept.active, hkept.alternate, fun session turn hturn => ?_, hkept.finished,
    fun signal hsignal hhook => ?_⟩
  · obtain ⟨hopened, hshaped⟩ := hkept.opened session turn hturn
    exact ⟨hopened, hshaped.working⟩
  · have hreplayed := hmarked.marks signal hsignal hhook
    unfold replayed at hreplayed
    rw [hhook, Bool.true_and] at hreplayed
    unfold TurnBook.apply
    rw [if_pos hhook, if_pos hreplayed]
    exact ⟨rfl, rfl⟩

end

/-- Days of ten milliseconds. -/
def tenDays : Calendar ℕ where
  day t := t / 10
  nextMidnightMs t := (t / 10 + 1) * 10
  next_gt t := by omega

/-- A turn over midnight, that is blocked in between. -/
theorem runs_accounted_midnight :
    ∃ (events : List (TurnEvent ℕ ℕ)) (book : TurnBook ℕ ℕ ℕ),
      Accounted tenDays [.apply ⟨1, 7, .working, 5, 0⟩, .apply ⟨1, 7, .blocked, 8, 0⟩,
        .apply ⟨1, 7, .working, 9, 0⟩, .apply ⟨1, 7, .stop, 13, 1⟩] events book ∧
      events.length = 2 ∧ book.tally 0 7 = ⟨1, 4, 0, 0⟩ ∧ book.tally 1 7 = ⟨0, 3, 0, 0⟩ := by
  have hconst : tenDays.Constant := by
    intro t t' hle hlt
    simp only [tenDays] at *
    omega
  have hone (signal : TurnSignal ℕ ℕ) (h : signal.session = 1) :
      ∀ signal', Op.apply signal = .apply signal' → signal'.session ∈ ({1} : Finset ℕ) := by
    rintro signal' ⟨⟩
    simp [h]
  have hstart : Runs tenDays {1} ([] : List (Op ℕ ℕ)) [] 0 .default := .start
  have hworking := hstart.step (.apply ⟨1, 7, .working, 5, 0⟩) (by decide) (hone _ rfl)
  have hblocked := hworking.step (.apply ⟨1, 7, .blocked, 8, 0⟩) (by decide) (hone _ rfl)
  have hagain := hblocked.step (.apply ⟨1, 7, .working, 9, 0⟩) (by decide) (hone _ rfl)
  have hrun := hagain.step (.apply ⟨1, 7, .stop, 13, 1⟩) (by decide) (hone _ rfl)
  exact ⟨_, _, runs_accounted hconst (by decide) hrun, by decide +kernel, by decide +kernel,
    by decide +kernel⟩

end Paneflow.Usage.Ledger
