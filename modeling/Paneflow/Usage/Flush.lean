import Paneflow.Transition
import Paneflow.Usage.Ledger

/-!
# The ledger on disk

`TurnBook::to_file`, `restore` and `Ledger::flush`. A flush writes the book only when its revision has moved
since the last write, so that what changes without moving it is not written: a signal that goes on with an
open turn, or that raises a watermark only. `runs_flushed` says that in every run without such a signal
(`Counted`) the file restores to the book after a forced flush.

The encoding of the file is the parameter `Codec`.
-/

namespace Paneflow.Usage.Ledger

open Paneflow.Usage.Tokens

def ledgerVersion : ℕ := 1

section
variable {S A D : Type} [LinearOrder S] [LinearOrder A] [LinearOrder D]

/-- The file; in its days and imported days an account is its index in `accounts`. -/
structure LedgerFile (S A D : Type) [LinearOrder S] [LinearOrder A] [LinearOrder D] where
  version : ℕ
  accounts : List A
  days : OrdMap D (List (ℕ × DayTally))
  openTurns : OrdMap S (OpenTurn A)
  watermarks : OrdMap S (ℕ × ℕ)
  cursors : OrdMap String (TokenCursor D)
  imported : OrdMap D (List ℕ)
  importRecord : Option ImportRecord

/-- A `BTreeSet` of the elements. -/
def setOf {K : Type} [LinearOrder K] (keys : List K) : OrdMap K Unit :=
  keys.foldl (fun set key => set.insert key ()) .empty

namespace TurnBook

/-- The accounts of all days, in their order. -/
def accounts (book : TurnBook S A D) : List A :=
  (setOf (book.days.values.flatMap fun tallies => tallies.entries.map Prod.fst)).entries.map Prod.fst

def toFile (book : TurnBook S A D) : LedgerFile S A D where
  version := ledgerVersion
  accounts := book.accounts
  days := book.days.mapValues fun tallies => tallies.entries.filterMap fun entry =>
    (book.accounts.idxOf? entry.1).map fun index => (index, entry.2)
  openTurns := book.openTurns
  watermarks := book.watermarks
  cursors := book.cursors
  imported := book.imported.mapValues fun held => held.entries.filterMap fun entry =>
    book.accounts.idxOf? entry.1
  importRecord := book.importRecord

/-- One entry of a day in `restore`. -/
def restoreEntry (accounts : List A) (day : D) (days : OrdMap D (OrdMap A DayTally))
    (entry : ℕ × DayTally) : OrdMap D (OrdMap A DayTally) :=
  match accounts[entry.1]? with
  | some account => days.insert day (((days.get? day).getD .empty).insert account entry.2)
  | none => days

def restore (file : LedgerFile S A D) : TurnBook S A D where
  days := file.days.entries.foldl
    (fun days entry => entry.2.foldl (restoreEntry file.accounts entry.1) days) .empty
  openTurns := file.openTurns.mapValues fun turn => turn.closeWorking turn.lastEventMs
  watermarks := file.watermarks
  cursors := file.cursors
  imported := file.imported.mapValues fun indices =>
    setOf (indices.filterMap fun index => file.accounts[index]?)
  importRecord := file.importRecord
  revision := 0

end TurnBook

/-- The book, with each running working interval closed at its last event. -/
def TurnBook.closed (book : TurnBook S A D) : TurnBook S A D :=
  { book with
    openTurns := book.openTurns.mapValues fun turn => turn.closeWorking turn.lastEventMs
    revision := 0 }

/-! ### What is written restores -/

/-- A book whose days have tallies, and whose imported marks are of accounts of their day. -/
structure WellFormed (book : TurnBook S A D) : Prop where
  days : ∀ day tallies, book.days.get? day = some tallies → tallies.entries ≠ []
  imported : ∀ day held account, book.imported.get? day = some held →
    (held.get? account).isSome = true → ((book.onDay day).get? account).isSome = true

theorem setOf_entries {K : Type} [LinearOrder K] (set : OrdMap K Unit) :
    setOf (set.entries.map Prod.fst) = set := by
  unfold setOf
  rw [List.foldl_map]
  exact OrdMap.foldl_insert_entries set

theorem mem_setOf {K : Type} [LinearOrder K] {keys : List K} {key : K} (h : key ∈ keys) :
    key ∈ (setOf keys).entries.map Prod.fst := by
  have hkept (keys : List K) (set : OrdMap K Unit) (hset : (set.get? key).isSome = true) :
      ((keys.foldl (fun set key => set.insert key ()) set).get? key).isSome = true := by
    induction keys generalizing set with
    | nil => exact hset
    | cons other keys ih =>
      refine ih _ ?_
      rw [OrdMap.get?_insert]
      split_ifs
      · rfl
      · exact hset
  have hall (keys : List K) (hmem : key ∈ keys) (set : OrdMap K Unit) :
      ((keys.foldl (fun set key => set.insert key ()) set).get? key).isSome = true := by
    induction keys generalizing set with
    | nil => cases hmem
    | cons other keys ih =>
      rcases List.mem_cons.1 hmem with rfl | hmem
      · exact hkept keys _ (by simp)
      · exact ih hmem _
  obtain ⟨value, hvalue⟩ := Option.isSome_iff_exists.1 (hall keys h .empty)
  exact List.mem_map.2 ⟨_, OrdMap.get?_eq_some.1 hvalue, rfl⟩

theorem mem_accounts {book : TurnBook S A D} {day : D} {account : A}
    (h : ((book.onDay day).get? account).isSome = true) : account ∈ book.accounts := by
  refine mem_setOf (List.mem_flatMap.2 ?_)
  unfold TurnBook.onDay at h
  cases hday : book.days.get? day with
  | none => simp [hday] at h
  | some tallies =>
    rw [hday] at h
    obtain ⟨tally, htally⟩ := Option.isSome_iff_exists.1 h
    exact ⟨tallies, OrdMap.mem_values.2 ⟨day, hday⟩,
      List.mem_map.2 ⟨_, OrdMap.get?_eq_some.1 htally, rfl⟩⟩

/-- An account is found again under its index. -/
theorem getElem?_idxOf? {accounts : List A} {account : A} (h : account ∈ accounts) :
    ∃ index, accounts.idxOf? account = some index ∧ accounts[index]? = some account := by
  obtain ⟨index, hindex⟩ := Option.isSome_iff_exists.1 (List.isSome_idxOf?.2 h)
  obtain ⟨hlt, hget, -⟩ := List.idxOf?_eq_some_iff.1 hindex
  exact ⟨index, hindex, by rw [List.getElem?_eq_getElem hlt, hget]⟩

/-- The entries of a day, as they are written, restore to its tallies. -/
theorem restoreEntries_eq {accounts : List A} {day : D} {days : OrdMap D (OrdMap A DayTally)}
    {entries : List (A × DayTally)} (haccounts : ∀ entry ∈ entries, entry.1 ∈ accounts) :
    (entries.filterMap fun entry =>
      (accounts.idxOf? entry.1).map fun index => (index, entry.2)).foldl
        (TurnBook.restoreEntry accounts day) days =
    if entries = [] then days
    else days.insert day
      (entries.foldl (fun tallies entry => tallies.insert entry.1 entry.2)
        ((days.get? day).getD .empty)) := by
  induction entries generalizing days with
  | nil => rfl
  | cons entry entries ih =>
    obtain ⟨index, hindex, hget⟩ := getElem?_idxOf? (haccounts entry List.mem_cons_self)
    have hentry : TurnBook.restoreEntry accounts day days (index, entry.2) =
        days.insert day (((days.get? day).getD .empty).insert entry.1 entry.2) := by
      simp only [TurnBook.restoreEntry, hget]
    rw [List.filterMap_cons, hindex]
    simp only [Option.map_some, List.foldl_cons, hentry, reduceCtorEq, if_false]
    rw [ih fun other hother => haccounts other (List.mem_cons_of_mem _ hother)]
    split_ifs with hnil
    · rw [hnil, List.foldl_nil]
    · rw [OrdMap.get?_insert, if_pos rfl, Option.getD_some, OrdMap.insert_insert]

/-- The days, as they are written, restore one after another. -/
theorem restoreDays_foldl {accounts : List A} {entries : List (D × OrdMap A DayTally)}
    {days : OrdMap D (OrdMap A DayTally)} (hkeys : entries.Pairwise fun x y => x.1 ≠ y.1)
    (hnone : ∀ entry ∈ entries, days.get? entry.1 = none)
    (hsome : ∀ entry ∈ entries, entry.2.entries ≠ [])
    (haccounts : ∀ entry ∈ entries, ∀ tally ∈ entry.2.entries, tally.1 ∈ accounts) :
    entries.foldl (fun days entry => (entry.2.entries.filterMap fun tally =>
      (accounts.idxOf? tally.1).map fun index => (index, tally.2)).foldl
        (TurnBook.restoreEntry accounts entry.1) days) days =
    entries.foldl (fun days entry => days.insert entry.1 entry.2) days := by
  induction entries generalizing days with
  | nil => rfl
  | cons entry entries ih =>
    obtain ⟨hfirst, hrest⟩ := List.pairwise_cons.1 hkeys
    rw [List.foldl_cons, List.foldl_cons, restoreEntries_eq (haccounts entry List.mem_cons_self),
      if_neg (hsome entry List.mem_cons_self), hnone entry List.mem_cons_self, Option.getD_none,
      OrdMap.foldl_insert_entries]
    refine ih hrest (fun other hother => ?_)
      (fun other hother => hsome other (List.mem_cons_of_mem _ hother))
      (fun other hother => haccounts other (List.mem_cons_of_mem _ hother))
    rw [OrdMap.get?_insert, if_neg (hfirst other hother).symm]
    exact hnone other (List.mem_cons_of_mem _ hother)

theorem restoreDays_eq {book : TurnBook S A D} (h : WellFormed book) :
    book.toFile.days.entries.foldl (fun days entry =>
      entry.2.foldl (TurnBook.restoreEntry book.accounts entry.1) days) .empty = book.days := by
  have hget {entry : D × OrdMap A DayTally} (hentry : entry ∈ book.days.entries) :
      book.days.get? entry.1 = some entry.2 := OrdMap.get?_eq_some.2 hentry
  unfold TurnBook.toFile OrdMap.mapValues
  rw [List.foldl_map]
  refine (restoreDays_foldl (book.days.sorted.imp fun hlt => hlt.ne) (fun _ _ => rfl)
    (fun entry hentry => h.days entry.1 entry.2 (hget hentry)) ?_).trans
    (OrdMap.foldl_insert_entries book.days)
  intro entry hentry tally htally
  have htally : (book.onDay entry.1).get? tally.1 = some tally.2 := by
    unfold TurnBook.onDay
    rw [hget hentry]
    exact OrdMap.get?_eq_some.2 htally
  exact mem_accounts (by rw [htally]; rfl)

theorem restoreImported_eq {book : TurnBook S A D} (h : WellFormed book) :
    (book.toFile.imported.mapValues fun indices =>
      setOf (indices.filterMap fun index => book.accounts[index]?)) = book.imported := by
  refine OrdMap.ext_get? fun day => ?_
  unfold TurnBook.toFile
  rw [OrdMap.get?_mapValues, OrdMap.get?_mapValues]
  cases hday : book.imported.get? day with
  | none => rfl
  | some held =>
    have hindices : (held.entries.filterMap fun entry => book.accounts.idxOf? entry.1).filterMap
        (fun index => book.accounts[index]?) = held.entries.map Prod.fst := by
      rw [List.filterMap_filterMap, ← List.filterMap_eq_map]
      refine List.filterMap_congr fun entry hentry => ?_
      have hheld : held.get? entry.1 = some entry.2 := OrdMap.get?_eq_some.2 hentry
      obtain ⟨index, hindex, hget⟩ := getElem?_idxOf?
        (mem_accounts (h.imported day held entry.1 hday (by rw [hheld]; rfl)))
      rw [hindex]
      exact hget
    rw [Option.map_some, Option.map_some, hindices, setOf_entries]

/-- **What is written restores** to the book, with its working intervals closed. -/
theorem restore_toFile {book : TurnBook S A D} (h : WellFormed book) :
    TurnBook.restore book.toFile = book.closed := by
  unfold TurnBook.restore TurnBook.closed
  congr 1
  · exact restoreDays_eq h
  · exact restoreImported_eq h

/-! ### Well-formed books -/

section
variable {book book' : TurnBook S A D}

theorem wellFormed_default : WellFormed (.default : TurnBook S A D) := by
  constructor <;> simp [TurnBook.default]

theorem WellFormed.congr (h : WellFormed book) (hdays : book'.days = book.days)
    (himported : book'.imported = book.imported) : WellFormed book' := by
  refine ⟨fun day tallies hday => ?_, fun day held account hday hheld => ?_⟩
  · exact h.days day tallies (hdays ▸ hday)
  · have hold := h.imported day held account (himported ▸ hday) hheld
    unfold TurnBook.onDay at hold ⊢
    rwa [hdays]

/-- A tally is added. -/
theorem WellFormed.insert (h : WellFormed book) (day : D) (account : A) (tally : DayTally) :
    WellFormed { book with
      days := book.days.insert day ((book.onDay day).insert account tally) } := by
  refine ⟨fun day' tallies hday => ?_, fun day' held account' hday hheld => ?_⟩
  · dsimp only at hday
    rw [OrdMap.get?_insert] at hday
    split_ifs at hday
    · cases hday
      have hget : ((book.onDay day).insert account tally).get? account = some tally := by simp
      exact List.ne_nil_of_mem (OrdMap.get?_eq_some.1 hget)
    · exact h.days day' tallies hday
  · have hold := h.imported day' held account' hday hheld
    unfold TurnBook.onDay
    dsimp only
    rw [OrdMap.get?_insert]
    split_ifs with heq
    · rw [Option.getD_some, OrdMap.get?_insert]
      split_ifs
      · rfl
      · rw [← heq]
        exact hold
    · exact hold

theorem WellFormed.booked (h : WellFormed book) (day : D) (account : A)
    (change : DayTally → DayTally) : WellFormed (book.book day account change) := by
  unfold TurnBook.book
  split_ifs
  · exact h
  · exact (h.insert day account _).congr rfl rfl

theorem WellFormed.importDay (h : WellFormed book) (day : D) (account : A) (tally : DayTally) :
    WellFormed (book.importDay day account tally) := by
  unfold TurnBook.importDay
  split_ifs
  · exact h
  · have hdays := h.insert day account tally
    refine ⟨hdays.days, fun day' held account' hday hheld => ?_⟩
    dsimp only at hday
    rw [OrdMap.get?_insert] at hday
    split_ifs at hday with heq
    · subst heq
      cases hday
      rw [OrdMap.get?_insert] at hheld
      unfold TurnBook.onDay
      dsimp only
      rw [OrdMap.get?_insert, if_pos rfl, Option.getD_some, OrdMap.get?_insert]
      split_ifs at hheld ⊢
      · rfl
      · cases hheld' : book.imported.get? day' with
        | none => simp [hheld'] at hheld
        | some held =>
          rw [hheld', Option.getD_some] at hheld
          exact h.imported day' held account' hheld' hheld
    · exact hdays.imported day' held account' hday hheld

/-- What an operation does to the days and their imported marks: tallies are booked and imported, and the rest of the
book changes. -/
inductive Books : TurnBook S A D → TurnBook S A D → Prop where
  | same {book book' : TurnBook S A D} (days : book'.days = book.days)
      (imported : book'.imported = book.imported) : Books book book'
  | book (book : TurnBook S A D) (day : D) (account : A) (change : DayTally → DayTally) :
      Books book (book.book day account change)
  | importDay (book : TurnBook S A D) (day : D) (account : A) (tally : DayTally) :
      Books book (book.importDay day account tally)
  | trans {book book' book'' : TurnBook S A D} (h : Books book book') (h' : Books book' book'') :
      Books book book''

theorem Books.refl (book : TurnBook S A D) : Books book book := .same rfl rfl

/-- A loop whose rounds book. -/
theorem Books.foldl {X : Type} {f : TurnBook S A D → X → TurnBook S A D}
    (hf : ∀ book x, Books book (f book x)) (xs : List X) (book : TurnBook S A D) :
    Books book (xs.foldl f book) := by
  induction xs generalizing book with
  | nil => exact .refl book
  | cons x xs ih => exact (hf book x).trans (ih (f book x))

theorem Books.wellFormed (hbooks : Books book book') (h : WellFormed book) : WellFormed book' := by
  induction hbooks with
  | same hdays himported => exact h.congr hdays himported
  | book book day account change => exact h.booked day account change
  | importDay book day account tally => exact h.importDay day account tally
  | trans _ _ ih ih' => exact ih' (ih h)

theorem bookSpan_books (book : TurnBook S A D) (account : A) (cursor stop : ℕ)
    (calendar : Calendar D) : Books book (book.bookSpan account cursor stop calendar) := by
  induction hsize : stop - cursor using Nat.strong_induction_on generalizing cursor book with
  | _ size ih =>
    unfold TurnBook.bookSpan
    split_ifs with hlt
    · have hnext := calendar.next_gt cursor
      exact (Books.book ..).trans (ih _ (by omega) _ _ rfl)
    · exact .refl book

theorem finish_books (book : TurnBook S A D) (session : S) (endMs : Option ℕ)
    (calendar : Calendar D) : Books book (book.finish session endMs calendar) := by
  unfold TurnBook.finish
  cases book.openTurns.get? session with
  | none => exact .refl book
  | some turn =>
    have herased : Books book { book with openTurns := book.openTurns.erase session } := .same rfl rfl
    have hspans := Books.foldl (fun book span => bookSpan_books book
      (turn.closeWorking (turn.endAt endMs)).account span.1 span.2 calendar)
      ((turn.closeWorking (turn.endAt endMs)).activeIntervals (turn.endAt endMs))
      { book with openTurns := book.openTurns.erase session }
    exact (herased.trans hspans).trans (.same rfl rfl)

theorem expire_books (book : TurnBook S A D) (running inTurn : Finset S) (nowMs : ℕ)
    (calendar : Calendar D) : Books book (book.expire running inTurn nowMs calendar) :=
  Books.foldl (fun book (entry : S × Option ℕ) => finish_books book entry.1 entry.2 calendar) _ book

theorem trimWatermarks_books (book : TurnBook S A D) : Books book book.trimWatermarks := by
  have hloop (fuel : ℕ) (book : TurnBook S A D) : Books book (TurnBook.trimLoop fuel book) := by
    induction fuel generalizing book with
    | zero => exact .refl book
    | succ fuel ih =>
      unfold TurnBook.trimLoop
      split_ifs
      · split
        · next oldest _ =>
          have herased : Books book { book with watermarks := book.watermarks.erase oldest } :=
            .same rfl rfl
          exact herased.trans (ih _)
        · exact .refl book
      · exact .refl book
  exact hloop _ book

theorem applyInput_books (book : TurnBook S A D) (signal : TurnSignal S A)
    (calendar : Calendar D) : Books book (book.applyInput signal calendar) := by
  have hopen (change : OpenTurn A → OpenTurn A) :
      Books book (book.openOrStart signal calendar change) := by
    unfold TurnBook.openOrStart
    dsimp only
    split_ifs
    · exact .same rfl rfl
    · exact (Books.book ..).trans (.same rfl rfl)
  unfold TurnBook.applyInput
  cases signal.input with
  | prompt => exact hopen _
  | working => exact hopen _
  | blocked =>
    dsimp only
    split
    · exact .same rfl rfl
    · exact .refl book
  | settled => exact finish_books ..
  | stop => exact finish_books ..
  | ended => exact finish_books ..
  | vanished => exact finish_books ..

theorem apply_books (book : TurnBook S A D) (signal : TurnSignal S A) (calendar : Calendar D) :
    Books book (book.apply signal calendar) := by
  unfold TurnBook.apply
  split_ifs
  · exact .same rfl rfl
  · have hmarked : Books book { book with
        watermarks := book.watermarks.insert signal.session (signal.atMs, signal.order) } :=
      .same rfl rfl
    exact (hmarked.trans (applyInput_books ..)).trans (trimWatermarks_books _)
  · exact (applyInput_books ..).trans (trimWatermarks_books _)

theorem recordTokens_books (book : TurnBook S A D) (account : A) (pass : TokenPass D) :
    Books book (book.recordTokens account pass).2 := by
  have hentries := Books.foldl (fun book (entry : TokenEntry D) =>
    Books.book book entry.day account fun tally =>
      { tally with
        tokensIn := tally.tokensIn + entry.input
        tokensOut := tally.tokensOut + entry.output }) pass.entries book
  unfold TurnBook.recordTokens
  split_ifs
  · exact .refl book
  · exact hentries
  · exact hentries.trans (.same rfl rfl)

theorem importDays_books (book : TurnBook S A D) (days : OrdMap D (OrdMap A DayTally)) (today : D)
    (record : ImportRecord) : Books book (book.importDays days today record) := by
  have hall := Books.foldl (fun book (entry : D × OrdMap A DayTally) =>
    Books.foldl (fun book tally => Books.importDay book entry.1 tally.1 tally.2) entry.2.entries book)
    (days.entries.filter fun entry => entry.1 < today) book
  exact hall.trans (.same rfl rfl)

end

end

end Paneflow.Usage.Ledger

namespace Paneflow.Usage.Flush

open Paneflow.Usage.Ledger Paneflow.Usage.Tokens

section
variable {S A D : Type} [LinearOrder S] [LinearOrder A] [LinearOrder D]

/-- How a file is encoded, and read back. -/
structure Codec (S A D B : Type) [LinearOrder S] [LinearOrder A] [LinearOrder D] where
  encode : LedgerFile S A D → B
  decode : B → Option (LedgerFile S A D)
  decode_encode : ∀ file, decode (encode file) = some file

/-- The ledger, with the file on disk. -/
structure Ledger (S A D B : Type) [LinearOrder S] [LinearOrder A] [LinearOrder D] where
  disk : Option B
  book : TurnBook S A D
  writtenRevision : ℕ
  lastWrite : Option ℕ

variable {B : Type}

def Ledger.empty : Ledger S A D B := ⟨none, .default, 0, none⟩

/-- `flush`, with a write that succeeds. -/
def Ledger.flush (codec : Codec S A D B) (ledger : Ledger S A D B) (now : ℕ) (force : Bool) :
    Bool × Ledger S A D B :=
  if ledger.book.revision = ledger.writtenRevision then (false, ledger)
  else if !force && ledger.lastWrite.any fun last => now - last < ledgerWriteInterval then
    (false, ledger)
  else
    (true, { ledger with
      disk := some (codec.encode ledger.book.toFile)
      lastWrite := some now
      writtenRevision := ledger.book.revision })

/-- The book that the file on disk restores to; an empty one when there is no file. -/
def Ledger.restored (codec : Codec S A D B) (ledger : Ledger S A D B) : Option (TurnBook S A D) :=
  match ledger.disk with
  | none => some .default
  | some bytes => (codec.decode bytes).map TurnBook.restore

/-! ### Runs -/

inductive Op (S A D : Type) [LinearOrder S] [LinearOrder A] [LinearOrder D] where
  | apply (signal : TurnSignal S A)
  | expire (running inTurn : Finset S) (nowMs : ℕ)
  | recordTokens (account : A) (pass : TokenPass D)
  | importDays (days : OrdMap D (OrdMap A DayTally)) (today : D) (record : ImportRecord)
  | flush (now : ℕ) (force : Bool)

def step (codec : Codec S A D B) (calendar : Calendar D) (ledger : Ledger S A D B) :
    Op S A D → Ledger S A D B
  | .apply signal => { ledger with book := ledger.book.apply signal calendar }
  | .expire running inTurn nowMs =>
    { ledger with book := ledger.book.expire running inTurn nowMs calendar }
  | .recordTokens account pass => { ledger with book := (ledger.book.recordTokens account pass).2 }
  | .importDays days today record => { ledger with book := ledger.book.importDays days today record }
  | .flush now force => (ledger.flush codec now force).2

/-- The signal opens a turn on a day that is not imported, or finishes one. -/
def moves (calendar : Calendar D) (book : TurnBook S A D) (signal : TurnSignal S A) : Bool :=
  match signal.input with
  | .prompt | .working =>
    (book.openTurns.get? signal.session).isNone &&
      !book.isImported (calendar.day signal.atMs) signal.account
  | .blocked => false
  | .settled | .stop | .ended | .vanished => (book.openTurns.get? signal.session).isSome

/-- No watermark is to be trimmed. -/
def trimmed (book : TurnBook S A D) : Bool :=
  book.watermarks.entries.length ≤ maxWatermarks || book.oldestWatermark.isNone

/-- The signal repeats what the book has: a replay of a session with a watermark, or a signal that finds
nothing to do. -/
def idle (book : TurnBook S A D) (signal : TurnSignal S A) : Bool :=
  if signal.input.fromHook then
    replayed book signal && (book.watermarks.get? signal.session).isSome
  else
    trimmed book &&
      match signal.input, book.openTurns.get? signal.session with
      | .working, some turn =>
        turn.declared && turn.workingSinceMs.isSome && signal.atMs ≤ turn.lastEventMs
      | .blocked, some turn => turn.workingSinceMs.isNone && signal.atMs ≤ turn.lastEventMs
      | .blocked, none | .settled, none | .vanished, none => true
      | _, _ => false

/-- A signal that is applied moves the revision or changes nothing. -/
def Counted (calendar : Calendar D) (ledger : Ledger S A D B) : Op S A D → Prop
  | .apply signal =>
    (replayed ledger.book signal = false ∧ moves calendar ledger.book signal = true) ∨
      idle ledger.book signal = true
  | _ => True

/-- The ledgers of the runs from an empty one whose steps satisfy `cond`. -/
abbrev Reach (codec : Codec S A D B) (calendar : Calendar D)
    (cond : Ledger S A D B → Op S A D → Prop) : Ledger S A D B → Prop :=
  Transition.Reach (fun ledger op => some (step codec calendar ledger op)) (· = .empty) cond

section
variable {book book' : TurnBook S A D} {calendar : Calendar D} {signal : TurnSignal S A}

/-- The revision has moved, or nothing has changed. -/
def Moved (book book' : TurnBook S A D) : Prop := book' = book ∨ book.revision < book'.revision

theorem Moved.trans {book'' : TurnBook S A D} (h : Moved book book') (h' : Moved book' book'') :
    Moved book book'' := by
  rcases h with rfl | h
  · exact h'
  · rcases h' with rfl | h'
    · exact .inr h
    · exact .inr (h.trans h')

theorem finish_moved (book : TurnBook S A D) (session : S) (endMs : Option ℕ)
    (calendar : Calendar D) : Moved book (book.finish session endMs calendar) := by
  rcases finish_cases book session endMs calendar with ⟨-, hsame⟩ | ⟨-, booked, hbooked, hsame⟩
  · exact .inl hsame
  · right
    rw [hsame]
    exact Nat.lt_succ_of_le hbooked.le

theorem expire_moved (book : TurnBook S A D) (running inTurn : Finset S) (nowMs : ℕ)
    (calendar : Calendar D) : Moved book (book.expire running inTurn nowMs calendar) := by
  unfold TurnBook.expire
  induction book.expired running inTurn nowMs generalizing book with
  | nil => exact .inl rfl
  | cons entry ended ih => exact (finish_moved ..).trans (ih _)

theorem recordTokens_moved (book : TurnBook S A D) (account : A) (pass : TokenPass D) :
    Moved book (book.recordTokens account pass).2 := by
  have hentries (entries : List (TokenEntry D)) (book : TurnBook S A D) :
      Rebooked book (entries.foldl (fun book entry => book.book entry.day account fun tally =>
        { tally with
          tokensIn := tally.tokensIn + entry.input
          tokensOut := tally.tokensOut + entry.output }) book) := by
    induction entries generalizing book with
    | nil => exact .refl book
    | cons entry entries ih => exact (book_rebooked ..).trans (ih _)
  unfold TurnBook.recordTokens
  split_ifs
  · exact .inl rfl
  · exact (hentries pass.entries book).revision
  · exact .inr (Nat.lt_succ_of_le (hentries pass.entries book).le)

theorem importDays_moved (book : TurnBook S A D) (days : OrdMap D (OrdMap A DayTally)) (today : D)
    (record : ImportRecord) : Moved book (book.importDays days today record) := by
  have htally (book : TurnBook S A D) (day : D) (account : A) (tally : DayTally) :
      (book.importDay day account tally).revision = book.revision := by
    unfold TurnBook.importDay
    split_ifs <;> rfl
  have hday (day : D) (tallies : List (A × DayTally)) (book : TurnBook S A D) :
      (tallies.foldl (fun book tally => book.importDay day tally.1 tally.2) book).revision =
        book.revision := by
    induction tallies generalizing book with
    | nil => rfl
    | cons tally tallies ih => exact (ih _).trans (htally ..)
  have hall (entries : List (D × OrdMap A DayTally)) (book : TurnBook S A D) :
      (entries.foldl (fun book entry =>
        entry.2.entries.foldl (fun book tally => book.importDay entry.1 tally.1 tally.2) book)
        book).revision = book.revision := by
    induction entries generalizing book with
    | nil => rfl
    | cons entry entries ih => exact (ih _).trans (hday ..)
  refine .inr (Nat.lt_succ_of_le ?_)
  exact (hall _ book).ge

theorem trimWatermarks_revision (book : TurnBook S A D) :
    book.trimWatermarks.revision = book.revision := by
  have hloop (fuel : ℕ) (book : TurnBook S A D) :
      (TurnBook.trimLoop fuel book).revision = book.revision := by
    induction fuel generalizing book with
    | zero => rfl
    | succ fuel ih =>
      unfold TurnBook.trimLoop
      split_ifs
      · split
        · exact ih _
        · rfl
      · rfl
  exact hloop _ book

theorem trimWatermarks_of_trimmed (h : trimmed book = true) : book.trimWatermarks = book := by
  unfold trimmed at h
  rw [Bool.or_eq_true, decide_eq_true_eq] at h
  unfold TurnBook.trimWatermarks
  cases hlength : book.watermarks.entries.length with
  | zero => rfl
  | succ n =>
    unfold TurnBook.trimLoop
    split_ifs with hmany
    · rcases h with hle | hnone
      · omega
      · rw [Option.isNone_iff_eq_none.1 hnone]
    · rfl

/-- A signal that opens or finishes a turn moves the revision. -/
theorem applyInput_revision (h : moves calendar book signal = true) :
    book.revision < (book.applyInput signal calendar).revision := by
  have hopen (change : OpenTurn A → OpenTurn A)
      (hopens : ((book.openTurns.get? signal.session).isNone &&
        !book.isImported (calendar.day signal.atMs) signal.account) = true) :
      book.revision < (book.openOrStart signal calendar change).revision := by
    rw [Bool.and_eq_true, Option.isNone_iff_eq_none, Bool.not_eq_true'] at hopens
    unfold TurnBook.openOrStart TurnBook.book
    simp [hopens.1, hopens.2]
  have hfinish (endMs : Option ℕ) (hopens : (book.openTurns.get? signal.session).isSome = true) :
      book.revision < (book.finish signal.session endMs calendar).revision := by
    rcases finish_cases book signal.session endMs calendar with ⟨hnone, -⟩ | ⟨-, booked, hbooked, hsame⟩
    · rw [hnone] at hopens
      cases hopens
    · rw [hsame]
      exact Nat.lt_succ_of_le hbooked.le
  unfold moves at h
  unfold TurnBook.applyInput
  cases hinput : signal.input with
  | prompt => exact hopen _ (by simpa [hinput] using h)
  | working => exact hopen _ (by simpa [hinput] using h)
  | blocked => simp [hinput] at h
  | settled => exact hfinish _ (by simpa [hinput] using h)
  | stop => exact hfinish _ (by simpa [hinput] using h)
  | ended => exact hfinish _ (by simpa [hinput] using h)
  | vanished => exact hfinish _ (by simpa [hinput] using h)

/-- A signal that finds nothing to do changes nothing. -/
theorem applyInput_idle (hhook : signal.input.fromHook = false) (h : idle book signal = true) :
    book.applyInput signal calendar = book := by
  have hfinish (endMs : Option ℕ) (hnone : book.openTurns.get? signal.session = none) :
      book.finish signal.session endMs calendar = book := by
    unfold TurnBook.finish
    rw [hnone]
  unfold idle at h
  rw [if_neg (by simp [hhook]), Bool.and_eq_true] at h
  obtain ⟨-, h⟩ := h
  unfold TurnBook.applyInput
  cases hinput : signal.input with
  | prompt => simp [hinput, TurnInput.fromHook] at hhook
  | stop => simp [hinput, TurnInput.fromHook] at hhook
  | ended => simp [hinput, TurnInput.fromHook] at hhook
  | working =>
    cases hturn : book.openTurns.get? signal.session with
    | none => simp [hinput, hturn] at h
    | some turn =>
      obtain ⟨⟨hdeclared, hsince⟩, hlast⟩ :
          (turn.declared = true ∧ turn.workingSinceMs.isSome = true) ∧
            signal.atMs ≤ turn.lastEventMs := by
        simpa [hinput, hturn] using h
      obtain ⟨since, hsince⟩ := Option.isSome_iff_exists.1 hsince
      have hsame : ({ turn with
          declared := true
          workingSinceMs := some (turn.workingSinceMs.getD signal.atMs)
          lastEventMs := max turn.lastEventMs signal.atMs } : OpenTurn A) = turn := by
        rw [hsince, Option.getD_some, max_eq_left hlast, ← hsince, ← hdeclared]
      unfold TurnBook.openOrStart
      simp only [hturn, Option.isSome_some, if_true, Option.getD_some, hsame,
        OrdMap.insert_get? hturn]
  | blocked =>
    cases hturn : book.openTurns.get? signal.session with
    | none => rfl
    | some turn =>
      obtain ⟨hsince, hlast⟩ : turn.workingSinceMs = none ∧ signal.atMs ≤ turn.lastEventMs := by
        simpa [hinput, hturn] using h
      have hclose : turn.closeWorking signal.atMs = turn := by
        unfold OpenTurn.closeWorking
        rw [hsince]
      have hsame : ({ turn with lastEventMs := max turn.lastEventMs signal.atMs } : OpenTurn A) =
          turn := by rw [max_eq_left hlast]
      simp only [hclose, hsame, OrdMap.insert_get? hturn]
  | settled =>
    refine hfinish _ ?_
    cases hturn : book.openTurns.get? signal.session with
    | none => rfl
    | some turn => simp [hinput, hturn] at h
  | vanished =>
    refine hfinish _ ?_
    cases hturn : book.openTurns.get? signal.session with
    | none => rfl
    | some turn => simp [hinput, hturn] at h

theorem apply_moved (h : (replayed book signal = false ∧ moves calendar book signal = true) ∨
    idle book signal = true) : Moved book (book.apply signal calendar) := by
  unfold TurnBook.apply
  rcases h with ⟨hreplayed, hmoves⟩ | hidle
  · right
    split_ifs with hhook hmark
    · simp [replayed, hhook, hmark] at hreplayed
    · rw [trimWatermarks_revision]
      have hmoves' : moves calendar { book with
          watermarks := book.watermarks.insert signal.session (signal.atMs, signal.order) } signal =
            true := hmoves
      exact applyInput_revision hmoves'
    · rw [trimWatermarks_revision]
      exact applyInput_revision hmoves
  · left
    cases hhook : signal.input.fromHook with
    | true =>
      unfold idle at hidle
      rw [if_pos hhook, Bool.and_eq_true] at hidle
      obtain ⟨hreplayed, hsome⟩ := hidle
      unfold replayed at hreplayed
      rw [hhook, Bool.true_and] at hreplayed
      obtain ⟨mark, hget⟩ := Option.isSome_iff_exists.1 hsome
      have hmark : book.watermark signal.session = mark := by
        unfold TurnBook.watermark
        rw [hget, Option.getD_some]
      rw [if_pos rfl, if_pos hreplayed, hmark, OrdMap.insert_get? hget]
    | false =>
      rw [if_neg (by simp), applyInput_idle hhook hidle]
      unfold idle at hidle
      rw [if_neg (by simp [hhook]), Bool.and_eq_true] at hidle
      exact trimWatermarks_of_trimmed hidle.1

end

/-! ### What a flush leaves on disk -/

section
variable {codec : Codec S A D B} {calendar : Calendar D} {ledger : Ledger S A D B}

/-- The file is the book unless the revision says that it is older. -/
structure Current (codec : Codec S A D B) (ledger : Ledger S A D B) : Prop where
  wellFormed : WellFormed ledger.book
  written : ledger.writtenRevision ≤ ledger.book.revision
  current : ledger.writtenRevision = ledger.book.revision →
    ledger.restored codec = some ledger.book.closed

theorem current_empty : Current codec (.empty : Ledger S A D B) :=
  ⟨wellFormed_default, le_rfl, fun _ => rfl⟩

theorem Current.moved {book : TurnBook S A D} (h : Current codec ledger)
    (hmoved : Moved ledger.book book) (hformed : WellFormed book) :
    Current codec { ledger with book := book } := by
  rcases hmoved with rfl | hlt
  · exact h
  · have hwritten : ledger.writtenRevision < book.revision := h.written.trans_lt hlt
    exact ⟨hformed, hwritten.le, fun heq => absurd heq hwritten.ne⟩

/-- A write makes the file the book. -/
theorem Current.write (h : Current codec ledger) (now : ℕ) :
    Current codec { ledger with
      disk := some (codec.encode ledger.book.toFile)
      lastWrite := some now
      writtenRevision := ledger.book.revision } := by
  refine ⟨h.wellFormed, le_rfl, fun _ => ?_⟩
  unfold Ledger.restored
  dsimp only
  rw [codec.decode_encode, Option.map_some, restore_toFile h.wellFormed]

theorem Current.flush (h : Current codec ledger) (now : ℕ) (force : Bool) :
    Current codec (ledger.flush codec now force).2 := by
  unfold Ledger.flush
  split_ifs
  · exact h
  · exact h
  · exact h.write now

theorem Current.step (h : Current codec ledger) (op : Op S A D)
    (hcounted : Counted calendar ledger op) : Current codec (step codec calendar ledger op) := by
  cases op with
  | apply signal => exact h.moved (apply_moved hcounted) ((apply_books ..).wellFormed h.wellFormed)
  | expire running inTurn nowMs => exact h.moved (expire_moved ..) ((expire_books ..).wellFormed h.wellFormed)
  | recordTokens account pass => exact h.moved (recordTokens_moved ..) ((recordTokens_books ..).wellFormed h.wellFormed)
  | importDays days today record => exact h.moved (importDays_moved ..) ((importDays_books ..).wellFormed h.wellFormed)
  | flush now force => exact h.flush now force

/-- **A forced flush leaves the book on disk**, in every run in which each signal that is applied moves the
revision or changes nothing. -/
theorem runs_flushed (h : Reach codec calendar (Counted calendar) ledger) (now : ℕ) :
    (ledger.flush codec now true).2.restored codec = some ledger.book.closed := by
  have hcurrent : Current codec ledger := by
    refine h.invariant (I := Current codec) ?_ ?_
    · rintro _ rfl
      exact current_empty
    · rintro ledger op _ hcurrent hcounted ⟨⟩
      exact hcurrent.step op hcounted
  unfold Ledger.flush
  split_ifs with hsame hlate
  · exact hcurrent.current hsame.symm
  · simp at hlate
  · exact (hcurrent.write now).current rfl

end

end

/-- Files as they are. -/
def plainCodec : Codec ℕ ℕ ℕ (LedgerFile ℕ ℕ ℕ) := ⟨id, some, fun _ => rfl⟩

/-- A calendar of a single day. -/
def oneDay : Calendar ℕ := ⟨fun _ => 0, fun t => t + 1, Nat.lt_succ_self⟩

/-- A turn that is opened, written, finished and written again. -/
theorem runs_flushed_turn :
    ∃ ledger : Ledger ℕ ℕ ℕ (LedgerFile ℕ ℕ ℕ),
      Reach plainCodec oneDay (Counted oneDay) ledger ∧ ledger.book.tally 0 7 = ⟨1, 4, 0, 0⟩ ∧
      (ledger.flush plainCodec 0 true).2.restored plainCodec = some ledger.book.closed := by
  have hempty : Reach plainCodec oneDay (Counted oneDay) .empty := .init rfl
  have hopened := hempty.step (.apply ⟨1, 7, .prompt, 1, 0⟩)
    (by exact .inl ⟨by decide, by decide⟩) rfl
  have hwritten := hopened.step (.flush 0 true) (by trivial) rfl
  have hended := hwritten.step (.apply ⟨1, 7, .stop, 5, 1⟩)
    (by exact .inl ⟨by decide, by decide⟩) rfl
  exact ⟨_, hended, by decide +kernel, runs_flushed hended 0⟩

/-- Work on a turn that is open does not move the revision, and a forced flush does not write it. -/
theorem not_runs_flushed :
    ¬ ∀ (codec : Codec ℕ ℕ ℕ (LedgerFile ℕ ℕ ℕ)) (calendar : Calendar ℕ)
      (ledger : Ledger ℕ ℕ ℕ (LedgerFile ℕ ℕ ℕ)), Reach codec calendar (fun _ _ => True) ledger →
      ∀ now, (ledger.flush codec now true).2.restored codec = some ledger.book.closed := by
  intro h
  have hempty : Reach plainCodec oneDay (fun _ _ => True) .empty := .init rfl
  have hopened := hempty.step (.apply ⟨1, 7, .prompt, 1, 0⟩) trivial rfl
  have hwritten := hopened.step (.flush 0 true) trivial rfl
  have hworked := hwritten.step (.apply ⟨1, 7, .working, 2, 0⟩) trivial rfl
  have hfile := h plainCodec oneDay _ hworked 0
  have hdeclared := congrArg
    (Option.map fun book => (book.openTurns.get? 1).map OpenTurn.declared) hfile
  revert hdeclared
  decide

end Paneflow.Usage.Flush
