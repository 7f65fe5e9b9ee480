import Paneflow.Usage.Flush

/-!
# Imported days

`import_days` books a day of an account that the book has nothing of, and marks it; what is booked later for a marked
day is left out. `prune` forgets the days that are too old. `book_restored` says of every book that the operations
reach that its file restores to it, and that the tally of a marked day stays until the day is pruned.

The calendar's subtraction of days is the parameter `checkedSubDays`.
-/

namespace Paneflow.Usage.Ledger

open Paneflow.Usage.Tokens

variable {S A D : Type} [LinearOrder S] [LinearOrder A] [LinearOrder D]

def retainedDays : ℕ := 400

def TurnBook.prune (checkedSubDays : D → ℕ → Option D) (book : TurnBook S A D) (today : D) :
    TurnBook S A D :=
  match checkedSubDays today retainedDays with
  | none => book
  | some oldest =>
    { book with
      days := book.days.filterKeys fun day => oldest < day
      imported := book.imported.filterKeys fun day => oldest < day }

/-! ### The tallies of imported days -/

variable {book book' : TurnBook S A D} {day : D} {account : A}

/-- What an operation keeps of a day and an account that are imported. -/
def KeepsImported (book book' : TurnBook S A D) (day : D) (account : A) : Prop :=
  book.isImported day account = true →
    book'.isImported day account = true ∧ book'.tally day account = book.tally day account

theorem isImported_iff :
    book.isImported day account = true ↔
      ∃ held, book.imported.get? day = some held ∧ (held.get? account).isSome = true := by
  unfold TurnBook.isImported
  rcases hheld : book.imported.get? day with _ | held
  · simp
  · simp

theorem keepsImported_of_eq (hdays : book'.days = book.days) (himported : book'.imported = book.imported) :
    KeepsImported book book' day account := by
  intro hmarked
  unfold TurnBook.isImported TurnBook.tally TurnBook.onDay at *
  rw [hdays, himported]
  exact ⟨hmarked, rfl⟩

theorem tally_insert (book : TurnBook S A D) {day' : D} {account' : A} (tally : DayTally)
    (hother : ¬ (day = day' ∧ account = account')) :
    ((((book.days.insert day' ((book.onDay day').insert account' tally)).get? day).getD .empty).get?
      account).getD .default = book.tally day account := by
  rw [OrdMap.get?_insert]
  split_ifs with hday
  · subst hday
    rw [Option.getD_some, OrdMap.get?_insert, if_neg fun haccount => hother ⟨rfl, haccount⟩]
    rfl
  · rfl

/-- Nothing is booked for an imported day. -/
theorem keepsImported_book (book : TurnBook S A D) (day' : D) (account' : A)
    (change : DayTally → DayTally) :
    KeepsImported book (book.book day' account' change) day account := by
  intro hmarked
  unfold TurnBook.book
  by_cases himported : book.isImported day' account' = true
  · rw [if_pos himported]
    exact ⟨hmarked, rfl⟩
  · rw [if_neg himported]
    refine ⟨hmarked, tally_insert book _ ?_⟩
    rintro ⟨rfl, rfl⟩
    exact himported hmarked

/-- An imported day has its tally already, so that it is not imported again. -/
theorem keepsImported_importDay (h : WellFormed book) (day' : D) (account' : A) (tally : DayTally) :
    KeepsImported book (book.importDay day' account' tally) day account := by
  intro hmarked
  obtain ⟨held, hheld, haccount⟩ := isImported_iff.1 hmarked
  have hbooked := h.imported day held account hheld haccount
  unfold TurnBook.importDay
  by_cases hskip : tally = .default ∨ ((book.onDay day').get? account').isSome = true
  · rw [if_pos hskip]
    exact ⟨hmarked, rfl⟩
  · rw [if_neg hskip]
    have hother : ¬ (day = day' ∧ account = account') := by
      rintro ⟨rfl, rfl⟩
      exact hskip (.inr hbooked)
    refine ⟨isImported_iff.2 ?_, tally_insert book tally hother⟩
    dsimp only
    rw [OrdMap.get?_insert]
    split_ifs with hday
    · subst hday
      refine ⟨_, rfl, ?_⟩
      rw [hheld, Option.getD_some, OrdMap.get?_insert]
      split_ifs
      · rfl
      · exact haccount
    · exact ⟨held, hheld, haccount⟩

theorem Books.keepsImported (hbooks : Books book book') (h : WellFormed book) :
    KeepsImported book book' day account := by
  induction hbooks with
  | same hdays himported => exact keepsImported_of_eq hdays himported
  | book book day' account' change => exact keepsImported_book book day' account' change
  | importDay book day' account' tally => exact keepsImported_importDay h day' account' tally
  | trans hfirst hsecond ih ih' =>
    intro hmarked
    obtain ⟨hmarked', htally⟩ := ih h hmarked
    obtain ⟨hmarked'', htally'⟩ := ih' (hfirst.wellFormed h) hmarked'
    exact ⟨hmarked'', htally'.trans htally⟩

/-! ### Pruning -/

section
variable {checkedSubDays : D → ℕ → Option D} {today oldest : D}

theorem prune_eq (holdest : checkedSubDays today retainedDays = some oldest) (book : TurnBook S A D) :
    book.prune checkedSubDays today = { book with
      days := book.days.filterKeys fun day => oldest < day
      imported := book.imported.filterKeys fun day => oldest < day } := by
  unfold TurnBook.prune
  rw [holdest]

/-- The marks of a day go with its tallies. -/
theorem WellFormed.prune (h : WellFormed book) (today : D) :
    WellFormed (book.prune checkedSubDays today) := by
  rcases holdest : checkedSubDays today retainedDays with _ | oldest
  · unfold TurnBook.prune
    rw [holdest]
    exact h
  rw [prune_eq holdest]
  refine ⟨fun day tallies hday => ?_, fun day held account hday hheld => ?_⟩
  · dsimp only at hday
    rw [OrdMap.get?_filterKeys] at hday
    split_ifs at hday
    exact h.days day tallies hday
  · dsimp only at hday
    rw [OrdMap.get?_filterKeys] at hday
    split_ifs at hday with hkept
    have hbooked := h.imported day held account hday hheld
    unfold TurnBook.onDay at hbooked ⊢
    dsimp only
    rw [OrdMap.get?_filterKeys, if_pos hkept]
    exact hbooked

theorem keepsImported_prune (hkept : ∀ oldest, checkedSubDays today retainedDays = some oldest → oldest < day) :
    KeepsImported book (book.prune checkedSubDays today) day account := by
  intro hmarked
  rcases holdest : checkedSubDays today retainedDays with _ | oldest
  · unfold TurnBook.prune
    rw [holdest]
    exact ⟨hmarked, rfl⟩
  have hafter : decide (oldest < day) = true := decide_eq_true (hkept oldest holdest)
  rw [prune_eq holdest]
  unfold TurnBook.isImported TurnBook.tally TurnBook.onDay at *
  dsimp only
  rw [OrdMap.get?_filterKeys, OrdMap.get?_filterKeys, if_pos hafter, if_pos hafter]
  exact ⟨hmarked, rfl⟩

end

/-! ### Runs -/

inductive BookOp (S A D : Type) [LinearOrder S] [LinearOrder A] [LinearOrder D] where
  | apply (signal : TurnSignal S A)
  | expire (running inTurn : Finset S) (nowMs : ℕ)
  | recordTokens (account : A) (pass : TokenPass D)
  | importDays (days : OrdMap D (OrdMap A DayTally)) (today : D) (record : ImportRecord)
  | prune (today : D)

variable (calendar : Calendar D) (checkedSubDays : D → ℕ → Option D)

def bookStep (book : TurnBook S A D) : BookOp S A D → Option (TurnBook S A D)
  | .apply signal => some (book.apply signal calendar)
  | .expire running inTurn nowMs => some (book.expire running inTurn nowMs calendar)
  | .recordTokens account pass => some (book.recordTokens account pass).2
  | .importDays days today record => some (book.importDays days today record)
  | .prune today => some (book.prune checkedSubDays today)

/-- The operation is a prune that removes the day. -/
def BookOp.removes (day : D) : BookOp S A D → Prop
  | .prune today => ∃ oldest, checkedSubDays today retainedDays = some oldest ∧ day ≤ oldest
  | _ => False

variable {calendar checkedSubDays}

/-- A step books and imports, or prunes. -/
theorem bookStep_cases {op : BookOp S A D} (hstep : bookStep calendar checkedSubDays book op = some book') :
    Books book book' ∨ ∃ today, op = .prune today ∧ book' = book.prune checkedSubDays today := by
  rcases op with signal | ⟨running, inTurn, nowMs⟩ | ⟨account, pass⟩ | ⟨days, today, record⟩ | today
  · exact .inl (Option.some.inj hstep ▸ apply_books ..)
  · exact .inl (Option.some.inj hstep ▸ expire_books ..)
  · exact .inl (Option.some.inj hstep ▸ recordTokens_books ..)
  · exact .inl (Option.some.inj hstep ▸ importDays_books ..)
  · exact .inr ⟨today, rfl, (Option.some.inj hstep).symm⟩

theorem WellFormed.bookStep {op : BookOp S A D} (h : WellFormed book)
    (hstep : bookStep calendar checkedSubDays book op = some book') : WellFormed book' := by
  rcases bookStep_cases hstep with hbooks | ⟨today, -, rfl⟩
  · exact hbooks.wellFormed h
  · exact h.prune today

theorem keepsImported_bookStep {op : BookOp S A D} (h : WellFormed book)
    (hkept : ¬ op.removes checkedSubDays day)
    (hstep : bookStep calendar checkedSubDays book op = some book') :
    KeepsImported book book' day account := by
  rcases bookStep_cases hstep with hbooks | ⟨today, rfl, rfl⟩
  · exact hbooks.keepsImported h
  · refine keepsImported_prune fun oldest holdest => ?_
    by_contra hle
    exact hkept ⟨oldest, holdest, not_lt.1 hle⟩

/-- The books that the operations reach. -/
abbrev BookReach (calendar : Calendar D) (checkedSubDays : D → ℕ → Option D) :
    TurnBook S A D → Prop :=
  Transition.Reach (bookStep calendar checkedSubDays) (· = .default) fun _ _ => True

theorem BookReach.wellFormed (hreach : BookReach calendar checkedSubDays book) : WellFormed book := by
  refine Transition.Reach.invariant ?_ ?_ hreach
  · rintro _ rfl
    exact wellFormed_default
  · intro book op book' h _ hstep
    exact h.bookStep hstep

/-- **A book that is reached** is restored from its file, with its working intervals closed at their last events and no
other difference than the revision; and what it has imported keeps its tally until the day is pruned. -/
theorem book_restored (hreach : BookReach calendar checkedSubDays book) :
    TurnBook.restore book.toFile = book.closed ∧
    ∀ day account, book.isImported day account = true → ∀ book',
      Transition.Run (bookStep calendar checkedSubDays)
        (fun _ op => ¬ BookOp.removes checkedSubDays day op) book book' →
      book'.isImported day account = true ∧ book'.tally day account = book.tally day account := by
  refine ⟨restore_toFile hreach.wellFormed, ?_⟩
  intro day account hmarked book' hrun
  have hall : WellFormed book' ∧ book'.isImported day account = true ∧
      book'.tally day account = book.tally day account := by
    induction hrun with
    | refl => exact ⟨hreach.wellFormed, hmarked, rfl⟩
    | step op _ hkept hstep ih =>
      obtain ⟨hwell, hmarked', htally⟩ := ih
      obtain ⟨hmarked'', htally'⟩ := keepsImported_bookStep hwell hkept hstep hmarked'
      exact ⟨hwell.bookStep hstep, hmarked'', htally'.trans htally⟩
  exact hall.2

/-- Days are numbers, of a thousand milliseconds each. -/
def thousands : Calendar ℕ where
  day t := t / 1000
  nextMidnightMs t := (t / 1000 + 1) * 1000
  next_gt t := by omega

def subDays (day days : ℕ) : Option ℕ := if days ≤ day then some (day - days) else none

/-- A book with an imported day. -/
def importedBook : TurnBook ℕ ℕ ℕ :=
  TurnBook.default.importDays (OrdMap.empty.insert 500 (OrdMap.empty.insert 7 ⟨4, 40, 0, 0⟩)) 501
    ⟨501000, 1, none⟩

theorem book_restored_imported :
    TurnBook.restore importedBook.toFile = importedBook.closed ∧
      importedBook.tally 500 7 = ⟨4, 40, 0, 0⟩ ∧
      (importedBook.apply ⟨1, 7, .prompt, 500100, 0⟩ thousands).tally 500 7 = ⟨4, 40, 0, 0⟩ := by
  have hreach : BookReach thousands subDays importedBook :=
    .step (.importDays _ _ _) (.init rfl) trivial rfl
  obtain ⟨hrestored, hkept⟩ := book_restored hreach
  have hmarked : importedBook.isImported 500 7 = true := by decide
  have htally : importedBook.tally 500 7 = ⟨4, 40, 0, 0⟩ := by decide
  have hrun := hkept 500 7 hmarked (importedBook.apply ⟨1, 7, .prompt, 500100, 0⟩ thousands)
    (.step (.apply ⟨1, 7, .prompt, 500100, 0⟩) .refl (fun h => h) rfl)
  exact ⟨hrestored, htally, hrun.2.trans htally⟩

end Paneflow.Usage.Ledger
