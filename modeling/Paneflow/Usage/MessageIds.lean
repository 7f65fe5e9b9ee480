import Paneflow.Usage.Booked
import Mathlib.Data.List.Dedup

/-!
# The messages of Claude

Claude writes a message as several lines, each with its id and its tokens, so that a pass counts a line
only when its id was not seen. What was seen is kept with the cursor until the day is over, or until the
cursor is dropped for those of other transcripts. `visits_booked_once` says that no message is booked
twice when the cursor stays and no message has lines in passes of two days; `not_visits_booked_once` is a
message that is written at midnight.
-/

namespace Paneflow.Usage.Tokens

open Paneflow.Json Paneflow.Lines Paneflow.Usage.Ledger

section
variable {D : Type} [DecidableEq D] {host : Host D} {today : D} {reading : Reading D}
  {line : List UInt8} {all : List String}

/-! ### The messages of lines -/

/-- The message that a line reports the tokens of: its id and what is booked for it. -/
def Host.message (host : Host D) (line : List UInt8) : Option (String × TokenEntry D) := do
  let value ← host.fromSlice (trimAscii line)
  if value.text "type" ≠ some "assistant" then none
  else do
    let message ← value.get "message"
    let id ← message.text "id"
    let usage ← (message.get "usage").filter Value.isObject
    let atMs ← host.entryMs value
    pure (id, ⟨host.day atMs, count usage "input_tokens", count usage "output_tokens",
      host.lineKey value ["message", "id"]⟩)

/-- The ids of the messages of lines. -/
def Host.ids (host : Host D) (lines : List (List UInt8)) : List String :=
  lines.filterMap fun line => (host.message line).map Prod.fst

/-- The ids of those that have tokens. -/
def Host.spends (host : Host D) (lines : List (List UInt8)) : List String :=
  ((lines.filterMap host.message).filter fun message =>
    message.2.input > 0 ∨ message.2.output > 0).map Prod.fst

/-- The messages of lines that are booked when those with the ids `seen` were seen before. -/
def Host.billed (host : Host D) : List String → List (List UInt8) → List (String × TokenEntry D)
  | _, [] => []
  | seen, line :: lines =>
    match host.message line with
    | none => host.billed seen lines
    | some (id, entry) =>
      if id ∈ seen then host.billed seen lines
      else if entry.input > 0 ∨ entry.output > 0 then
        (id, entry) :: host.billed (id :: seen) lines
      else host.billed (id :: seen) lines

omit [DecidableEq D] in
theorem ids_cons (line : List UInt8) (lines : List (List UInt8)) :
    host.ids (line :: lines) = ((host.message line).map Prod.fst).toList ++ host.ids lines := by
  unfold Host.ids
  rw [List.filterMap_cons]
  cases host.message line <;> rfl

omit [DecidableEq D] in
theorem ids_append (lines more : List (List UInt8)) :
    host.ids (lines ++ more) = host.ids lines ++ host.ids more :=
  List.filterMap_append

omit [DecidableEq D] in
theorem spends_cons (line : List UInt8) (lines : List (List UInt8)) :
    host.spends (line :: lines) =
      (((host.message line).filter fun message =>
        message.2.input > 0 ∨ message.2.output > 0).map Prod.fst).toList ++ host.spends lines := by
  unfold Host.spends
  rw [List.filterMap_cons]
  rcases host.message line with _ | message
  · rfl
  · simp only [List.filter_cons, Option.filter]
    split_ifs <;> rfl

omit [DecidableEq D] in
theorem spends_subset (lines : List (List UInt8)) : host.spends lines ⊆ host.ids lines := by
  induction lines with
  | nil => exact List.nil_subset _
  | cons line lines ih =>
    rw [spends_cons, ids_cons]
    refine List.append_subset.2 ⟨?_, List.subset_append_of_subset_right _ ih⟩
    refine List.subset_append_of_subset_left _ fun id hid => ?_
    simp only [Option.mem_toList, Option.map_eq_some_iff, Option.filter_eq_some_iff] at hid ⊢
    obtain ⟨message, ⟨hmessage, -⟩, hfirst⟩ := hid
    exact ⟨message, hmessage, hfirst⟩

omit [DecidableEq D] in
/-- No message is booked twice, or when it was seen. -/
theorem billed_spec (host : Host D) (seen : List String) (lines : List (List UInt8)) :
    ((host.billed seen lines).map Prod.fst).Nodup ∧
      ∀ id ∈ (host.billed seen lines).map Prod.fst, id ∉ seen ∧ id ∈ host.spends lines := by
  induction lines generalizing seen with
  | nil => exact ⟨List.nodup_nil, by simp [Host.billed]⟩
  | cons line lines ih =>
    unfold Host.billed
    rw [spends_cons]
    rcases host.message line with _ | ⟨id, entry⟩
    · exact ih seen
    · obtain ⟨hnodup, hrest⟩ := ih (id :: seen)
      have hskipped (first : List String) :
          ∀ other ∈ (host.billed (id :: seen) lines).map Prod.fst,
            other ∉ seen ∧ other ∈ first ++ host.spends lines := by
        intro other hother
        obtain ⟨hnew, hmem⟩ := hrest other hother
        exact ⟨fun hseen => hnew (List.mem_cons_of_mem _ hseen), List.mem_append_right _ hmem⟩
      dsimp only
      split_ifs with hseen htokens
      · refine ⟨(ih seen).1, fun other hother => ?_⟩
        obtain ⟨hnew, hmem⟩ := (ih seen).2 other hother
        exact ⟨hnew, List.mem_append_right _ hmem⟩
      · rw [List.map_cons]
        refine ⟨List.nodup_cons.2 ⟨fun hmem => (hrest id hmem).1 List.mem_cons_self, hnodup⟩, ?_⟩
        refine List.forall_mem_cons.2 ⟨⟨hseen, List.mem_append_left _ ?_⟩, hskipped _⟩
        simp [Option.filter, htokens]
      · exact ⟨hnodup, hskipped _⟩

/-- What a line that reports the message does to what was seen, and to the entries. -/
def Reading.bill (reading : Reading D) (today : D) : Option (String × TokenEntry D) → Reading D
  | none => reading
  | some (id, entry) =>
    if id ∈ reading.seen then reading
    else
      { reading with
        seen := id :: reading.seen
        entries :=
          if entry.input > 0 ∨ entry.output > 0 then reading.entries ++ [entry] else reading.entries
        cursor :=
          if reading.cursor.seenDay = some today then
            { reading.cursor with
              seen := (if reading.cursor.seen.length ≥ maxSeenIds then reading.cursor.seen.drop 1
                else reading.cursor.seen) ++ [id] }
          else reading.cursor }

omit [DecidableEq D] in
theorem noteTurn_turns (host : Host D) (kind : TranscriptKind) (value : Value) (reading : Reading D) :
    ∃ turns, host.noteTurn kind value reading = { reading with turns := turns } := by
  unfold Host.noteTurn
  split
  · exact ⟨reading.turns, rfl⟩
  · exact ⟨_, rfl⟩

theorem handle_claude (host : Host D) (today : D) (reading : Reading D) (line : List UInt8) :
    ∃ turns lines, host.handle .claude today reading line =
      { reading.bill today (host.message line) with turns := turns, lines := lines } := by
  unfold Host.handle Host.message
  cases hvalue : host.fromSlice (trimAscii line) with
  | none => exact ⟨reading.turns, reading.lines ++ [line], rfl⟩
  | some value =>
    obtain ⟨turns, hturns⟩ := noteTurn_turns host .claude value
      { reading with lines := reading.lines ++ [line] }
    refine ⟨turns, reading.lines ++ [line], ?_⟩
    dsimp only
    rw [hturns]
    unfold Host.noteEntry Host.entry Host.claudeEntry
    by_cases hassistant : value.text "type" ≠ some "assistant"
    · simp [hassistant, Reading.bill]
    · cases hmessage : value.get "message" with
      | none => simp [hassistant, hmessage, Reading.bill]
      | some message =>
        cases hid : message.text "id" with
        | none => simp [hassistant, hmessage, hid, Reading.bill]
        | some id =>
          cases husage : (message.get "usage").filter Value.isObject with
          | none => simp [hassistant, hmessage, hid, husage, Reading.bill]
          | some usage =>
            cases htime : host.entryMs value with
            | none => simp [hassistant, hmessage, htime, Reading.bill]
            | some atMs =>
              simp only [hassistant, hmessage, hid, husage, htime, Reading.bill, Option.bind_eq_bind,
                Option.bind_some, Option.pure_def, if_false]
              by_cases hseen : id ∈ reading.seen
              · simp [hseen]
              · simp only [hseen, if_false]
                split_ifs <;> rfl

/-! ### One pass -/

/-- The reader knows the ids that the cursor holds, which are among `all`. -/
structure Knows (all : List String) (today : D) (reading : Reading D) : Prop where
  seenDay : reading.cursor.seenDay = some today
  mem : ∀ id, id ∈ reading.seen ↔ id ∈ reading.cursor.seen
  nodup : reading.cursor.seen.Nodup
  subset : reading.cursor.seen ⊆ all

omit [DecidableEq D] in
/-- What was seen does not overflow while there are no more ids than it holds. -/
theorem Knows.room (h : Knows all today reading) (hall : all.dedup.length ≤ maxSeenIds) {id : String}
    (hid : id ∈ all) (hnew : id ∉ reading.seen) : reading.cursor.seen.length < maxSeenIds := by
  have hnodup : (id :: reading.cursor.seen).Nodup :=
    List.nodup_cons.2 ⟨fun hmem => hnew ((h.mem id).2 hmem), h.nodup⟩
  have hsubset : id :: reading.cursor.seen ⊆ all.dedup := by
    intro other hother
    rw [List.mem_dedup]
    exact (List.mem_cons.1 hother).elim (fun heq => heq ▸ hid) fun hmem => h.subset hmem
  have hlength := (List.subperm_of_subset hnodup hsubset).length_le
  rw [List.length_cons] at hlength
  omega

/-- A message is booked when its id was not seen, and then the cursor holds it. -/
theorem Knows.bill (h : Knows all today reading) (hall : all.dedup.length ≤ maxSeenIds)
    {message : Option (String × TokenEntry D)} (hmessage : ∀ id ∈ message.map Prod.fst, id ∈ all) :
    Knows all today (reading.bill today message) ∧
      ∀ id, id ∈ (reading.bill today message).seen ↔ id ∈ reading.seen ∨ id ∈ message.map Prod.fst := by
  rcases message with _ | ⟨id, entry⟩
  · exact ⟨h, by simp [Reading.bill]⟩
  · have hid : id ∈ all := hmessage id rfl
    unfold Reading.bill
    dsimp only
    by_cases hseen : id ∈ reading.seen
    · rw [if_pos hseen]
      refine ⟨h, fun other => ⟨.inl, ?_⟩⟩
      rintro (hother | hother)
      · exact hother
      · obtain rfl : id = other := by simpa using hother
        exact hseen
    · have hroom := h.room hall hid hseen
      rw [if_neg hseen, if_pos h.seenDay, if_neg (not_le.2 hroom)]
      refine ⟨⟨h.seenDay, fun other => ?_, ?_, ?_⟩, fun other => ?_⟩
      · simp [h.mem other, or_comm]
      · refine List.nodup_append.2 ⟨h.nodup, List.nodup_singleton id, ?_⟩
        intro other hother other' hother' heq
        rw [List.mem_singleton.1 hother'] at heq
        exact hseen ((h.mem id).2 (heq ▸ hother))
      · exact List.append_subset.2 ⟨h.subset, by simpa using hid⟩
      · simp [or_comm, eq_comm]

theorem bill_billed (host : Host D) (today : D) (reading : Reading D) (line : List UInt8)
    (lines : List (List UInt8)) :
    (reading.bill today (host.message line)).entries ++
        (host.billed (reading.bill today (host.message line)).seen lines).map Prod.snd =
      reading.entries ++ (host.billed reading.seen (line :: lines)).map Prod.snd := by
  conv_rhs => unfold Host.billed
  rcases host.message line with _ | ⟨id, entry⟩
  · rfl
  · unfold Reading.bill
    dsimp only
    by_cases hseen : id ∈ reading.seen
    · rw [if_pos hseen, if_pos hseen]
    · rw [if_neg hseen, if_neg hseen]
      dsimp only
      by_cases hpositive : entry.input > 0 ∨ entry.output > 0
      · rw [if_pos hpositive, if_pos hpositive, List.map_cons, List.append_assoc]
        rfl
      · rw [if_neg hpositive, if_neg hpositive]

/-- What a pass does with the lines that it handles. -/
theorem Knows.foldl (h : Knows all today reading) (hall : all.dedup.length ≤ maxSeenIds)
    {lines : List (List UInt8)} (hlines : host.ids lines ⊆ all) :
    let read := lines.foldl (host.handle .claude today) reading
    Knows all today read ∧ (∀ id, id ∈ read.seen ↔ id ∈ reading.seen ∨ id ∈ host.ids lines) ∧
      read.entries = reading.entries ++ (host.billed reading.seen lines).map Prod.snd := by
  induction lines generalizing reading with
  | nil => exact ⟨h, by simp [Host.ids], by simp [Host.billed]⟩
  | cons line lines ih =>
    rw [ids_cons, List.append_subset] at hlines
    obtain ⟨turns, handled, hline⟩ := handle_claude host today reading line
    obtain ⟨hknows, hseen⟩ := h.bill hall fun id hid => hlines.1 (by simpa using hid)
    have hknows' : Knows all today (host.handle .claude today reading line) := by
      rw [hline]
      exact ⟨hknows.seenDay, hknows.mem, hknows.nodup, hknows.subset⟩
    obtain ⟨hlast, hmem, hentries⟩ := ih hknows' hlines.2
    rw [hline] at hmem hentries
    refine ⟨hlast, fun id => ?_, ?_⟩
    · rw [List.foldl_cons, hline, hmem id, ids_cons, List.mem_append, Option.mem_toList, ← or_assoc]
      exact or_congr_left (hseen id)
    · rw [List.foldl_cons, hline, hentries]
      exact bill_billed host today reading line lines

omit [DecidableEq D] in
theorem skipLine_seen (chunk : List UInt8) (reading : Reading D) :
    (skipLine chunk reading).1 ≤ chunk.length ∧
      (skipLine chunk reading).2.seen = reading.seen ∧
      (skipLine chunk reading).2.cursor.seen = reading.cursor.seen ∧
      (skipLine chunk reading).2.cursor.seenDay = reading.cursor.seenDay := by
  unfold skipLine
  split_ifs
  · split
    · next hstop => exact ⟨(List.findIdx?_eq_some_iff_getElem.1 hstop).1, rfl, rfl, rfl⟩
    · exact ⟨le_rfl, rfl, rfl, rfl⟩
  · exact ⟨Nat.zero_le _, rfl, rfl, rfl⟩

/-- A pass is a fold over the lines that it handles. -/
theorem readTokens_foldl (host : Host D) (path : String) (file : List UInt8) (kind : TranscriptKind)
    (start : TokenCursor D) (nowMs : ℕ) :
    ∃ reading : Reading D, reading.entries = [] ∧ reading.seen = reading.cursor.seen ∧
      reading.cursor.seen = (start.onDay (host.day nowMs)).seen ∧
      reading.cursor.seenDay = some (host.day nowMs) ∧
      let pass := host.readTokens path file kind start nowMs
      let read := pass.2.foldl (host.handle kind (host.day nowMs)) reading
      pass.1.entries = read.entries ∧ pass.1.cursor.seen = read.cursor.seen ∧
        pass.1.cursor.seenDay = read.cursor.seenDay ∧ pass.1.cursor.touchedMs = nowMs := by
  have hreset : ((if file.length < start.offset then { start with offset := 0, skipping := false }
      else start).onDay (host.day nowMs)).seen = (start.onDay (host.day nowMs)).seen := by
    unfold TokenCursor.onDay
    split_ifs <;> rfl
  have hday (cursor : TokenCursor D) :
      (cursor.onDay (host.day nowMs)).seenDay = some (host.day nowMs) := by
    unfold TokenCursor.onDay
    split_ifs with hsame
    · rfl
    · exact not_not.1 hsame
  unfold Host.readTokens
  generalize (if file.length < start.offset then { start with offset := 0, skipping := false }
      else start) = begun at *
  have hbegun := hday begun
  rw [← hreset]
  dsimp only
  generalize begun.onDay (host.day nowMs) = cursor at *
  generalize (file.drop begun.offset).take maxPassBytes = chunk
  obtain ⟨-, hentries, hlines⟩ := skipLine_eq chunk (⟨cursor, cursor.seen, [], [], []⟩ : Reading D)
  obtain ⟨hpos, hseen, hheld, hseenDay⟩ :=
    skipLine_seen chunk (⟨cursor, cursor.seen, [], [], []⟩ : Reading D)
  generalize skipLine chunk ⟨cursor, cursor.seen, [], [], []⟩ = first at *
  rw [readLines_eq (Nat.sub_le _ _) hpos]
  have hfold (lines : List (List UInt8)) :
      Handled first.2 (lines.foldl (host.handle kind (host.day nowMs)) first.2) lines := foldl_handled lines
  have hhandled := (hfold (short (splitLines newline (chunk.drop first.1)).1)).lines
  rw [hlines, List.nil_append] at hhandled
  refine ⟨first.2, hentries, hseen.trans hheld.symm, hheld, hseenDay.trans hbegun, ?_⟩
  unfold Host.readText
  dsimp only
  split_ifs
  · dsimp only
    rw [hhandled]
    exact ⟨rfl, rfl, rfl, rfl⟩
  · dsimp only
    rw [hhandled]
    exact ⟨rfl, rfl, rfl, rfl⟩

/-- A pass books the messages of its lines that were not seen on its day, and they are seen then. -/
theorem readTokens_billed (host : Host D) (path : String) (file : List UInt8) {start : TokenCursor D}
    (nowMs : ℕ) (hall : all.dedup.length ≤ maxSeenIds) (hnodup : start.seen.Nodup)
    (hsubset : start.seen ⊆ all)
    (hlines : host.ids (host.readTokens path file .claude start nowMs).2 ⊆ all) :
    let pass := host.readTokens path file .claude start nowMs
    let held := (start.onDay (host.day nowMs)).seen
    pass.1.entries = (host.billed held pass.2).map Prod.snd ∧ pass.1.cursor.seen.Nodup ∧
      pass.1.cursor.seen ⊆ all ∧ ∀ id, id ∈ pass.1.cursor.seen ↔ id ∈ held ∨ id ∈ host.ids pass.2 := by
  intro pass held
  have hheld : held.Nodup ∧ held ⊆ all := by
    unfold held TokenCursor.onDay
    split_ifs
    · exact ⟨List.nodup_nil, List.nil_subset _⟩
    · exact ⟨hnodup, hsubset⟩
  obtain ⟨reading, hempty, hseen, hcursor, hday, hentries, hcursor', -, -⟩ :=
    readTokens_foldl host path file .claude start nowMs
  have hknows : Knows all (host.day nowMs) reading := by
    refine ⟨hday, fun id => by rw [hseen], ?_, ?_⟩
    · rw [hcursor]
      exact hheld.1
    · rw [hcursor]
      exact hheld.2
  obtain ⟨hlast, hmem, hbilled⟩ := hknows.foldl hall hlines
  have hfirst : reading.seen = held := hseen.trans hcursor
  rw [hempty, List.nil_append, hfirst] at hbilled
  refine ⟨hentries.trans hbilled, ?_, ?_, fun id => ?_⟩
  · rw [hcursor']
    exact hlast.nodup
  · rw [hcursor']
    exact hlast.subset
  · rw [hcursor', ← hlast.mem id, hmem id, hfirst]

theorem handle_seenDay (host : Host D) (kind : TranscriptKind) (today : D) (reading : Reading D)
    (line : List UInt8) :
    (host.handle kind today reading line).cursor.seenDay = reading.cursor.seenDay := by
  cases kind with
  | claude =>
    obtain ⟨turns, lines, hline⟩ := handle_claude host today reading line
    rw [hline]
    rcases host.message line with _ | message
    · rfl
    · unfold Reading.bill
      dsimp only
      split_ifs <;> rfl
  | codex =>
    unfold Host.handle
    dsimp only
    split
    · rfl
    · next value _ =>
      obtain ⟨turns, hturns⟩ := noteTurn_turns host .codex value
        { reading with lines := reading.lines ++ [line] }
      rw [hturns]
      unfold Host.noteEntry Host.entry Host.codexEntry
      cases host.codexUsage value with
      | none => rfl
      | some usage =>
        dsimp only
        split_ifs <;> rfl

theorem readTokens_seenDay (host : Host D) (path : String) (file : List UInt8) (kind : TranscriptKind)
    (start : TokenCursor D) (nowMs : ℕ) :
    (host.readTokens path file kind start nowMs).1.cursor.seenDay = some (host.day nowMs) ∧
      (host.readTokens path file kind start nowMs).1.cursor.touchedMs = nowMs := by
  obtain ⟨reading, -, -, -, hday, -, -, hseenDay, htouched⟩ :=
    readTokens_foldl host path file kind start nowMs
  refine ⟨hseenDay.trans ?_, htouched⟩
  generalize (host.readTokens path file kind start nowMs).2 = lines
  clear hseenDay htouched
  induction lines generalizing reading with
  | nil => exact hday
  | cons line lines ih => exact ih _ ((handle_seenDay host kind _ reading line).trans hday)

end

/-! ### Visits -/

section
variable {S A D : Type} [LinearOrder S] [LinearOrder A] [LinearOrder D] {host : Host D}
  {book : TurnBook S A D} {path : String}

/-- A transcript is read: whose it is, what it holds then, and when. -/
structure Visit (A : Type) where
  account : A
  path : String
  kind : TranscriptKind
  file : List UInt8
  nowMs : ℕ
  deriving DecidableEq, Repr

/-- The pass of a visit, from the cursor that the book has, with the lines that it handles. -/
def Host.passOf (host : Host D) (book : TurnBook S A D) (visit : Visit A) :
    TokenPass D × List (List UInt8) :=
  host.readTokens visit.path visit.file visit.kind (book.tokenCursor visit.path) visit.nowMs

def Host.visit (host : Host D) (book : TurnBook S A D) (visit : Visit A) : TurnBook S A D :=
  (book.recordTokens visit.account (host.passOf book visit).1).2

/-- The visits, each with the book that it finds. -/
def Host.visits (host : Host D) : TurnBook S A D → List (Visit A) → List (TurnBook S A D × Visit A)
  | _, [] => []
  | book, visit :: visits => (book, visit) :: host.visits (host.visit book visit) visits

/-- The messages that a visit books: those of its lines that the cursor does not hold for the day. -/
def Host.bills (host : Host D) (book : TurnBook S A D) (visit : Visit A) :
    List (String × TokenEntry D) :=
  host.billed ((book.tokenCursor visit.path).onDay (host.day visit.nowMs)).seen
    (host.passOf book visit).2

/-- The visit does not push the cursor of the transcript out of the book: there is room for all of them, or
there is one that is older. -/
def Stays (path : String) (book : TurnBook S A D) (visit : Visit A) : Prop :=
  let cursors := book.cursors.insert visit.path { TokenCursor.default with touchedMs := visit.nowMs }
  cursors.entries.length ≤ maxCursors ∨ TurnBook.oldestCursor cursors ≠ some path

/-! ### The cursor that stays -/

/-- The times at which the cursors were touched. -/
def touched (cursors : OrdMap String (TokenCursor D)) : List (String × ℕ) :=
  cursors.entries.map fun entry => (entry.1, entry.2.touchedMs)

omit [LinearOrder D] in
theorem touched_insert {cursors cursors' : OrdMap String (TokenCursor D)}
    (h : touched cursors = touched cursors') (key : String) {cursor cursor' : TokenCursor D}
    (htouched : cursor.touchedMs = cursor'.touchedMs) :
    touched (cursors.insert key cursor) = touched (cursors'.insert key cursor') := by
  have hinsert (entries : List (String × TokenCursor D)) (cursor : TokenCursor D) :
      (OrdMap.insertEntry key cursor entries).map (fun entry => (entry.1, entry.2.touchedMs)) =
        OrdMap.insertEntry key cursor.touchedMs
          (entries.map fun entry => (entry.1, entry.2.touchedMs)) := by
    induction entries with
    | nil => rfl
    | cons entry entries ih =>
      simp only [OrdMap.insertEntry, List.map_cons]
      split_ifs
      · rfl
      · rfl
      · rw [List.map_cons, ih]
  unfold touched OrdMap.insert at *
  rw [hinsert, hinsert, h, htouched]

/-- The older one of the cursor found so far and the next one. -/
def older (oldest : Option (String × ℕ)) (path : String) (touched : ℕ) : Option (String × ℕ) :=
  oldest.elim (some (path, touched)) fun last => if touched < last.2 then some (path, touched) else some last

omit [LinearOrder D] in
theorem oldestCursor_eq (cursors : OrdMap String (TokenCursor D)) :
    TurnBook.oldestCursor cursors =
      (cursors.entries.foldl (fun oldest entry => older oldest entry.1 entry.2.touchedMs) none).map Prod.fst := by
  unfold TurnBook.oldestCursor
  refine congrArg (Option.map Prod.fst) (congrArg (fun step => List.foldl step none cursors.entries) ?_)
  funext oldest entry
  cases oldest <;> rfl

omit [LinearOrder D] in
/-- Which cursor is the oldest is a matter of these times. -/
theorem oldestCursor_congr {cursors cursors' : OrdMap String (TokenCursor D)}
    (h : touched cursors = touched cursors') :
    TurnBook.oldestCursor cursors = TurnBook.oldestCursor cursors' := by
  have hfold (cursors : OrdMap String (TokenCursor D)) :
      TurnBook.oldestCursor cursors =
        ((touched cursors).foldl (fun oldest entry => older oldest entry.1 entry.2) none).map Prod.fst := by
    rw [oldestCursor_eq]
    unfold touched
    refine Eq.trans ?_ (congrArg (Option.map Prod.fst) List.foldl_map.symm)
    rfl
  rw [hfold, hfold, h]

omit [LinearOrder D] in
/-- The oldest cursor is one of them. -/
theorem oldestCursor_mem {cursors : OrdMap String (TokenCursor D)} (h : cursors.entries ≠ []) :
    ∃ oldest ∈ cursors.entries.map Prod.fst, TurnBook.oldestCursor cursors = some oldest := by
  have hfold (entries : List (String × TokenCursor D)) (first : String × ℕ) :
      ∃ oldest ∈ first.1 :: entries.map Prod.fst,
        (entries.foldl (fun oldest entry => older oldest entry.1 entry.2.touchedMs) (some first)).map Prod.fst =
          some oldest := by
    induction entries generalizing first with
    | nil => exact ⟨first.1, List.mem_cons_self, rfl⟩
    | cons entry entries ih =>
      have hstep : older (some first) entry.1 entry.2.touchedMs =
          if entry.2.touchedMs < first.2 then some (entry.1, entry.2.touchedMs) else some first := rfl
      rw [List.foldl_cons, List.map_cons, hstep]
      split_ifs
      · obtain ⟨oldest, hmem, heq⟩ := ih (entry.1, entry.2.touchedMs)
        exact ⟨oldest, List.mem_cons_of_mem _ hmem, heq⟩
      · obtain ⟨oldest, hmem, heq⟩ := ih first
        refine ⟨oldest, ?_, heq⟩
        rcases List.mem_cons.1 hmem with rfl | hmem
        · exact List.mem_cons_self
        · exact List.mem_cons_of_mem _ (List.mem_cons_of_mem _ hmem)
  rw [oldestCursor_eq]
  rcases hentries : cursors.entries with _ | ⟨entry, entries⟩
  · exact absurd hentries h
  · exact hfold entries (entry.1, entry.2.touchedMs)

theorem length_insertEntry {K V : Type} [LinearOrder K] (key : K) (value : V) (entries : List (K × V)) :
    (OrdMap.insertEntry key value entries).length ≤ entries.length + 1 := by
  induction entries with
  | nil => exact le_rfl
  | cons entry entries ih =>
    unfold OrdMap.insertEntry
    split_ifs <;> simp only [List.length_cons] <;> omega

omit [LinearOrder D] in
/-- When there is a cursor too many, the oldest one is dropped. -/
theorem dropCursors_spec {cursors : OrdMap String (TokenCursor D)}
    (hlength : cursors.entries.length ≤ maxCursors + 1)
    (hstays : cursors.entries.length ≤ maxCursors ∨ TurnBook.oldestCursor cursors ≠ some path) :
    (TurnBook.dropCursors cursors.entries.length cursors).entries.length ≤ maxCursors ∧
      (TurnBook.dropCursors cursors.entries.length cursors).get? path = cursors.get? path := by
  by_cases hroom : cursors.entries.length ≤ maxCursors
  · rw [dropCursors_of_le hroom]
    exact ⟨hroom, rfl⟩
  · have hfull : cursors.entries.length = maxCursors + 1 := by omega
    have hnonempty : cursors.entries ≠ [] := by
      intro hempty
      rw [hempty] at hfull
      exact absurd hfull (Nat.succ_ne_zero _).symm
    obtain ⟨oldest, hmem, holdest⟩ := oldestCursor_mem hnonempty
    have herased : (cursors.erase oldest).entries.length ≤ maxCursors := by
      have hlt : (cursors.erase oldest).entries.length < cursors.entries.length := by
        refine List.length_filter_lt_length_iff_exists.2 ?_
        obtain ⟨entry, hentry, hkey⟩ := List.mem_map.1 hmem
        exact ⟨entry, hentry, by simpa using hkey⟩
      omega
    rw [hfull]
    unfold TurnBook.dropCursors
    rw [if_pos (not_le.1 hroom), holdest]
    dsimp only
    rw [dropCursors_of_le herased]
    refine ⟨herased, ?_⟩
    rw [OrdMap.get?_erase, if_neg]
    rintro rfl
    exact hstays.elim hroom fun hne => hne holdest

/-- What a visit does to the cursors: its own is saved, and one of another day loses what was seen. -/
theorem visit_cursors (host : Host D) {visit : Visit A} (hlength : book.cursors.entries.length ≤ maxCursors)
    (hstays : Stays path book visit) :
    (host.visit book visit).cursors.entries.length ≤ maxCursors ∧
      (visit.path = path →
        (host.visit book visit).cursors.get? path = some (host.passOf book visit).1.cursor) ∧
      (visit.path ≠ path → (host.visit book visit).cursors.get? path = book.cursors.get? path ∨
        (host.visit book visit).cursors.get? path = (book.cursors.get? path).map fun cursor =>
          if cursor.seenDay ≠ some (host.day visit.nowMs) then { cursor with seen := [] } else cursor) := by
  unfold Host.visit
  have hpath : (host.passOf book visit).1.path = visit.path := rfl
  have hstart : book.tokenCursor (host.passOf book visit).1.path = (host.passOf book visit).1.start := rfl
  obtain ⟨hseenDay, htouched⟩ : (host.passOf book visit).1.cursor.seenDay = some (host.day visit.nowMs) ∧
      (host.passOf book visit).1.cursor.touchedMs = visit.nowMs := readTokens_seenDay ..
  generalize (host.passOf book visit).1 = pass at *
  have hcursors := (bookEntries_rebooked book visit.account pass.entries).cursors
  rw [recordTokens_eq hstart]
  generalize pass.entries.foldl (bookEntry visit.account) book = book' at *
  dsimp only
  by_cases hsame : pass.cursor = pass.start
  · rw [if_pos hsame, hcursors]
    refine ⟨hlength, fun howner => ?_, fun _ => .inl rfl⟩
    rw [hpath, howner] at hstart
    unfold TurnBook.tokenCursor at hstart
    rcases hheld : book.cursors.get? path with _ | cursor
    · rw [hheld] at hstart
      rw [hsame, ← hstart] at hseenDay
      cases hseenDay
    · rw [hheld] at hstart
      rw [hsame, ← hstart]
      rfl
  · rw [if_neg hsame]
    dsimp only
    rw [hcursors, hpath, hseenDay]
    generalize hnext : (book.cursors.insert visit.path pass.cursor).mapValues
      (fun cursor => if cursor.seenDay ≠ some (host.day visit.nowMs) then { cursor with seen := [] }
        else cursor) = next
    have hsameTouched : touched next = touched
        (book.cursors.insert visit.path { TokenCursor.default with touchedMs := visit.nowMs }) := by
      have hmap : touched next = touched (book.cursors.insert visit.path pass.cursor) := by
        rw [← hnext]
        unfold touched OrdMap.mapValues
        rw [List.map_map]
        refine List.map_congr_left fun entry _ => ?_
        dsimp only [Function.comp]
        split_ifs <;> rfl
      exact hmap.trans (touched_insert rfl _ htouched)
    have hsameLength := congrArg List.length hsameTouched
    unfold touched at hsameLength
    rw [List.length_map, List.length_map] at hsameLength
    have hroom : next.entries.length ≤ maxCursors + 1 := by
      rw [hsameLength]
      exact (length_insertEntry _ _ _).trans (Nat.succ_le_succ hlength)
    have hstays' : next.entries.length ≤ maxCursors ∨ TurnBook.oldestCursor next ≠ some path := by
      rw [hsameLength, oldestCursor_congr hsameTouched]
      exact hstays
    obtain ⟨hlength', hget⟩ := dropCursors_spec hroom hstays'
    refine ⟨hlength', fun howner => ?_, fun hother => .inr ?_⟩
    · rw [hget, ← hnext]
      simp [howner, hseenDay]
    · rw [hget, ← hnext, OrdMap.get?_mapValues, OrdMap.get?_insert, if_neg (Ne.symm hother)]

/-! ### All visits -/

/-- The passes over the transcript: the day and the lines of each. -/
def Host.passesOn (host : Host D) (path : String) (book : TurnBook S A D) (visits : List (Visit A)) :
    List (D × List (List UInt8)) :=
  ((host.visits book visits).filter fun step => step.2.path = path).map fun step =>
    (host.day step.2.nowMs, (host.passOf step.1 step.2).2)

/-- The ids of the messages that are booked for the transcript. -/
def Host.billsOn (host : Host D) (path : String) (book : TurnBook S A D) (visits : List (Visit A)) :
    List String :=
  ((host.visits book visits).filter fun step => step.2.path = path).flatMap fun step =>
    (host.bills step.1 step.2).map Prod.fst

/-- No message with tokens has lines in passes of two days. -/
def OfOneDay (host : Host D) (passes : List (D × List (List UInt8))) : Prop :=
  ∀ pass ∈ passes, ∀ other ∈ passes, pass.1 ≠ other.1 →
    ∀ id ∈ host.spends pass.2, id ∉ host.spends other.2

/-- What the cursor of the transcript remembers of the passes over it, when the last visit was at `last`:
while its day goes on, it holds the messages of the passes of the day. -/
structure Remembers (host : Host D) (path : String) (all : List String) (book : TurnBook S A D)
    (file : List UInt8) (passes : List (D × List (List UInt8))) (last : ℕ) : Prop where
  length : book.cursors.entries.length ≤ maxCursors
  caught : Caught file (book.tokenCursor path) (passes.flatMap Prod.snd)
  nodup : (book.tokenCursor path).seen.Nodup
  subset : (book.tokenCursor path).seen ⊆ all
  day : ∀ pass ∈ passes, ∃ day, (book.tokenCursor path).seenDay = some day ∧ pass.1 ≤ day ∧
    day ≤ host.day last
  held : ∀ pass ∈ passes, (book.tokenCursor path).seenDay = some pass.1 → host.day last ≤ pass.1 →
    host.ids pass.2 ⊆ (book.tokenCursor path).seen

variable {all : List String} {file : List UInt8} {passes : List (D × List (List UInt8))} {last : ℕ}
  {visit : Visit A}

/-- A visit to another transcript. -/
theorem Remembers.other (h : Remembers host path all book file passes last)
    (hday : Monotone host.day) (hlast : last ≤ visit.nowMs) (hother : visit.path ≠ path)
    (hstays : Stays path book visit) :
    Remembers host path all (host.visit book visit) file passes visit.nowMs := by
  obtain ⟨hlength, -, hcursor⟩ := visit_cursors host h.length hstays
  have hlater : host.day last ≤ host.day visit.nowMs := hday hlast
  have hsaved : (host.visit book visit).tokenCursor path = book.tokenCursor path ∨
      (book.tokenCursor path).seenDay ≠ some (host.day visit.nowMs) ∧
        (host.visit book visit).tokenCursor path = { book.tokenCursor path with seen := [] } := by
    unfold TurnBook.tokenCursor
    rcases hcursor hother with hsame | hsame
    · rw [hsame]
      exact .inl rfl
    · rw [hsame]
      rcases book.cursors.get? path with _ | cursor
      · exact .inl rfl
      · by_cases hseenDay : cursor.seenDay = some (host.day visit.nowMs)
        · left
          simp [hseenDay]
        · right
          refine ⟨hseenDay, ?_⟩
          simp [hseenDay]
  have hdays : ∀ pass ∈ passes, ∃ day, (book.tokenCursor path).seenDay = some day ∧ pass.1 ≤ day ∧
      day ≤ host.day visit.nowMs := by
    intro pass hpass
    obtain ⟨day, hseenDay, hle, hbefore⟩ := h.day pass hpass
    exact ⟨day, hseenDay, hle, hbefore.trans hlater⟩
  rcases hsaved with hsame | ⟨hold, hsame⟩
  · refine ⟨hlength, ?_, ?_, ?_, ?_, ?_⟩ <;> rw [hsame]
    · exact h.caught
    · exact h.nodup
    · exact h.subset
    · exact hdays
    · exact fun pass hpass hseenDay hle => h.held pass hpass hseenDay (hlater.trans hle)
  · refine ⟨hlength, ?_, ?_, ?_, ?_, ?_⟩ <;> rw [hsame]
    · exact ⟨h.caught.offset, h.caught.lines, h.caught.left⟩
    · exact List.nodup_nil
    · exact List.nil_subset _
    · exact hdays
    · -- the day is over, so that nothing of it has to be held
      intro pass hpass hseenDay hle
      obtain ⟨day, hday', hpassed, hbefore⟩ := hdays pass hpass
      obtain rfl : pass.1 = day := Option.some.inj (hseenDay.symm.trans hday')
      exact absurd (hseenDay.trans (congrArg some (le_antisymm hbefore hle))) hold

/-- A visit to the transcript: it books no message of a pass of the day. -/
theorem Remembers.own (h : Remembers host path all book file passes last)
    (hday : Monotone host.day) (hlast : last ≤ visit.nowMs) (hown : visit.path = path)
    (hstays : Stays path book visit) (hkind : visit.kind = .claude) (hgrow : file <+: visit.file)
    (hall : all.dedup.length ≤ maxSeenIds) (hids : host.ids (splitLines newline visit.file).1 ⊆ all) :
    Remembers host path all (host.visit book visit) visit.file
        (passes ++ [(host.day visit.nowMs, (host.passOf book visit).2)]) visit.nowMs ∧
      (host.passOf book visit).1.entries = (host.bills book visit).map Prod.snd ∧
      ∀ pass ∈ passes, pass.1 = host.day visit.nowMs →
        ∀ id ∈ (host.bills book visit).map Prod.fst, id ∉ host.ids pass.2 := by
  subst hown
  obtain ⟨hlength, hcursor, -⟩ := visit_cursors host h.length hstays
  have hsaved : (host.visit book visit).tokenCursor visit.path = (host.passOf book visit).1.cursor := by
    unfold TurnBook.tokenCursor
    rw [hcursor rfl]
    rfl
  have hcaught := (((h.caught.grow hgrow).pass host visit.path visit.kind visit.nowMs)).1
  have hlines : host.ids (host.passOf book visit).2 ⊆ all := by
    intro id hid
    obtain ⟨line, hline, hmessage⟩ := List.mem_filterMap.1 hid
    have hmem := hcaught.prefix_lines.subset (List.mem_append_right _ hline)
    exact hids (List.mem_filterMap.2 ⟨line, (List.mem_filter.1 hmem).1, hmessage⟩)
  have hpass : host.passOf book visit = host.readTokens visit.path visit.file .claude
      (book.tokenCursor visit.path) visit.nowMs := by
    unfold Host.passOf
    rw [hkind]
  have hlater : host.day last ≤ host.day visit.nowMs := hday hlast
  have hheld : ∀ pass ∈ passes, pass.1 = host.day visit.nowMs →
      host.ids pass.2 ⊆ ((book.tokenCursor visit.path).onDay (host.day visit.nowMs)).seen := by
    intro pass hmem hsame
    obtain ⟨day, hseenDay, hle, hbefore⟩ := h.day pass hmem
    have hdays : day = pass.1 := le_antisymm (hbefore.trans (hlater.trans hsame.ge)) hle
    have hseen := h.held pass hmem (hdays ▸ hseenDay) (hsame ▸ hlater)
    unfold TokenCursor.onDay
    rwa [if_neg]
    rw [hseenDay, hdays, hsame]
    exact not_not.2 rfl
  rw [hpass] at hlines
  obtain ⟨hentries, hnodup, hsubset, hmem⟩ :=
    readTokens_billed host visit.path visit.file visit.nowMs hall h.nodup h.subset hlines
  rw [← hpass] at hentries hnodup hsubset hmem
  have hseenDay : (host.passOf book visit).1.cursor.seenDay = some (host.day visit.nowMs) :=
    (readTokens_seenDay ..).1
  refine ⟨⟨hlength, ?_, ?_, ?_, ?_, ?_⟩, hentries, fun pass hpass hsame id hid hold => ?_⟩
  · rw [hsaved, List.flatMap_append, List.flatMap_singleton]
    exact hcaught
  · rw [hsaved]
    exact hnodup
  · rw [hsaved]
    exact hsubset
  · rw [hsaved, hseenDay]
    intro pass hpass
    refine ⟨_, rfl, ?_, le_rfl⟩
    rcases List.mem_append.1 hpass with hpass | hpass
    · obtain ⟨day, -, hle, hbefore⟩ := h.day pass hpass
      exact hle.trans (hbefore.trans hlater)
    · rw [List.mem_singleton.1 hpass]
  · rw [hsaved, hseenDay]
    intro pass hpass hsame _ id hid
    rcases List.mem_append.1 hpass with hpass | hpass
    · exact (hmem id).2 (.inl (hheld pass hpass (Option.some.inj hsame).symm hid))
    · rw [List.mem_singleton.1 hpass] at hid
      exact (hmem id).2 (.inr hid)
  · exact ((billed_spec host _ _).2 id hid).1 (hheld pass hpass hsame hold)

/-- The contents of the transcript at the visits to it. -/
def filesOn (path : String) (visits : List (Visit A)) : List (List UInt8) :=
  (visits.filter fun visit => visit.path = path).map Visit.file

/-- What a run of visits books for the transcript when the cursor remembers the passes before. -/
theorem Remembers.run {visits : List (Visit A)} (h : Remembers host path all book file passes last)
    (hday : Monotone host.day) (htimes : (last :: visits.map Visit.nowMs).IsChain (· ≤ ·))
    (hkind : ∀ visit ∈ visits, visit.path = path → visit.kind = .claude)
    (hgrow : (file :: filesOn path visits).IsChain (· <+: ·)) (hall : all.dedup.length ≤ maxSeenIds)
    (hids : ∀ content ∈ filesOn path visits, host.ids (splitLines newline content).1 ⊆ all)
    (hstays : ∀ step ∈ host.visits book visits, Stays path step.1 step.2)
    (hdays : OfOneDay host (passes ++ host.passesOn path book visits)) :
    (∀ step ∈ host.visits book visits, step.2.path = path →
      (host.passOf step.1 step.2).1.entries = (host.bills step.1 step.2).map Prod.snd) ∧
    (host.billsOn path book visits).Nodup ∧
    ∀ pass ∈ passes, ∀ id ∈ host.billsOn path book visits, id ∉ host.spends pass.2 := by
  induction visits generalizing book file passes last with
  | nil => exact ⟨fun _ hstep => absurd hstep List.not_mem_nil, List.nodup_nil, by simp [Host.billsOn, Host.visits]⟩
  | cons visit visits ih =>
    rw [List.map_cons, List.isChain_cons_cons] at htimes
    obtain ⟨hlast, htimes⟩ := htimes
    obtain ⟨hkindFirst, hkind⟩ := List.forall_mem_cons.1 hkind
    obtain ⟨hstaysFirst, hstays⟩ := List.forall_mem_cons.1 hstays
    by_cases hown : visit.path = path
    · have hfiles : filesOn path (visit :: visits) = visit.file :: filesOn path visits := by
        simp [filesOn, hown]
      have hpasses : host.passesOn path book (visit :: visits) =
          (host.day visit.nowMs, (host.passOf book visit).2) ::
            host.passesOn path (host.visit book visit) visits := by
        simp [Host.passesOn, Host.visits, hown]
      have hbills : host.billsOn path book (visit :: visits) =
          (host.bills book visit).map Prod.fst ++ host.billsOn path (host.visit book visit) visits := by
        simp [Host.billsOn, Host.visits, hown]
      rw [hfiles] at hgrow hids
      rw [List.isChain_cons_cons] at hgrow
      obtain ⟨hidsFirst, hids⟩ := List.forall_mem_cons.1 hids
      obtain ⟨hnext, hentries, hfresh⟩ := h.own hday hlast hown hstaysFirst (hkindFirst hown) hgrow.1 hall
        hidsFirst
      rw [hpasses, List.append_cons] at hdays
      obtain ⟨hrest, hnodup, hlater⟩ := ih hnext htimes hkind hgrow.2 hids hstays hdays
      obtain ⟨hfirst, hspends⟩ := billed_spec host
        ((book.tokenCursor visit.path).onDay (host.day visit.nowMs)).seen (host.passOf book visit).2
      refine ⟨List.forall_mem_cons.2 ⟨fun _ => hentries, hrest⟩, ?_, fun pass hpass id hid => ?_⟩
      · rw [hbills]
        refine List.nodup_append.2 ⟨hfirst, hnodup, ?_⟩
        rintro id hid _ hid' rfl
        exact hlater _ (List.mem_append_right _ List.mem_cons_self) id hid' (hspends id hid).2
      · rw [hbills] at hid
        rcases List.mem_append.1 hid with hid | hid
        · by_cases hsame : pass.1 = host.day visit.nowMs
          · exact fun hold => hfresh pass hpass hsame id hid (spends_subset _ hold)
          · exact fun hold => hdays pass (List.mem_append_left _ (List.mem_append_left _ hpass))
              (host.day visit.nowMs, (host.passOf book visit).2)
              (List.mem_append_left _ (List.mem_append_right _ List.mem_cons_self)) hsame id hold
              (hspends id hid).2
        · exact hlater pass (List.mem_append_left _ hpass) id hid
    · have hfiles : filesOn path (visit :: visits) = filesOn path visits := by simp [filesOn, hown]
      have hpasses : host.passesOn path book (visit :: visits) =
          host.passesOn path (host.visit book visit) visits := by
        simp [Host.passesOn, Host.visits, hown]
      have hbills : host.billsOn path book (visit :: visits) =
          host.billsOn path (host.visit book visit) visits := by
        simp [Host.billsOn, Host.visits, hown]
      rw [hfiles] at hgrow hids
      rw [hpasses] at hdays
      rw [hbills]
      obtain ⟨hrest, hbooked⟩ := ih (h.other hday hlast hown hstaysFirst) htimes hkind hgrow hids hstays hdays
      exact ⟨List.forall_mem_cons.2 ⟨fun hpath => absurd hpath hown, hrest⟩, hbooked⟩

omit [LinearOrder A] [LinearOrder D] in
/-- The last of files that grow has the lines of all of them. -/
theorem ids_subset_last {files : List (List UInt8)} (h : files.IsChain (· <+: ·)) :
    ∀ content ∈ files, host.ids (splitLines newline content).1 ⊆
      host.ids (splitLines newline (files.getLastD [])).1 := by
  rcases List.eq_nil_or_concat files with rfl | ⟨earlier, final, rfl⟩
  · exact List.forall_mem_nil _
  · rw [List.concat_eq_append] at *
    have hlast : (earlier ++ [final]).getLastD [] = final := by simp
    rw [hlast]
    intro content hcontent
    have hprefix : content <+: final := by
      rcases List.mem_append.1 hcontent with hmem | hmem
      · exact (List.pairwise_append.1 (List.isChain_iff_pairwise.1 h)).2.2 content hmem final
          List.mem_cons_self
      · rw [List.mem_singleton.1 hmem]
    obtain ⟨more, rfl⟩ := hprefix
    rw [splitLines_append, ids_append]
    exact List.subset_append_left _ _

/-- **No message of a transcript is booked twice** when it is only appended to, has no more messages than
the cursor holds, and none of them has lines in passes of two days, while its cursor stays in the book. -/
theorem visits_booked_once (host : Host D) (path : String) {book : TurnBook S A D}
    {visits : List (Visit A)} (hnew : book.cursors.get? path = none)
    (hroom : book.cursors.entries.length ≤ maxCursors) (hday : Monotone host.day)
    (htimes : (visits.map Visit.nowMs).IsChain (· ≤ ·))
    (hkind : ∀ visit ∈ visits, visit.path = path → visit.kind = .claude)
    (hgrow : (filesOn path visits).IsChain (· <+: ·))
    (hids : (host.ids (splitLines newline ((filesOn path visits).getLastD [])).1).dedup.length ≤ maxSeenIds)
    (hstays : ∀ step ∈ host.visits book visits, Stays path step.1 step.2)
    (hdays : OfOneDay host (host.passesOn path book visits)) :
    (∀ step ∈ host.visits book visits, step.2.path = path →
      (host.passOf step.1 step.2).1.entries = (host.bills step.1 step.2).map Prod.snd) ∧
    (host.billsOn path book visits).Nodup := by
  have hcursor : book.tokenCursor path = .default := by
    unfold TurnBook.tokenCursor
    rw [hnew]
    rfl
  have hstart : Remembers host path
      (host.ids (splitLines newline ((filesOn path visits).getLastD [])).1) book [] [] 0 := by
    refine ⟨hroom, ?_, ?_, ?_, List.forall_mem_nil _, List.forall_mem_nil _⟩ <;> rw [hcursor]
    · exact ⟨le_rfl, rfl, rfl⟩
    · exact List.nodup_nil
    · exact List.nil_subset _
  obtain ⟨hentries, hnodup, -⟩ := hstart.run hday (htimes.cons fun _ _ => Nat.zero_le _) hkind
    (hgrow.cons fun _ _ => List.nil_prefix) hids (ids_subset_last hgrow) hstays hdays
  exact ⟨hentries, hnodup⟩

/-! ### A message at midnight -/

/-- A line of an answer, a second before midnight. -/
def answer : List UInt8 :=
  ("\x7b\"type\":\"assistant\",\"timestamp\":\"1970-01-01T23:59:59Z\",\"message\":" ++
    "\x7b\"id\":\"msg_1\",\"usage\":\x7b\"input_tokens\":2,\"output_tokens\":172\x7d\x7d\x7d"
    ).toUTF8.data.toList

def answerValue : Value :=
  .object [("type", .string "assistant"), ("timestamp", .string "1970-01-01T23:59:59Z"),
    ("message", .object [("id", .string "msg_1"), ("usage",
      .object [("input_tokens", .number (.posInt 2)), ("output_tokens", .number (.posInt 172))])])]

/-- JSON, stamps and days as far as `answer` needs them. -/
def answerHost : Host ℕ where
  fromSlice bytes := if bytes = answer then some answerValue else none
  parseStamp stamp := if stamp = "1970-01-01T23:59:59Z" then some 86399000 else none
  hash _ := 0
  trim := id
  day t := t / 86400000

/-- The answer has two lines, and `nowMs` is when the second one is read. -/
def answerVisits (nowMs : ℕ) : List (Visit ℕ) :=
  [⟨7, "session.jsonl", .claude, answer ++ [newline], 86399500⟩,
    ⟨7, "session.jsonl", .claude, (answer ++ [newline]) ++ (answer ++ [newline]), nowMs⟩]

theorem answerVisits_grow (nowMs : ℕ) :
    (filesOn "session.jsonl" (answerVisits nowMs)).IsChain (· <+: ·) := by
  exact List.isChain_cons_cons.2 ⟨List.prefix_append _ _, List.isChain_singleton _⟩

theorem visits_booked_once_answer :
    (answerHost.billsOn "session.jsonl" (.default : TurnBook ℕ ℕ ℕ) (answerVisits 86399600)).Nodup :=
  (visits_booked_once answerHost "session.jsonl" rfl (Nat.zero_le _)
    (fun _ _ h => Nat.div_le_div_right h) (by decide) (by decide) (answerVisits_grow _) (by decide +kernel)
    (List.forall_mem_cons.2 ⟨.inl (by decide), List.forall_mem_cons.2 ⟨.inl (by decide +kernel),
      List.forall_mem_nil _⟩⟩) (by unfold OfOneDay; decide +kernel)).2

/-- When the second line is read after midnight, the answer is booked twice. -/
theorem not_visits_booked_once :
    ((answerVisits 86400100).map Visit.nowMs).IsChain (· ≤ ·) ∧
    (filesOn "session.jsonl" (answerVisits 86400100)).IsChain (· <+: ·) ∧
    (answerHost.ids (splitLines newline
      ((filesOn "session.jsonl" (answerVisits 86400100)).getLastD [])).1).dedup.length ≤ maxSeenIds ∧
    answerHost.billsOn "session.jsonl" (.default : TurnBook ℕ ℕ ℕ) (answerVisits 86400100) =
      ["msg_1", "msg_1"] ∧
    booked ((answerVisits 86400100).foldl answerHost.visit (.default : TurnBook ℕ ℕ ℕ)) 7 = (4, 344) :=
  ⟨by decide, answerVisits_grow _, by decide +kernel, by decide +kernel, by decide +kernel⟩

end

end Paneflow.Usage.Tokens
