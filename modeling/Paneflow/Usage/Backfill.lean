import Paneflow.Usage.Ledger
import Paneflow.Usage.Passes

/-!
# The backfill

usage/backfill.rs. `runImport` reads the transcripts of before, the newest first, and tallies their lines by
day and account; a line that was copied to another file counts where it is first seen. When there are too
many files or bytes the rest is left out, and with it the days up to the one on which the first file left
out was last modified: the days after it cannot be in a file that is older.

What the files hold, the difference of days and whether a stop is asked for are parameters.
-/

namespace Paneflow.Usage.Backfill

open Paneflow.Json Paneflow.Lines Paneflow.Usage.Tokens Paneflow.Usage.Ledger

def maxImportFiles : ℕ := 10000

def maxImportBytes : ℕ := 2 * 1024 * 1024 * 1024

/-- `u64::saturating_add` -/
def saturatingAdd (left right : ℕ) : ℕ := min (left + right) (2 ^ 64 - 1)

structure ImportFile (A : Type) where
  account : A
  path : String
  kind : TranscriptKind
  modifiedMs : ℕ
  len : ℕ
  deriving DecidableEq, Repr

section
variable {A D : Type} [LinearOrder A] [LinearOrder D]

structure ImportOutcome (A D : Type) [LinearOrder A] [LinearOrder D] where
  days : OrdMap D (OrdMap A DayTally)
  files : ℕ
  limitedDays : Option ℕ

/-- What an import has come to: the tallies, the keys of the lines that it has seen, and how many times it
has looked whether to stop. -/
structure Import (A D : Type) [LinearOrder A] [LinearOrder D] where
  days : OrdMap D (OrdMap A DayTally)
  seen : OrdMap A (Finset ℕ)
  asked : ℕ

namespace Import

def default : Import A D := ⟨.empty, .empty, 0⟩

/-- The import has looked once more whether to stop. -/
def looked (state : Import A D) : Import A D := { state with asked := state.asked + 1 }

def firstSighting (state : Import A D) (account : A) : Option ℕ → Bool × Import A D
  | none => (true, state)
  | some key =>
    let held := (state.seen.get? account).getD ∅
    (key ∉ held, { state with seen := state.seen.insert account (insert key held) })

def tally (state : Import A D) (account : A) (day : D) (change : DayTally → DayTally) : Import A D :=
  let tallies := (state.days.get? day).getD .empty
  { state with
    days := state.days.insert day
      (tallies.insert account (change ((tallies.get? account).getD .default))) }

/-- A line is tallied unless its key was seen. -/
def count (state : Import A D) (account : A) (day : D) (key : Option ℕ)
    (change : DayTally → DayTally) : Import A D :=
  let (first, state) := state.firstSighting account key
  if first then state.tally account day change else state

/-- What the loop of `import_file` does with a pass. -/
def countPass (state : Import A D) (account : A) (pass : TokenPass D) : Import A D :=
  let state := pass.entries.foldl (fun state entry => state.count account entry.day entry.key
    fun tally =>
      { tally with
        tokensIn := tally.tokensIn + entry.input
        tokensOut := tally.tokensOut + entry.output }) state
  pass.turns.foldl (fun state turn => state.count account turn.day turn.key
    fun tally => { tally with turns := tally.turns + 1 }) state

end Import

/-- The body of the loop of `import_file`: whether it comes to the end of the file or has to stop, or else
where it goes on. A file that cannot be read is at its end. -/
def importPass (host : Host D) (contents : String → Option (List UInt8)) (stop : ℕ → Bool) (nowMs : ℕ)
    (file : ImportFile A) (cursor : TokenCursor D) (state : Import A D) :
    (Bool × Import A D) ⊕ (TokenCursor D × Import A D) :=
  let stopped := stop state.asked
  let state := state.looked
  if stopped then .inl (false, state)
  else
    match contents file.path with
    | none => .inl (true, state)
    | some content =>
      let pass := (host.readTokens file.path content file.kind cursor nowMs).1
      let state := state.countPass file.account pass
      if pass.cursor.offset = cursor.offset ∧ pass.cursor.skipping = cursor.skipping then
        .inl (true, state)
      else .inr (pass.cursor, state)

/-- `import_file`, for at most `fuel` passes. -/
def importFile (host : Host D) (contents : String → Option (List UInt8)) (stop : ℕ → Bool) (nowMs : ℕ)
    (file : ImportFile A) : ℕ → TokenCursor D → Import A D → Option (Bool × Import A D)
  | 0, _, _ => none
  | fuel + 1, cursor, state =>
    match importPass host contents stop nowMs file cursor state with
    | .inl ended => some ended
    | .inr (cursor, state) => importFile host contents stop nowMs file fuel cursor state

/-- The limits of an import; there is none for an import of everything. -/
structure Limits where
  files : ℕ
  bytes : ℕ

def importLimits : Limits := ⟨maxImportFiles, maxImportBytes⟩

def Limits.over (limits : Option Limits) (files bytes : ℕ) (file : ImportFile A) : Bool :=
  match limits with
  | none => false
  | some limits => files ≥ limits.files || saturatingAdd bytes file.len > limits.bytes

/-- The loop of `run_import`, with at most `fuel` passes over each file: what it comes to, the number of
files, and the day up to which they are not complete. There is nothing of it when it has to stop. -/
def importFiles (host : Host D) (contents : String → Option (List UInt8)) (limits : Option Limits)
    (stop : ℕ → Bool) (nowMs fuel : ℕ) :
    List (ImportFile A) → ℕ → ℕ → Import A D → Option (Option (Import A D × ℕ × Option D))
  | [], _, files, state => some (some (state, files, none))
  | file :: rest, bytes, files, state =>
    if Limits.over limits files bytes file then
      some (some (state, files, some (host.day file.modifiedMs)))
    else
      match importFile host contents stop nowMs file fuel .default state with
      | none => none
      | some (false, _) => some none
      | some (true, state) =>
        importFiles host contents limits stop nowMs fuel rest (saturatingAdd bytes file.len) (files + 1)
          state

def runImport (host : Host D) (daysSince : D → D → Option ℕ) (contents : String → Option (List UInt8))
    (limits : Option Limits) (stop : ℕ → Bool) (nowMs fuel : ℕ) (files : List (ImportFile A)) :
    Option (Option (ImportOutcome A D)) :=
  (importFiles host contents limits stop nowMs fuel files 0 0 .default).map fun ended =>
    ended.map fun (state, files, cutoff) =>
      match cutoff with
      | none => ⟨state.days, files, none⟩
      | some cutoff =>
        ⟨state.days.filterKeys fun day => cutoff < day, files, daysSince (host.day nowMs) cutoff⟩

end

/-! ### The days of a pass -/

section
variable {D : Type} [DecidableEq D] {host : Host D} {kind : TranscriptKind} {today : D}
  {reading : Tokens.Reading D}

/-- The line is of the day. -/
def OfDay (host : Host D) (line : List UInt8) (day : D) : Prop :=
  ∃ value atMs, host.fromSlice (trimAscii line) = some value ∧ host.entryMs value = some atMs ∧
    host.day atMs = day

/-- What the reading has come to is of the days of the lines that it has handled. -/
structure FromLines (host : Host D) (reading : Tokens.Reading D) : Prop where
  entries : ∀ entry ∈ reading.entries, ∃ line ∈ reading.lines, OfDay host line entry.day
  turns : ∀ turn ∈ reading.turns, ∃ line ∈ reading.lines, OfDay host line turn.day

omit [DecidableEq D] in
theorem turnStartMs_eq_some {value : Value} {atMs : ℕ} (h : host.turnStartMs value kind = some atMs) :
    host.entryMs value = some atMs := by
  unfold Host.turnStartMs at h
  dsimp only at h
  split_ifs at h
  exact h

theorem claudeEntry_eq_some {value : Value} {seen : List String} {cursor : TokenCursor D}
    {atMs input output : ℕ}
    (h : (host.claudeEntry value seen cursor today).1 = some (atMs, input, output)) :
    host.entryMs value = some atMs := by
  unfold Host.claudeEntry at h
  dsimp only at h
  split at h
  · simp at h
  · next id usage at' hfound =>
    by_cases hseen : id ∈ seen
    · rw [if_pos hseen] at h
      cases h
    · rw [if_neg hseen] at h
      obtain rfl := (Prod.mk.inj (Option.some.inj h)).1
      split_ifs at hfound
      simp only [Option.bind_eq_bind, Option.bind_eq_some_iff, Option.pure_def, Option.some.injEq,
        Prod.mk.injEq] at hfound
      obtain ⟨message, -, id', -, usage', -, at'', hat, -, -, rfl⟩ := hfound
      exact hat

omit [DecidableEq D] in
theorem codexUsage_eq_some {value : Value} {atMs : ℕ} {usage : ℕ × ℕ}
    (h : host.codexUsage value = some (atMs, usage)) : host.entryMs value = some atMs := by
  unfold Host.codexUsage at h
  split_ifs at h
  simp only [Option.bind_eq_bind, Option.bind_eq_some_iff] at h
  obtain ⟨payload, -, h⟩ := h
  split_ifs at h
  simp only [Option.bind_eq_some_iff, Option.pure_def, Option.some.injEq, Prod.mk.injEq] at h
  obtain ⟨info, -, total, -, at', hat, rfl, -⟩ := h
  exact hat

omit [DecidableEq D] in
theorem FromLines.of_mem {reading' : Tokens.Reading D} (h : FromLines host reading)
    (hentries : reading'.entries = reading.entries) (hturns : reading'.turns = reading.turns)
    (hlines : ∀ line ∈ reading.lines, line ∈ reading'.lines) : FromLines host reading' := by
  constructor
  · intro entry hentry
    obtain ⟨line, hline, hday⟩ := h.entries entry (hentries ▸ hentry)
    exact ⟨line, hlines line hline, hday⟩
  · intro turn hturn
    obtain ⟨line, hline, hday⟩ := h.turns turn (hturns ▸ hturn)
    exact ⟨line, hlines line hline, hday⟩

omit [DecidableEq D] in
/-- The turn that a line starts is of its day. -/
theorem FromLines.noteTurn (h : FromLines host reading) {line : List UInt8} {value : Value}
    (hline : line ∈ reading.lines) (hvalue : host.fromSlice (trimAscii line) = some value) :
    FromLines host (host.noteTurn kind value reading) := by
  unfold Host.noteTurn
  split
  · exact h
  · next atMs hturn =>
    refine ⟨h.entries, fun turn hmem => ?_⟩
    rcases List.mem_append.1 hmem with hmem | hmem
    · exact h.turns turn hmem
    · rw [List.mem_singleton.1 hmem]
      exact ⟨line, hline, value, atMs, hvalue, turnStartMs_eq_some hturn, rfl⟩

/-- The entry that a line is read as has the line's time. -/
theorem entry_eq_some {value : Value} {atMs input output : ℕ}
    (h : (host.entry kind today reading value).1 = some (atMs, input, output)) :
    host.entryMs value = some atMs := by
  cases kind with
  | claude => exact claudeEntry_eq_some h
  | codex =>
    unfold Host.entry Host.codexEntry at h
    cases hvalue : host.codexUsage value with
    | none => simp [hvalue] at h
    | some usage =>
      rw [hvalue] at h
      obtain rfl := (Prod.mk.inj (Option.some.inj h)).1
      exact codexUsage_eq_some hvalue

theorem entry_eq (host : Host D) (kind : TranscriptKind) (today : D) (reading : Tokens.Reading D) (value : Value) :
    (host.entry kind today reading value).2.2.entries = reading.entries ∧
      (host.entry kind today reading value).2.2.turns = reading.turns ∧
      (host.entry kind today reading value).2.2.lines = reading.lines := by
  cases kind <;> exact ⟨rfl, rfl, rfl⟩

theorem FromLines.noteEntry (h : FromLines host reading) {line : List UInt8} {value : Value}
    (hline : line ∈ reading.lines) (hvalue : host.fromSlice (trimAscii line) = some value) :
    FromLines host (host.noteEntry kind today value reading) := by
  obtain ⟨hentries, hturns, hlines⟩ := entry_eq host kind today reading value
  have hread := h.of_mem hentries hturns fun line hline => hlines ▸ hline
  have htime := @entry_eq_some D _ host kind today reading value
  unfold Host.noteEntry
  generalize host.entry kind today reading value = read at *
  obtain ⟨_ | ⟨atMs, input, output⟩, key, reading'⟩ := read
  · exact hread
  · dsimp only
    split_ifs
    · refine ⟨fun entry hmem => ?_, hread.turns⟩
      rcases List.mem_append.1 hmem with hmem | hmem
      · exact hread.entries entry hmem
      · rw [List.mem_singleton.1 hmem]
        exact ⟨line, hlines.symm ▸ hline, value, atMs, hvalue, htime rfl, rfl⟩
    · exact hread

theorem FromLines.handle (h : FromLines host reading) (line : List UInt8) :
    FromLines host (host.handle kind today reading line) := by
  have hadded : FromLines host { reading with lines := reading.lines ++ [line] } :=
    h.of_mem rfl rfl fun _ => List.mem_append_left _
  have hline : line ∈ reading.lines ++ [line] := List.mem_append_right _ List.mem_cons_self
  unfold Host.handle
  dsimp only
  split
  · exact hadded
  · next value hvalue =>
    refine (hadded.noteTurn hline hvalue).noteEntry ?_ hvalue
    rw [(noteTurn_eq host kind value _).2.2]
    exact hline

theorem FromLines.readLines (h : FromLines host reading) (kind : TranscriptKind) (today : D)
    (chunk : List UInt8) (fuel pos : ℕ) :
    FromLines host (host.readLines kind today chunk fuel pos reading).2 := by
  induction fuel generalizing pos reading with
  | zero => exact h
  | succ fuel ih =>
    unfold Host.readLines
    by_cases hlt : pos < chunk.length
    · rw [if_pos hlt]
      split
      · split_ifs
        · exact h.of_mem rfl rfl fun _ => id
        · exact h
      · dsimp only
        split_ifs
        · exact ih h _
        · exact ih (h.handle _) _
    · rw [if_neg hlt]
      exact h

/-- What a pass comes to is of the days of the lines that it handles. -/
theorem readTokens_fromLines (host : Host D) (path : String) (file : List UInt8) (kind : TranscriptKind)
    (start : TokenCursor D) (nowMs : ℕ) :
    let pass := host.readTokens path file kind start nowMs
    (∀ entry ∈ pass.1.entries, ∃ line ∈ pass.2, OfDay host line entry.day) ∧
      ∀ turn ∈ pass.1.turns, ∃ line ∈ pass.2, OfDay host line turn.day := by
  intro pass
  have hbegun (chunk : List UInt8) (cursor : TokenCursor D) :
      FromLines host (skipLine chunk ⟨cursor, cursor.seen, [], [], []⟩).2 := by
    have hempty : FromLines host ⟨cursor, cursor.seen, [], [], []⟩ := ⟨by simp, by simp⟩
    unfold skipLine
    split_ifs
    · split
      · exact hempty.of_mem rfl rfl fun _ => id
      · exact hempty
    · exact hempty
  obtain ⟨hentries, hturns⟩ := (hbegun _ _).readLines kind (host.day nowMs) _ _ _
  exact ⟨hentries, hturns⟩

end

/-! ### One file -/

section
variable {A D : Type} [LinearOrder A] [LinearOrder D] {host : Host D}
  {contents : String → Option (List UInt8)} {stop : ℕ → Bool} {nowMs fuel : ℕ} {file : ImportFile A}
  {cursor : TokenCursor D} {state state' : Import A D} {bound : D}

/-- No line of the file is of a time after the file was modified. -/
def Dated (host : Host D) (contents : String → Option (List UInt8)) (file : ImportFile A) : Prop :=
  ∀ content, contents file.path = some content → ∀ line ∈ (splitLines newline content).1,
    ∀ value atMs, host.fromSlice (trimAscii line) = some value → host.entryMs value = some atMs →
      atMs ≤ file.modifiedMs

/-- The days after `bound` have the tallies that they had. -/
def KeepsAfter (bound : D) (state state' : Import A D) : Prop :=
  ∀ day, bound < day → state'.days.get? day = state.days.get? day

theorem KeepsAfter.refl (bound : D) (state : Import A D) : KeepsAfter bound state state :=
  fun _ _ => rfl

theorem KeepsAfter.trans {state'' : Import A D} (h : KeepsAfter bound state state')
    (h' : KeepsAfter bound state' state'') : KeepsAfter bound state state'' :=
  fun day hlt => (h' day hlt).trans (h day hlt)

theorem keepsAfter_count (state : Import A D) (account : A) {day : D} (hle : day ≤ bound)
    (key : Option ℕ) (change : DayTally → DayTally) :
    KeepsAfter bound state (state.count account day key change) := by
  intro later hlater
  have hother : later ≠ day := (hle.trans_lt hlater).ne'
  have hsame : (state.firstSighting account key).2.days = state.days := by
    cases key <;> rfl
  unfold Import.count
  dsimp only
  split_ifs
  · simp [Import.tally, hsame, hother]
  · rw [hsame]

theorem keepsAfter_foldl {α : Type} {items : List α} {step : Import A D → α → Import A D}
    (hstep : ∀ item ∈ items, ∀ state, KeepsAfter bound state (step state item))
    (state : Import A D) : KeepsAfter bound state (items.foldl step state) := by
  induction items generalizing state with
  | nil => exact .refl bound state
  | cons item items ih =>
    obtain ⟨hitem, hitems⟩ := List.forall_mem_cons.1 hstep
    exact (hitem state).trans (ih hitems _)

theorem keepsAfter_countPass {account : A} {pass : TokenPass D}
    (hentries : ∀ entry ∈ pass.entries, entry.day ≤ bound)
    (hturns : ∀ turn ∈ pass.turns, turn.day ≤ bound) (state : Import A D) :
    KeepsAfter bound state (state.countPass account pass) :=
  (keepsAfter_foldl (fun entry hentry state => keepsAfter_count state account (hentries entry hentry) _ _)
      state).trans
    (keepsAfter_foldl (fun turn hturn state => keepsAfter_count state account (hturns turn hturn) _ _) _)

/-- The passes over the file have come to the cursor. -/
def Reached (contents : String → Option (List UInt8)) (file : ImportFile A) (cursor : TokenCursor D) :
    Prop :=
  ∀ content, contents file.path = some content → ∃ lines, Caught content cursor lines

omit [LinearOrder A] [LinearOrder D] in
theorem Reached.default : Reached contents file (.default : TokenCursor D) :=
  fun _ _ => ⟨[], Nat.zero_le _, rfl, rfl⟩

/-- What is left of a line says whether it is being skipped. -/
theorem skipping_eq {skipping skipping' : Bool} {rest : List UInt8} (h : Left skipping rest)
    (h' : Left skipping' rest) : skipping' = skipping := by
  cases skipping <;> cases skipping' <;> simp_all [Left]

/-- What the body of the loop does. -/
theorem importPass_cases (host : Host D) (contents : String → Option (List UInt8)) (stop : ℕ → Bool)
    (nowMs : ℕ) (file : ImportFile A) (cursor : TokenCursor D) (state : Import A D) :
    (stop state.asked = true ∧ importPass host contents stop nowMs file cursor state =
      .inl (false, state.looked)) ∨
    (stop state.asked = false ∧ contents file.path = none ∧
      importPass host contents stop nowMs file cursor state = .inl (true, state.looked)) ∨
    (stop state.asked = false ∧ ∃ content pass, contents file.path = some content ∧
      pass = host.readTokens file.path content file.kind cursor nowMs ∧
      importPass host contents stop nowMs file cursor state =
        if pass.1.cursor.offset = cursor.offset ∧ pass.1.cursor.skipping = cursor.skipping then
          .inl (true, state.looked.countPass file.account pass.1)
        else .inr (pass.1.cursor, state.looked.countPass file.account pass.1)) := by
  unfold importPass
  cases hstop : stop state.asked with
  | true => exact .inl ⟨rfl, rfl⟩
  | false =>
    cases hcontent : contents file.path with
    | none => exact .inr (.inl ⟨rfl, rfl, rfl⟩)
    | some content => exact .inr (.inr ⟨rfl, content, _, rfl, rfl, rfl⟩)

theorem importPass_unstopped (h : stop state.asked = false) :
    importPass host contents (fun _ => false) nowMs file cursor state =
      importPass host contents stop nowMs file cursor state := by
  unfold importPass
  rw [h]

/-- A pass over a file comes further, or it is the last one. -/
theorem importPass_inr (h : Reached contents file cursor) {cursor' : TokenCursor D}
    (hpass : importPass host contents stop nowMs file cursor state = .inr (cursor', state')) :
    Reached contents file cursor' ∧ ∃ content, contents file.path = some content ∧
      cursor.offset < cursor'.offset ∧ cursor'.offset ≤ content.length := by
  rcases importPass_cases host contents stop nowMs file cursor state with
    ⟨-, heq⟩ | ⟨-, -, heq⟩ | ⟨-, content, pass, hcontent, hread, heq⟩
  · cases heq.symm.trans hpass
  · cases heq.symm.trans hpass
  · rw [heq] at hpass
    split_ifs at hpass with hsame
    obtain ⟨rfl, rfl⟩ := Prod.mk.inj (Sum.inr.inj hpass)
    obtain ⟨lines, hcaught⟩ := h content hcontent
    obtain ⟨hnext, pos, hoffset, -⟩ := hcaught.pass host file.path file.kind nowMs
    rw [← hread] at hnext hoffset
    refine ⟨fun content' hcontent' => ?_, content, hcontent, ?_, hnext.offset⟩
    · obtain rfl := Option.some.inj (hcontent.symm.trans hcontent')
      exact ⟨_, hnext⟩
    · refine lt_of_le_of_ne (by omega) fun hstays => hsame ⟨hstays.symm, ?_⟩
      have hleft := hnext.left
      rw [← hstays] at hleft
      exact skipping_eq hcaught.left hleft

/-- A pass tallies nothing after the day on which the file was modified. -/
theorem importPass_keepsAfter (hday : Monotone host.day) (hdated : Dated host contents file)
    (hmodified : host.day file.modifiedMs ≤ bound) (h : Reached contents file cursor) (stop : ℕ → Bool)
    (nowMs : ℕ) (state : Import A D) :
    KeepsAfter bound state
      ((importPass host contents stop nowMs file cursor state).elim Prod.snd Prod.snd) := by
  have hlooked : KeepsAfter bound state state.looked := fun _ _ => rfl
  rcases importPass_cases host contents stop nowMs file cursor state with
    ⟨-, heq⟩ | ⟨-, -, heq⟩ | ⟨-, content, pass, hcontent, hread, heq⟩
  · rw [heq]
    exact hlooked
  · rw [heq]
    exact hlooked
  · obtain ⟨lines, hcaught⟩ := h content hcontent
    have hpass := (hcaught.pass host file.path file.kind nowMs).1
    obtain ⟨hentries, hturns⟩ := readTokens_fromLines host file.path content file.kind cursor nowMs
    rw [← hread] at hpass hentries hturns
    have hle {day : D} (hofDay : ∃ line ∈ pass.2, OfDay host line day) : day ≤ bound := by
      obtain ⟨line, hline, value, atMs, hvalue, htime, rfl⟩ := hofDay
      have hmem := hpass.prefix_lines.subset (List.mem_append_right lines hline)
      have hbefore := hdated content hcontent line (List.mem_filter.1 hmem).1 value atMs hvalue htime
      exact (hday hbefore).trans hmodified
    have hcounted : KeepsAfter bound state (state.looked.countPass file.account pass.1) :=
      hlooked.trans (keepsAfter_countPass (fun entry hentry => hle (hentries entry hentry))
        (fun turn hturn => hle (hturns turn hturn)) _)
    rw [heq]
    split_ifs
    · exact hcounted
    · exact hcounted

/-- **The loop ends**: it makes at most a pass for each byte that is left, and one more. -/
theorem importFile_isSome (h : Reached contents file cursor) (hpos : 0 < fuel)
    (hfuel : ∀ content, contents file.path = some content → content.length < cursor.offset + fuel)
    (state : Import A D) :
    (importFile host contents stop nowMs file fuel cursor state).isSome = true := by
  induction fuel generalizing cursor state with
  | zero => exact absurd hpos (Nat.lt_irrefl 0)
  | succ fuel ih =>
    unfold importFile
    rcases hpass : importPass host contents stop nowMs file cursor state with ended | ⟨cursor', state'⟩
    · rfl
    · obtain ⟨hreached, content, hcontent, hlt, hle⟩ := importPass_inr h hpass
      have hlength := hfuel content hcontent
      refine ih hreached (by omega) (fun content' hcontent' => ?_) state'
      obtain rfl := Option.some.inj (hcontent.symm.trans hcontent')
      omega

theorem importFile_add {ended : Bool × Import A D}
    (h : importFile host contents stop nowMs file fuel cursor state = some ended) (more : ℕ) :
    importFile host contents stop nowMs file (fuel + more) cursor state = some ended := by
  induction fuel generalizing cursor state with
  | zero => cases h
  | succ fuel ih =>
    rw [Nat.add_right_comm]
    unfold importFile at h ⊢
    split at h
    · exact h
    · exact ih h

/-- A file that is read to its end is read the same when nobody asks to stop. -/
theorem importFile_unstopped
    (h : importFile host contents stop nowMs file fuel cursor state = some (true, state')) :
    importFile host contents (fun _ => false) nowMs file fuel cursor state = some (true, state') := by
  induction fuel generalizing cursor state with
  | zero => cases h
  | succ fuel ih =>
    unfold importFile at h ⊢
    cases hstop : stop state.asked with
    | true =>
      have hpass : importPass host contents stop nowMs file cursor state =
          .inl (false, state.looked) := by simp [importPass, hstop]
      rw [hpass] at h
      cases h
    | false =>
      rw [importPass_unstopped hstop]
      split at h
      · exact h
      · exact ih h

theorem importFile_true {ended : Bool × Import A D}
    (h : importFile host contents (fun _ => false) nowMs file fuel cursor state = some ended) :
    ended.1 = true := by
  induction fuel generalizing cursor state with
  | zero => cases h
  | succ fuel ih =>
    unfold importFile at h
    rcases importPass_cases host contents (fun _ => false) nowMs file cursor state with
      ⟨hstop, -⟩ | ⟨-, -, heq⟩ | ⟨-, content, pass, -, -, heq⟩
    · cases hstop
    · rw [heq] at h
      rw [← Option.some.inj h]
    · rw [heq] at h
      split_ifs at h
      · rw [← Option.some.inj h]
      · exact ih h

/-- A file tallies nothing after the day on which it was modified. -/
theorem importFile_keepsAfter (hday : Monotone host.day) (hdated : Dated host contents file)
    (hmodified : host.day file.modifiedMs ≤ bound) (hreached : Reached contents file cursor)
    {ended : Bool × Import A D}
    (h : importFile host contents stop nowMs file fuel cursor state = some ended) :
    KeepsAfter bound state ended.2 := by
  induction fuel generalizing cursor state with
  | zero => cases h
  | succ fuel ih =>
    unfold importFile at h
    have hkeeps := importPass_keepsAfter hday hdated hmodified hreached stop nowMs state
    rcases hpass : importPass host contents stop nowMs file cursor state with last | ⟨cursor', next⟩
    · rw [hpass] at h hkeeps
      obtain rfl := Option.some.inj h
      exact hkeeps
    · rw [hpass] at h hkeeps
      exact KeepsAfter.trans hkeeps (ih (importPass_inr hreached hpass).1 h)

end

/-! ### All files -/

section
variable {A D : Type} [LinearOrder A] [LinearOrder D] {host : Host D}
  {contents : String → Option (List UInt8)} {stop : ℕ → Bool} {nowMs fuel : ℕ}
  {files : List (ImportFile A)} {bytes count : ℕ} {state state' : Import A D} {bound : D}

/-- There is fuel for each of the files. -/
def Fueled (contents : String → Option (List UInt8)) (fuel : ℕ) (files : List (ImportFile A)) : Prop :=
  0 < fuel ∧ ∀ file ∈ files, ∀ content, contents file.path = some content → content.length < fuel

theorem importFile_fueled {file : ImportFile A} (h : Fueled contents fuel files) (hfile : file ∈ files)
    (host : Host D) (stop : ℕ → Bool) (nowMs : ℕ) (state : Import A D) :
    (importFile host contents stop nowMs file fuel .default state).isSome = true :=
  importFile_isSome Reached.default h.1 (fun content hcontent => by
    simpa [TokenCursor.default] using h.2 file hfile content hcontent) state

/-- What is left of an import of everything when the files are dated, and modified on `bound` at last. -/
theorem importFiles_all (hday : Monotone host.day) (hfueled : Fueled contents fuel files)
    (hdated : ∀ file ∈ files, Dated host contents file)
    (hmodified : ∀ file ∈ files, host.day file.modifiedMs ≤ bound) (nowMs bytes count : ℕ)
    (state : Import A D) :
    ∃ whole, importFiles host contents none (fun _ => false) nowMs fuel files bytes count state =
        some (some (whole, count + files.length, none)) ∧ KeepsAfter bound state whole := by
  induction files generalizing bytes count state with
  | nil => exact ⟨state, rfl, .refl bound state⟩
  | cons file files ih =>
    obtain ⟨ended, hended⟩ :=
      Option.isSome_iff_exists.1
        (importFile_fueled hfueled List.mem_cons_self host (fun _ => false) nowMs state)
    obtain ⟨hfirst, hdated⟩ := List.forall_mem_cons.1 hdated
    obtain ⟨hlast, hmodified⟩ := List.forall_mem_cons.1 hmodified
    have hkeeps := importFile_keepsAfter hday hfirst hlast Reached.default hended
    have hread := importFile_true hended
    obtain ⟨_, next⟩ := ended
    obtain rfl := hread
    obtain ⟨whole, hwhole, hrest⟩ := ih ⟨hfueled.1, (List.forall_mem_cons.1 hfueled.2).2⟩ hdated
      hmodified (saturatingAdd bytes file.len) (count + 1) next
    refine ⟨whole, ?_, hkeeps.trans hrest⟩
    unfold importFiles
    rw [hended]
    rw [Nat.add_assoc, Nat.add_comm 1] at hwhole
    exact hwhole

/-- What an import within limits leaves out of `files`: nothing, or the files from the first one on that is
over the limits. -/
def LeavesOut (host : Host D) (limits : Option Limits) (files : List (ImportFile A)) (bytes count : ℕ)
    (state whole : Import A D) (reached : ℕ) (cutoff : Option D) : Prop :=
  (state = whole ∧ reached = count + files.length ∧ cutoff = none) ∨
  ∃ read file rest, files = read ++ file :: rest ∧
    Limits.over limits (count + read.length)
      (read.foldl (fun bytes file => saturatingAdd bytes file.len) bytes) file = true ∧
    reached = count + read.length ∧ cutoff = some (host.day file.modifiedMs) ∧
    KeepsAfter (host.day file.modifiedMs) state whole

theorem importFiles_limited (hday : Monotone host.day) (hfueled : Fueled contents fuel files)
    (hdated : ∀ file ∈ files, Dated host contents file)
    (hsorted : files.Pairwise fun file older => older.modifiedMs ≤ file.modifiedMs)
    {limits : Option Limits} {reached : ℕ} {cutoff : Option D}
    (h : importFiles host contents limits stop nowMs fuel files bytes count state =
      some (some (state', reached, cutoff))) :
    ∃ whole, importFiles host contents none (fun _ => false) nowMs fuel files bytes count state =
        some (some (whole, count + files.length, none)) ∧
      LeavesOut host limits files bytes count state' whole reached cutoff := by
  induction files generalizing bytes count state with
  | nil =>
    obtain ⟨rfl, rfl, rfl⟩ : state = state' ∧ count = reached ∧ none = cutoff := by
      simpa [importFiles] using h
    exact ⟨state, rfl, .inl ⟨rfl, rfl, rfl⟩⟩
  | cons file files ih =>
    obtain ⟨holder, hsorted'⟩ := List.pairwise_cons.1 hsorted
    unfold importFiles at h
    by_cases hover : Limits.over limits count bytes file = true
    · -- the file is left out, and those that come after it are older
      rw [if_pos hover] at h
      obtain ⟨rfl, rfl, rfl⟩ : state = state' ∧ count = reached ∧
          some (host.day file.modifiedMs) = cutoff := by simpa using h
      have hmodified : ∀ older ∈ file :: files, host.day older.modifiedMs ≤ host.day file.modifiedMs :=
        List.forall_mem_cons.2 ⟨le_rfl, fun older hmem => hday (holder older hmem)⟩
      obtain ⟨whole, hwhole, hkeeps⟩ := importFiles_all hday hfueled hdated hmodified nowMs bytes count state
      exact ⟨whole, hwhole, .inr ⟨[], file, files, rfl, hover, rfl, rfl, hkeeps⟩⟩
    · rw [if_neg hover] at h
      rcases hended : importFile host contents stop nowMs file fuel .default state with
        _ | ⟨_ | _, next⟩
      · rw [hended] at h
        cases h
      · rw [hended] at h
        cases h
      · rw [hended] at h
        obtain ⟨whole, hwhole, hleaves⟩ :=
          ih ⟨hfueled.1, (List.forall_mem_cons.1 hfueled.2).2⟩ (List.forall_mem_cons.1 hdated).2 hsorted' h
        have hlength : count + 1 + files.length = count + (file :: files).length := by
          rw [List.length_cons]
          omega
        refine ⟨whole, ?_, ?_⟩
        · unfold importFiles
          rw [importFile_unstopped hended]
          rw [hlength] at hwhole
          exact hwhole
        · rcases hleaves with ⟨rfl, rfl, rfl⟩ | ⟨read, next, rest, rfl, hlimit, rfl, rfl, hkeeps⟩
          · exact .inl ⟨rfl, hlength, rfl⟩
          · have hread : count + 1 + read.length = count + (file :: read).length := by
              rw [List.length_cons]
              omega
            rw [hread] at hlimit
            exact .inr ⟨file :: read, next, rest, rfl, hlimit, hread, rfl, hkeeps⟩

/-- An import that nobody asks to stop has an outcome. -/
theorem importFiles_unstopped (hfueled : Fueled contents fuel files) (host : Host D)
    (limits : Option Limits) (nowMs bytes count : ℕ) (state : Import A D) :
    ∃ ended, importFiles host contents limits (fun _ => false) nowMs fuel files bytes count state =
      some (some ended) := by
  induction files generalizing bytes count state with
  | nil => exact ⟨_, rfl⟩
  | cons file files ih =>
    unfold importFiles
    by_cases hover : Limits.over limits count bytes file = true
    · rw [if_pos hover]
      exact ⟨_, rfl⟩
    · rw [if_neg hover]
      obtain ⟨⟨_, next⟩, hended⟩ :=
        Option.isSome_iff_exists.1
          (importFile_fueled hfueled List.mem_cons_self host (fun _ => false) nowMs state)
      obtain rfl := importFile_true hended
      rw [hended]
      exact ih ⟨hfueled.1, (List.forall_mem_cons.1 hfueled.2).2⟩ _ _ _

/-- **An import keeps whole days**: the loop over a file ends, and when the import has an outcome, the days
that it keeps are tallied as in an import of everything; it leaves out none of them, or those up to the day
on which the first file left out was modified. -/
theorem import_whole_days (host : Host D) (daysSince : D → D → Option ℕ)
    (contents : String → Option (List UInt8)) (nowMs : ℕ) :
    (∀ (stop : ℕ → Bool) (file : ImportFile A) (state : Import A D),
      ∃ ended, ∀ fuel, Fueled contents fuel [file] →
        importFile host contents stop nowMs file fuel .default state = some ended) ∧
    ∀ (files : List (ImportFile A)) (fuel : ℕ), Fueled contents fuel files → Monotone host.day →
      (files.Pairwise fun file older => older.modifiedMs ≤ file.modifiedMs) →
      (∀ file ∈ files, Dated host contents file) →
      ∃ whole, runImport host daysSince contents none (fun _ => false) nowMs fuel files =
          some (some whole) ∧ whole.files = files.length ∧ whole.limitedDays = none ∧
        (∃ outcome, runImport host daysSince contents (some importLimits) (fun _ => false) nowMs fuel files =
          some (some outcome)) ∧
        ∀ stop outcome, runImport host daysSince contents (some importLimits) stop nowMs fuel files =
          some (some outcome) →
          outcome = whole ∨
          ∃ read file rest, files = read ++ file :: rest ∧
            Limits.over (some importLimits) read.length
              (read.foldl (fun bytes file => saturatingAdd bytes file.len) 0) file = true ∧
            outcome.files = read.length ∧
            outcome.limitedDays = daysSince (host.day nowMs) (host.day file.modifiedMs) ∧
            ∀ day, outcome.days.get? day =
              if host.day file.modifiedMs < day then whole.days.get? day else none := by
  refine ⟨fun stop file state => ?_, fun files fuel hfueled hday hsorted hdated => ?_⟩
  · have hleast : Fueled contents (((contents file.path).elim 0 List.length) + 1) [file] := by
      refine ⟨Nat.succ_pos _, fun file' hmem content hcontent => ?_⟩
      rw [List.mem_singleton.1 hmem] at hcontent
      simp [hcontent]
    obtain ⟨ended, hended⟩ := Option.isSome_iff_exists.1
      (importFile_fueled hleast List.mem_cons_self host stop nowMs state)
    refine ⟨ended, fun fuel hfueled => ?_⟩
    have hle : ((contents file.path).elim 0 List.length) + 1 ≤ fuel := by
      cases hcontent : contents file.path with
      | none => exact hfueled.1
      | some content => exact hfueled.2 file List.mem_cons_self content hcontent
    rw [← Nat.add_sub_cancel' hle]
    exact importFile_add hended _
  · obtain ⟨⟨state, reached, cutoff⟩, hlimited⟩ :=
      importFiles_unstopped hfueled host (some importLimits) nowMs 0 0 .default
    obtain ⟨all, hall, -⟩ := importFiles_limited hday hfueled hdated hsorted hlimited
    refine ⟨⟨all.days, files.length, none⟩, by simp [runImport, hall], rfl, rfl, ?_, ?_⟩
    · exact ⟨_, by rw [runImport, hlimited]; rfl⟩
    · intro stop outcome houtcome
      unfold runImport at houtcome
      rcases hended : importFiles host contents (some importLimits) stop nowMs fuel files 0 0 .default with
        _ | _ | ⟨state', reached', cutoff'⟩
      · simp [hended] at houtcome
      · simp [hended] at houtcome
      · obtain ⟨all', hall', hleaves⟩ := importFiles_limited hday hfueled hdated hsorted hended
        obtain rfl : all' = all := by simpa [hall'] using hall
        rw [hended] at houtcome
        obtain rfl := Option.some.inj (Option.some.inj houtcome)
        rcases hleaves with ⟨rfl, rfl, rfl⟩ | ⟨read, file, rest, hfiles, hover, rfl, rfl, hkeeps⟩
        · left
          rw [Nat.zero_add]
        · rw [Nat.zero_add] at hover
          refine .inr ⟨read, file, rest, hfiles, hover, Nat.zero_add _, rfl, fun day => ?_⟩
          dsimp only
          rw [OrdMap.get?_filterKeys]
          by_cases hlt : host.day file.modifiedMs < day
          · simp [hlt, hkeeps day hlt]
          · simp [hlt]

/-- A turn of Codex that starts with the day of January. -/
def turnLine (day : String) : List UInt8 :=
  ("\x7b\"type\":\"event_msg\",\"timestamp\":\"1970-01-0" ++ day ++ "T00:00:00Z\"," ++
    "\"payload\":\x7b\"type\":\"task_started\"\x7d\x7d").toUTF8.data.toList

def turnValue (day : String) : Value :=
  .object [("type", .string "event_msg"), ("timestamp", .string ("1970-01-0" ++ day ++ "T00:00:00Z")),
    ("payload", .object [("type", .string "task_started")])]

/-- JSON, stamps and days as far as the turns of three days need them. -/
def turnHost : Host ℕ where
  fromSlice bytes := (["3", "4", "6"].find? fun day => bytes = turnLine day).map turnValue
  parseStamp stamp :=
    [("1970-01-03T00:00:00Z", 172800000), ("1970-01-04T00:00:00Z", 259200000),
      ("1970-01-06T00:00:00Z", 432000000)].lookup stamp
  hash _ := 0
  trim := id
  day t := t / 86400000

def twoContents (path : String) : Option (List UInt8) :=
  if path = "new" then some (turnLine "6" ++ [newline] ++ turnLine "3" ++ [newline])
  else some (turnLine "4" ++ [newline])

def twoFiles : List (ImportFile ℕ) :=
  [⟨0, "new", .codex, 432000000, 170⟩, ⟨0, "old", .codex, 259200000, maxImportBytes⟩]

omit [LinearOrder A] [LinearOrder D] in
theorem dated_of_lines {file : ImportFile A} {content : List UInt8}
    (hcontent : contents file.path = some content)
    (h : ∀ line ∈ (splitLines newline content).1,
      ∀ atMs ∈ (host.fromSlice (trimAscii line)).bind host.entryMs, atMs ≤ file.modifiedMs) :
    Dated host contents file := by
  intro content' hcontent' line hline value atMs hvalue htime
  obtain rfl := Option.some.inj (hcontent.symm.trans hcontent')
  exact h line hline atMs (by rw [hvalue]; exact htime)

/-- The transcript of January 4 is too long: January 6 is complete, and January 3 is left out. -/
theorem import_whole_days_two : ∃ whole outcome,
    runImport turnHost (fun today day => some (today - day)) twoContents none (fun _ => false) 604800000 400
      twoFiles = some (some whole) ∧
    runImport turnHost (fun today day => some (today - day)) twoContents (some importLimits)
      (fun _ => false) 604800000 400 twoFiles = some (some outcome) ∧
    outcome.limitedDays = some 4 ∧ outcome.days.get? 5 = whole.days.get? 5 ∧ outcome.days.get? 2 = none := by
  have hfueled : Fueled twoContents 400 twoFiles := by
    refine ⟨by decide, fun file _ content hcontent => ?_⟩
    unfold twoContents at hcontent
    split_ifs at hcontent
    · obtain rfl := Option.some.inj hcontent
      decide +kernel
    · obtain rfl := Option.some.inj hcontent
      decide +kernel
  have hdated : ∀ file ∈ twoFiles, Dated turnHost twoContents file :=
    List.forall_mem_cons.2 ⟨dated_of_lines rfl (by decide +kernel),
      List.forall_mem_cons.2 ⟨dated_of_lines rfl (by decide +kernel), List.forall_mem_nil _⟩⟩
  have hday : Monotone turnHost.day := fun _ _ h => Nat.div_le_div_right h
  obtain ⟨whole, hwhole, -, -, ⟨outcome, houtcome⟩, hlimited⟩ :=
    (import_whole_days turnHost (fun today day => some (today - day)) twoContents 604800000).2 twoFiles 400
      hfueled hday (by decide) hdated
  have hreached : (runImport turnHost (fun today day => some (today - day)) twoContents
      (some importLimits) (fun _ => false) 604800000 400 twoFiles).map (Option.map fun outcome =>
        (outcome.files, outcome.limitedDays, outcome.days.get? 2)) = some (some (1, some 4, none)) := by
    decide +kernel
  rw [houtcome] at hreached
  obtain ⟨hfiles, hdays, htwo⟩ : outcome.files = 1 ∧ outcome.limitedDays = some 4 ∧
      outcome.days.get? 2 = none := by simpa using hreached
  refine ⟨whole, outcome, hwhole, houtcome, hdays, ?_, htwo⟩
  rcases hlimited _ outcome houtcome with rfl | ⟨read, file, rest, hsplit, -, hread, -, hkept⟩
  · rfl
  · have hfile : file = ⟨0, "old", .codex, 259200000, maxImportBytes⟩ := by
      obtain ⟨first, rfl⟩ := List.length_eq_one_iff.1 (hread.symm.trans hfiles)
      exact (List.cons.inj (List.cons.inj hsplit).2).1.symm
    rw [hkept 5, hfile]
    rfl

end

end Paneflow.Usage.Backfill
