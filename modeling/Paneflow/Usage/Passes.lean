import Paneflow.Usage.Tokens
import Mathlib.Algebra.BigOperators.Group.List.Basic
import Mathlib.Algebra.Group.Prod
import Mathlib.Tactic.Abel

/-!
# Passes over a transcript

Whatever the passes over a file that grows, each complete line that is not too long is handled once and in
order, and for Codex the tokens of all passes are the greatest totals that the lines report.
-/

namespace Paneflow.Usage.Tokens

open Paneflow.Json Paneflow.Lines

variable {D : Type} [DecidableEq D]

/-! ### One pass -/

/-- The lines that are not too long. -/
def short (lines : List (List UInt8)) : List (List UInt8) :=
  lines.filter fun line => line.length ≤ maxLineBytes

variable {host : Host D} {kind : TranscriptKind} {today : D} {chunk : List UInt8}
  {reading : Reading D}

theorem short_cons_of_long {line : List UInt8} (h : ¬ line.length ≤ maxLineBytes)
    (lines : List (List UInt8)) : short (line :: lines) = short lines :=
  List.filter_cons_of_neg (by simpa using h)

theorem short_append (lines more : List (List UInt8)) :
    short (lines ++ more) = short lines ++ short more :=
  List.filter_append _ _

theorem findIdx?_none {text : List UInt8} (h : newline ∉ text) :
    text.findIdx? (fun byte => byte = newline) = none := by
  rw [List.findIdx?_eq_none_iff]
  intro byte hbyte
  exact decide_eq_false fun heq => h (heq ▸ hbyte)

theorem findIdx?_newline {line : List UInt8} (h : newline ∉ line) (rest : List UInt8) :
    (line ++ newline :: rest).findIdx? (fun byte => byte = newline) = some line.length := by
  rw [List.findIdx?_append, findIdx?_none h]
  simp [List.findIdx?_cons]

/-- What the reading is after a piece of text, and how much of the piece is left. -/
def Host.readText (host : Host D) (kind : TranscriptKind) (today : D) (text : List UInt8)
    (reading : Reading D) : ℕ × Reading D :=
  let reading := (short (splitLines newline text).1).foldl (host.handle kind today) reading
  if (splitLines newline text).2.length > maxLineBytes then
    (0, { reading with cursor := { reading.cursor with skipping := true } })
  else ((splitLines newline text).2.length, reading)

theorem readText_line {line rest : List UInt8} (h : newline ∉ line) :
    host.readText kind today (line ++ newline :: rest) reading =
      host.readText kind today rest
        (if line.length > maxLineBytes then reading else host.handle kind today reading line) := by
  unfold Host.readText
  rw [splitLines_line h]
  by_cases hlong : line.length > maxLineBytes
  · have hlong' : ¬ line.length ≤ maxLineBytes := not_le_of_gt hlong
    simp [short, hlong, hlong']
  · have hlong' : line.length ≤ maxLineBytes := not_lt.1 hlong
    simp [short, hlong, hlong']

/-- The loop reads what is left of the chunk, line by line. -/
theorem readLines_eq {fuel pos : ℕ} (hfuel : chunk.length - pos ≤ fuel) (hpos : pos ≤ chunk.length) :
    host.readLines kind today chunk fuel pos reading =
      (chunk.length - (host.readText kind today (chunk.drop pos) reading).1,
        (host.readText kind today (chunk.drop pos) reading).2) := by
  induction fuel generalizing pos reading with
  | zero =>
    have hend : pos = chunk.length := by omega
    subst hend
    simp [Host.readLines, Host.readText, short]
  | succ fuel ih =>
    unfold Host.readLines
    by_cases hlt : pos < chunk.length
    · rw [if_pos hlt]
      rcases eq_line_or_rest newline (chunk.drop pos) with hnot | ⟨line, rest, hline, hdrop⟩
      · rw [findIdx?_none hnot]
        simp only [Host.readText, splitLines_rest hnot, List.length_drop, short, List.filter_nil,
          List.foldl_nil]
        split_ifs
        · rfl
        · rw [Nat.sub_sub_self hpos]
      · have hrest : chunk.drop (pos + line.length + 1) = rest := by
          rw [Nat.add_assoc, ← List.drop_drop, hdrop, List.drop_length_add_append]
          rfl
        have hlength : chunk.length - pos = line.length + (rest.length + 1) := by
          rw [← List.length_drop, hdrop, List.length_append, List.length_cons]
        rw [hdrop, findIdx?_newline hline, readText_line hline]
        simp only [List.take_left']
        split_ifs
        · rw [ih (by omega) (by omega), hrest]
        · rw [ih (by omega) (by omega), hrest]
    · have hend : pos = chunk.length := by omega
      subst hend
      simp [Host.readText, short]

/-- What handling lines does not touch. -/
structure Handled (reading reading' : Reading D) (lines : List (List UInt8)) : Prop where
  offset : reading'.cursor.offset = reading.cursor.offset
  skipping : reading'.cursor.skipping = reading.cursor.skipping
  lines : reading'.lines = reading.lines ++ lines

theorem claudeEntry_cursor (host : Host D) (value : Value) (seen : List String)
    (cursor : TokenCursor D) (today : D) :
    (host.claudeEntry value seen cursor today).2.2.offset = cursor.offset ∧
      (host.claudeEntry value seen cursor today).2.2.skipping = cursor.skipping := by
  unfold Host.claudeEntry
  dsimp only
  split
  · exact ⟨rfl, rfl⟩
  · split_ifs <;> exact ⟨rfl, rfl⟩

omit [DecidableEq D] in
theorem codexEntry_cursor (host : Host D) (value : Value) (cursor : TokenCursor D) :
    (host.codexEntry value cursor).2.offset = cursor.offset ∧
      (host.codexEntry value cursor).2.skipping = cursor.skipping := by
  unfold Host.codexEntry
  split <;> exact ⟨rfl, rfl⟩

theorem entry_handled (value : Value) :
    Handled reading (host.entry kind today reading value).2.2 [] := by
  cases kind with
  | claude =>
    obtain ⟨hoffset, hskipping⟩ := claudeEntry_cursor host value reading.seen reading.cursor today
    exact ⟨hoffset, hskipping, by simp [Host.entry]⟩
  | codex =>
    obtain ⟨hoffset, hskipping⟩ := codexEntry_cursor host value reading.cursor
    exact ⟨hoffset, hskipping, by simp [Host.entry]⟩

theorem noteEntry_handled (value : Value) :
    Handled reading (host.noteEntry kind today value reading) [] := by
  have hentry : Handled reading (host.entry kind today reading value).2.2 [] := entry_handled value
  unfold Host.noteEntry
  split
  · next heq => rw [heq] at hentry; exact hentry
  · next heq =>
    rw [heq] at hentry
    split_ifs
    · exact ⟨hentry.offset, hentry.skipping, hentry.lines⟩
    · exact hentry

omit [DecidableEq D] in
theorem noteTurn_handled (value : Value) :
    Handled reading (host.noteTurn kind value reading) [] := by
  unfold Host.noteTurn
  split
  · exact ⟨rfl, rfl, (List.append_nil _).symm⟩
  · exact ⟨rfl, rfl, (List.append_nil _).symm⟩

omit [DecidableEq D] in
theorem Handled.trans {reading' reading'' : Reading D} {lines lines' : List (List UInt8)}
    (h : Handled reading reading' lines) (h' : Handled reading' reading'' lines') :
    Handled reading reading'' (lines ++ lines') :=
  ⟨h'.offset.trans h.offset, h'.skipping.trans h.skipping, by
    rw [h'.lines, h.lines, List.append_assoc]⟩

theorem handle_handled (line : List UInt8) :
    Handled reading (host.handle kind today reading line) [line] := by
  have hline : Handled reading { reading with lines := reading.lines ++ [line] } [line] :=
    ⟨rfl, rfl, rfl⟩
  unfold Host.handle
  split
  · exact hline
  · exact (hline.trans (noteTurn_handled _)).trans (noteEntry_handled _)

theorem foldl_handled (lines : List (List UInt8)) :
    Handled reading (lines.foldl (host.handle kind today) reading) lines := by
  induction lines generalizing reading with
  | nil => exact ⟨rfl, rfl, (List.append_nil _).symm⟩
  | cons line lines ih => exact (handle_handled line).trans ih

/-- What is left of a line when the reader stops is nothing, or too long for a line. -/
def Left (skipping : Bool) (rest : List UInt8) : Prop :=
  if skipping then maxLineBytes < rest.length else rest = []

/-- The reader has come from `text` to `text ++ more`, with the lines that this completes. -/
structure Advance (text more : List UInt8) (reading reading' : Reading D) : Prop where
  offset : reading'.cursor.offset = reading.cursor.offset
  lines : reading'.lines = reading.lines ++
    short (splitLines newline ((splitLines newline text).2 ++ more)).1
  left : Left reading'.cursor.skipping
    (splitLines newline ((splitLines newline text).2 ++ more)).2

/-- What is left of the text is the beginning of a line, and no longer than a line. -/
structure Stops (text : List UInt8) (pos : ℕ) : Prop where
  le : pos ≤ text.length
  length : text.length - pos ≤ maxLineBytes
  rest : newline ∉ text.drop pos

theorem readText_spec (host : Host D) (kind : TranscriptKind) (today : D) (text : List UInt8)
    (hskip : reading.cursor.skipping = false) :
    Advance [] (text.take (text.length - (host.readText kind today text reading).1)) reading
      (host.readText kind today text reading).2 ∧
    Stops text (text.length - (host.readText kind today text reading).1) ∧
    (host.readText kind today text reading).1 ≤ text.length := by
  have hhandled : Handled reading
      ((short (splitLines newline text).1).foldl (host.handle kind today) reading)
      (short (splitLines newline text).1) := foldl_handled _
  obtain ⟨lines, htext, hlines⟩ := splitLines_eq newline text
  have hrest := notMem_splitLines newline text
  unfold Host.readText
  dsimp only
  split_ifs with hlong
  · refine ⟨⟨hhandled.offset, ?_, ?_⟩, ⟨Nat.sub_le _ _, by omega, by simp⟩, Nat.zero_le _⟩
    · simpa using hhandled.lines
    · simpa [Left] using hlong
  · have hsum := congrArg List.length htext
    rw [List.length_append] at hsum
    have hlength : text.length - (splitLines newline text).2.length = lines.length := by omega
    have htake : text.take lines.length = lines := by
      rw [htext, List.take_left]
    have hdrop : text.drop lines.length = (splitLines newline text).2 := by
      nth_rewrite 1 [htext]
      rw [List.drop_left]
    rw [hlength]
    refine ⟨⟨hhandled.offset, ?_, ?_⟩, ⟨by omega, by omega, by rwa [hdrop]⟩, by omega⟩
    · simpa [htake, hlines] using hhandled.lines
    · simp [Left, htake, hlines, hhandled.skipping, hskip]

/-- What a pass reads of its chunk, after `text`. -/
theorem readChunk_spec (host : Host D) (kind : TranscriptKind) (today : D) (chunk : List UInt8)
    (reading : Reading D) {text : List UInt8}
    (hleft : Left reading.cursor.skipping (splitLines newline text).2) :
    let begun := skipLine chunk reading
    let read := host.readLines kind today chunk chunk.length begun.1 begun.2
    Advance text (chunk.take read.1) reading read.2 ∧ Stops chunk read.1 := by
  intro begun read
  have hnot := notMem_splitLines newline text
  cases hskip : reading.cursor.skipping with
  | false =>
    have hbegun : begun = (0, reading) := by simp [begun, skipLine, hskip]
    have hread : read = _ := readLines_eq (by omega) (by simp [hbegun])
    rw [hbegun, List.drop_zero] at hread
    obtain ⟨hadvance, hstops, -⟩ := readText_spec host kind today chunk hskip
    have hrest : (splitLines newline text).2 = [] := by simpa [Left, hskip] using hleft
    rw [hread]
    refine ⟨⟨hadvance.offset, ?_, ?_⟩, hstops⟩
    · rw [hrest]
      exact hadvance.lines
    · rw [hrest]
      exact hadvance.left
  | true =>
    have hlong : maxLineBytes < (splitLines newline text).2.length := by
      simpa [Left, hskip] using hleft
    rcases eq_line_or_rest newline chunk with hchunk | ⟨line, rest, hline, hchunk⟩
    · -- the line goes on through the whole chunk
      have hbegun : begun = (chunk.length, reading) := by
        simp [begun, skipLine, hskip, findIdx?_none hchunk]
      have hread : read = _ := readLines_eq (by omega) (by simp [hbegun])
      have hall : splitLines newline ((splitLines newline text).2 ++ chunk) =
          ([], (splitLines newline text).2 ++ chunk) := splitLines_rest (by simp [hnot, hchunk])
      simp only [hbegun, List.drop_length, Host.readText, splitLines_nil, short, List.filter_nil,
        List.foldl_nil, List.length_nil, Nat.not_lt_zero, if_false, Nat.sub_zero, gt_iff_lt] at hread
      rw [hread]
      refine ⟨⟨rfl, ?_, ?_⟩, le_rfl, by omega, by simp⟩
      · simp [List.take_length, hall, short]
      · rw [List.take_length, hall, hskip]
        simp only [Left, if_true, List.length_append]
        omega
    · -- the line ends in the chunk, and it is too long
      have hbegun : begun = (line.length + 1, reading.resume) := by
        simp [begun, skipLine, hskip, hchunk, findIdx?_newline hline]
      have hlength : chunk.length = line.length + (rest.length + 1) := by
        rw [hchunk, List.length_append, List.length_cons]
      have hdrop : chunk.drop (line.length + 1) = rest := by
        rw [hchunk, List.drop_length_add_append]
        rfl
      have hread : read = _ := readLines_eq (by omega) (by simp [hbegun, hlength])
      rw [hbegun, hdrop] at hread
      have hresume : reading.resume.cursor.skipping = false := rfl
      obtain ⟨hadvance, hstops, hle⟩ := readText_spec host kind today rest hresume
      rw [hread]
      generalize host.readText kind today rest reading.resume = result at *
      have hpos : chunk.length - result.1 = line.length + (rest.length - result.1 + 1) := by omega
      have htake : chunk.take (chunk.length - result.1) =
          line ++ newline :: rest.take (rest.length - result.1) := by
        rw [hpos, hchunk, List.take_length_add_append, List.take_succ_cons]
      have hsplit : splitLines newline ((splitLines newline text).2 ++
          chunk.take (chunk.length - result.1)) =
          (((splitLines newline text).2 ++ line) ::
            (splitLines newline (rest.take (rest.length - result.1))).1,
            (splitLines newline (rest.take (rest.length - result.1))).2) := by
        rw [htake, ← List.append_assoc, splitLines_line (by simp [hnot, hline])]
      have hskipped : ¬ ((splitLines newline text).2 ++ line).length ≤ maxLineBytes := by
        rw [List.length_append]
        omega
      refine ⟨⟨hadvance.offset, ?_, ?_⟩, by omega, ?_, ?_⟩
      · rw [hsplit, short_cons_of_long hskipped]
        exact hadvance.lines
      · rw [hsplit]
        exact hadvance.left
      · have hmax := hstops.length
        omega
      · rw [hpos, hchunk, List.drop_length_add_append]
        exact hstops.rest

/-! ### Passes -/

/-- The reader has handled `lines` of the file, and stands at the cursor. -/
structure Caught (file : List UInt8) (cursor : TokenCursor D) (lines : List (List UInt8)) : Prop where
  offset : cursor.offset ≤ file.length
  lines : lines = short (splitLines newline (file.take cursor.offset)).1
  left : Left cursor.skipping (splitLines newline (file.take cursor.offset)).2

omit [DecidableEq D] in
/-- Nothing changes when the file grows. -/
theorem Caught.grow {file file' : List UInt8} {cursor : TokenCursor D} {lines : List (List UInt8)}
    (h : Caught file cursor lines) (hgrow : file <+: file') : Caught file' cursor lines := by
  obtain ⟨more, rfl⟩ := hgrow
  have htake : (file ++ more).take cursor.offset = file.take cursor.offset :=
    List.take_append_of_le_length h.offset
  refine ⟨?_, ?_, ?_⟩
  · rw [List.length_append]
    exact h.offset.trans (Nat.le_add_right _ _)
  · rw [htake]
    exact h.lines
  · rw [htake]
    exact h.left

theorem onDay_eq (cursor : TokenCursor D) (today : D) :
    (cursor.onDay today).offset = cursor.offset ∧
      (cursor.onDay today).skipping = cursor.skipping ∧
      (cursor.onDay today).totals = cursor.totals := by
  unfold TokenCursor.onDay
  split_ifs <;> exact ⟨rfl, rfl, rfl⟩

/-- A pass goes on from where the reader stands. -/
theorem Caught.pass {file : List UInt8} {cursor : TokenCursor D} {lines : List (List UInt8)}
    (h : Caught file cursor lines) (host : Host D) (path : String) (kind : TranscriptKind)
    (nowMs : ℕ) :
    Caught file (host.readTokens path file kind cursor nowMs).1.cursor
      (lines ++ (host.readTokens path file kind cursor nowMs).2) ∧
    ∃ pos, (host.readTokens path file kind cursor nowMs).1.cursor.offset = cursor.offset + pos ∧
      Stops ((file.drop cursor.offset).take maxPassBytes) pos := by
  obtain ⟨hoffset, hskipping, -⟩ := onDay_eq cursor (host.day nowMs)
  have hkept : ¬ file.length < cursor.offset := not_lt.2 h.offset
  unfold Host.readTokens
  simp only [if_neg hkept]
  generalize cursor.onDay (host.day nowMs) = begun at *
  generalize hchunk : (file.drop cursor.offset).take maxPassBytes = chunk
  have hleft : Left begun.skipping (splitLines newline (file.take cursor.offset)).2 :=
    hskipping ▸ h.left
  obtain ⟨hadvance, hstops⟩ := readChunk_spec host kind (host.day nowMs) chunk
    ⟨begun, begun.seen, [], [], []⟩ hleft
  generalize skipLine chunk ⟨begun, begun.seen, [], [], []⟩ = first at *
  generalize host.readLines kind (host.day nowMs) chunk chunk.length first.1 first.2 = read at *
  have hmax : chunk.length ≤ maxPassBytes := by
    rw [← hchunk]
    exact List.length_take_le _ _
  have hfile : chunk.length ≤ file.length - cursor.offset := by
    rw [← hchunk, ← List.length_drop]
    exact List.length_take_le' _ _
  have hle := hstops.le
  have htake : file.take (cursor.offset + read.1) = file.take cursor.offset ++ chunk.take read.1 := by
    rw [List.take_add, ← hchunk, List.take_take, min_eq_left (hle.trans hmax)]
  have hend : read.2.cursor.offset + read.1 = cursor.offset + read.1 := by
    rw [hadvance.offset, hoffset]
  refine ⟨⟨?_, ?_, ?_⟩, read.1, hend, hstops⟩
  · have hstart := h.offset
    show read.2.cursor.offset + read.1 ≤ file.length
    omega
  · rw [hend, htake, splitLines_append, short_append, ← h.lines]
    exact congrArg _ hadvance.lines
  · rw [hend, htake, splitLines_append]
    exact hadvance.left

omit [DecidableEq D] in
theorem Caught.prefix_lines {file : List UInt8} {cursor : TokenCursor D} {lines : List (List UInt8)}
    (h : Caught file cursor lines) : lines <+: short (splitLines newline file).1 := by
  have hfile : file = file.take cursor.offset ++ file.drop cursor.offset :=
    (List.take_append_drop _ _).symm
  rw [hfile, splitLines_append, short_append, ← h.lines]
  exact List.prefix_append _ _

/-- No line of the file is left to be read. -/
def Done (file : List UInt8) (cursor : TokenCursor D) : Prop := newline ∉ file.drop cursor.offset

omit [DecidableEq D] in
theorem Caught.all_lines {file : List UInt8} {cursor : TokenCursor D} {lines : List (List UInt8)}
    (h : Caught file cursor lines) (hdone : Done file cursor) :
    lines = short (splitLines newline file).1 := by
  have hfile : file = file.take cursor.offset ++ file.drop cursor.offset :=
    (List.take_append_drop _ _).symm
  have hnot : newline ∉ (splitLines newline (file.take cursor.offset)).2 ++ file.drop cursor.offset := by
    rw [List.mem_append, not_or]
    exact ⟨notMem_splitLines _ _, hdone⟩
  rw [hfile, splitLines_append, short_append, ← h.lines, splitLines_rest hnot]
  simp [short]

/-- A pass comes further, or to the end of the file. -/
theorem Caught.progress {file : List UInt8} {cursor : TokenCursor D} {lines : List (List UInt8)}
    (h : Caught file cursor lines) (host : Host D) (path : String) (kind : TranscriptKind)
    (nowMs : ℕ) :
    Done file (host.readTokens path file kind cursor nowMs).1.cursor ∨
      cursor.offset < (host.readTokens path file kind cursor nowMs).1.cursor.offset := by
  obtain ⟨-, pos, hoffset, hstops⟩ := h.pass host path kind nowMs
  have hlength := hstops.length
  rw [List.length_take, List.length_drop] at hlength
  by_cases hall : file.length - cursor.offset ≤ maxPassBytes
  · left
    have hrest := hstops.rest
    rw [List.take_of_length_le (by rwa [List.length_drop]), List.drop_drop] at hrest
    unfold Done
    rwa [hoffset]
  · right
    have hroom : maxLineBytes < maxPassBytes := by decide
    omega

omit [DecidableEq D] in
theorem Done.mono {file : List UInt8} {cursor cursor' : TokenCursor D} (h : Done file cursor)
    (hle : cursor.offset ≤ cursor'.offset) : Done file cursor' := by
  intro hmem
  refine h ?_
  rw [← Nat.add_sub_cancel' hle, ← List.drop_drop] at hmem
  exact List.mem_of_mem_drop hmem

/-- The cursor after the passes. -/
def lastCursor (start : TokenCursor D) (passes : List (TokenPass D × List (List UInt8))) :
    TokenCursor D :=
  passes.foldl (fun _ pass => pass.1.cursor) start

theorem readPasses_append (host : Host D) (path : String) (kind : TranscriptKind)
    (start : TokenCursor D) (looks more : List Look) :
    host.readPasses path kind start (looks ++ more) = host.readPasses path kind start looks ++
      host.readPasses path kind (lastCursor start (host.readPasses path kind start looks)) more := by
  induction looks generalizing start with
  | nil => rfl
  | cons look looks ih =>
    simp only [List.cons_append, Host.readPasses, ih]
    rfl

omit [DecidableEq D] in
theorem saved_eq (cursor : TokenCursor D) (cleared : Bool) :
    (cursor.saved cleared).offset = cursor.offset ∧
      (cursor.saved cleared).skipping = cursor.skipping ∧
      (cursor.saved cleared).totals = cursor.totals := by
  unfold TokenCursor.saved
  split_ifs <;> exact ⟨rfl, rfl, rfl⟩

omit [DecidableEq D] in
theorem Caught.saved {file : List UInt8} {cursor : TokenCursor D} {lines : List (List UInt8)}
    (h : Caught file cursor lines) (cleared : Bool) : Caught file (cursor.saved cleared) lines := by
  obtain ⟨hoffset, hskipping, -⟩ := saved_eq cursor cleared
  exact ⟨hoffset ▸ h.offset, hoffset ▸ h.lines, hskipping ▸ hoffset ▸ h.left⟩

/-- The passes over a file that grows. -/
theorem Caught.passes {file : List UInt8} {cursor : TokenCursor D} {lines : List (List UInt8)}
    {looks : List Look} (h : Caught file cursor lines) (host : Host D) (path : String)
    (kind : TranscriptKind) (hgrow : (file :: looks.map Look.file).IsChain (· <+: ·)) :
    Caught ((looks.map Look.file).getLastD file)
      (lastCursor cursor (host.readPasses path kind cursor looks))
      (lines ++ (host.readPasses path kind cursor looks).flatMap Prod.snd) := by
  induction looks generalizing file cursor lines with
  | nil => simpa [Host.readPasses, lastCursor] using h
  | cons next looks ih =>
    rw [List.map_cons, List.isChain_cons_cons] at hgrow
    obtain ⟨hpass, -⟩ := ((h.grow hgrow.1).saved next.cleared).pass host path kind next.nowMs
    have hrest := ih hpass hgrow.2
    rw [List.append_assoc] at hrest
    rw [List.map_cons, List.getLastD_cons]
    exact hrest

/-- Passes over a file that has stopped growing come to its end. -/
theorem Caught.passes_done {file : List UInt8} {cursor : TokenCursor D} {lines : List (List UInt8)}
    {looks : List Look} (h : Caught file cursor lines) (host : Host D) (path : String)
    (kind : TranscriptKind) (hlooks : ∀ look ∈ looks, look.file = file) :
    let last := lastCursor cursor (host.readPasses path kind cursor looks)
    cursor.offset ≤ last.offset ∧
      (Done file last ∨ cursor.offset + looks.length ≤ last.offset) := by
  induction looks generalizing cursor lines with
  | nil => exact ⟨le_rfl, .inr le_rfl⟩
  | cons look looks ih =>
    obtain ⟨hfile, hlooks⟩ := List.forall_mem_cons.1 hlooks
    subst hfile
    have hsaved := h.saved look.cleared
    have hsame := (saved_eq cursor look.cleared).1
    obtain ⟨hpass, pos, hoffset, -⟩ := hsaved.pass host path kind look.nowMs
    obtain ⟨hle, hrest⟩ := ih hpass hlooks
    have hstart : cursor.offset ≤
        (host.readTokens path look.file kind (cursor.saved look.cleared) look.nowMs).1.cursor.offset := by
      omega
    refine ⟨hstart.trans hle, ?_⟩
    rcases hsaved.progress host path kind look.nowMs with hdone | hlt
    · exact .inl (hdone.mono hle)
    · refine hrest.imp id fun hsum => le_trans ?_ hsum
      rw [List.length_cons]
      omega

/-! ### The totals of Codex -/

/-- The totals that a line reports. -/
def Host.usage (host : Host D) (line : List UInt8) : Option (ℕ × ℕ) :=
  ((host.fromSlice (trimAscii line)).bind host.codexUsage).map Prod.snd

/-- The greatest input and the greatest output. -/
def greatest (start : ℕ × ℕ) (usages : List (ℕ × ℕ)) : ℕ × ℕ :=
  usages.foldl (fun most usage => (max most.1 usage.1, max most.2 usage.2)) start

/-- The input and the output of the entries. -/
def tokensOf (entries : List (TokenEntry D)) : ℕ × ℕ :=
  ((entries.map TokenEntry.input).sum, (entries.map TokenEntry.output).sum)

def TokenCursor.most (cursor : TokenCursor D) : ℕ × ℕ := cursor.totals.getD (0, 0)

/-- The entries that come with the lines are what they add to the totals. -/
def Tallied (host : Host D) (reading reading' : Reading D) : Prop :=
  ∃ lines, reading'.lines = reading.lines ++ lines ∧
    reading'.cursor.most = greatest reading.cursor.most (lines.filterMap host.usage) ∧
    tokensOf reading'.entries + reading.cursor.most = tokensOf reading.entries + reading'.cursor.most

omit [DecidableEq D] in
theorem tokensOf_append (entries more : List (TokenEntry D)) :
    tokensOf (entries ++ more) = tokensOf entries + tokensOf more := by
  simp [tokensOf]

omit [DecidableEq D] in
theorem Tallied.refl (host : Host D) (reading : Reading D) : Tallied host reading reading :=
  ⟨[], by simp [greatest]⟩

omit [DecidableEq D] in
theorem Tallied.trans {reading' reading'' : Reading D} (h : Tallied host reading reading')
    (h' : Tallied host reading' reading'') : Tallied host reading reading'' := by
  obtain ⟨lines, hlines, hmost, hsum⟩ := h
  obtain ⟨lines', hlines', hmost', hsum'⟩ := h'
  refine ⟨lines ++ lines', by rw [hlines', hlines, List.append_assoc], ?_, ?_⟩
  · rw [hmost', hmost, List.filterMap_append]
    exact (List.foldl_append ..).symm
  · refine add_right_cancel (b := reading'.cursor.most) ?_
    calc tokensOf reading''.entries + reading.cursor.most + reading'.cursor.most
        = tokensOf reading''.entries + reading'.cursor.most + reading.cursor.most := by abel
      _ = tokensOf reading'.entries + reading.cursor.most + reading''.cursor.most := by
          rw [hsum']; abel
      _ = tokensOf reading.entries + reading''.cursor.most + reading'.cursor.most := by
          rw [hsum]; abel

omit [DecidableEq D] in
theorem noteTurn_eq (host : Host D) (kind : TranscriptKind) (value : Value) (reading : Reading D) :
    (host.noteTurn kind value reading).cursor = reading.cursor ∧
      (host.noteTurn kind value reading).entries = reading.entries ∧
      (host.noteTurn kind value reading).lines = reading.lines := by
  unfold Host.noteTurn
  split <;> exact ⟨rfl, rfl, rfl⟩

/-- What a line of Codex does to the totals and the entries. -/
theorem noteEntry_codex (host : Host D) (today : D) (value : Value) (reading : Reading D) :
    (host.noteEntry .codex today value reading).cursor.most =
      greatest reading.cursor.most ((host.codexUsage value).map Prod.snd).toList ∧
    tokensOf (host.noteEntry .codex today value reading).entries + reading.cursor.most =
      tokensOf reading.entries + (host.noteEntry .codex today value reading).cursor.most := by
  unfold Host.noteEntry Host.entry Host.codexEntry
  cases hvalue : host.codexUsage value with
  | none => exact ⟨rfl, rfl⟩
  | some usage =>
    obtain ⟨atMs, input, output⟩ := usage
    dsimp only
    have hmost : reading.cursor.totals.getD (0, 0) = reading.cursor.most := rfl
    rw [hmost]
    split_ifs with hpos
    · refine ⟨rfl, ?_⟩
      rw [tokensOf_append]
      ext
      · simp [tokensOf, TokenCursor.most]
        omega
      · simp [tokensOf, TokenCursor.most]
        omega
    · refine ⟨rfl, ?_⟩
      have hzero : input - reading.cursor.most.1 = 0 ∧ output - reading.cursor.most.2 = 0 := by
        omega
      ext
      · simp [TokenCursor.most] at *
        omega
      · simp [TokenCursor.most] at *
        omega

theorem handle_tallied (host : Host D) (today : D) (reading : Reading D) (line : List UInt8) :
    Tallied host reading (host.handle .codex today reading line) := by
  refine ⟨[line], (handle_handled line).lines, ?_⟩
  unfold Host.handle
  cases hvalue : host.fromSlice (trimAscii line) with
  | none => simp [Host.usage, hvalue, greatest]
  | some value =>
    have hline : List.filterMap host.usage [line] =
        ((host.codexUsage value).map Prod.snd).toList := by
      simp only [List.filterMap_cons, Host.usage, hvalue, Option.bind_some, List.filterMap_nil]
      cases host.codexUsage value <;> rfl
    obtain ⟨hcursor, hentries, -⟩ := noteTurn_eq host .codex value
      { reading with lines := reading.lines ++ [line] }
    obtain ⟨hmost, hsum⟩ := noteEntry_codex host today value
      (host.noteTurn .codex value { reading with lines := reading.lines ++ [line] })
    rw [hcursor] at hmost hsum
    rw [hentries] at hsum
    rw [hline]
    exact ⟨hmost, hsum⟩

theorem readLines_tallied (host : Host D) (today : D) (chunk : List UInt8) (fuel pos : ℕ)
    (reading : Reading D) :
    Tallied host reading (host.readLines .codex today chunk fuel pos reading).2 := by
  induction fuel generalizing pos reading with
  | zero => exact .refl host reading
  | succ fuel ih =>
    unfold Host.readLines
    by_cases hlt : pos < chunk.length
    · rw [if_pos hlt]
      split
      · split_ifs
        · exact Tallied.refl host reading
        · exact Tallied.refl host reading
      · dsimp only
        split_ifs
        · exact ih _ _
        · exact (handle_tallied host today reading _).trans (ih _ _)
    · rw [if_neg hlt]
      exact Tallied.refl host reading

omit [DecidableEq D] in
theorem skipLine_eq (chunk : List UInt8) (reading : Reading D) :
    (skipLine chunk reading).2.cursor.most = reading.cursor.most ∧
      (skipLine chunk reading).2.entries = reading.entries ∧
      (skipLine chunk reading).2.lines = reading.lines := by
  unfold skipLine
  split_ifs
  · split <;> exact ⟨rfl, rfl, rfl⟩
  · exact ⟨rfl, rfl, rfl⟩

/-- The tokens of a pass are what it adds to the totals. -/
theorem readTokens_tallied (host : Host D) (path : String) (file : List UInt8)
    (start : TokenCursor D) (nowMs : ℕ) :
    (host.readTokens path file .codex start nowMs).1.cursor.most = greatest start.most
        ((host.readTokens path file .codex start nowMs).2.filterMap host.usage) ∧
      tokensOf (host.readTokens path file .codex start nowMs).1.entries + start.most =
        (host.readTokens path file .codex start nowMs).1.cursor.most := by
  have hreset : (if file.length < start.offset then { start with offset := 0, skipping := false }
      else start).most = start.most := by
    split_ifs <;> rfl
  unfold Host.readTokens
  generalize (if file.length < start.offset then { start with offset := 0, skipping := false }
      else start) = begun at *
  dsimp only
  have hday : (begun.onDay (host.day nowMs)).most = begun.most :=
    congrArg (fun totals => totals.getD (0, 0)) (onDay_eq begun (host.day nowMs)).2.2
  generalize (file.drop begun.offset).take maxPassBytes = chunk
  obtain ⟨hmost, hentries, hlines⟩ := skipLine_eq chunk
    (⟨begun.onDay (host.day nowMs), (begun.onDay (host.day nowMs)).seen, [], [], []⟩ : Reading D)
  generalize skipLine chunk
    ⟨begun.onDay (host.day nowMs), (begun.onDay (host.day nowMs)).seen, [], [], []⟩ = first at *
  obtain ⟨lines, hread, htotals, hsum⟩ :=
    readLines_tallied host (host.day nowMs) chunk chunk.length first.1 first.2
  generalize host.readLines .codex (host.day nowMs) chunk chunk.length first.1 first.2 = read at *
  have hfirst : first.2.cursor.most = start.most := hmost.trans (hday.trans hreset)
  rw [hfirst] at htotals hsum
  rw [hlines, List.nil_append] at hread
  rw [hentries] at hsum
  refine ⟨?_, ?_⟩
  · rw [hread]
    exact htotals
  · exact hsum.trans (zero_add _)

/-- **The tokens of all passes** are what the lines that they handle add to the totals. -/
theorem readPasses_tallied (host : Host D) (path : String) (start : TokenCursor D)
    (looks : List Look) :
    let passes := host.readPasses path .codex start looks
    (lastCursor start passes).most =
        greatest start.most ((passes.flatMap Prod.snd).filterMap host.usage) ∧
      tokensOf (passes.flatMap fun pass => pass.1.entries) + start.most =
        (lastCursor start passes).most := by
  induction looks generalizing start with
  | nil => exact ⟨rfl, zero_add _⟩
  | cons look looks ih =>
    have hsaved : (start.saved look.cleared).most = start.most :=
      congrArg (fun totals => totals.getD (0, 0)) (saved_eq start look.cleared).2.2
    obtain ⟨hmost, hsum⟩ :=
      readTokens_tallied host path look.file (start.saved look.cleared) look.nowMs
    rw [hsaved] at hmost hsum
    obtain ⟨hrest, hrests⟩ :=
      ih (host.readTokens path look.file .codex (start.saved look.cleared) look.nowMs).1.cursor
    simp only [Host.readPasses, List.flatMap_cons, List.filterMap_append, tokensOf_append]
    refine ⟨?_, ?_⟩
    · rw [hmost] at hrest
      exact hrest.trans (List.foldl_append ..).symm
    · rw [← hsum] at hrests
      calc _ = _ := by abel
        _ = _ := hrests

end Paneflow.Usage.Tokens
