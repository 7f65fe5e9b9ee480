import Paneflow.Utf8Lossy
import Mathlib.Data.List.Infix

/-!
# Lines over a connection

line_wire.rs. A connection delivers its bytes in pieces, with read timeouts in between (`Arrival`). On Unix
`read_line` collects a line in a local buffer, so that the beginning of a line is lost when the read times out
inside it; on Windows it is kept in the `Wire` for the next call. `read_lines` says that the lines come out
as they were written: always on Windows, and on Unix in every run in which no read times out inside a line
(`Whole`).
-/

namespace Paneflow.Ipc.LineWire

open Paneflow.Utf8

/-- What a read of the connection gives; no bytes are the end of the stream. -/
inductive Arrival where
  | data (bytes : List UInt8)
  | timeout
  deriving DecidableEq, Repr

inductive LineRead where
  | line (text : List Char)
  | eof
  | tooLong
  | idle
  | timedOut
  deriving DecidableEq, Repr

inductive Platform where
  | windows
  | unix
  deriving DecidableEq, Repr

def newline : UInt8 := 10

/-- `write_line`: the line with its newline, if it is not longer than a frame. -/
def writeLine (maxFrame : ℕ) (line : List UInt8) : Option (List UInt8) :=
  if line.length > maxFrame then none else some (line ++ [newline])

/-- `read_until` on the bytes that are there, of which at most `limit` are taken. -/
def readUntil : ℕ → List UInt8 → List UInt8 × List UInt8 × Bool
  | 0, bytes => ([], bytes, false)
  | _ + 1, [] => ([], [], false)
  | limit + 1, byte :: bytes =>
    if byte = newline then ([byte], bytes, true)
    else
      let (taken, rest, found) := readUntil limit bytes
      (byte :: taken, rest, found)

/-- A call of `read_line` on Unix that has read `buf`, with the bytes that the reader has buffered; nothing
when it waits for an arrival that does not come. -/
def readLineUnix (maxFrame : ℕ) (buf buffered : List UInt8) (arrivals : List Arrival) :
    Option (LineRead × List UInt8 × List Arrival) :=
  let (taken, rest, found) := readUntil (maxFrame + 1 - buf.length) buffered
  let buf := buf ++ taken
  if found then
    if buf.length > maxFrame + 1 then some (.tooLong, rest, arrivals)
    else some (.line (trimEnd (fromUtf8Lossy buf)), rest, arrivals)
  else if maxFrame + 1 - buf.length = 0 then some (.tooLong, rest, arrivals)
  else
    match arrivals with
    | [] => none
    | .timeout :: arrivals => some (if buf.isEmpty then .idle else .timedOut, rest, arrivals)
    | .data [] :: arrivals =>
      some (if buf.isEmpty then .eof else .line (fromUtf8Lossy buf), rest, arrivals)
    | .data bytes :: arrivals => readLineUnix maxFrame buf bytes arrivals

/-- A call of `read_line` on Windows. -/
def readLineWindows (maxFrame : ℕ) (pending : List UInt8) (arrivals : List Arrival) :
    Option (LineRead × List UInt8 × List Arrival) :=
  let (taken, rest, found) := readUntil pending.length pending
  if found then
    if taken.length > maxFrame + 1 then some (.tooLong, rest, arrivals)
    else some (.line (trimEnd (fromUtf8Lossy taken)), rest, arrivals)
  else if pending.length > maxFrame then some (.tooLong, pending, arrivals)
  else
    match arrivals with
    | [] => none
    | .timeout :: arrivals =>
      some (if pending.isEmpty then .idle else .timedOut, pending, arrivals)
    | .data [] :: arrivals =>
      some (if pending.isEmpty then (.eof, pending, arrivals)
        else (.line (fromUtf8Lossy pending), [], arrivals))
    | .data bytes :: arrivals => readLineWindows maxFrame (pending ++ bytes) arrivals

def readLine (platform : Platform) (maxFrame : ℕ) (held : List UInt8) (arrivals : List Arrival) :
    Option (LineRead × List UInt8 × List Arrival) :=
  match platform with
  | .windows => readLineWindows maxFrame held arrivals
  | .unix => readLineUnix maxFrame [] held arrivals

/-- The results of the next calls, at most `calls`, and whether one of them waits for more. -/
def readLines (platform : Platform) (maxFrame : ℕ) :
    ℕ → List UInt8 → List Arrival → List LineRead × Bool
  | 0, _, _ => ([], false)
  | calls + 1, held, arrivals =>
    match readLine platform maxFrame held arrivals with
    | none => ([], true)
    | some (result, held, arrivals) =>
      let (results, waits) := readLines platform maxFrame calls held arrivals
      (result :: results, waits)

/-- The lines among the results. -/
def linesOf (results : List LineRead) : List (List Char) :=
  results.filterMap fun
    | .line text => some text
    | _ => none

/-- The bytes that arrive. -/
def dataOf : List Arrival → List UInt8
  | [] => []
  | .data bytes :: arrivals => bytes ++ dataOf arrivals
  | .timeout :: arrivals => dataOf arrivals

/-- The bytes that go out when the lines are written. -/
def written (maxFrame : ℕ) (lines : List (List Char)) : List UInt8 :=
  lines.flatMap fun line => (writeLine maxFrame (bytes line)).getD []

/-- A line that can be sent: it fits a frame, and has no newline and no white space at its end. -/
structure Sendable (maxFrame : ℕ) (line : List Char) : Prop where
  length : (bytes line).length ≤ maxFrame
  single : '\n' ∉ line
  trimmed : trimEnd line = line

/-- The bytes end with a line, or there are none. -/
def AtLineEnd (text : List UInt8) : Prop := text = [] ∨ text.getLast? = some newline

/-- No read times out inside a line, where `text` has arrived before. -/
def Whole (text : List UInt8) : List Arrival → Prop
  | [] => True
  | .timeout :: arrivals => AtLineEnd text ∧ Whole text arrivals
  | .data bytes :: arrivals => Whole (text ++ bytes) arrivals

instance (text : List UInt8) : Decidable (AtLineEnd text) :=
  inferInstanceAs (Decidable (_ ∨ _))

instance decidableWhole (text : List UInt8) : (arrivals : List Arrival) →
    Decidable (Whole text arrivals)
  | [] => inferInstanceAs (Decidable True)
  | .timeout :: arrivals =>
    have := decidableWhole text arrivals
    inferInstanceAs (Decidable (_ ∧ _))
  | .data bytes :: arrivals => decidableWhole (text ++ bytes) arrivals

/-! ### One call -/

theorem readUntil_cases (limit : ℕ) (text : List UInt8) :
    (∃ line rest, readUntil limit text = (line ++ [newline], rest, true) ∧
      newline ∉ line ∧ text = line ++ newline :: rest) ∨
    (∃ taken rest, readUntil limit text = (taken, rest, false) ∧
      newline ∉ taken ∧ text = taken ++ rest ∧ taken.length = min limit text.length) := by
  induction limit generalizing text with
  | zero => exact .inr ⟨[], text, by simp [readUntil]⟩
  | succ limit ih =>
    cases text with
    | nil => exact .inr ⟨[], [], by simp [readUntil]⟩
    | cons byte text =>
      by_cases hbyte : byte = newline
      · subst hbyte
        exact .inl ⟨[], text, by simp [readUntil]⟩
      · have hnot {line : List UInt8} (h : newline ∉ line) : newline ∉ byte :: line := by
          simp [h, Ne.symm hbyte]
        rcases ih text with
          ⟨line, rest, hread, hline, rfl⟩ | ⟨taken, rest, hread, htaken, rfl, hlength⟩
        · exact .inl ⟨byte :: line, rest, by simp [readUntil, hbyte, hread], hnot hline, by simp⟩
        · refine .inr ⟨byte :: taken, rest, by simp [readUntil, hbyte, hread], hnot htaken,
            by simp, ?_⟩
          rw [List.length_cons, hlength, List.length_cons]
          omega

/-- What a call makes of the bytes that are still to be read. -/
def Reads (text : List UInt8) (arrivals : List Arrival) :
    Option (LineRead × List UInt8 × List Arrival) → Prop
  | none => newline ∉ text
  | some (.line read, held, arrivals') => arrivals' <:+ arrivals ∧ ∃ line,
      newline ∉ line ∧ text = line ++ newline :: (held ++ dataOf arrivals') ∧
      read = trimEnd (fromUtf8Lossy (line ++ [newline]))
  | some (.idle, held, arrivals') => .timeout :: arrivals' <:+ arrivals ∧
      text = held ++ dataOf arrivals'
  | some (.timedOut, held, arrivals') => .timeout :: arrivals' <:+ arrivals ∧
      text = held ++ dataOf arrivals'
  | some _ => False

/-- No line of the text is longer than a frame. -/
def Short (maxFrame : ℕ) (text : List UInt8) : Prop :=
  ∀ line, line <+: text → newline ∉ line → line.length ≤ maxFrame

/-- What a call leaves to the next ones. -/
def Leaves (inv : List UInt8 → List Arrival → Prop) :
    Option (LineRead × List UInt8 × List Arrival) → Prop
  | none => True
  | some (_, held, arrivals) => inv held arrivals

/-- What a call on Unix does when it has taken all the bytes that are there, without a newline. -/
def awaitUnix (maxFrame : ℕ) (buf : List UInt8) :
    List Arrival → Option (LineRead × List UInt8 × List Arrival)
  | [] => none
  | .timeout :: arrivals => some (if buf.isEmpty then .idle else .timedOut, [], arrivals)
  | .data [] :: arrivals => some (if buf.isEmpty then .eof else .line (fromUtf8Lossy buf), [], arrivals)
  | .data bytes :: arrivals => readLineUnix maxFrame buf bytes arrivals

/-- What a call on Windows does when there is no newline among the bytes that are there. -/
def awaitWindows (maxFrame : ℕ) (pending : List UInt8) :
    List Arrival → Option (LineRead × List UInt8 × List Arrival)
  | [] => none
  | .timeout :: arrivals => some (if pending.isEmpty then .idle else .timedOut, pending, arrivals)
  | .data [] :: arrivals =>
    some (if pending.isEmpty then (.eof, pending, arrivals)
      else (.line (fromUtf8Lossy pending), [], arrivals))
  | .data bytes :: arrivals => readLineWindows maxFrame (pending ++ bytes) arrivals

section
variable {maxFrame : ℕ} {buf buffered pending text : List UInt8} {arrivals : List Arrival}

/-- What is left after a line is whole as the rest of it is. -/
theorem whole_after_line {line : List UInt8} (h : Whole (line ++ newline :: text) arrivals) :
    Whole text arrivals := by
  induction arrivals generalizing text with
  | nil => trivial
  | cons arrival arrivals ih =>
    cases arrival with
    | timeout =>
      refine ⟨?_, ih h.2⟩
      rcases h.1 with hnil | hlast
      · simp at hnil
      · cases text with
        | nil => exact .inl rfl
        | cons byte text =>
          right
          rw [List.getLast?_append, List.getLast?_cons_cons] at hlast
          simpa using hlast
    | data data =>
      have hdata : Whole (line ++ newline :: (text ++ data)) arrivals := by
        simpa [Whole] using h
      exact ih hdata

theorem AtLineEnd.eq_nil (h : AtLineEnd text) (hnot : newline ∉ text) : text = [] := by
  rcases h with hnil | hlast
  · exact hnil
  · exact absurd (List.mem_of_getLast? hlast) hnot

theorem Reads.mono {arrival : Arrival} {result : Option (LineRead × List UInt8 × List Arrival)}
    (h : Reads text arrivals result) : Reads text (arrival :: arrivals) result := by
  match result, h with
  | none, h => exact h
  | some (.line _, _, _), ⟨hrest, h⟩ => exact ⟨hrest.trans (List.suffix_cons _ _), h⟩
  | some (.idle, _, _), ⟨hrest, h⟩ => exact ⟨hrest.trans (List.suffix_cons _ _), h⟩
  | some (.timedOut, _, _), ⟨hrest, h⟩ => exact ⟨hrest.trans (List.suffix_cons _ _), h⟩

/-- The line that a short text begins with, newline included, fits a frame. -/
theorem Short.line_length {line more : List UInt8} (h : Short maxFrame (line ++ newline :: more))
    (hline : newline ∉ line) : (line ++ [newline]).length ≤ maxFrame + 1 := by
  have hle := h line ⟨newline :: more, rfl⟩ hline
  rw [List.length_append, List.length_singleton]
  omega

/-- A call reads the line that the text begins with. -/
theorem reads_line {line rest : List UInt8} (hline : newline ∉ line)
    (htext : text = line ++ newline :: (rest ++ dataOf arrivals)) :
    Reads text arrivals
      (some (.line (trimEnd (fromUtf8Lossy (line ++ [newline]))), rest, arrivals)) :=
  ⟨List.suffix_rfl, line, hline, htext, rfl⟩

/-- A call on Unix that finds a newline, or else takes all the bytes that are there. -/
theorem readLineUnix_eq (hbuf : newline ∉ buf)
    (hshort : Short maxFrame (buf ++ (buffered ++ dataOf arrivals))) :
    (∃ line rest, newline ∉ line ∧ buf ++ buffered = line ++ newline :: rest ∧
      readLineUnix maxFrame buf buffered arrivals =
        some (.line (trimEnd (fromUtf8Lossy (line ++ [newline]))), rest, arrivals)) ∨
    newline ∉ buf ++ buffered ∧ readLineUnix maxFrame buf buffered arrivals =
      awaitUnix maxFrame (buf ++ buffered) arrivals := by
  rcases readUntil_cases (maxFrame + 1 - buf.length) buffered with
    ⟨line, rest, hread, hline, rfl⟩ | ⟨taken, rest, hread, htaken, rfl, hlength⟩
  · have hnot : newline ∉ buf ++ line := by simp [hbuf, hline]
    have htext : buf ++ (line ++ newline :: rest) = buf ++ line ++ newline :: rest := by simp
    refine .inl ⟨buf ++ line, rest, hnot, htext, ?_⟩
    rw [← List.append_assoc, htext, List.append_assoc, List.cons_append] at hshort
    have hfits : ¬ (buf ++ (line ++ [newline])).length > maxFrame + 1 := by
      rw [← List.append_assoc]
      exact not_lt_of_ge (hshort.line_length hnot)
    unfold readLineUnix
    simp only [hread, hfits, if_true, if_false, List.append_assoc]
  · have hprefix : buf ++ taken <+: buf ++ (taken ++ rest ++ dataOf arrivals) :=
      ⟨rest ++ dataOf arrivals, by simp⟩
    have hnot : newline ∉ buf ++ taken := by simp [hbuf, htaken]
    have hle := hshort _ hprefix hnot
    rw [List.length_append] at hle hlength
    -- the frame is not full, so that it was for want of bytes that no newline was found
    have hrest : rest = [] := List.length_eq_zero_iff.1 (by omega)
    subst hrest
    have hroom : ¬ maxFrame + 1 - (buf ++ taken).length = 0 := by
      rw [List.length_append]
      omega
    rw [List.append_nil]
    refine .inr ⟨hnot, ?_⟩
    rw [List.append_nil] at hread
    rw [readLineUnix.eq_def]
    simp only [hread, hroom, if_false, Bool.false_eq_true]
    rfl

/-- A call on Windows that finds a newline, or else keeps all the bytes that are there. -/
theorem readLineWindows_eq (hshort : Short maxFrame (pending ++ dataOf arrivals)) :
    (∃ line rest, newline ∉ line ∧ pending = line ++ newline :: rest ∧
      readLineWindows maxFrame pending arrivals =
        some (.line (trimEnd (fromUtf8Lossy (line ++ [newline]))), rest, arrivals)) ∨
    newline ∉ pending ∧ readLineWindows maxFrame pending arrivals =
      awaitWindows maxFrame pending arrivals := by
  rcases readUntil_cases pending.length pending with
    ⟨line, rest, hread, hline, htext⟩ | ⟨taken, rest, hread, htaken, htext, hlength⟩
  · refine .inl ⟨line, rest, hline, htext, ?_⟩
    have hfits : ¬ (line ++ [newline]).length > maxFrame + 1 := by
      rw [htext, List.append_assoc, List.cons_append] at hshort
      exact not_lt_of_ge (hshort.line_length hline)
    unfold readLineWindows
    simp only [hread, hfits, if_true, if_false]
  · rw [min_self] at hlength
    have hrest : rest = [] := by
      rw [htext, List.length_append] at hlength
      exact List.length_eq_zero_iff.1 (by omega)
    rw [hrest, List.append_nil] at htext
    subst htext
    have hroom : ¬ pending.length > maxFrame := not_lt_of_ge (hshort _ ⟨_, rfl⟩ htaken)
    refine .inr ⟨htaken, ?_⟩
    rw [readLineWindows.eq_def]
    simp only [hread, hroom, if_false, Bool.false_eq_true]
    rfl

/-- A call on Unix, when no read times out inside a line. -/
theorem readLineUnix_spec (hbuf : newline ∉ buf) (hdata : ∀ arrival ∈ arrivals, arrival ≠ .data [])
    (hshort : Short maxFrame (buf ++ (buffered ++ dataOf arrivals)))
    (hwhole : Whole (buf ++ buffered) arrivals) :
    Reads (buf ++ (buffered ++ dataOf arrivals)) arrivals
      (readLineUnix maxFrame buf buffered arrivals) ∧
    Leaves Whole (readLineUnix maxFrame buf buffered arrivals) := by
  induction arrivals generalizing buf buffered with
  | nil =>
    rcases readLineUnix_eq hbuf hshort with ⟨line, rest, hline, htext, hread⟩ | ⟨hnot, hread⟩
    · rw [htext] at hwhole
      rw [hread]
      refine ⟨reads_line hline ?_, whole_after_line hwhole⟩
      rw [← List.append_assoc, htext, List.append_assoc, List.cons_append]
    · rw [hread]
      exact ⟨by simpa [Reads, awaitUnix, dataOf] using hnot, trivial⟩
  | cons arrival arrivals ih =>
    rcases readLineUnix_eq hbuf hshort with ⟨line, rest, hline, htext, hread⟩ | ⟨hnot, hread⟩
    · rw [htext] at hwhole
      rw [hread]
      refine ⟨reads_line hline ?_, whole_after_line hwhole⟩
      rw [← List.append_assoc, htext, List.append_assoc, List.cons_append]
    · rw [hread]
      match arrival, hdata, hshort, hwhole with
      | .timeout, _, _, hwhole =>
        obtain ⟨hend, hwhole⟩ := hwhole
        have hnil := hend.eq_nil hnot
        rw [hnil] at hwhole
        refine ⟨?_, by simpa [awaitUnix, Leaves] using hwhole⟩
        rw [← List.append_assoc, hnil]
        simp [awaitUnix, Reads, dataOf]
      | .data [], hdata, _, _ => exact absurd rfl (hdata _ List.mem_cons_self)
      | .data (byte :: data), hdata, hshort, hwhole =>
        have hall : buf ++ (buffered ++ dataOf (.data (byte :: data) :: arrivals)) =
            buf ++ buffered ++ (byte :: data ++ dataOf arrivals) := by simp [dataOf]
        rw [hall] at hshort ⊢
        obtain ⟨hreads, hleaves⟩ := ih hnot
          (fun arrival hmem => hdata arrival (List.mem_cons_of_mem _ hmem)) hshort hwhole
        exact ⟨hreads.mono, hleaves⟩

/-- A call on Windows. -/
theorem readLineWindows_spec (hdata : ∀ arrival ∈ arrivals, arrival ≠ .data [])
    (hshort : Short maxFrame (pending ++ dataOf arrivals)) :
    Reads (pending ++ dataOf arrivals) arrivals (readLineWindows maxFrame pending arrivals) := by
  induction arrivals generalizing pending with
  | nil =>
    rcases readLineWindows_eq hshort with ⟨line, rest, hline, rfl, hread⟩ | ⟨hnot, hread⟩
    · rw [hread]
      exact reads_line hline (by simp)
    · rw [hread]
      simpa [Reads, awaitWindows, dataOf] using hnot
  | cons arrival arrivals ih =>
    rcases readLineWindows_eq hshort with ⟨line, rest, hline, rfl, hread⟩ | ⟨hnot, hread⟩
    · rw [hread]
      exact reads_line hline (by simp)
    · rw [hread]
      match arrival, hdata, hshort with
      | .timeout, _, _ =>
        unfold awaitWindows
        split_ifs
        · exact ⟨List.suffix_rfl, rfl⟩
        · exact ⟨List.suffix_rfl, rfl⟩
      | .data [], hdata, _ => exact absurd rfl (hdata _ List.mem_cons_self)
      | .data (byte :: data), hdata, hshort =>
        have hall : pending ++ dataOf (.data (byte :: data) :: arrivals) =
            pending ++ byte :: data ++ dataOf arrivals := by simp [dataOf]
        rw [hall] at hshort ⊢
        exact (ih (fun arrival hmem => hdata arrival (List.mem_cons_of_mem _ hmem)) hshort).mono

end

/-- No read times out inside a line, on the platform where that matters. -/
def Uncut (platform : Platform) (held : List UInt8) (arrivals : List Arrival) : Prop :=
  platform = .unix → Whole held arrivals

/-- A call of `read_line`. -/
theorem readLine_spec {platform : Platform} {maxFrame : ℕ} {held : List UInt8}
    {arrivals : List Arrival} (hdata : ∀ arrival ∈ arrivals, arrival ≠ .data [])
    (hshort : Short maxFrame (held ++ dataOf arrivals)) (huncut : Uncut platform held arrivals) :
    Reads (held ++ dataOf arrivals) arrivals (readLine platform maxFrame held arrivals) ∧
      Leaves (Uncut platform) (readLine platform maxFrame held arrivals) := by
  cases platform with
  | windows =>
    refine ⟨readLineWindows_spec hdata hshort, ?_⟩
    cases readLine .windows maxFrame held arrivals with
    | none => trivial
    | some result => exact fun h => by cases h
  | unix =>
    obtain ⟨hreads, hleaves⟩ := readLineUnix_spec List.not_mem_nil hdata hshort (huncut rfl)
    refine ⟨hreads, ?_⟩
    unfold readLine
    cases hread : readLineUnix maxFrame [] held arrivals with
    | none => trivial
    | some result =>
      rw [hread] at hleaves
      exact fun _ => hleaves

/-! ### The lines that were written -/

section
variable {maxFrame : ℕ} {line : List Char} {lines : List (List Char)}

theorem bytes_newline : bytes ['\n'] = [newline] := by decide

theorem newline_notMem_bytes (h : '\n' ∉ line) : newline ∉ bytes line := by
  intro hmem
  obtain ⟨c, hc, hbyte⟩ := List.mem_flatMap.1 hmem
  by_cases hascii : c.toNat < 128
  · rw [encode_ascii hascii, List.mem_singleton] at hbyte
    have hcode : c.toNat = 10 := by
      have hnat : (10 : ℕ) = (UInt8.ofNat c.toNat).toNat := congrArg UInt8.toNat hbyte
      rw [UInt8.toNat_ofNat'] at hnat
      omega
    have hchar : c = '\n' := Char.toNat_inj.1 hcode
    exact h (hchar ▸ hc)
  · have hle := le_of_mem_encode (not_lt.1 hascii) hbyte
    exact absurd hle (by decide)

theorem written_cons (h : Sendable maxFrame line) :
    written maxFrame (line :: lines) = bytes line ++ newline :: written maxFrame lines := by
  have hfits : ¬ (bytes line).length > maxFrame := not_lt_of_ge h.length
  simp [written, writeLine, hfits]

/-- A line is read as it was written. -/
theorem Sendable.read (h : Sendable maxFrame line) :
    trimEnd (fromUtf8Lossy (bytes line ++ [newline])) = line := by
  rw [← bytes_newline, ← bytes_append, fromUtf8Lossy_bytes, trimEnd_concat (by decide), h.trimmed]

/-- Two texts that agree have the same first line. -/
theorem first_line_unique {line line' text text' : List UInt8} (hline : newline ∉ line)
    (hline' : newline ∉ line') (h : line ++ newline :: text <+: line' ++ newline :: text') :
    line = line' ∧ text <+: text' := by
  induction line generalizing line' with
  | nil =>
    cases line' with
    | nil => exact ⟨rfl, by simpa using h⟩
    | cons byte line' =>
      have hbyte : newline = byte := (List.cons_prefix_cons.1 h).1
      simp [hbyte] at hline'
  | cons byte line ih =>
    cases line' with
    | nil =>
      have hbyte : byte = newline := (List.cons_prefix_cons.1 h).1
      simp [hbyte] at hline
    | cons byte' line' =>
      obtain ⟨rfl, htail⟩ := List.cons_prefix_cons.1 h
      obtain ⟨rfl, htext⟩ := ih (List.not_mem_of_not_mem_cons hline)
        (List.not_mem_of_not_mem_cons hline') htail
      exact ⟨rfl, htext⟩

/-- No line of what is written is longer than a frame. -/
theorem short_of_written {text : List UInt8} (hlines : ∀ line ∈ lines, Sendable maxFrame line)
    (htext : text <+: written maxFrame lines) : Short maxFrame text := by
  intro start hstart hnot
  have hstart := hstart.trans htext
  cases lines with
  | nil =>
    rw [List.prefix_nil.1 hstart]
    exact Nat.zero_le _
  | cons line lines =>
    have hline := hlines line List.mem_cons_self
    rw [written_cons hline] at hstart
    rcases List.prefix_or_prefix_of_prefix hstart (List.prefix_append _ _) with h | ⟨more, rfl⟩
    · exact h.length_le.trans hline.length
    · cases more with
      | nil => simpa using hline.length
      | cons byte more =>
        have hbyte := (List.prefix_append_right_inj _).1 hstart
        have hbyte : byte = newline := (List.cons_prefix_cons.1 hbyte).1
        simp [hbyte] at hnot

/-- What is left of the bytes after a line is left of the lines that were written. -/
theorem written_after_line {start text : List UInt8}
    (hlines : ∀ line ∈ lines, Sendable maxFrame line)
    (htext : start ++ newline :: text <+: written maxFrame lines) (hstart : newline ∉ start) :
    ∃ line lines', lines = line :: lines' ∧ start = bytes line ∧
      text <+: written maxFrame lines' := by
  cases lines with
  | nil => simp [written] at htext
  | cons line lines =>
    have hline := hlines line List.mem_cons_self
    rw [written_cons hline] at htext
    obtain ⟨hbytes, hrest⟩ := first_line_unique hstart (newline_notMem_bytes hline.single) htext
    exact ⟨line, lines, rfl, hbytes, hrest⟩

end

/-! ### Successive calls -/

section
variable {platform : Platform} {maxFrame : ℕ} {held : List UInt8} {arrivals : List Arrival}
  {lines : List (List Char)}

/-- What is still to be read is a beginning of what the lines are written as. -/
structure Feeds (platform : Platform) (maxFrame : ℕ) (held : List UInt8) (arrivals : List Arrival)
    (lines : List (List Char)) : Prop where
  nonempty : ∀ arrival ∈ arrivals, arrival ≠ .data []
  sendable : ∀ line ∈ lines, Sendable maxFrame line
  text : held ++ dataOf arrivals <+: written maxFrame lines
  uncut : Uncut platform held arrivals

/-- A call that times out changes nothing. -/
theorem Feeds.after_timeout {held' : List UInt8} {arrivals' : List Arrival}
    (h : Feeds platform maxFrame held arrivals lines) (hsuffix : .timeout :: arrivals' <:+ arrivals)
    (htext : held ++ dataOf arrivals = held' ++ dataOf arrivals')
    (huncut : Uncut platform held' arrivals') :
    Feeds platform maxFrame held' arrivals' lines ∧ arrivals'.length < arrivals.length := by
  refine ⟨⟨fun arrival hmem => ?_, h.sendable, htext ▸ h.text, huncut⟩, hsuffix.length_le⟩
  exact h.nonempty arrival (hsuffix.subset (List.mem_cons_of_mem _ hmem))

/-- A call waits, or gives the next line, or times out. -/
theorem Feeds.call (h : Feeds platform maxFrame held arrivals lines) :
    (readLine platform maxFrame held arrivals = none ∧ newline ∉ held ++ dataOf arrivals) ∨
    (∃ line lines' held' arrivals', lines = line :: lines' ∧
      readLine platform maxFrame held arrivals = some (.line line, held', arrivals') ∧
      Feeds platform maxFrame held' arrivals' lines' ∧ arrivals'.length ≤ arrivals.length ∧
      held ++ dataOf arrivals = bytes line ++ newline :: (held' ++ dataOf arrivals')) ∨
    (∃ result held' arrivals', (result = .idle ∨ result = .timedOut) ∧
      readLine platform maxFrame held arrivals = some (result, held', arrivals') ∧
      held ++ dataOf arrivals = held' ++ dataOf arrivals' ∧
      Feeds platform maxFrame held' arrivals' lines ∧ arrivals'.length < arrivals.length) := by
  obtain ⟨hreads, hleaves⟩ := readLine_spec h.nonempty (short_of_written h.sendable h.text) h.uncut
  match hread : readLine platform maxFrame held arrivals, hreads, hleaves with
  | none, hreads, _ => exact .inl ⟨rfl, hreads⟩
  | some (.line read, held', arrivals'), ⟨hsuffix, start, hstart, htext, hline⟩, hleaves =>
    have hwritten := h.text
    rw [htext] at hwritten
    obtain ⟨line, lines', rfl, rfl, hrest⟩ := written_after_line h.sendable hwritten hstart
    rw [(h.sendable line List.mem_cons_self).read] at hline
    subst hline
    refine .inr (.inl ⟨read, lines', held', arrivals', rfl, rfl, ?_, hsuffix.length_le, htext⟩)
    exact ⟨fun arrival hmem => h.nonempty arrival (hsuffix.subset hmem),
      fun line hmem => h.sendable line (List.mem_cons_of_mem _ hmem), hrest, hleaves⟩
  | some (.idle, held', arrivals'), ⟨hsuffix, htext⟩, hleaves =>
    exact .inr (.inr ⟨.idle, held', arrivals', .inl rfl, rfl, htext,
      h.after_timeout hsuffix htext hleaves⟩)
  | some (.timedOut, held', arrivals'), ⟨hsuffix, htext⟩, hleaves =>
    exact .inr (.inr ⟨.timedOut, held', arrivals', .inr rfl, rfl, htext,
      h.after_timeout hsuffix htext hleaves⟩)

theorem readLines_succ {result : LineRead} {held' : List UInt8} {arrivals' : List Arrival}
    (h : readLine platform maxFrame held arrivals = some (result, held', arrivals')) (calls : ℕ) :
    readLines platform maxFrame (calls + 1) held arrivals =
      (result :: (readLines platform maxFrame calls held' arrivals').1,
        (readLines platform maxFrame calls held' arrivals').2) := by
  simp only [readLines, h]

theorem linesOf_cons_of_timeout {result : LineRead} (h : result = .idle ∨ result = .timedOut)
    (results : List LineRead) : linesOf (result :: results) = linesOf results := by
  rcases h with rfl | rfl <;> rfl

/-- The lines that the calls give are the next ones that were written. -/
theorem Feeds.prefix_lines (h : Feeds platform maxFrame held arrivals lines) (calls : ℕ) :
    linesOf (readLines platform maxFrame calls held arrivals).1 <+: lines := by
  induction calls generalizing held arrivals lines with
  | zero => exact List.nil_prefix
  | succ calls ih =>
    rcases h.call with ⟨hread, -⟩ | ⟨line, lines', held', arrivals', rfl, hread, hnext, -⟩ |
      ⟨result, held', arrivals', htime, hread, -, hnext, -⟩
    · simp [readLines, hread, linesOf]
    · rw [readLines_succ hread]
      exact List.cons_prefix_cons.2 ⟨rfl, ih hnext⟩
    · rw [readLines_succ hread, linesOf_cons_of_timeout htime]
      exact ih hnext

/-- When the calls wait for more, they have given each line whose newline arrived. -/
theorem Feeds.all_lines (h : Feeds platform maxFrame held arrivals lines) :
    ∃ calls, (readLines platform maxFrame calls held arrivals).2 = true ∧
      linesOf (readLines platform maxFrame calls held arrivals).1 =
        lines.take ((held ++ dataOf arrivals).count newline) := by
  -- a line makes the text shorter, and a timeout the arrivals
  induction hsize : arrivals.length + (held ++ dataOf arrivals).length using Nat.strong_induction_on
    generalizing held arrivals lines with
  | _ size ih =>
    rcases h.call with ⟨hread, hnot⟩ |
      ⟨line, lines', held', arrivals', rfl, hread, hnext, hlength, htext⟩ |
      ⟨result, held', arrivals', htime, hread, htext, hnext, hlength⟩
    · refine ⟨1, ?_⟩
      rw [List.count_eq_zero_of_not_mem hnot]
      simp [readLines, hread, linesOf]
    · have hnot := newline_notMem_bytes (h.sendable line List.mem_cons_self).single
      rw [htext, List.length_append, List.length_cons] at hsize
      obtain ⟨calls, hwaits, hlines⟩ := ih _ (by omega) hnext rfl
      refine ⟨calls + 1, by rw [readLines_succ hread]; exact hwaits, ?_⟩
      rw [readLines_succ hread, htext, List.count_append, List.count_eq_zero_of_not_mem hnot,
        List.count_cons_self, Nat.zero_add, List.take_succ_cons, ← hlines]
      rfl
    · rw [htext] at hsize ⊢
      obtain ⟨calls, hwaits, hlines⟩ := ih _ (by omega) hnext rfl
      refine ⟨calls + 1, by rw [readLines_succ hread]; exact hwaits, ?_⟩
      rw [readLines_succ hread, linesOf_cons_of_timeout htime, hlines]

end

/-- **The lines come out as they were written.** However the bytes are split into arrivals, the lines that
successive calls give are those that were written, in their order, and when a call waits for more all of
those have been given whose newline has arrived. On Windows this holds of every run, and on Unix of every
run in which no read times out after a part of a line. -/
theorem read_lines (platform : Platform) (maxFrame : ℕ) (lines : List (List Char))
    (arrivals : List Arrival) (hlines : ∀ line ∈ lines, Sendable maxFrame line)
    (hdata : ∀ arrival ∈ arrivals, arrival ≠ .data [])
    (htext : dataOf arrivals <+: written maxFrame lines)
    (hwhole : platform = .unix → Whole [] arrivals) :
    (∀ calls, linesOf (readLines platform maxFrame calls [] arrivals).1 <+: lines) ∧
      ∃ calls, (readLines platform maxFrame calls [] arrivals).2 = true ∧
        linesOf (readLines platform maxFrame calls [] arrivals).1 =
          lines.take ((dataOf arrivals).count newline) := by
  have hfeeds : Feeds platform maxFrame [] arrivals lines := ⟨hdata, hlines, htext, hwhole⟩
  exact ⟨hfeeds.prefix_lines, hfeeds.all_lines⟩

theorem sendable_ab : Sendable 8 ['a', 'b'] := ⟨by decide, by decide, by decide⟩

/-- Two lines over Unix, the first one in two pieces. -/
theorem read_lines_split :
    ∃ calls, (readLines .unix 8 calls []
        [.data [97], .data [98, 10], .timeout, .data [97, 98, 10]]).2 = true ∧
      linesOf (readLines .unix 8 calls []
        [.data [97], .data [98, 10], .timeout, .data [97, 98, 10]]).1 = [['a', 'b'], ['a', 'b']] :=
  (read_lines .unix 8 [['a', 'b'], ['a', 'b']]
    [.data [97], .data [98, 10], .timeout, .data [97, 98, 10]]
    (by simp [sendable_ab]) (by decide) ⟨[], by decide⟩ (by decide)).2

/-- On Unix the beginning of a line is lost when the read times out before the rest of it. -/
theorem not_read_lines :
    ¬ ∀ (platform : Platform) (maxFrame : ℕ) (lines : List (List Char)) (arrivals : List Arrival),
      (∀ line ∈ lines, Sendable maxFrame line) → (∀ arrival ∈ arrivals, arrival ≠ .data []) →
      dataOf arrivals <+: written maxFrame lines →
      ∀ calls, linesOf (readLines platform maxFrame calls [] arrivals).1 <+: lines := by
  intro h
  have hlost := h .unix 8 [['a', 'b']] [.data [97], .timeout, .data [98, 10]]
    (by simp [sendable_ab]) (by decide) ⟨[], by decide⟩ 2
  revert hlost
  decide

end Paneflow.Ipc.LineWire
