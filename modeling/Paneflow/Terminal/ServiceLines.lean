import Paneflow.Terminal.ServiceParsing

/-! # The lines of service output

A `Page` is written by the same pieces of the stream, without counters and without a limit on the number of lines:
all lines that were finished and were not blank, and the one being written. The performer shows the last lines of the
page, with counters that are exact and within the limits (`Shows`).

* `perform_shows`: every piece of the stream keeps this.
* `tail_spec`: what the tail is after any bytes. -/

namespace Paneflow.Terminal.ServiceLines

open Paneflow.ControlSequences Paneflow.Terminal.ServiceOutput Paneflow.Terminal.ServiceParsing Paneflow.Utf8
open Paneflow.Checked ServiceOutputPerformer

/-! ### The page -/

structure Page where
  lines : List Str := []
  current : Str := []
  overwritten : Bool := false

namespace Page

/-- After a carriage return the line is written anew. -/
def opened (page : Page) : Page :=
  { page with current := if page.overwritten then [] else page.current, overwritten := false }

def put (page : Page) (c : Char) : Page :=
  if size page.current + c.utf8Size ≤ 8 * 1024 then { page with current := page.current ++ [c] } else page

/-- Spaces up to the next multiple of eight, as far as the line has room. -/
def tab (page : Page) : Page :=
  let spaces := min (8 - page.current.length % 8) (8 * 1024 - size page.current)
  { page with current := page.current ++ List.replicate spaces ' ' }

def finish (page : Page) : Page :=
  let line := trimEnd page.current
  { lines := if line = [] then page.lines else page.lines ++ [line] }

def write (page : Page) : Piece → Page
  | .char c => page.opened.put c
  | .malformed => page.opened.put replacementCharacter
  | .control b =>
    if b = 0x0a ∨ b = 0x0b ∨ b = 0x0c then page.finish
    else if b = 0x0d then { page with overwritten := true }
    else if b = 0x08 then { page.opened with current := page.opened.current.dropLast }
    else if b = 0x09 then page.opened.tab
    else page
  | .sequence => page

/-- The lines that are not blank, the newest first. -/
def newest (page : Page) : List Str :=
  let line := trimEnd page.current
  (if line = [] then [] else [line]) ++ page.lines.reverse

end Page

def written (pieces : List Piece) : Page := pieces.foldl Page.write {}

/-- The characters that a piece can put on the page. -/
def shown : Piece → List Char
  | .char c => [c]
  | .malformed => [replacementCharacter]
  | .control b => if b = 0x09 then [' '] else []
  | .sequence => []

/-! ### White space at the end -/

theorem trimEnd_isPrefix (s : Str) : trimEnd s <+: s := List.rdropWhile_prefix _ s

theorem trimEnd_not_blank {s : Str} (h : trimEnd s ≠ []) : ∃ c ∈ trimEnd s, isUnicodeWhitespace c = false := by
  refine ⟨_, List.getLast_mem h, ?_⟩
  rw [← Bool.not_eq_true]
  exact List.rdropWhile_last_not _ s h

theorem size_le_of_isPrefix {s t : Str} (h : s <+: t) : size s ≤ size t := by
  obtain ⟨rest, rfl⟩ := h
  rw [size_append]
  exact Nat.le_add_right _ _

theorem bne_toNat_le {a b : ℕ} (h : a ≤ b) : (a != 0).toNat ≤ (b != 0).toNat := by
  cases a with
  | zero => exact Nat.zero_le _
  | succ a =>
    obtain ⟨b, rfl⟩ := Nat.exists_eq_add_of_le' (Nat.zero_lt_of_lt h)
    exact le_rfl

/-! ### The performer shows the page -/

/-- The bytes of lines. -/
def totalBytes (lines : List Str) : ℕ := (lines.map size).sum

theorem totalBytes_append (a b : List Str) : totalBytes (a ++ b) = totalBytes a + totalBytes b := by
  unfold totalBytes
  rw [List.map_append, List.sum_append]

/-- The counters are exact, and the lines are the last ones of the page. -/
structure Keeps (page : Page) (output : ServiceOutputPerformer) : Prop where
  current : output.current = page.current
  overwritten : output.carriageReturnPending = page.overwritten
  currentChars : output.currentChars = output.current.length
  nonWhitespaceChars : output.nonWhitespaceChars = output.current.countP fun c => !isUnicodeWhitespace c
  completedBytes : output.completedBytes = totalBytes output.completed
  completed : output.completed <:+ page.lines
  notBlank : ∀ line ∈ output.completed, ∃ c ∈ line, isUnicodeWhitespace c = false
  lineSize : ∀ line ∈ output.completed, size line ≤ 8 * 1024
  currentSize : size output.current ≤ 8 * 1024

/-- And they are within the limits. -/
structure Shows (page : Page) (output : ServiceOutputPerformer) : Prop extends Keeps page output where
  count : output.completed.length + (output.nonWhitespaceChars != 0).toNat ≤ 100
  total : output.completedBytes + size output.current ≤ 64 * 1024

theorem evict_spec (nonEmpty : Bool) {currentLen : ℕ} (hlen : currentLen ≤ 64 * 1024) (completed : List Str) :
    ∃ kept, evict nonEmpty currentLen completed (totalBytes completed) = (kept, totalBytes kept) ∧ kept <:+ completed ∧
      kept.length + nonEmpty.toNat ≤ 100 ∧ totalBytes kept + currentLen ≤ 64 * 1024 := by
  induction completed with
  | nil =>
    refine ⟨[], rfl, List.suffix_refl _, ?_, ?_⟩
    · have := Bool.toNat_le nonEmpty
      simp only [List.length_nil]
      omega
    · simpa [totalBytes] using hlen
  | cons removed completed ih =>
    unfold evict
    split_ifs with hover
    · obtain ⟨kept, hkept, hsuffix, hbounds⟩ := ih
      refine ⟨kept, ?_, hsuffix.trans (List.suffix_cons _ _), hbounds⟩
      have hrest : totalBytes (removed :: completed) - size removed = totalBytes completed := by
        unfold totalBytes
        rw [List.map_cons, List.sum_cons, Nat.add_sub_cancel_left]
      rw [hrest, hkept]
    · unfold serviceTailMaxLines serviceTailMaxTotalBytes at hover
      exact ⟨_, rfl, List.suffix_refl _, by omega, by omega⟩

section
variable {page : Page} {output : ServiceOutputPerformer}

/-- The limits are enforced by dropping the oldest lines. -/
theorem Keeps.enforceCaps (h : Keeps page output) : Shows page output.enforceCaps := by
  have hcurrent := h.currentSize
  obtain ⟨kept, hkept, hsuffix, hcount, htotal⟩ :=
    @evict_spec (output.nonWhitespaceChars != 0) (size output.current) (by omega) output.completed
  unfold ServiceOutputPerformer.enforceCaps
  rw [h.completedBytes, hkept]
  exact ⟨⟨h.current, h.overwritten, h.currentChars, h.nonWhitespaceChars, rfl, hsuffix.trans h.completed,
    fun line hline => h.notBlank line (hsuffix.subset hline), fun line hline => h.lineSize line (hsuffix.subset hline),
    h.currentSize⟩, hcount, htotal⟩

theorem Shows.prepareForWrite (h : Shows page output) : Shows page.opened output.prepareForWrite := by
  have hcount := h.count
  have htotal := h.total
  unfold ServiceOutputPerformer.prepareForWrite Page.opened
  rw [← h.overwritten, ← h.current]
  split_ifs with hpending
  · refine ⟨⟨rfl, rfl, rfl, rfl, h.completedBytes, h.completed, h.notBlank, h.lineSize, Nat.zero_le _⟩, ?_, ?_⟩
    · simp only [bne_self_eq_false, Bool.toNat_false]
      omega
    · simp only [size_nil]
      omega
  · exact ⟨⟨rfl, by simpa using hpending, h.currentChars, h.nonWhitespaceChars, h.completedBytes, h.completed, h.notBlank,
      h.lineSize, h.currentSize⟩, hcount, htotal⟩

/-- One character more, where there is room for it. -/
theorem Keeps.push (h : Keeps page output) {c : Char} (hroom : size page.current + c.utf8Size ≤ 8 * 1024) :
    Keeps { page with current := page.current ++ [c] }
      { output with
        current := output.current ++ [c]
        currentChars := output.currentChars + 1
        nonWhitespaceChars := output.nonWhitespaceChars + (!isUnicodeWhitespace c).toNat } := by
  refine ⟨?_, h.overwritten, ?_, ?_, h.completedBytes, h.completed, h.notBlank, h.lineSize, ?_⟩
  · rw [h.current]
  · simp only [List.length_append, List.length_singleton, h.currentChars]
  · simp only [List.countP_append, List.countP_singleton, h.nonWhitespaceChars, Bool.toNat, Bool.cond_eq_ite]
  · simp only [size_append, size_cons, size_nil, h.current]
    exact hroom

theorem Shows.pushChar (h : Shows page output) (c : Char) : Shows (page.opened.put c) (output.pushChar c) := by
  have hprepared := h.prepareForWrite
  unfold ServiceOutputPerformer.pushChar Page.put
  simp only [hprepared.current, serviceTailMaxLineBytes]
  split_ifs with hroom
  · have := hprepared.toKeeps.push hroom
    rw [hprepared.current] at this
    exact this.enforceCaps
  · exact hprepared.toKeeps.enforceCaps

theorem Keeps.pushSpaces (spaces : ℕ) (h : Keeps page output) :
    Keeps { page with current := page.current ++ List.replicate (min spaces (8 * 1024 - size page.current)) ' ' }
      (pushSpaces spaces output) := by
  induction spaces generalizing page output with
  | zero =>
    rw [Nat.zero_min, List.replicate_zero, List.append_nil]
    exact h
  | succ spaces ih =>
    have hsize := h.currentSize
    rw [h.current] at hsize
    unfold ServiceOutputPerformer.pushSpaces
    rw [h.current, serviceTailMaxLineBytes]
    split_ifs with hfull
    · rw [hfull, Nat.sub_self, Nat.min_zero, List.replicate_zero, List.append_nil]
      exact h
    · have hone : (' ' : Char).utf8Size = 1 := rfl
      have hpushed : Keeps { page with current := page.current ++ [' '] }
          { output with current := output.current ++ [' '], currentChars := output.currentChars + 1 } :=
        h.push (by omega)
      have hrest := ih hpushed
      have hmin : min (spaces + 1) (8 * 1024 - size page.current) =
          min spaces (8 * 1024 - size (page.current ++ [' '])) + 1 := by
        simp only [size_append, size_cons, size_nil, hone]
        omega
      rw [hmin, List.replicate_succ, List.append_cons]
      rw [h.current] at hrest
      exact hrest

theorem Shows.pushTab (h : Shows page output) : Shows page.opened.tab output.pushTab := by
  have hprepared := h.prepareForWrite
  have hspaces := hprepared.toKeeps.pushSpaces (8 - page.opened.current.length % 8)
  unfold ServiceOutputPerformer.pushTab
  dsimp only
  rw [hprepared.currentChars, hprepared.current]
  exact hspaces.enforceCaps

theorem Shows.backspace (h : Shows page output) : ∃ next, output.backspace = some next ∧
    Shows { page.opened with current := page.opened.current.dropLast } next := by
  have hprepared := h.prepareForWrite
  generalize page.opened = page' at *
  unfold ServiceOutputPerformer.backspace
  generalize output.prepareForWrite = output' at *
  dsimp only
  rw [← hprepared.current]
  rcases List.eq_nil_or_concat' output'.current with hnil | ⟨front, c, hfront⟩
  · rw [hnil]
    refine ⟨output', rfl, ?_⟩
    rw [List.dropLast_nil, ← hnil, hprepared.current]
    exact hprepared
  · have hcount := hprepared.nonWhitespaceChars
    have hchars := hprepared.currentChars
    have hsize := hprepared.currentSize
    have hlimit := hprepared.count
    have htotal := hprepared.total
    simp only [hfront, List.countP_append, List.countP_singleton, List.length_append, List.length_singleton, size_append,
      size_cons, size_nil] at hcount hchars hsize htotal
    have hone : (!isUnicodeWhitespace c).toNat = if (!isUnicodeWhitespace c) = true then 1 else 0 := by
      cases isUnicodeWhitespace c <;> rfl
    have hsub1 : checkedSub output'.currentChars 1 = some front.length := by
      rw [hchars, Nat.add_comm, checkedSub_add]
    have hsub2 : checkedSub output'.nonWhitespaceChars (!isUnicodeWhitespace c).toNat =
        some (front.countP fun c => !isUnicodeWhitespace c) := by
      rw [hcount, hone, Nat.add_comm, checkedSub_add]
    have hbits : ((front.countP fun c => !isUnicodeWhitespace c) != 0).toNat ≤ (output'.nonWhitespaceChars != 0).toNat :=
      bne_toNat_le (by rw [hcount]; exact Nat.le_add_right _ _)
    rw [hfront, List.getLast?_concat, List.dropLast_concat]
    dsimp only
    rw [hsub1, hsub2]
    refine ⟨_, rfl, ⟨rfl, hprepared.overwritten, rfl, rfl, hprepared.completedBytes, hprepared.completed,
      hprepared.notBlank, hprepared.lineSize, ?_⟩, ?_, ?_⟩
    · dsimp only
      omega
    · dsimp only
      omega
    · dsimp only
      omega

theorem Shows.finishLine (h : Shows page output) : Shows page.finish output.finishLine := by
  have hline : size (trimEnd page.current) ≤ 8 * 1024 := by
    have hsize := h.currentSize
    rw [h.current] at hsize
    exact (size_le_of_isPrefix (trimEnd_isPrefix _)).trans hsize
  have hkeeps : Keeps page.finish
      { output with
        completed := if trimEnd page.current = [] then output.completed else output.completed ++ [trimEnd page.current]
        completedBytes := if trimEnd page.current = [] then output.completedBytes
          else output.completedBytes + size (trimEnd page.current)
        current := []
        currentChars := 0
        nonWhitespaceChars := 0
        carriageReturnPending := false } := by
    unfold Page.finish
    dsimp only
    split_ifs with hblank
    · exact ⟨rfl, rfl, rfl, rfl, h.completedBytes, h.completed, h.notBlank, h.lineSize, Nat.zero_le _⟩
    · refine ⟨rfl, rfl, rfl, rfl, ?_, ?_, ?_, ?_, Nat.zero_le _⟩
      · dsimp only
        rw [h.completedBytes, totalBytes_append]
        simp [totalBytes]
      · exact List.suffix_append_self_iff.mpr h.completed
      · exact List.forall_mem_append.mpr ⟨h.notBlank, List.forall_mem_singleton.mpr (trimEnd_not_blank hblank)⟩
      · exact List.forall_mem_append.mpr ⟨h.lineSize, List.forall_mem_singleton.mpr hline⟩
  have hfinish := hkeeps.enforceCaps
  unfold ServiceOutputPerformer.finishLine
  dsimp only
  rw [h.current]
  by_cases hblank : trimEnd page.current = []
  · rw [if_pos (List.isEmpty_iff.mpr hblank)]
    rw [if_pos hblank, if_pos hblank] at hfinish
    exact hfinish
  · rw [if_neg (by rwa [List.isEmpty_iff])]
    rw [if_neg hblank, if_neg hblank] at hfinish
    exact hfinish

/-- **Every piece of the stream** is written to the page that the performer shows. -/
theorem perform_shows (h : Shows page output) (piece : Piece) :
    ∃ next, perform output piece = some next ∧ Shows (page.write piece) next := by
  cases piece with
  | char c => exact ⟨_, rfl, h.pushChar c⟩
  | malformed => exact ⟨_, rfl, h.pushChar replacementCharacter⟩
  | sequence => exact ⟨_, rfl, h⟩
  | control b =>
    unfold perform execute Page.write
    dsimp only
    split_ifs with hfinish hreturn hback htab
    · exact ⟨_, rfl, h.finishLine⟩
    · exact ⟨_, rfl, ⟨h.current, rfl, h.currentChars, h.nonWhitespaceChars, h.completedBytes, h.completed, h.notBlank,
        h.lineSize, h.currentSize⟩, h.count, h.total⟩
    · exact h.backspace
    · exact ⟨_, rfl, h.pushTab⟩
    · exact ⟨_, rfl, h⟩

/-- **The pieces of a stream.** -/
theorem foldlM_perform (pieces : List Piece) (h : Shows page output) :
    ∃ final, pieces.foldlM perform output = some final ∧ Shows (pieces.foldl Page.write page) final := by
  induction pieces generalizing page output with
  | nil => exact ⟨output, rfl, h⟩
  | cons piece pieces ih =>
    obtain ⟨next, hstep, hnext⟩ := perform_shows h piece
    obtain ⟨final, hrun, hfinal⟩ := ih hnext
    refine ⟨final, ?_, hfinal⟩
    rw [List.foldlM_cons, hstep]
    exact hrun

end

/-! ### The characters on the page -/

/-- All characters of a page are of a kind. -/
def Page.Only (P : Char → Prop) (page : Page) : Prop :=
  (∀ c ∈ page.current, P c) ∧ ∀ line ∈ page.lines, ∀ c ∈ line, P c

section
variable {P : Char → Prop} {page : Page}

theorem Page.Only.opened (h : page.Only P) : page.opened.Only P := by
  refine ⟨fun c hc => ?_, h.2⟩
  unfold Page.opened at hc
  dsimp only at hc
  split_ifs at hc
  · exact nomatch hc
  · exact h.1 c hc

theorem Page.Only.put (h : page.Only P) {c : Char} (hc : P c) : (page.put c).Only P := by
  unfold Page.put
  split_ifs
  · exact ⟨List.forall_mem_append.mpr ⟨h.1, List.forall_mem_singleton.mpr hc⟩, h.2⟩
  · exact h

theorem Page.Only.finish (h : page.Only P) : page.finish.Only P := by
  refine ⟨(fun c hc => nomatch hc), ?_⟩
  unfold Page.finish
  dsimp only
  split_ifs
  · exact h.2
  · refine List.forall_mem_append.mpr ⟨h.2, List.forall_mem_singleton.mpr fun c hc => h.1 c ?_⟩
    exact (trimEnd_isPrefix _).subset hc

/-- A piece puts nothing on the page but its characters. -/
theorem Page.Only.write (h : page.Only P) {piece : Piece} (hpiece : ∀ c ∈ shown piece, P c) :
    (page.write piece).Only P := by
  cases piece with
  | char c => exact h.opened.put (hpiece c List.mem_cons_self)
  | malformed => exact h.opened.put (hpiece replacementCharacter List.mem_cons_self)
  | sequence => exact h
  | control b =>
    unfold Page.write
    dsimp only
    split_ifs with hfinish hreturn hback htab
    · exact h.finish
    · exact h
    · exact ⟨fun c hc => h.opened.1 c (List.dropLast_subset _ hc), h.2⟩
    · refine ⟨List.forall_mem_append.mpr ⟨h.opened.1, fun c hc => ?_⟩, h.2⟩
      obtain rfl := List.eq_of_mem_replicate hc
      exact hpiece ' ' (by rw [htab]; exact List.mem_cons_self)
    · exact h

theorem Page.Only.foldl {pieces : List Piece} (hpieces : ∀ piece ∈ pieces, ∀ c ∈ shown piece, P c) (h : page.Only P) :
    (pieces.foldl Page.write page).Only P := by
  induction pieces generalizing page with
  | nil => exact h
  | cons piece pieces ih =>
    obtain ⟨hpiece, hpieces⟩ := List.forall_mem_cons.mp hpieces
    exact ih hpieces (h.write hpiece)

theorem Page.Only.newest (h : page.Only P) : ∀ line ∈ page.newest, ∀ c ∈ line, P c := by
  unfold Page.newest
  refine List.forall_mem_append.mpr ⟨fun line hline c hc => ?_, fun line hline => h.2 line (List.mem_reverse.mp hline)⟩
  split_ifs at hline with hblank
  · exact nomatch hline
  · obtain rfl := List.mem_singleton.mp hline
    exact h.1 c ((trimEnd_isPrefix _).subset hc)

end

/-- What the pieces of a stream put on the page is no control character of ASCII. -/
theorem shown_plain {bs rest : List UInt8} {pieces : List Piece} (h : Segmented bs pieces rest) :
    ∀ piece ∈ pieces, ∀ c ∈ shown piece, 0x20 ≤ c.toNat ∧ c.toNat ≠ 0x7f := by
  induction h with
  | rest _ => exact fun piece hpiece => nomatch hpiece
  | char hlow hdel _ ih => exact List.forall_mem_cons.mpr ⟨List.forall_mem_singleton.mpr ⟨hlow, hdel⟩, ih⟩
  | malformed _ _ ih => exact List.forall_mem_cons.mpr ⟨List.forall_mem_singleton.mpr (by decide), ih⟩
  | control _ _ ih =>
    refine List.forall_mem_cons.mpr ⟨fun c hc => ?_, ih⟩
    unfold shown at hc
    dsimp only at hc
    split_ifs at hc
    · rw [List.mem_singleton.mp hc]
      decide
    · exact nomatch hc
  | sequence _ _ ih => exact List.forall_mem_cons.mpr ⟨(fun c hc => nomatch hc), ih⟩
  | cut _ _ ih => exact List.forall_mem_cons.mpr ⟨(fun c hc => nomatch hc), ih⟩

/-! ### The tail -/

theorem foldlM_advance (chunks : List (List UInt8)) (tail : ServiceOutputTail) :
    chunks.foldlM ServiceOutputTail.advance tail =
      (tail.parser.advance tail.output chunks.flatten).map fun next => ⟨next.1, next.2⟩ := by
  induction chunks generalizing tail with
  | nil => rfl
  | cons chunk chunks ih =>
    rw [List.foldlM_cons, List.flatten_cons, advance_append]
    unfold ServiceOutputTail.advance
    cases tail.parser.advance tail.output chunk with
    | none => rfl
    | some next => exact ih ⟨next.1, next.2⟩

/-- The counters count. -/
structure Exact (output : ServiceOutputPerformer) : Prop where
  currentChars : output.currentChars = output.current.length
  nonWhitespaceChars : output.nonWhitespaceChars = (output.current.filter fun c => !isUnicodeWhitespace c).length
  completedBytes : output.completedBytes = (output.completed.map size).sum

/-- The limits hold. -/
structure Limited (output : ServiceOutputPerformer) : Prop where
  lines : output.completed.length + (if ∃ c ∈ output.current, isUnicodeWhitespace c = false then 1 else 0) ≤ 100
  line : ∀ line ∈ output.current :: output.completed, size line ≤ 8 * 1024
  total : ((output.current :: output.completed).map size).sum ≤ 64 * 1024

/-- Lines are the newest ones that the pieces of a stream write, and only characters of these pieces are in them. -/
structure Recent (pieces : List Piece) (lines : List Str) : Prop where
  count : lines.length ≤ 100
  notBlank : ∀ line ∈ lines, ∃ c ∈ line, isUnicodeWhitespace c = false
  newest : lines <+: (written pieces).newest
  shown : ∀ line ∈ lines, ∀ c ∈ line, ∃ piece ∈ pieces, c ∈ shown piece
  plain : ∀ line ∈ lines, ∀ c ∈ line, 0x20 ≤ c.toNat ∧ c.toNat ≠ 0x7f

section
variable {page : Page} {output : ServiceOutputPerformer}

theorem Shows.exact (h : Shows page output) : Exact output :=
  ⟨h.currentChars, h.nonWhitespaceChars.trans List.countP_eq_length_filter, h.completedBytes⟩

theorem Keeps.nonWhitespaceChars_eq_zero (h : Keeps page output) :
    output.nonWhitespaceChars = 0 ↔ ¬∃ c ∈ output.current, isUnicodeWhitespace c = false := by
  rw [h.nonWhitespaceChars, List.countP_eq_zero]
  simp

theorem Shows.limited (h : Shows page output) : Limited output := by
  have hcount := h.count
  have htotal := h.total
  rw [h.completedBytes] at htotal
  refine ⟨?_, List.forall_mem_cons.mpr ⟨h.currentSize, h.lineSize⟩, ?_⟩
  · split_ifs with hsome
    · have hne : output.nonWhitespaceChars ≠ 0 := fun hzero => h.nonWhitespaceChars_eq_zero.mp hzero hsome
      rw [bne_iff_ne.mpr hne, Bool.toNat_true] at hcount
      exact hcount
    · omega
  · rw [List.map_cons, List.sum_cons, Nat.add_comm]
    exact htotal

/-- The recent lines are the newest of the page. -/
theorem Shows.recentLines (h : Shows page output) : output.recentLines <+: page.newest ∧
    output.recentLines.length ≤ 100 ∧ ∀ line ∈ output.recentLines, ∃ c ∈ line, isUnicodeWhitespace c = false := by
  have hcount := h.count
  obtain ⟨dropped, hdropped⟩ := h.completed
  unfold ServiceOutputPerformer.recentLines Page.newest
  dsimp only
  rw [h.current, ← hdropped, List.reverse_append]
  by_cases hblank : trimEnd page.current = []
  · rw [if_pos (List.isEmpty_iff.mpr hblank), if_pos hblank, List.nil_append, List.nil_append, List.length_nil, Nat.sub_zero,
      List.take_of_length_le (by rw [List.length_reverse, serviceTailMaxLines]; omega)]
    refine ⟨List.prefix_append _ _, by rw [List.length_reverse]; omega, fun line hline => ?_⟩
    exact h.notBlank line (List.mem_reverse.mp hline)
  · have hsome := trimEnd_not_blank hblank
    have hne : output.nonWhitespaceChars ≠ 0 := fun hzero => by
      obtain ⟨c, hc, hvisible⟩ := hsome
      refine h.nonWhitespaceChars_eq_zero.mp hzero ⟨c, ?_, hvisible⟩
      rw [h.current]
      exact (trimEnd_isPrefix _).subset hc
    rw [bne_iff_ne.mpr hne, Bool.toNat_true] at hcount
    rw [if_neg (by rwa [List.isEmpty_iff]), if_neg hblank, List.length_singleton,
      List.take_of_length_le (by rw [List.length_reverse, serviceTailMaxLines]; omega), ← List.append_assoc]
    refine ⟨List.prefix_append _ _, by rw [List.length_append, List.length_reverse, List.length_singleton]; omega, ?_⟩
    refine List.forall_mem_append.mpr ⟨List.forall_mem_singleton.mpr hsome, fun line hline => ?_⟩
    exact h.notBlank line (List.mem_reverse.mp hline)

end

theorem shows_empty : Shows {} {} :=
  ⟨⟨rfl, rfl, rfl, rfl, rfl, List.suffix_refl _, (fun _ h => nomatch h), (fun _ h => nomatch h), Nat.zero_le _⟩,
    Nat.zero_le _, Nat.zero_le _⟩

/-- **The tail of any byte stream**, in any chunks. The stream consists of pieces; however it is cut into them, the
tail is what the pieces write, to which control sequences add nothing. Nothing underflows, the counters are exact,
the limits hold, and the recent lines are the newest, not blank and without control characters. -/
theorem tail_spec : (∀ bytes : List UInt8, ∃ pieces rest, Segmented bytes pieces rest) ∧
    ∀ (chunks : List (List UInt8)) (pieces : List Piece) (rest : List UInt8), Segmented chunks.flatten pieces rest →
      ∃ tail, chunks.foldlM ServiceOutputTail.advance {} = some tail ∧
        Exact tail.output ∧ Limited tail.output ∧ Recent pieces tail.recentLines := by
  refine ⟨exists_segmented, fun chunks pieces rest h => ?_⟩
  obtain ⟨output, hrun, hshows⟩ := foldlM_perform pieces shows_empty
  obtain ⟨parser, hparser⟩ := @advance_segmented {} {} _ _ _ h ⟨rfl, rfl, rfl⟩ _ hrun
  obtain ⟨hnewest, hcount, hblank⟩ := hshows.recentLines
  have hempty : ∀ P : Char → Prop, Page.Only P {} := fun P => ⟨(fun _ h => nomatch h), fun _ h => nomatch h⟩
  have hshown := ((hempty fun c => ∃ piece ∈ pieces, c ∈ shown piece).foldl fun piece hpiece c hc =>
    ⟨piece, hpiece, hc⟩).newest
  have hplain := ((hempty _).foldl (shown_plain h)).newest
  refine ⟨⟨parser, output⟩, ?_, hshows.exact, hshows.limited, hcount, hblank, hnewest,
    fun line hline => hshown line (hnewest.subset hline), fun line hline => hplain line (hnewest.subset hline)⟩
  rw [foldlM_advance]
  exact congrArg _ hparser

/-- `a`, a sequence cut by the chunks, and the end of the line. -/
theorem tail_spec_sequence : ∃ tail,
    [[0x61, 0x1b], [0x5b, 0x31, 0x6d, 0x0a]].foldlM ServiceOutputTail.advance {} = some tail ∧
      Exact tail.output ∧ Limited tail.output ∧ Recent [.char 'a', .sequence, .control 0x0a] tail.recentLines := by
  have hsequence : Sequence ([esc, 0x5b] ++ ([0x31] ++ [0x6d])) := by
    refine .fields (.escape rfl) (fun b hb => ?_) rfl
    rw [List.mem_singleton.mp hb]
    decide
  have hline : Segmented [0x0a] [.control 0x0a] [] := .control (by decide) (.rest .nothing)
  exact tail_spec.2 [[0x61, 0x1b], [0x5b, 0x31, 0x6d, 0x0a]] [.char 'a', .sequence, .control 0x0a] []
    (@Segmented.char 'a' _ _ _ (by decide) (by decide) (.sequence hsequence hline))

end Paneflow.Terminal.ServiceLines
