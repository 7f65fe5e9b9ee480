import Paneflow.Usage.Ledger
import Paneflow.Usage.Passes
import Mathlib.Data.List.Chain

/-!
# The tokens that are booked

`record_tokens` books the entries of a pass that began where the last one ended. `read_passes` says what
passes over a growing transcript come to, and that for Codex the tokens in the book, with those of imported
days, are the greatest totals of the lines, however the file was cut.
-/

namespace Paneflow.Usage.Tokens

open Paneflow.Json Paneflow.Lines Paneflow.Usage.Ledger

variable {S A D : Type} [LinearOrder S] [LinearOrder A] [LinearOrder D]

/-- The tokens of the account on all days. -/
def booked (book : TurnBook S A D) (account : A) : ℕ × ℕ :=
  let tallies := book.days.values.map fun tallies => (tallies.get? account).getD .default
  ((tallies.map DayTally.tokensIn).sum, (tallies.map DayTally.tokensOut).sum)

/-- The tokens of entries on days that are imported for the account. -/
def imported (book : TurnBook S A D) (account : A) (entries : List (TokenEntry D)) : ℕ × ℕ :=
  tokensOf (entries.filter fun entry => book.isImported entry.day account)

variable {book : TurnBook S A D} {account : A}

/-! ### Booking -/

/-- What the account has on a day is changed in the book. -/
theorem booked_insert (book : TurnBook S A D) (account : A) (day : D) (tally : DayTally)
    (revision : ℕ) :
    booked { book with
        days := book.days.insert day ((book.onDay day).insert account tally)
        revision := revision } account +
        ((book.tally day account).tokensIn, (book.tally day account).tokensOut) =
      booked book account + (tally.tokensIn, tally.tokensOut) := by
  have hpart (part : DayTally → ℕ) (hzero : part .default = 0) :
      (((book.days.insert day ((book.onDay day).insert account tally)).values.map
          fun tallies => part ((tallies.get? account).getD .default)).sum) +
        part (book.tally day account) =
      (book.days.values.map fun tallies => part ((tallies.get? account).getD .default)).sum +
        part tally := by
    have hsum := OrdMap.sum_values_insert (m := book.days) (k := day)
      (v := (book.onDay day).insert account tally)
      fun tallies => part ((tallies.get? account).getD .default)
    have hnew : (((book.onDay day).insert account tally).get? account).getD .default = tally := by
      simp
    have hold : (book.days.get? day).elim 0
        (fun tallies => part ((tallies.get? account).getD .default)) =
          part (book.tally day account) := by
      unfold TurnBook.tally TurnBook.onDay
      cases book.days.get? day with
      | none => simp [hzero]
      | some tallies => rfl
    rw [hold, hnew] at hsum
    exact hsum
  unfold booked
  simp only [List.map_map]
  exact Prod.ext (hpart DayTally.tokensIn rfl) (hpart DayTally.tokensOut rfl)

/-- The book with the tokens of an entry, as `record_tokens` adds them. -/
def bookEntry (account : A) (book : TurnBook S A D) (entry : TokenEntry D) : TurnBook S A D :=
  book.book entry.day account fun tally =>
    { tally with
      tokensIn := tally.tokensIn + entry.input
      tokensOut := tally.tokensOut + entry.output }

theorem booked_bookEntry (book : TurnBook S A D) (account : A) (entry : TokenEntry D) :
    booked (bookEntry account book entry) account + imported book account [entry] =
      booked book account + (entry.input, entry.output) := by
  unfold bookEntry TurnBook.book imported
  by_cases himported : book.isImported entry.day account = true
  · simp [himported, tokensOf]
  · rw [if_neg himported]
    have hold := booked_insert book account entry.day
      { book.tally entry.day account with
        tokensIn := (book.tally entry.day account).tokensIn + entry.input
        tokensOut := (book.tally entry.day account).tokensOut + entry.output }
      (book.revision + 1)
    have hnone : tokensOf ([entry].filter fun entry => book.isImported entry.day account) = 0 := by
      simp [himported, tokensOf]
    rw [hnone, add_zero]
    refine add_right_cancel (hold.trans ?_)
    rw [add_assoc]
    congr 1
    exact Prod.ext (Nat.add_comm _ _) (Nat.add_comm _ _)

theorem booked_entries (book : TurnBook S A D) (account : A) (entries : List (TokenEntry D)) :
    booked (entries.foldl (bookEntry account) book) account + imported book account entries =
      booked book account + tokensOf entries := by
  induction entries generalizing book with
  | nil => rfl
  | cons entry entries ih =>
    have hsame : (bookEntry account book entry).imported = book.imported :=
      (book_rebooked ..).imported
    have hrest : imported (bookEntry account book entry) account entries =
        imported book account entries := by
      unfold imported TurnBook.isImported
      rw [hsame]
    have hcons : imported book account (entry :: entries) =
        imported book account [entry] + imported book account entries := by
      unfold imported
      rw [← List.singleton_append, List.filter_append, tokensOf_append]
    have hentry := booked_bookEntry book account entry
    have hentries := ih (bookEntry account book entry)
    rw [hrest] at hentries
    have htokens : tokensOf (entry :: entries) = (entry.input, entry.output) + tokensOf entries :=
      tokensOf_append [entry] entries
    rw [List.foldl_cons, hcons, htokens]
    calc booked (entries.foldl (bookEntry account) (bookEntry account book entry)) account +
          (imported book account [entry] + imported book account entries)
        = booked (bookEntry account book entry) account + tokensOf entries +
            imported book account [entry] := by rw [← hentries]; abel
      _ = booked book account + ((entry.input, entry.output) + tokensOf entries) := by
          rw [← add_assoc, ← hentry]; abel

theorem bookEntries_rebooked (book : TurnBook S A D) (account : A)
    (entries : List (TokenEntry D)) : Rebooked book (entries.foldl (bookEntry account) book) := by
  induction entries generalizing book with
  | nil => exact .refl book
  | cons entry entries ih => exact (book_rebooked ..).trans (ih _)

/-- The book after a pass from the cursor that is saved. -/
theorem recordTokens_eq {pass : TokenPass D} (h : book.tokenCursor pass.path = pass.start) :
    (book.recordTokens account pass).2 =
      let book := pass.entries.foldl (bookEntry account) book
      if pass.cursor = pass.start then book
      else
        let cursors := (book.cursors.insert pass.path pass.cursor).mapValues fun cursor =>
          if cursor.seenDay ≠ pass.cursor.seenDay then { cursor with seen := [] } else cursor
        { book with
          cursors := TurnBook.dropCursors cursors.entries.length cursors
          revision := book.revision + 1 } := by
  unfold TurnBook.recordTokens
  rw [if_neg (not_not.2 h)]
  exact apply_ite Prod.snd ..

/-- A pass from the cursor that is saved adds the tokens of its entries. -/
theorem booked_recordTokens (account : A) {pass : TokenPass D}
    (h : book.tokenCursor pass.path = pass.start) :
    booked (book.recordTokens account pass).2 account + imported book account pass.entries =
      booked book account + tokensOf pass.entries := by
  have hentries := booked_entries book account pass.entries
  rw [recordTokens_eq h]
  dsimp only
  split_ifs
  · exact hentries
  · exact hentries

/-! ### The cursor that is saved -/

omit [LinearOrder D] in
theorem dropCursors_of_le {cursors : OrdMap String (TokenCursor D)}
    (h : cursors.entries.length ≤ maxCursors) (fuel : ℕ) :
    TurnBook.dropCursors fuel cursors = cursors := by
  cases fuel with
  | zero => rfl
  | succ fuel =>
    unfold TurnBook.dropCursors
    exact if_neg (not_lt.2 h)

/-! ### Passes -/

/-- Passes that start from the cursors of their books -/
theorem booked_records {L : Type} {path : String} {passes : List (TokenPass D × L)}
    {records : List (TurnBook S A D × A)} (hpath : ∀ pass ∈ passes, pass.1.path = path)
    (h : passes.Forall₂ (fun pass record => record.1.tokenCursor path = pass.1.start) records) :
    (passes.zipWith (fun pass record =>
          booked (record.1.recordTokens record.2 pass.1).2 record.2) records).sum +
        (passes.zipWith (fun pass record =>
          imported record.1 record.2 pass.1.entries) records).sum =
      (records.map fun record => booked record.1 record.2).sum +
        tokensOf (passes.flatMap fun pass => pass.1.entries) := by
  induction h with
  | nil => rfl
  | @cons pass record passes records hcursor _ ih =>
    obtain ⟨hfirst, hrest⟩ := List.forall_mem_cons.1 hpath
    rw [← hfirst] at hcursor
    have hpass := booked_recordTokens record.2 hcursor
    have hpasses := ih hrest
    simp only [List.zipWith_cons_cons, List.sum_cons, List.map_cons, List.flatMap_cons,
      tokensOf_append]
    rw [add_add_add_comm, hpass, hpasses, add_add_add_comm]

theorem readPasses_path (host : Host D) (path : String) (kind : TranscriptKind)
    (start : TokenCursor D) (looks : List Look) :
    ∀ pass ∈ host.readPasses path kind start looks, pass.1.path = path := by
  induction looks generalizing start with
  | nil => exact List.forall_mem_nil _
  | cons look looks ih => exact List.forall_mem_cons.2 ⟨rfl, ih _⟩

/-- **Passes over a transcript** that is only appended to. The lines that the passes handle are, once and in
order, the complete ones that are not too long in the part that has been read; when the file stops growing,
enough passes handle all of them. For Codex the entries of all passes come to the greatest totals that the
lines report, and so do the tokens that are booked, with those of the days that are imported. -/
theorem read_passes (host : Host D) (path : String) (kind : TranscriptKind) {looks : List Look}
    (hgrow : (looks.map Look.file).IsChain (· <+: ·)) :
    let passes := host.readPasses path kind .default looks
    let file := (looks.map Look.file).getLastD []
    let lines := passes.flatMap Prod.snd
    Caught file (lastCursor .default passes) lines ∧
    lines <+: short (splitLines newline file).1 ∧
    (∀ more : List Look, (∀ look ∈ more, look.file = file) → file.length < more.length →
      (host.readPasses path kind .default (looks ++ more)).flatMap Prod.snd =
        short (splitLines newline file).1) ∧
    (kind = .codex →
      tokensOf (passes.flatMap fun pass => pass.1.entries) =
          greatest (0, 0) (lines.filterMap host.usage) ∧
        ∀ records : List (TurnBook S A D × A),
          passes.Forall₂ (fun pass record => record.1.tokenCursor path = pass.1.start) records →
          (passes.zipWith (fun pass record =>
                booked (record.1.recordTokens record.2 pass.1).2 record.2) records).sum +
              (passes.zipWith (fun pass record =>
                imported record.1 record.2 pass.1.entries) records).sum =
            (records.map fun record => booked record.1 record.2).sum +
              greatest (0, 0) (lines.filterMap host.usage)) := by
  intro passes file lines
  have hstart : Caught [] (.default : TokenCursor D) [] := ⟨le_rfl, rfl, rfl⟩
  have hchain : ([] :: looks.map Look.file).IsChain (· <+: ·) :=
    hgrow.cons fun _ _ => List.nil_prefix
  have hcaught : Caught file (lastCursor .default passes) lines :=
    hstart.passes host path kind hchain
  refine ⟨hcaught, hcaught.prefix_lines, ?_, ?_⟩
  · intro more hmore hlong
    rw [readPasses_append, List.flatMap_append]
    have hsame : ∀ next ∈ more.map Look.file, next = file := by
      intro next hnext
      obtain ⟨look, hlook, rfl⟩ := List.mem_map.1 hnext
      exact hmore look hlook
    have hgrowth : (file :: more.map Look.file).IsChain (· <+: ·) := by
      rw [List.eq_replicate_of_mem hsame, ← List.replicate_succ]
      exact List.isChain_replicate_of_rel _ List.prefix_rfl
    have hlast := hcaught.passes host path kind hgrowth
    have hfile : (more.map Look.file).getLastD file = file := by
      rw [List.eq_replicate_of_mem hsame, List.getLastD_eq_getLast?, List.getLast?_replicate]
      split_ifs <;> rfl
    rw [hfile] at hlast
    obtain ⟨-, hend⟩ := hcaught.passes_done host path kind hmore
    have hoffset := hlast.offset
    exact hlast.all_lines (hend.resolve_right (by omega))
  · rintro rfl
    obtain ⟨hmost, hsum⟩ := readPasses_tallied host path .default looks
    have htokens : tokensOf (passes.flatMap fun pass => pass.1.entries) =
        greatest (0, 0) (lines.filterMap host.usage) := by
      rw [← add_zero (tokensOf _)]
      exact hsum.trans hmost
    refine ⟨htokens, ?_⟩
    intro records hrecords
    rw [← htokens]
    exact booked_records (readPasses_path host path .codex .default looks) hrecords

/-! ### A transcript -/

/-- An event of Codex with its totals, on the second day. -/
def tokenCount : List UInt8 :=
  ("\x7b\"type\":\"event_msg\",\"timestamp\":\"1970-01-02T00:00:00Z\",\"payload\":" ++
    "\x7b\"type\":\"token_count\",\"info\":\x7b\"total_token_usage\":\x7b\"input_tokens\":12," ++
    "\"cached_input_tokens\":2,\"output_tokens\":5\x7d\x7d\x7d\x7d").toUTF8.data.toList

def tokenCountValue : Value :=
  .object [("type", .string "event_msg"), ("timestamp", .string "1970-01-02T00:00:00Z"),
    ("payload", .object [("type", .string "token_count"), ("info", .object [("total_token_usage",
      .object [("input_tokens", .number (.posInt 12)), ("cached_input_tokens", .number (.posInt 2)),
        ("output_tokens", .number (.posInt 5))])])])]

/-- JSON, stamps and days as far as `tokenCount` needs them. -/
def tokenCountHost : Host ℕ where
  fromSlice bytes := if bytes = tokenCount then some tokenCountValue else none
  parseStamp stamp := if stamp = "1970-01-02T00:00:00Z" then some 86400000 else none
  hash _ := 0
  trim := id
  day t := t / 86400000

/-- A file that is cut in the middle of its line. -/
def tokenCountLooks : List Look :=
  [⟨tokenCount.take 40, 90000000, false⟩, ⟨tokenCount ++ [newline], 90001000, false⟩]

theorem tokenCountLooks_grow : (tokenCountLooks.map Look.file).IsChain (· <+: ·) := by
  refine List.isChain_cons_cons.2 ⟨?_, List.isChain_singleton _⟩
  exact (List.take_prefix 40 tokenCount).trans (List.prefix_append _ _)

/-- The line is handled by the second pass, and its tokens are booked. -/
theorem read_passes_tokenCount :
    let passes := tokenCountHost.readPasses "rollout.jsonl" .codex .default tokenCountLooks
    passes.map Prod.snd = [[], [tokenCount]] ∧
      tokensOf (passes.flatMap fun pass => pass.1.entries) = (10, 5) := by
  refine ⟨by decide +kernel, ?_⟩
  have htokens := ((read_passes (S := ℕ) (A := ℕ) tokenCountHost "rollout.jsonl" .codex
    tokenCountLooks_grow).2.2.2 rfl).1
  refine htokens.trans ?_
  decide +kernel

/-- On a day that is imported nothing is booked. -/
theorem not_read_passes :
    ¬ ∀ (looks : List Look) (records : List (TurnBook ℕ ℕ ℕ × ℕ)),
      let passes := tokenCountHost.readPasses "rollout.jsonl" .codex .default looks
      (looks.map Look.file).IsChain (· <+: ·) →
      passes.Forall₂
        (fun pass record => record.1.tokenCursor "rollout.jsonl" = pass.1.start) records →
      (passes.zipWith (fun pass record =>
          booked (record.1.recordTokens record.2 pass.1).2 record.2) records).sum =
        (records.map fun record => booked record.1 record.2).sum +
          greatest (0, 0) ((passes.flatMap Prod.snd).filterMap tokenCountHost.usage) := by
  intro h
  let book : TurnBook ℕ ℕ ℕ := TurnBook.default.importDays
    (OrdMap.empty.insert 1 (OrdMap.empty.insert 7 ⟨1, 0, 10, 5⟩)) 2 ⟨0, 1, none⟩
  have hbooked := h [⟨tokenCount ++ [newline], 172800000, false⟩] [(book, 7)]
    (List.isChain_singleton _) (by refine .cons ?_ .nil; decide +kernel)
  revert hbooked
  decide +kernel

end Paneflow.Usage.Tokens
