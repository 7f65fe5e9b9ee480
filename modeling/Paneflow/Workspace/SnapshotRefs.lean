import Paneflow.Flow.Tokens
import Paneflow.Workspace.Worktree
import Mathlib.Data.List.DropRight

/-!
# The list of the snapshots

`list_snapshots` of worktree.rs: what `snapshot_worktree` writes into the message of a snapshot's commit is read back
from the list that git prints of the references. A record has the reference, the commit and the body of its message, and
the body has one header in each line.

`parse_listed`: every snapshot is read back, but without the white space at the ends of its path and of its branch.
`listed_iff_unpadded`: so the list is right if and only if there is none.
-/

namespace Paneflow.Workspace.Worktree

open Paneflow.Checked Paneflow.Flow Paneflow.Lines Paneflow.Numerals Paneflow.Text

/-! ### Reading -/

/-- `str::strip_prefix` -/
def stripPrefix (front text : List Char) : Option (List Char) :=
  if front.isPrefixOf text then some (text.drop front.length) else none

def pathHeader : List Char := "Paneflow-Path: ".toList

def branchHeader : List Char := "Paneflow-Branch: ".toList

def headHeader : List Char := "Paneflow-Head: ".toList

def takenAtHeader : List Char := "Paneflow-Taken-At: ".toList

/-- What the lines of a body say so far. -/
structure Headers where
  path : Option (List Char)
  branch : Option (List Char)
  head : Option (List Char)
  takenAt : ℕ
  deriving DecidableEq, Repr

def readHeader (headers : Headers) (line : List Char) : Headers :=
  match stripPrefix pathHeader line with
  | some v => { headers with path := some (trim v) }
  | none =>
    match stripPrefix branchHeader line with
    | some v => { headers with branch := if trim v = [] then none else some (trim v) }
    | none =>
      match stripPrefix headHeader line with
      | some v => { headers with head := some (trim v) }
      | none =>
        match stripPrefix takenAtHeader line with
        | some v => { headers with takenAt := (fromStrRadix 10 (2 ^ 64) (trim v)).getD 0 }
        | none => headers

/-- The round of `parse_snapshot_refs` for a record. -/
def parseRecord (record : List Char) : Option Snapshot :=
  match splitOnce '\x00' (record.dropWhile (· = '\n')) with
  | none => none
  | some (reference, rest) =>
    match splitOnce '\x00' rest with
    | none => none
    | some (commit, body) =>
      if reference = [] then none
      else
        let headers := (textLines body).foldl readHeader ⟨none, none, none, 0⟩
        match headers.path, headers.head with
        | some path, some head =>
          some { reference, commit, head, branch := headers.branch, path, takenAt := headers.takenAt }
        | _, _ => none

/-- `str::split` at one character -/
def splitAt (c : Char) (text : List Char) : List (List Char) :=
  let (records, rest) := splitLines c text
  records ++ [rest]

def newestFirst (snapshots : List Snapshot) : List Snapshot :=
  snapshots.mergeSort fun a b => b.takenAt ≤ a.takenAt

def parseSnapshotRefs (stdout : List Char) : List Snapshot :=
  newestFirst ((splitAt '\x01' stdout).filterMap parseRecord)

/-! ### What git prints -/

/-- `contents:body`: what follows the first paragraph. -/
def contentsBody : List Char → List Char
  | [] => []
  | '\n' :: '\n' :: text => text
  | _ :: text => contentsBody text

def Snapshot.message (snapshot : Snapshot) : List Char :=
  snapshotMessage snapshot.branch snapshot.path snapshot.head snapshot.takenAt

/-- The reference, the commit and the body of the commit's message in the format of `list_snapshots`. -/
def refRecord (snapshot : Snapshot) : List Char :=
  snapshot.reference ++ '\x00' :: snapshot.commit ++ '\x00' :: contentsBody snapshot.message

/-- The output of `for-each-ref`. -/
def forEachRef (snapshots : List Snapshot) : List Char :=
  snapshots.flatMap fun snapshot => refRecord snapshot ++ ['\x01', '\n']

/-- `list_snapshots`, with the output that `git_in` trims. -/
def listSnapshots (stdout : List Char) : List Snapshot := parseSnapshotRefs (trim stdout)

/-! ### Snapshots that were written -/

/-- A text of which git and the parser see no character as an end. -/
def Clean (text : List Char) : Prop := '\n' ∉ text ∧ '\r' ∉ text ∧ '\x00' ∉ text ∧ '\x01' ∉ text

instance (text : List Char) : Decidable (Clean text) := inferInstanceAs (Decidable (_ ∧ _ ∧ _ ∧ _))

def isHex (c : Char) : Bool := c ∈ "0123456789abcdef".toList

/-- A snapshot as `snapshot_worktree` makes it. -/
structure Written (snapshot : Snapshot) : Prop where
  reference : snapshot.reference = snapshotReference snapshot.label snapshot.takenAt
  commit : ∀ c ∈ snapshot.commit, isHex c = true
  head : ∀ c ∈ snapshot.head, isHex c = true
  branch : ∀ branch, snapshot.branch = some branch → branch ≠ [] ∧ Clean branch
  path : Clean snapshot.path
  takenAt : snapshot.takenAt < 2 ^ 64

/-- The snapshot that is read back. -/
def Snapshot.trimmed (snapshot : Snapshot) : Snapshot :=
  { snapshot with
    path := trim snapshot.path
    branch := (snapshot.branch.map trim).filter (· ≠ []) }

/-- A text without white space and without the characters that end a field. -/
def Plain (text : List Char) : Prop := ∀ c ∈ text, isWhitespace c = false ∧ c ≠ '\x00' ∧ c ≠ '\x01'

theorem Plain.clean {text : List Char} (h : Plain text) : Clean text :=
  ⟨(fun hc => nomatch (h _ hc).1), (fun hc => nomatch (h _ hc).1), fun hc => (h _ hc).2.1 rfl, fun hc => (h _ hc).2.2 rfl⟩

theorem Plain.trim_eq {text : List Char} (h : Plain text) : trim text = text := trim_eq_self fun c hc => (h c hc).1

theorem Plain.append {text more : List Char} (h : Plain text) (hmore : Plain more) : Plain (text ++ more) :=
  fun c hc => (List.mem_append.mp hc).elim (h c) (hmore c)

theorem plain_of_graphic {text : List Char} (h : ∀ c ∈ text, 0x21 ≤ c.toNat ∧ c.toNat < 0x7f) : Plain text := by
  intro c hc
  obtain ⟨hlow, hhigh⟩ := h c hc
  refine ⟨?_, ?_, ?_⟩
  · unfold isWhitespace
    simp only [Bool.or_eq_false_iff, Bool.and_eq_false_iff, decide_eq_false_iff_not]
    omega
  · rintro rfl
    exact absurd hlow (by decide)
  · rintro rfl
    exact absurd hlow (by decide)

theorem plain_hex {text : List Char} (h : ∀ c ∈ text, isHex c = true) : Plain text := by
  have hall : ∀ c ∈ "0123456789abcdef".toList, 0x21 ≤ c.toNat ∧ c.toNat < 0x7f :=
    forall_mem_of_all (by decide)
  exact plain_of_graphic fun c hc => hall c (of_decide_eq_true (h c hc))

theorem plain_digits (n : ℕ) : Plain (Nat.toDigits 10 n) := by
  have hall : ∀ d < 10, 0x21 ≤ d.digitChar.toNat ∧ d.digitChar.toNat < 0x7f := by decide
  refine plain_of_graphic fun c hc => ?_
  obtain ⟨d, hd, rfl⟩ := mem_toDigits (by omega) n c hc
  exact hall d hd

theorem graphic_slugChar {c : Char} (h : isSlugChar c = true) : 0x21 ≤ c.toNat ∧ c.toNat < 0x7f := by
  unfold isSlugChar at h
  simp only [Bool.or_eq_true, decide_eq_true_eq] at h
  rcases h with ((halphanum | rfl) | rfl) | rfl
  · unfold Char.isAlphanum Char.isAlpha Char.isUpper Char.isLower Char.isDigit at halphanum
    have hval : c.val.toNat = c.toNat := rfl
    simp only [Bool.or_eq_true, Bool.and_eq_true, decide_eq_true_eq, ge_iff_le, UInt32.le_iff_toNat_le, Char.reduceVal,
      UInt32.reduceToNat] at halphanum
    omega
  · decide
  · decide
  · decide

theorem mem_of_mem_trimMatches {p : Char → Bool} {text : List Char} {c : Char} (h : c ∈ trimMatches p text) :
    c ∈ text := by
  have hend : c ∈ text.dropWhile p :=
    List.mem_reverse.mp (List.dropWhile_sublist _ |>.subset (List.mem_reverse.mp h))
  exact (List.dropWhile_sublist _).subset hend

theorem plain_branchSlugOrDefault (branch : List Char) : Plain (branchSlugOrDefault branch) := by
  have hslug : Plain (branchSlug branch) := by
    refine plain_of_graphic fun c hc => graphic_slugChar ?_
    have hmem := mem_of_mem_trimMatches hc
    obtain ⟨d, -, rfl⟩ := List.mem_map.mp hmem
    split
    · assumption
    · decide
  unfold branchSlugOrDefault
  split
  · exact plain_of_graphic (forall_mem_of_all (by decide))
  · exact hslug

/-- What `snapshot_worktree` returns, and the message of its commit. -/
theorem written_prepareSnapshot {answers : SnapshotAnswers} {path : List Char} {snapshot : Snapshot}
    (h : prepareSnapshot answers path = .ok snapshot)
    (hhead : ∀ head, answers.head = .ok head → ∀ c ∈ head, isHex c = true)
    (hcommit : ∀ tree head message commit, answers.commitTree tree head message = .ok commit →
      ∀ c ∈ commit, isHex c = true)
    (hbranch : ∀ branch, currentBranch answers = some branch → Clean branch) (hpath : Clean path)
    (hnow : answers.unixNow < 2 ^ 64) :
    Written snapshot ∧ snapshot.path = path ∧
      ∃ tree, answers.commitTree tree snapshot.head snapshot.message = .ok snapshot.commit := by
  unfold prepareSnapshot at h
  simp only [bind_eq_ok] at h
  obtain ⟨head, hanswer, -, -, -, -, tree, -, commit, hmade, h⟩ := h
  cases h
  refine ⟨⟨rfl, hcommit _ _ _ _ hmade, hhead _ hanswer, fun branch hsome => ⟨?_, hbranch branch hsome⟩, hpath, hnow⟩,
    rfl, tree, hmade⟩
  rintro rfl
  change currentBranch answers = some [] at hsome
  unfold currentBranch at hsome
  split at hsome
  · split at hsome
    · exact nomatch hsome
    · rename_i hne
      exact hne (Option.some.inj hsome)
  · exact nomatch hsome

theorem contentsBody_eq {subject : List Char} (h : '\n' ∉ subject) (body : List Char) :
    contentsBody (subject ++ '\n' :: '\n' :: body) = body := by
  induction subject with
  | nil => rfl
  | cons c subject ih =>
    obtain ⟨hc, hsubject⟩ := List.ne_and_not_mem_of_not_mem_cons h
    rw [List.cons_append, contentsBody]
    · exact ih hsubject
    · rintro text rfl
      exact absurd rfl hc

/-- Lines that are written one after the other are read back. -/
theorem textLines_flatMap {lines : List (List Char)} (h : ∀ line ∈ lines, '\n' ∉ line ∧ '\r' ∉ line) :
    textLines (lines.flatMap (· ++ ['\n'])) = lines := by
  have hsplit : splitLines '\n' (lines.flatMap (· ++ ['\n'])) = (lines, []) := by
    induction lines with
    | nil => rfl
    | cons line lines ih =>
      obtain ⟨hline, hrest⟩ := List.forall_mem_cons.mp h
      rw [List.flatMap_cons, List.append_assoc, List.singleton_append, splitLines_line hline.1, ih hrest]
  unfold textLines
  rw [hsplit]
  dsimp only
  rw [if_pos rfl, List.append_nil]
  refine (List.map_congr_left fun line hline => ?_).trans (List.map_id lines)
  exact if_neg fun hlast => (h line hline).2 (List.mem_of_getLast? hlast)

def bodyLines (snapshot : Snapshot) : List (List Char) :=
  [pathHeader ++ snapshot.path, branchHeader ++ snapshot.branch.getD [], headHeader ++ snapshot.head,
    takenAtHeader ++ Nat.toDigits 10 snapshot.takenAt]

theorem contentsBody_message {snapshot : Snapshot} (h : Written snapshot) :
    contentsBody snapshot.message = (bodyLines snapshot).flatMap (· ++ ['\n']) := by
  have hsubject : '\n' ∉ "Paneflow snapshot of ".toList ++ snapshot.branch.getD "detached HEAD".toList := by
    intro hmem
    rcases List.mem_append.mp hmem with hmem | hmem
    · exact absurd hmem (by decide)
    · cases hbranch : snapshot.branch with
      | none =>
        rw [hbranch] at hmem
        exact absurd hmem (by decide)
      | some branch =>
        rw [hbranch] at hmem
        exact (h.branch branch hbranch).2.1 hmem
  have hmessage :
      snapshot.message =
        ("Paneflow snapshot of ".toList ++ snapshot.branch.getD "detached HEAD".toList) ++
          '\n' :: '\n' :: (bodyLines snapshot).flatMap (· ++ ['\n']) := by
    have hpath : "\n\nPaneflow-Path: ".toList = '\n' :: '\n' :: pathHeader := rfl
    have hbranch : "\nPaneflow-Branch: ".toList = '\n' :: branchHeader := rfl
    have hhead : "\nPaneflow-Head: ".toList = '\n' :: headHeader := rfl
    have htakenAt : "\nPaneflow-Taken-At: ".toList = '\n' :: takenAtHeader := rfl
    unfold Snapshot.message snapshotMessage bodyLines
    rw [hpath, hbranch, hhead, htakenAt]
    simp only [List.flatMap_cons, List.flatMap_nil, List.append_assoc, List.cons_append, List.nil_append,
      List.append_nil]
  rw [hmessage, contentsBody_eq hsubject]

/-! ### Reading back -/

theorem stripPrefix_append (front text : List Char) : stripPrefix front (front ++ text) = some text := by
  unfold stripPrefix
  rw [if_pos <| List.isPrefixOf_iff_prefix.mpr (List.prefix_append front text), List.drop_left]

theorem clean_branch {snapshot : Snapshot} (h : Written snapshot) : Clean (snapshot.branch.getD []) := by
  cases hbranch : snapshot.branch with
  | none => decide
  | some branch => exact (h.branch branch hbranch).2

theorem Clean.append {text more : List Char} (h : Clean text) (hmore : Clean more) : Clean (text ++ more) := by
  obtain ⟨hn, hr, hz, ho⟩ := h
  obtain ⟨hn', hr', hz', ho'⟩ := hmore
  simp only [Clean, List.mem_append, not_or]
  exact ⟨⟨hn, hn'⟩, ⟨hr, hr'⟩, ⟨hz, hz'⟩, ho, ho'⟩

theorem clean_bodyLines {snapshot : Snapshot} (h : Written snapshot) : ∀ line ∈ bodyLines snapshot, Clean line := by
  intro line hline
  simp only [bodyLines, List.mem_cons, List.not_mem_nil, or_false] at hline
  rcases hline with rfl | rfl | rfl | rfl
  · exact Clean.append (by decide) h.path
  · exact Clean.append (by decide) (clean_branch h)
  · exact Clean.append (by decide) (plain_hex h.head).clean
  · exact Clean.append (by decide) (plain_digits _).clean

/-- What the four lines say. -/
theorem readHeader_bodyLines {snapshot : Snapshot} (h : Written snapshot) :
    (bodyLines snapshot).foldl readHeader ⟨none, none, none, 0⟩ =
      ⟨some (trim snapshot.path), snapshot.trimmed.branch, some snapshot.head, snapshot.takenAt⟩ := by
  have hpath (v : List Char) (headers : Headers) :
      readHeader headers (pathHeader ++ v) = { headers with path := some (trim v) } := by
    unfold readHeader
    rw [stripPrefix_append]
  have hbranch (v : List Char) (headers : Headers) :
      readHeader headers (branchHeader ++ v) = { headers with branch := if trim v = [] then none else some (trim v) } := by
    have hnot : stripPrefix pathHeader (branchHeader ++ v) = none := rfl
    unfold readHeader
    rw [hnot, stripPrefix_append]
  have hhead (v : List Char) (headers : Headers) :
      readHeader headers (headHeader ++ v) = { headers with head := some (trim v) } := by
    have hnot : stripPrefix pathHeader (headHeader ++ v) = none := rfl
    have hnot' : stripPrefix branchHeader (headHeader ++ v) = none := rfl
    unfold readHeader
    rw [hnot, hnot', stripPrefix_append]
  have htakenAt (v : List Char) (headers : Headers) :
      readHeader headers (takenAtHeader ++ v) =
        { headers with takenAt := (fromStrRadix 10 (2 ^ 64) (trim v)).getD 0 } := by
    have hnot : stripPrefix pathHeader (takenAtHeader ++ v) = none := rfl
    have hnot' : stripPrefix branchHeader (takenAtHeader ++ v) = none := rfl
    have hnot'' : stripPrefix headHeader (takenAtHeader ++ v) = none := rfl
    unfold readHeader
    rw [hnot, hnot', hnot'', stripPrefix_append]
  have hdigits : fromStrRadix 10 (2 ^ 64) (trim (Nat.toDigits 10 snapshot.takenAt)) = some snapshot.takenAt := by
    rw [(plain_digits _).trim_eq]
    exact fromStrRadix_toDigits (by omega) (by omega) h.takenAt
  have hfilter : (if trim (snapshot.branch.getD []) = [] then none else some (trim (snapshot.branch.getD []))) =
      snapshot.trimmed.branch := by
    unfold Snapshot.trimmed
    cases snapshot.branch with
    | none => rfl
    | some branch =>
      by_cases hblank : trim branch = []
      · simp [hblank, Option.filter]
      · simp [hblank, Option.filter]
  simp only [bodyLines, List.foldl_cons, List.foldl_nil, hpath, hbranch, hhead, htakenAt, hdigits, Option.getD_some,
    (plain_hex h.head).trim_eq, hfilter]

theorem reference_eq {snapshot : Snapshot} (h : Written snapshot) :
    ∃ rest, snapshot.reference = 'r' :: rest ∧ Plain snapshot.reference := by
  have hreference := h.reference
  refine ⟨snapshot.reference.drop 1, ?_, ?_⟩
  · rw [hreference]
    rfl
  · rw [hreference]
    have hlabel : Plain snapshot.label := by
      unfold Snapshot.label snapshotLabel
      split <;> exact plain_branchSlugOrDefault _
    have hminus : Plain ['-'] := plain_of_graphic (forall_mem_of_all (by decide))
    have hend : Plain ('-' :: Nat.toDigits 10 snapshot.takenAt) := hminus.append (plain_digits _)
    exact Plain.append (Plain.append (plain_of_graphic (forall_mem_of_all (by decide))) hlabel) hend

theorem parseRecord_refRecord {snapshot : Snapshot} (h : Written snapshot) {lead : List Char}
    (hlead : ∀ c ∈ lead, c = '\n') : parseRecord (lead ++ refRecord snapshot) = some snapshot.trimmed := by
  obtain ⟨rest, hreference, hplain⟩ := reference_eq h
  have hdrop : (lead ++ refRecord snapshot).dropWhile (· = '\n') = refRecord snapshot := by
    rw [List.dropWhile_append_of_pos fun c hc => decide_eq_true (hlead c hc)]
    unfold refRecord
    rw [hreference]
    rfl
  have hfirst : splitOnce '\x00' (refRecord snapshot) =
      some (snapshot.reference, snapshot.commit ++ '\x00' :: contentsBody snapshot.message) := by
    unfold refRecord
    rw [List.append_assoc]
    exact splitOnce_append hplain.clean.2.2.1 _
  have hsecond := splitOnce_append (plain_hex h.commit).clean.2.2.1 (contentsBody snapshot.message)
  have hlines : textLines (contentsBody snapshot.message) = bodyLines snapshot := by
    rw [contentsBody_message h]
    exact textLines_flatMap fun line hline => ⟨(clean_bodyLines h line hline).1, (clean_bodyLines h line hline).2.1⟩
  have hnonempty : snapshot.reference ≠ [] := hreference ▸ List.cons_ne_nil _ _
  unfold parseRecord
  rw [hdrop, hfirst]
  dsimp only
  rw [hsecond]
  dsimp only
  rw [if_neg hnonempty, hlines, readHeader_bodyLines h]
  rfl

theorem refRecord_mark {snapshot : Snapshot} (h : Written snapshot) : '\x01' ∉ refRecord snapshot := by
  obtain ⟨-, -, hplain⟩ := reference_eq h
  have hcommit := plain_hex h.commit
  have hbody : '\x01' ∉ contentsBody snapshot.message := by
    rw [contentsBody_message h]
    intro hmem
    obtain ⟨line, hline, hc⟩ := List.mem_flatMap.mp hmem
    rcases List.mem_append.mp hc with hc | hc
    · exact (clean_bodyLines h line hline).2.2.2 hc
    · exact absurd hc (by decide)
  have hzero : '\x01' ≠ '\x00' := by decide
  simp only [refRecord, List.mem_append, List.mem_cons, not_or]
  exact ⟨⟨hplain.clean.2.2.2, hzero, hcommit.clean.2.2.2⟩, hzero, hbody⟩

/-- The records of the output; what follows the last is a newline at most. -/
theorem splitLines_forEachRef {snapshots : List Snapshot} (h : ∀ snapshot ∈ snapshots, Written snapshot)
    {lead : List Char} (hlead : ∀ c ∈ lead, c = '\n') :
    ∃ records rest, splitLines '\x01' (lead ++ forEachRef snapshots) = (records, rest) ∧
      records.filterMap parseRecord = snapshots.map Snapshot.trimmed ∧ ∀ c ∈ rest, c = '\n' := by
  have hmark (text : List Char) (htext : ∀ c ∈ text, c = '\n') : '\x01' ∉ text := by
    intro hmem
    exact absurd (htext _ hmem) (by decide)
  induction snapshots generalizing lead with
  | nil =>
    refine ⟨[], lead, ?_, rfl, hlead⟩
    rw [forEachRef, List.flatMap_nil, List.append_nil]
    exact splitLines_rest (hmark lead hlead)
  | cons snapshot snapshots ih =>
    obtain ⟨hfirst, hrest⟩ := List.forall_mem_cons.mp h
    have hnewline : ∀ c ∈ ['\n'], c = '\n' := fun c hc => List.mem_singleton.mp hc
    obtain ⟨records, rest, hsplit, hrecords, hlast⟩ := ih hrest hnewline
    have htext : lead ++ forEachRef (snapshot :: snapshots) =
        (lead ++ refRecord snapshot) ++ '\x01' :: (['\n'] ++ forEachRef snapshots) := by
      simp [forEachRef]
    have hnone : '\x01' ∉ lead ++ refRecord snapshot := by
      rw [List.mem_append, not_or]
      exact ⟨hmark lead hlead, refRecord_mark hfirst⟩
    refine ⟨(lead ++ refRecord snapshot) :: records, rest, ?_, ?_, hlast⟩
    · rw [htext, splitLines_line hnone, hsplit]
    · rw [List.filterMap_cons, parseRecord_refRecord hfirst hlead, hrecords]
      rfl

theorem parseRecord_newlines {rest : List Char} (h : ∀ c ∈ rest, c = '\n') : parseRecord rest = none := by
  have hdrop : rest.dropWhile (· = '\n') = [] := List.dropWhile_eq_nil_iff.mpr fun c hc => decide_eq_true (h c hc)
  unfold parseRecord
  rw [hdrop]
  rfl

/-- The white space at the end of the output does not matter. -/
theorem parse_forEachRef {snapshots : List Snapshot} (h : ∀ snapshot ∈ snapshots, Written snapshot)
    {stdout final : List Char} (hstdout : forEachRef snapshots = stdout ++ final) (hfinal : '\x01' ∉ final) :
    parseSnapshotRefs stdout = newestFirst (snapshots.map Snapshot.trimmed) := by
  obtain ⟨records, rest, hsplit, hrecords, hlast⟩ := splitLines_forEachRef h fun _ hc => absurd hc List.not_mem_nil
  rw [List.nil_append, hstdout, splitLines_append] at hsplit
  obtain ⟨hlines, hrest⟩ := Prod.mk.inj hsplit
  have hnone : '\x01' ∉ (splitLines '\x01' stdout).2 ++ final := by
    rw [List.mem_append, not_or]
    exact ⟨notMem_splitLines _ _, hfinal⟩
  rw [splitLines_rest hnone] at hlines hrest
  rw [List.append_nil] at hlines
  have hleft : parseRecord (splitLines '\x01' stdout).2 = none :=
    parseRecord_newlines fun c hc => hlast c (hrest ▸ List.mem_append_left _ hc)
  unfold parseSnapshotRefs splitAt
  dsimp only
  rw [List.filterMap_append, hlines, hrecords, List.filterMap_cons, hleft, List.filterMap_nil, List.append_nil]

theorem trim_forEachRef {snapshots : List Snapshot} (h : ∀ snapshot ∈ snapshots, Written snapshot) :
    ∃ final, forEachRef snapshots = trim (forEachRef snapshots) ++ final ∧ '\x01' ∉ final := by
  have hfront : (forEachRef snapshots).dropWhile isWhitespace = forEachRef snapshots := by
    cases snapshots with
    | nil => rfl
    | cons snapshot snapshots =>
      obtain ⟨rest, hreference, -⟩ := reference_eq (h snapshot List.mem_cons_self)
      rw [forEachRef, List.flatMap_cons, refRecord, hreference]
      rfl
  have hreverse := List.takeWhile_append_dropWhile (p := isWhitespace) (l := (forEachRef snapshots).reverse)
  refine ⟨((forEachRef snapshots).reverse.takeWhile isWhitespace).reverse, ?_, ?_⟩
  · unfold trim trimMatches
    rw [hfront, ← List.reverse_append, hreverse, List.reverse_reverse]
  · intro hmem
    exact Bool.false_ne_true (List.mem_takeWhile_imp (List.mem_reverse.mp hmem))

theorem parse_listed {snapshots : List Snapshot} (h : ∀ snapshot ∈ snapshots, Written snapshot) :
    parseSnapshotRefs (forEachRef snapshots) = newestFirst (snapshots.map Snapshot.trimmed) ∧
      listSnapshots (forEachRef snapshots) = newestFirst (snapshots.map Snapshot.trimmed) := by
  obtain ⟨final, htrim, hfinal⟩ := trim_forEachRef h
  exact ⟨parse_forEachRef h (List.append_nil _).symm List.not_mem_nil, parse_forEachRef h htrim hfinal⟩

/-! ### When the list is right -/

theorem trim_trim (text : List Char) : trim (trim text) = trim text := by
  unfold trim trimMatches
  generalize hfront : text.dropWhile isWhitespace = front
  have hstays : front.dropWhile isWhitespace = front := hfront ▸ List.dropWhile_idempotent _ _
  have hends : (front.reverse.dropWhile isWhitespace).reverse.dropWhile isWhitespace =
      (front.reverse.dropWhile isWhitespace).reverse := by
    obtain ⟨final, hfinal⟩ := List.rdropWhile_prefix isWhitespace front
    change (front.rdropWhile isWhitespace).dropWhile isWhitespace = front.rdropWhile isWhitespace
    cases hcase : front.rdropWhile isWhitespace with
    | nil => rfl
    | cons c text =>
      rw [hcase] at hfinal
      by_cases hc : isWhitespace c = true
      · rw [← hfinal, List.cons_append, List.dropWhile_cons_of_pos hc] at hstays
        have hlength := congrArg List.length hstays
        have hle := (List.dropWhile_sublist isWhitespace (l := text ++ final)).length_le
        rw [List.length_cons] at hlength
        omega
      · exact List.dropWhile_cons_of_neg hc
  rw [hends, List.reverse_reverse, List.dropWhile_idempotent]

theorem trimmed_trimmed (snapshot : Snapshot) : snapshot.trimmed.trimmed = snapshot.trimmed := by
  unfold Snapshot.trimmed
  dsimp only
  rw [trim_trim]
  cases snapshot.branch with
  | none => rfl
  | some branch =>
    by_cases hblank : trim branch = []
    · simp [hblank, Option.filter]
    · simp [hblank, Option.filter, trim_trim]

/-- No white space stands at the ends of the path and of the branch. -/
def Snapshot.Unpadded (snapshot : Snapshot) : Prop :=
  trim snapshot.path = snapshot.path ∧ ∀ branch, snapshot.branch = some branch → trim branch = branch

theorem trimmed_eq_iff {snapshot : Snapshot} (h : Written snapshot) :
    snapshot.trimmed = snapshot ↔ snapshot.Unpadded := by
  constructor
  · intro heq
    have hpath : trim snapshot.path = snapshot.path := congrArg Snapshot.path heq
    have hbranch : (snapshot.branch.map trim).filter (· ≠ []) = snapshot.branch := congrArg Snapshot.branch heq
    refine ⟨hpath, fun branch hsome => ?_⟩
    rw [hsome, Option.map_some, Option.filter_eq_some_iff] at hbranch
    exact Option.some.inj hbranch.1
  · rintro ⟨hpath, hbranch⟩
    have hsame : (snapshot.branch.map trim).filter (· ≠ []) = snapshot.branch := by
      cases hsome : snapshot.branch with
      | none => rfl
      | some branch =>
        rw [Option.map_some, hbranch branch hsome]
        exact if_pos (decide_eq_true (h.branch branch hsome).1)
    unfold Snapshot.trimmed
    rw [hpath, hsame]

/-- The list has exactly these snapshots, the newest first. -/
def Listed (snapshots out : List Snapshot) : Prop := out.Perm snapshots ∧ out.Pairwise fun a b => b.takenAt ≤ a.takenAt

theorem listed_trimmed_iff {snapshots : List Snapshot} (h : ∀ snapshot ∈ snapshots, Written snapshot) :
    Listed snapshots (newestFirst (snapshots.map Snapshot.trimmed)) ↔ ∀ snapshot ∈ snapshots, snapshot.Unpadded := by
  have hperm := List.mergeSort_perm (snapshots.map Snapshot.trimmed) fun a b => b.takenAt ≤ a.takenAt
  constructor
  · rintro ⟨hsame, -⟩ snapshot hmem
    have hmap : snapshot ∈ snapshots.map Snapshot.trimmed := hperm.subset (hsame.symm.subset hmem)
    obtain ⟨other, -, rfl⟩ := List.mem_map.mp hmap
    exact (trimmed_eq_iff (h _ hmem)).mp (trimmed_trimmed other)
  · intro hall
    have hmap : snapshots.map Snapshot.trimmed = snapshots :=
      (List.map_congr_left fun snapshot hmem => (trimmed_eq_iff (h snapshot hmem)).mpr (hall snapshot hmem)).trans
        (List.map_id snapshots)
    refine ⟨hperm.trans (List.Perm.of_eq hmap), ?_⟩
    have hsorted := @List.pairwise_mergeSort _ (fun a b : Snapshot => decide (b.takenAt ≤ a.takenAt))
      (fun a b c hab hbc => by
        rw [decide_eq_true_eq] at hab hbc ⊢
        omega)
      (fun a b => by
        rw [Bool.or_eq_true, decide_eq_true_eq, decide_eq_true_eq]
        omega)
      (snapshots.map Snapshot.trimmed)
    exact hsorted.imp fun hab => of_decide_eq_true hab

/-- The snapshots that were written are listed if and only if no path and no branch has white space at its ends. -/
theorem listed_iff_unpadded {snapshots : List Snapshot} (h : ∀ snapshot ∈ snapshots, Written snapshot) :
    (Listed snapshots (parseSnapshotRefs (forEachRef snapshots)) ↔ ∀ snapshot ∈ snapshots, snapshot.Unpadded) ∧
      (Listed snapshots (listSnapshots (forEachRef snapshots)) ↔ ∀ snapshot ∈ snapshots, snapshot.Unpadded) := by
  obtain ⟨hparse, hlist⟩ := parse_listed h
  rw [hparse, hlist]
  exact ⟨listed_trimmed_iff h, listed_trimmed_iff h⟩

def blankEnded : Snapshot where
  reference := "refs/paneflow/snapshots/home-u-wt-7".toList
  commit := "c0ffee".toList
  head := "deadbeef".toList
  branch := none
  path := "/home/u/wt ".toList
  takenAt := 7

theorem written_blankEnded : Written blankEnded where
  reference := by decide
  commit := forall_mem_of_all (by decide)
  head := forall_mem_of_all (by decide)
  branch := fun _ hbranch => nomatch hbranch
  path := by decide
  takenAt := by decide

theorem not_listed_blankEnded : ¬ ∀ snapshots : List Snapshot, (∀ snapshot ∈ snapshots, Written snapshot) →
    Listed snapshots (listSnapshots (forEachRef snapshots)) := by
  intro hall
  have hwritten : ∀ snapshot ∈ [blankEnded], Written snapshot := fun _ hmem => List.mem_singleton.mp hmem ▸ written_blankEnded
  have hlisted := hall [blankEnded] hwritten
  rw [(parse_listed hwritten).2] at hlisted
  have hunpadded := (listed_trimmed_iff hwritten).mp hlisted blankEnded (List.mem_singleton_self _)
  exact absurd hunpadded.1 (by decide)

theorem listed_iff_unpadded_sample :
    (Listed [blankEnded] (parseSnapshotRefs (forEachRef [blankEnded])) ↔ ∀ snapshot ∈ [blankEnded], snapshot.Unpadded) ∧
      (Listed [blankEnded] (listSnapshots (forEachRef [blankEnded])) ↔ ∀ snapshot ∈ [blankEnded], snapshot.Unpadded) :=
  listed_iff_unpadded fun _ hmem => List.mem_singleton.mp hmem ▸ written_blankEnded

end Paneflow.Workspace.Worktree
