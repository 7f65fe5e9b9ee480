import Paneflow.Framing
import Paneflow.Numerals
import Paneflow.Reading
import Paneflow.Utf8Lossy

/-!
# The changes of a worktree

workspace/git.rs. The changes against HEAD and the untracked files come from git's output, of which at most `cap` bytes
are kept, or from a snapshot of the repository in the process, where the sizes of git's records are added up to stop at
the same place. `changes_agree` and `untracked_agree` say that both give the same.

The repository and the file system are the parameters `Objects` and `symlinkMetadata`.
-/

namespace Paneflow.Workspace

open Paneflow.Framing Paneflow.Numerals

def gitlinkMode : ℕ := 0o160000

def objectTypeMask : ℕ := 0o170000

def rawRecordFraming : ℕ := 100

def nulFraming : ℕ := 1

structure RawChange where
  oldMode : ℕ
  newMode : ℕ
  oldOid : List Char
  newOid : List Char
  status : UInt8
  path : List UInt8
  deriving DecidableEq, Repr

def nullOid : List Char := List.replicate 40 '0'

/-! ### The snapshot -/

inductive IndexChange where
  | added
  | modified
  | deleted
  | typeChange
  deriving DecidableEq, Repr

structure SubmoduleChange where
  commitChanged : Bool
  modifiedContent : Bool
  untrackedContent : Bool
  deriving DecidableEq, Repr

inductive WorktreeChange where
  | modified
  | deleted
  | typeChange
  | intentToAdd
  | submodule (change : SubmoduleChange)
  deriving DecidableEq, Repr

inductive Conflict where
  | bothDeleted
  | addedByUs
  | deletedByThem
  | addedByThem
  | deletedByUs
  | bothAdded
  | bothModified
  deriving DecidableEq, Repr

structure Entry where
  path : List UInt8
  headToIndex : Option IndexChange
  indexToWorktree : Option WorktreeChange
  conflict : Option Conflict
  untracked : Bool
  deriving DecidableEq, Repr

structure Stored where
  mode : ℕ
  id : List Char
  deriving DecidableEq, Repr

structure Sides where
  head : Option Stored
  index : Option Stored
  worktreeMode : Option ℕ
  deriving DecidableEq, Repr

structure Snapshot where
  entries : List Entry
  sides : List UInt8 → Option Sides

structure Header where
  isBlob : Bool
  size : ℕ
  deriving DecidableEq, Repr

/-- The errors of the repository, and that of a change whose sides are not known. -/
inductive Error (E : Type) where
  | git (error : E)
  | noObjectIds (path : List Char)

/-- The object database. -/
structure Objects (E : Type) where
  headEntry : List UInt8 → Except E (Option Stored)
  header : List Char → Except E (Option Header)
  blob : List Char → Except E (Option (List UInt8))

/-- What `symlink_metadata` finds. -/
inductive FileType where
  | symlink
  | file
  | other
  deriving DecidableEq, Repr

def storedSide : Option Stored → ℕ × List Char
  | some stored => (stored.mode, stored.id)
  | none => (0, nullOid)

def rawChange (old new : ℕ × List Char) (path : List UInt8) : Option RawChange :=
  let change (status : UInt8) : Option RawChange := some ⟨old.1, new.1, old.2, new.2, status, path⟩
  if old.1 = 0 ∧ new.1 = 0 then none
  else if old.1 = 0 then change 65
  else if new.1 = 0 then change 68
  else if old.1 &&& objectTypeMask ≠ new.1 &&& objectTypeMask then change 84
  else change 77

/-- The new side of `composed_change`; none when the entry is no change. -/
def composedSide (entry : Entry) (sides : Sides) : Option (ℕ × List Char) :=
  let indexMode := (sides.index.map Stored.mode).getD 0
  let staged := if entry.headToIndex = some .deleted then (0, nullOid) else storedSide sides.index
  match entry.indexToWorktree with
  | some .deleted => some (0, nullOid)
  | some .modified | some .typeChange | some .intentToAdd =>
    some (sides.worktreeMode.getD indexMode, nullOid)
  | some (.submodule change) =>
    if change.commitChanged then some (gitlinkMode, nullOid)
    else if !change.modifiedContent ∧ entry.headToIndex = none then none
    else some staged
  | none => some staged

def composedChange (entry : Entry) (sides : Sides) : Option RawChange := do
  let new ← composedSide entry sides
  rawChange (storedSide sides.head) new entry.path

def worktreeModeOf (found : Option FileType) (headMode : ℕ) : ℕ :=
  let symlinkMode := 0o120000
  let regularMode := 0o100644
  match found with
  | some .symlink => symlinkMode
  | some .file =>
    if headMode &&& objectTypeMask = regularMode &&& objectTypeMask then headMode else regularMode
  | some .other | none => 0

section
variable {E : Type} (objects : Objects E) (symlinkMetadata : List UInt8 → Option FileType)

def unmergedChange (entry : Entry) : Except (Error E) (Option RawChange) := do
  let head ← (objects.headEntry entry.path).mapError .git
  let head := storedSide head
  let worktreeMode := worktreeModeOf (symlinkMetadata entry.path) head.1
  pure (rawChange head (worktreeMode, nullOid) entry.path)

/-- The change of an entry, as `snapshot_changes` finds it. -/
def entryChange (snapshot : Snapshot) (entry : Entry) : Except (Error E) (Option RawChange) :=
  if entry.conflict.isSome then unmergedChange objects symlinkMetadata entry
  else if entry.headToIndex.isNone ∧ entry.indexToWorktree.isNone then .ok none
  else
    match snapshot.sides entry.path with
    | some sides => .ok (composedChange entry sides)
    | none => .error (.noObjectIds (Utf8.fromUtf8Lossy entry.path))

/-- The loop of `snapshot_changes`; `listed` bytes of git's output are accounted for. -/
def listEntries (cap : ℕ) (snapshot : Snapshot) :
    List Entry → ℕ → List RawChange → Except (Error E) (List RawChange × Bool)
  | [], _, changes => .ok (changes, false)
  | entry :: entries, listed, changes => do
    match ← entryChange objects symlinkMetadata snapshot entry with
    | none => listEntries cap snapshot entries listed changes
    | some change =>
      let listed := listed + (rawRecordFraming + change.path.length)
      if listed > cap then pure (changes, true)
      else listEntries cap snapshot entries listed (changes ++ [change])

def snapshotChanges (cap : ℕ) (snapshot : Snapshot) : Except (Error E) (List RawChange × Bool) :=
  listEntries objects symlinkMetadata cap snapshot snapshot.entries 0 []

end

/-! ### git's output -/

/-- `run_with_timeout_keeping_stdout_head`: the first bytes of the output, and whether there were more. -/
def stdoutHead (cap : ℕ) (output : List UInt8) : List UInt8 × Bool :=
  (output.take cap, cap < output.length)

def rawHeader (change : RawChange) : List Char :=
  ':' :: (padded 8 6 change.oldMode ++ ' ' :: (padded 8 6 change.newMode ++ ' ' ::
    (change.oldOid ++ ' ' :: (change.newOid ++ [' ', Char.ofNat change.status.toNat]))))

/-- A record of `git diff-index --raw -z`. -/
def rawRecord (change : RawChange) : List UInt8 :=
  Utf8.bytes (rawHeader change) ++ 0 :: (change.path ++ [0])

/-- The size of the record, as the snapshot counts it. -/
def rawRecordSize (change : RawChange) : ℕ := rawRecordFraming + change.path.length

def rawOutput (changes : List RawChange) : List UInt8 := changes.flatMap rawRecord

/-- What `parse_raw_header` reads of the header itself: the change without its path. -/
def headerParts (header : List UInt8) : Option RawChange := do
  let text ← Utf8.fromUtf8 header
  let parts ← match text with
    | ':' :: rest => some (rest.splitOn ' ')
    | _ => none
  let oldMode ← fromStrRadix 8 (2 ^ 32) (← parts[0]?)
  let newMode ← fromStrRadix 8 (2 ^ 32) (← parts[1]?)
  let oldOid ← parts[2]?
  let newOid ← parts[3]?
  let status ← (Utf8.bytes (← parts[4]?)).head?
  some ⟨oldMode, newMode, oldOid, newOid, status, []⟩

/-- `parse_raw_header`, with the fields that are left; a rename or a copy has two paths. -/
def parseRawHeader (header : List UInt8) (paths : List (List UInt8)) :
    Option (RawChange × List (List UInt8)) :=
  match headerParts header, paths with
  | none, _ | some _, [] => none
  | some change, path :: paths =>
    if change.status = 82 ∨ change.status = 67 then
      match paths with
      | [] => none
      | path :: paths => some ({ change with path := path }, paths)
    else some ({ change with path := path }, paths)

theorem parseRawHeader_length {header : List UInt8} {paths rest : List (List UInt8)} {change : RawChange}
    (h : parseRawHeader header paths = some (change, rest)) : rest.length ≤ paths.length := by
  unfold parseRawHeader at h
  split at h
  · cases h
  · cases h
  · split at h
    · split at h
      · cases h
      · cases h
        exact Nat.le_add_right _ 2
    · cases h
      exact Nat.le_add_right _ 1

/-- The loop of `parse_raw_changes`. -/
def parseFields : List (List UInt8) → List RawChange
  | [] => []
  | header :: paths =>
    match _h : parseRawHeader header paths with
    | none => []
    | some (change, rest) => change :: parseFields rest
termination_by fields => fields.length
decreasing_by exact Nat.lt_succ_of_le (parseRawHeader_length _h)

/-- `rposition` -/
def rposition (p : UInt8 → Bool) (bytes : List UInt8) : Option ℕ :=
  (bytes.reverse.findIdx? p).map fun i => bytes.length - 1 - i

def parseRawChanges (raw : List UInt8) (truncated : Bool) : Reading (List RawChange) := do
  let complete ←
    if truncated then
      match rposition (· = 0) raw with
      | none => Reading.sliceTo raw 0
      | some last => Reading.sliceTo raw (last + 1)
    else .read raw
  .read (parseFields ((complete.splitOn 0).filter (· ≠ [])))

inductive PathBuf where
  | bytes (bytes : List UInt8)
  | text (text : List Char)
  deriving DecidableEq, Repr

def pathFromGitOutput (unix : Bool) (bytes : List UInt8) : PathBuf :=
  if unix then .bytes bytes else .text (Utf8.fromUtf8Lossy bytes)

def snapshotUntrackedPaths (unix : Bool) (cap : ℕ) (snapshot : Snapshot) : List PathBuf × Bool :=
  go (snapshot.entries.filter Entry.untracked) 0 []
where
  go : List Entry → ℕ → List PathBuf → List PathBuf × Bool
    | [], _, paths => (paths, false)
    | entry :: entries, listed, paths =>
      let listed := listed + (entry.path.length + nulFraming)
      if listed > cap then (paths, true)
      else go entries listed (paths ++ [pathFromGitOutput unix entry.path])

/-- The output of `git ls-files -z`. -/
def lsFilesOutput (paths : List (List UInt8)) : List UInt8 := paths.flatMap fun path => path ++ [0]

/-- The paths that `add_untracked` finds in the output. -/
def untrackedRecords (unix : Bool) (out : List UInt8) (truncated : Bool) : List PathBuf :=
  let records := out.splitOn 0
  let records := if truncated || out.getLast? ≠ some 0 then records.dropLast else records
  (records.filter (· ≠ [])).map (pathFromGitOutput unix)

/-! ### Headers -/

/-- Characters that are neither white space nor control characters. -/
def Plain (word : List Char) : Prop := ∀ c ∈ word, 48 ≤ c.toNat ∧ c.toNat < 128

def isHexDigit (c : Char) : Bool := c.isDigit || ('a' ≤ c && c ≤ 'f') || ('A' ≤ c && c ≤ 'F')

/-- An object id: 40 hexadecimal digits. -/
def IsOid (id : List Char) : Prop := id.length = 40 ∧ ∀ c ∈ id, isHexDigit c = true

theorem isOid_nullOid : IsOid nullOid :=
  ⟨List.length_replicate, fun c hc => by rw [List.eq_of_mem_replicate hc]; rfl⟩

theorem toNat_of_isDigit {c : Char} (h : c.isDigit = true) : 48 ≤ c.toNat ∧ c.toNat ≤ 57 := by
  rw [Char.isDigit, Bool.and_eq_true, decide_eq_true_eq, decide_eq_true_eq] at h
  exact h

theorem plain_of_isOid {id : List Char} (h : IsOid id) : Plain id := by
  intro c hc
  have hhex := h.2 c hc
  unfold isHexDigit at hhex
  rw [Bool.or_eq_true, Bool.or_eq_true, Bool.and_eq_true, Bool.and_eq_true, decide_eq_true_eq,
    decide_eq_true_eq, decide_eq_true_eq, decide_eq_true_eq] at hhex
  rcases hhex with (hdigit | ⟨hlow, hhigh⟩) | ⟨hlow, hhigh⟩
  · have hrange := toNat_of_isDigit hdigit
    omega
  · have hlow : 97 ≤ c.toNat := hlow
    have hhigh : c.toNat ≤ 102 := hhigh
    omega
  · have hlow : 65 ≤ c.toNat := hlow
    have hhigh : c.toNat ≤ 70 := hhigh
    omega

theorem plain_of_digits {radix : ℕ} {word : List Char} (h : ∀ c ∈ word, isDigitIn radix c = true) :
    Plain word := by
  intro c hc
  have hdigit := h c hc
  rw [isDigitIn, Bool.and_eq_true] at hdigit
  have hrange := toNat_of_isDigit hdigit.1
  omega

theorem Plain.no_space {word : List Char} (h : Plain word) : ' ' ∉ word := by
  intro hmem
  have hrange := (h ' ' hmem).1
  exact absurd hrange (by decide)

/-- What a change has to be for git to list it: modes of six octal digits, object ids, and a path. -/
structure Framed (change : RawChange) : Prop where
  oldMode : change.oldMode < 8 ^ 6
  newMode : change.newMode < 8 ^ 6
  oldOid : IsOid change.oldOid
  newOid : IsOid change.newOid
  path : change.path ≠ []
  nul : 0 ∉ change.path

/-- The status of a change that `raw_change` makes. -/
def IsStatus (status : UInt8) : Prop := status = 65 ∨ status = 68 ∨ status = 84 ∨ status = 77

theorem plain_status {status : UInt8} (h : IsStatus status) : Plain [Char.ofNat status.toNat] := by
  intro c hc
  rw [List.mem_singleton.1 hc]
  rcases h with rfl | rfl | rfl | rfl <;> decide

theorem bytes_status {status : UInt8} (h : IsStatus status) :
    Utf8.bytes [Char.ofNat status.toNat] = [status] := by
  rcases h with rfl | rfl | rfl | rfl <;> decide

section
variable {change : RawChange} (hframed : Framed change) (hstatus : IsStatus change.status)
include hframed hstatus

theorem ascii_rawHeader : ∀ c ∈ rawHeader change, 1 ≤ c.toNat ∧ c.toNat < 128 := by
  have hplain {word : List Char} (h : Plain word) : ∀ c ∈ word, 1 ≤ c.toNat ∧ c.toNat < 128 := by
    intro c hc
    have hrange := h c hc
    omega
  have hoctal (mode : ℕ) := hplain (plain_of_digits (isDigitIn_padded (by decide : 1 < 8) (by decide) 6 mode))
  have hcolon : 1 ≤ ':'.toNat ∧ ':'.toNat < 128 := by decide
  have hspace : 1 ≤ ' '.toNat ∧ ' '.toNat < 128 := by decide
  intro c hc
  unfold rawHeader at hc
  simp only [List.mem_cons, List.mem_append, List.not_mem_nil, or_false] at hc
  rcases hc with rfl | hc | rfl | hc | rfl | hc | rfl | hc | rfl | hc
  · exact hcolon
  · exact hoctal _ c hc
  · exact hspace
  · exact hoctal _ c hc
  · exact hspace
  · exact hplain (plain_of_isOid hframed.oldOid) c hc
  · exact hspace
  · exact hplain (plain_of_isOid hframed.newOid) c hc
  · exact hspace
  · exact hplain (plain_status hstatus) c (List.mem_singleton.2 hc)

theorem nul_notMem_rawHeader : 0 ∉ Utf8.bytes (rawHeader change) := by
  have hascii := ascii_rawHeader hframed hstatus
  refine Utf8.notMem_bytes_ascii (fun c hc => (hascii c hc).2) fun c hc => ?_
  have hpos := (hascii c hc).1
  exact Nat.ne_of_gt hpos

theorem length_rawRecord : (rawRecord change).length = rawRecordSize change := by
  have hascii := ascii_rawHeader hframed hstatus
  have hoctal {mode : ℕ} (h : mode < 8 ^ 6) : (padded 8 6 mode).length = 6 :=
    length_padded (by decide) (by decide) h
  have hheader : (rawHeader change).length = 98 := by
    unfold rawHeader
    simp only [List.length_cons, List.length_append, List.length_nil, hoctal hframed.oldMode,
      hoctal hframed.newMode, hframed.oldOid.1, hframed.newOid.1]
  unfold rawRecord
  rw [Utf8.bytes_ascii fun c hc => (hascii c hc).2, List.length_append, List.length_map, hheader,
    List.length_cons, List.length_append, List.length_singleton]
  unfold rawRecordSize rawRecordFraming
  omega

/-- A header is read back. -/
theorem headerParts_rawHeader :
    headerParts (Utf8.bytes (rawHeader change)) = some { change with path := [] } := by
  have hoctal (mode : ℕ) := plain_of_digits (isDigitIn_padded (by decide : 1 < 8) (by decide) 6 mode)
  have hsplit : (padded 8 6 change.oldMode ++ ' ' :: (padded 8 6 change.newMode ++ ' ' ::
      (change.oldOid ++ ' ' :: (change.newOid ++ [' ', Char.ofNat change.status.toNat])))).splitOn ' ' =
      [padded 8 6 change.oldMode, padded 8 6 change.newMode, change.oldOid, change.newOid,
        [Char.ofNat change.status.toNat]] := by
    rw [List.splitOn_append_cons_self_of_not_mem (hoctal _).no_space,
      List.splitOn_append_cons_self_of_not_mem (hoctal _).no_space,
      List.splitOn_append_cons_self_of_not_mem (plain_of_isOid hframed.oldOid).no_space,
      List.splitOn_append_cons_self_of_not_mem (plain_of_isOid hframed.newOid).no_space,
      List.splitOn_eq_singleton (plain_status hstatus).no_space]
  have hmode {mode : ℕ} (h : mode < 8 ^ 6) : fromStrRadix 8 (2 ^ 32) (padded 8 6 mode) = some mode :=
    fromStrRadix_padded (by decide) (by decide) (h.trans (by decide)) 6
  unfold headerParts
  rw [Utf8.fromUtf8_bytes]
  unfold rawHeader
  simp only [Option.bind_eq_bind, Option.bind_some, hsplit, List.getElem?_cons_zero,
    List.getElem?_cons_succ, hmode hframed.oldMode, hmode hframed.newMode, bytes_status hstatus,
    List.head?_cons]

end

/-! ### Records -/

/-- The non-empty fields between NULs. -/
def fieldsOf (bytes : List UInt8) : List (List UInt8) := (bytes.splitOn 0).filter (· ≠ [])

theorem fieldsOf_append_cons (x y : List UInt8) : fieldsOf (x ++ 0 :: y) = fieldsOf x ++ fieldsOf y := by
  unfold fieldsOf
  rw [List.splitOn_append_cons_self, List.filter_append]

theorem fieldsOf_nil : fieldsOf [] = [] := rfl

theorem fieldsOf_of_notMem {x : List UInt8} (h : 0 ∉ x) (hne : x ≠ []) : fieldsOf x = [x] := by
  unfold fieldsOf
  rw [List.splitOn_eq_singleton h, List.filter_singleton, decide_eq_true hne, cond_true]

/-- The NUL at the end separates nothing. -/
theorem fieldsOf_concat (x : List UInt8) : fieldsOf (x ++ [0]) = fieldsOf x := by
  rw [fieldsOf_append_cons, fieldsOf_nil, List.append_nil]

theorem rposition_of_notMem {x : List UInt8} (h : 0 ∉ x) : rposition (· = 0) x = none := by
  unfold rposition
  rw [Option.map_eq_none_iff, List.findIdx?_eq_none_iff]
  intro b hb
  rw [decide_eq_false_iff_not]
  rintro rfl
  exact h (List.mem_reverse.1 hb)

theorem rposition_append {y x : List UInt8} (h : 0 ∉ x) :
    rposition (· = 0) (y ++ 0 :: x) = some y.length := by
  have hfind : (y ++ 0 :: x).reverse.findIdx? (· = 0) = some x.length := by
    have hnone : x.reverse.findIdx? (fun b => decide (b = 0)) = none := by
      rw [List.findIdx?_eq_none_iff]
      intro b hb
      rw [decide_eq_false_iff_not]
      rintro rfl
      exact h (List.mem_reverse.1 hb)
    have hreverse : (y ++ 0 :: x).reverse = x.reverse ++ 0 :: y.reverse := by simp
    rw [hreverse, List.findIdx?_append, hnone, List.findIdx?_cons]
    simp
  unfold rposition
  rw [hfind, Option.map_some, List.length_append, List.length_cons]
  congr 1
  omega

/-- What is behind the last NUL of an output that was cut is left out. -/
theorem parseRawChanges_truncated {whole part : List UInt8} (hwhole : whole = [] ∨ ∃ y, whole = y ++ [0])
    (hpart : 0 ∉ part) :
    parseRawChanges (whole ++ part) true = .read (parseFields (fieldsOf whole)) := by
  unfold parseRawChanges
  rw [if_pos rfl]
  rcases hwhole with rfl | ⟨y, rfl⟩
  · rw [List.nil_append, rposition_of_notMem hpart]
    dsimp only
    rw [Reading.sliceTo_of_le (Nat.zero_le _), List.take_zero]
    rfl
  · have hsplit : y ++ [0] ++ part = y ++ 0 :: part := by simp
    have hlength : y.length + 1 ≤ (y ++ 0 :: part).length := by
      rw [List.length_append, List.length_cons]
      omega
    rw [hsplit, rposition_append hpart]
    dsimp only
    rw [Reading.sliceTo_of_le hlength]
    have htake : (y ++ 0 :: part).take (y.length + 1) = y ++ [0] := by
      rw [List.take_length_add_append]
      rfl
    rw [htake]
    rfl

theorem parseFields_cons {header path : List UInt8} {change : RawChange}
    (hheader : headerParts header = some { change with path := [] }) (hstatus : IsStatus change.status)
    (hpath : path = change.path) (rest : List (List UInt8)) :
    parseFields (header :: path :: rest) = change :: parseFields rest := by
  have hsingle : ¬ (change.status = 82 ∨ change.status = 67) := by
    rcases hstatus with h | h | h | h <;> rw [h] <;> decide
  have hparse : parseRawHeader header (path :: rest) = some (change, rest) := by
    unfold parseRawHeader
    rw [hheader]
    dsimp only
    rw [if_neg hsingle, hpath]
  rw [parseFields, hparse]

theorem parseFields_header {header : List UInt8} : parseFields [header] = [] := by
  have hparse : parseRawHeader header [] = none := by
    unfold parseRawHeader
    split <;> simp_all
  rw [parseFields, hparse]

/-- The changes whose records stand in front. -/
theorem parseFields_records {kept : List RawChange}
    (hkept : ∀ change ∈ kept, Framed change ∧ IsStatus change.status) (rest : List UInt8) :
    parseFields (fieldsOf (rawOutput kept ++ rest)) = kept ++ parseFields (fieldsOf rest) := by
  induction kept with
  | nil => rfl
  | cons change kept ih =>
    obtain ⟨hframed, hstatus⟩ := hkept change List.mem_cons_self
    have hheader := nul_notMem_rawHeader hframed hstatus
    have hne : Utf8.bytes (rawHeader change) ≠ [] := by
      unfold rawHeader
      rw [Utf8.bytes_cons]
      exact List.append_ne_nil_of_left_ne_nil (by decide) _
    have hrecord : rawOutput (change :: kept) ++ rest =
        Utf8.bytes (rawHeader change) ++ 0 :: (change.path ++ 0 :: (rawOutput kept ++ rest)) := by
      unfold rawOutput
      rw [List.flatMap_cons, rawRecord]
      simp only [List.append_assoc, List.cons_append, List.nil_append]
    rw [hrecord, fieldsOf_append_cons, fieldsOf_append_cons, fieldsOf_of_notMem hheader hne,
      fieldsOf_of_notMem hframed.nul hframed.path]
    rw [List.singleton_append, List.singleton_append, parseFields_cons (headerParts_rawHeader hframed hstatus) hstatus rfl,
      ih fun change h => hkept change (List.mem_cons_of_mem _ h)]
    rfl

theorem rawOutput_ends (kept : List RawChange) : rawOutput kept = [] ∨ ∃ y, rawOutput kept = y ++ [0] := by
  rcases List.eq_nil_or_concat kept with rfl | ⟨front, last, rfl⟩
  · exact .inl rfl
  · refine .inr ⟨rawOutput front ++ (Utf8.bytes (rawHeader last) ++ 0 :: last.path), ?_⟩
    unfold rawOutput
    rw [List.concat_eq_append, List.flatMap_append, List.flatMap_singleton, rawRecord]
    simp only [List.append_assoc, List.cons_append]

/-- The records of an output that was cut, by the place of the cut: within a header or within a path. -/
theorem parseRawChanges_part {kept : List RawChange} {next : RawChange}
    (hkept : ∀ change ∈ kept, Framed change ∧ IsStatus change.status) (hframed : Framed next)
    (hstatus : IsStatus next.status) {n : ℕ} (hn : n < (rawRecord next).length) :
    parseRawChanges (rawOutput kept ++ (rawRecord next).take n) true = .read kept := by
  have hheader := nul_notMem_rawHeader hframed hstatus
  unfold rawRecord at hn ⊢
  rw [List.length_append, List.length_cons, List.length_append, List.length_singleton] at hn
  generalize Utf8.bytes (rawHeader next) = header at *
  by_cases hle : n ≤ header.length
  · have hpart : 0 ∉ header.take n := fun hmem => hheader (List.mem_of_mem_take hmem)
    rw [List.take_append_of_le_length hle, parseRawChanges_truncated (rawOutput_ends kept) hpart]
    have hrecords := parseFields_records hkept []
    rw [List.append_nil, fieldsOf_nil, parseFields, List.append_nil] at hrecords
    rw [hrecords]
  · obtain ⟨m, rfl⟩ : ∃ m, n = header.length + (m + 1) := ⟨n - header.length - 1, by omega⟩
    have hpart : 0 ∉ next.path.take m := fun hmem => hframed.nul (List.mem_of_mem_take hmem)
    have hm : m ≤ next.path.length := by omega
    have hsplit : rawOutput kept ++ (header ++ 0 :: (next.path ++ [0])).take (header.length + (m + 1)) =
        (rawOutput kept ++ header ++ [0]) ++ next.path.take m := by
      rw [List.take_length_add_append, List.take_succ_cons, List.take_append_of_le_length hm]
      simp
    rw [hsplit, parseRawChanges_truncated (.inr ⟨_, rfl⟩) hpart, fieldsOf_concat,
      parseFields_records hkept]
    have hfields : parseFields (fieldsOf header) = [] := by
      by_cases hne : header = []
      · rw [hne, fieldsOf_nil, parseFields]
      · rw [fieldsOf_of_notMem hheader hne, parseFields_header]
    rw [hfields, List.append_nil]

theorem parseRawChanges_whole {changes : List RawChange}
    (hchanges : ∀ change ∈ changes, Framed change ∧ IsStatus change.status) :
    parseRawChanges (rawOutput changes) false = .read changes := by
  have hrecords := parseFields_records hchanges []
  rw [List.append_nil, fieldsOf_nil, parseFields, List.append_nil] at hrecords
  exact congrArg Reading.read hrecords

/-- The changes that are read of the first bytes of git's output are those whose records fit. -/
theorem parseRawChanges_head {changes : List RawChange}
    (hchanges : ∀ change ∈ changes, Framed change ∧ IsStatus change.status) (cap : ℕ) :
    parseRawChanges (stdoutHead cap (rawOutput changes)).1 (stdoutHead cap (rawOutput changes)).2 =
        .read (fitting rawRecordSize cap changes).1 ∧
      (stdoutHead cap (rawOutput changes)).2 =
        (fitting rawRecordSize cap changes).2 := by
  have hsize : ∀ change ∈ changes, (rawRecord change).length = rawRecordSize change :=
    fun change h => length_rawRecord (hchanges change h).1 (hchanges change h).2
  have htruncated := fitting_snd hsize cap
  obtain ⟨part, htake, hcut⟩ := take_stream hsize cap
  have hhead : stdoutHead cap (rawOutput changes) =
      ((fitting rawRecordSize cap changes).1.flatMap rawRecord ++ part,
        (fitting rawRecordSize cap changes).2) := Prod.ext htake htruncated.symm
  rw [hhead]
  refine ⟨?_, rfl⟩
  dsimp only
  generalize fitting rawRecordSize cap changes = fit at *
  cases hcut with
  | whole =>
    rw [List.append_nil]
    exact parseRawChanges_whole hchanges
  | part kept next later n hlt =>
    have hnext := hchanges next (by simp)
    refine parseRawChanges_part (fun change h => hchanges change ?_) hnext.1 hnext.2 hlt
    exact List.mem_append_left _ h

/-! ### Both ways agree -/

theorem isStatus_rawChange {old new : ℕ × List Char} {path : List UInt8} {change : RawChange}
    (h : rawChange old new path = some change) : IsStatus change.status := by
  unfold rawChange at h
  dsimp only at h
  by_cases hnone : old.1 = 0 ∧ new.1 = 0
  · rw [if_pos hnone] at h
    cases h
  rw [if_neg hnone] at h
  by_cases hold : old.1 = 0
  · rw [if_pos hold] at h
    cases h
    exact .inl rfl
  rw [if_neg hold] at h
  by_cases hnew : new.1 = 0
  · rw [if_pos hnew] at h
    cases h
    exact .inr (.inl rfl)
  rw [if_neg hnew] at h
  by_cases htype : old.1 &&& objectTypeMask ≠ new.1 &&& objectTypeMask
  · rw [if_pos htype] at h
    cases h
    exact .inr (.inr (.inl rfl))
  · rw [if_neg htype] at h
    cases h
    exact .inr (.inr (.inr rfl))

section
variable {E : Type} {objects : Objects E} {symlinkMetadata : List UInt8 → Option FileType}
  {snapshot : Snapshot}

theorem isStatus_entryChange {entry : Entry} {change : RawChange}
    (h : entryChange objects symlinkMetadata snapshot entry = .ok (some change)) :
    IsStatus change.status := by
  unfold entryChange at h
  split_ifs at h with hconflict hclean
  · unfold unmergedChange at h
    cases hhead : objects.headEntry entry.path with
    | error error =>
      rw [hhead] at h
      cases h
    | ok head =>
      rw [hhead] at h
      have hchange : rawChange (storedSide head)
          (worktreeModeOf (symlinkMetadata entry.path) (storedSide head).1, nullOid) entry.path =
            some change := Except.ok.inj h
      exact isStatus_rawChange hchange
  · cases Except.ok.inj h
  · split at h
    · have hchange := Except.ok.inj h
      obtain ⟨new, -, hraw⟩ := Option.bind_eq_some_iff.1 hchange
      exact isStatus_rawChange hraw
    · cases h

/-- The changes of all entries. -/
def composedChanges (objects : Objects E) (symlinkMetadata : List UInt8 → Option FileType)
    (snapshot : Snapshot) : List Entry → Except (Error E) (List RawChange)
  | [] => .ok []
  | entry :: entries => do
    let change ← entryChange objects symlinkMetadata snapshot entry
    let changes ← composedChanges objects symlinkMetadata snapshot entries
    pure (change.toList ++ changes)

theorem composedChanges_cons {entry : Entry} {entries : List Entry} {changes : List RawChange}
    (h : composedChanges objects symlinkMetadata snapshot (entry :: entries) = .ok changes) :
    ∃ change later, entryChange objects symlinkMetadata snapshot entry = .ok change ∧
      composedChanges objects symlinkMetadata snapshot entries = .ok later ∧
      changes = change.toList ++ later := by
  unfold composedChanges at h
  cases hentry : entryChange objects symlinkMetadata snapshot entry with
  | error error =>
    rw [hentry] at h
    cases h
  | ok change =>
    cases hentries : composedChanges objects symlinkMetadata snapshot entries with
    | error error =>
      rw [hentry, hentries] at h
      cases h
    | ok later =>
      rw [hentry, hentries] at h
      exact ⟨change, later, rfl, rfl, (Except.ok.inj h).symm⟩

theorem isStatus_composedChanges {entries : List Entry} {changes : List RawChange}
    (h : composedChanges objects symlinkMetadata snapshot entries = .ok changes) :
    ∀ change ∈ changes, IsStatus change.status := by
  induction entries generalizing changes with
  | nil =>
    cases h
    exact fun _ hmem => absurd hmem List.not_mem_nil
  | cons entry entries ih =>
    obtain ⟨change, later, hentry, hentries, rfl⟩ := composedChanges_cons h
    intro found hfound
    rcases List.mem_append.1 hfound with hmem | hmem
    · rw [Option.mem_toList] at hmem
      rw [Option.mem_def.1 hmem] at hentry
      exact isStatus_entryChange hentry
    · exact ih hentries found hmem

/-- The loop keeps the changes whose records fit into what is left of the cap. -/
theorem listEntries_eq {cap : ℕ} {entries : List Entry} {changes : List RawChange}
    (h : composedChanges objects symlinkMetadata snapshot entries = .ok changes) {listed : ℕ}
    (hlisted : listed ≤ cap) (before : List RawChange) :
    listEntries objects symlinkMetadata cap snapshot entries listed before =
      .ok (before ++ (fitting rawRecordSize (cap - listed) changes).1,
        (fitting rawRecordSize (cap - listed) changes).2) := by
  induction entries generalizing changes listed before with
  | nil =>
    cases h
    rw [fitting_nil, List.append_nil]
    rfl
  | cons entry entries ih =>
    obtain ⟨change, later, hentry, hentries, rfl⟩ := composedChanges_cons h
    unfold listEntries
    rw [hentry]
    cases change with
    | none => exact ih hentries hlisted before
    | some change =>
      show (if listed + rawRecordSize change > cap then
        (pure (before, true) : Except (Error E) _) else
          listEntries objects symlinkMetadata cap snapshot entries (listed + rawRecordSize change)
            (before ++ [change])) = _
      rw [Option.toList_some, List.singleton_append]
      by_cases hfits : rawRecordSize change ≤ cap - listed
      · have hnext : listed + rawRecordSize change ≤ cap := by omega
        have hleft : cap - (listed + rawRecordSize change) =
            cap - listed - rawRecordSize change := by omega
        rw [if_neg (Nat.not_lt.2 hnext), ih hentries hnext, fitting_of_le hfits, hleft,
          List.append_assoc, List.singleton_append]
      · rw [if_pos (by omega), fitting_of_lt (Nat.lt_of_not_le hfits), List.append_nil]
        rfl

/-- **The changes** that are read from the first bytes of git's output are those that are composed from the snapshot,
and they are cut at the same place. -/
theorem changes_agree {changes : List RawChange}
    (hcomposed : composedChanges objects symlinkMetadata snapshot snapshot.entries = .ok changes)
    (hframed : ∀ change ∈ changes, Framed change) (cap : ℕ) :
    ∃ listed truncated,
      snapshotChanges objects symlinkMetadata cap snapshot = .ok (listed, truncated) ∧
      (stdoutHead cap (rawOutput changes)).2 = truncated ∧
      parseRawChanges (stdoutHead cap (rawOutput changes)).1 truncated = .read listed := by
  have hstatus := isStatus_composedChanges hcomposed
  obtain ⟨hparse, htruncated⟩ :=
    parseRawChanges_head (fun change h => ⟨hframed change h, hstatus change h⟩) cap
  have hlist := listEntries_eq hcomposed (Nat.zero_le cap) []
  rw [List.nil_append, Nat.sub_zero] at hlist
  exact ⟨_, _, hlist, htruncated, htruncated ▸ hparse⟩

end

/-! ### Untracked files -/

def lsFilesRecord (path : List UInt8) : List UInt8 := path ++ [0]

def lsFilesSize (path : List UInt8) : ℕ := path.length + nulFraming

theorem untrackedGo_eq (unix : Bool) {cap : ℕ} (entries : List Entry) {listed : ℕ} (hlisted : listed ≤ cap)
    (before : List PathBuf) :
    snapshotUntrackedPaths.go unix cap entries listed before =
      (before ++ (fitting lsFilesSize (cap - listed) (entries.map Entry.path)).1.map
        (pathFromGitOutput unix),
        (fitting lsFilesSize (cap - listed) (entries.map Entry.path)).2) := by
  induction entries generalizing listed before with
  | nil =>
    rw [List.map_nil, fitting_nil, List.map_nil, List.append_nil]
    rfl
  | cons entry entries ih =>
    rw [List.map_cons]
    show (if listed + lsFilesSize entry.path > cap then (before, true) else
      snapshotUntrackedPaths.go unix cap entries (listed + lsFilesSize entry.path)
        (before ++ [pathFromGitOutput unix entry.path])) = _
    by_cases hfits : lsFilesSize entry.path ≤ cap - listed
    · have hnext : listed + lsFilesSize entry.path ≤ cap := by omega
      have hleft : cap - (listed + lsFilesSize entry.path) = cap - listed - lsFilesSize entry.path := by
        omega
      rw [if_neg (Nat.not_lt.2 hnext), ih hnext, fitting_of_le hfits, hleft, List.append_assoc,
        List.singleton_append, List.map_cons]
    · rw [if_pos (by omega), fitting_of_lt (Nat.lt_of_not_le hfits), List.map_nil, List.append_nil]

/-- A path that git lists. -/
def IsPath (path : List UInt8) : Prop := path ≠ [] ∧ 0 ∉ path

theorem splitOn_lsFiles {kept : List (List UInt8)} (hkept : ∀ path ∈ kept, IsPath path)
    {part : List UInt8} (hpart : 0 ∉ part) :
    (lsFilesOutput kept ++ part).splitOn 0 = kept ++ [part] := by
  induction kept with
  | nil => exact List.splitOn_eq_singleton hpart
  | cons path kept ih =>
    have hpath := hkept path List.mem_cons_self
    have hsplit : lsFilesOutput (path :: kept) ++ part = path ++ 0 :: (lsFilesOutput kept ++ part) := by
      unfold lsFilesOutput
      rw [List.flatMap_cons]
      simp only [List.append_assoc, List.cons_append, List.nil_append]
    rw [hsplit, List.splitOn_append_cons_self_of_not_mem hpath.2,
      ih fun path h => hkept path (List.mem_cons_of_mem _ h)]
    rfl

theorem filter_paths {kept : List (List UInt8)} (hkept : ∀ path ∈ kept, IsPath path) :
    kept.filter (· ≠ []) = kept :=
  List.filter_eq_self.2 fun path h => decide_eq_true (hkept path h).1

/-- Of an output that was cut the last record is left out. -/
theorem untrackedRecords_truncated {unix : Bool} {kept : List (List UInt8)}
    (hkept : ∀ path ∈ kept, IsPath path) {part : List UInt8} (hpart : 0 ∉ part) :
    untrackedRecords unix (lsFilesOutput kept ++ part) true = kept.map (pathFromGitOutput unix) := by
  unfold untrackedRecords
  dsimp only
  rw [splitOn_lsFiles hkept hpart, Bool.true_or, if_pos rfl, List.dropLast_concat, filter_paths hkept]

theorem untrackedRecords_whole {unix : Bool} {paths : List (List UInt8)}
    (hpaths : ∀ path ∈ paths, IsPath path) :
    untrackedRecords unix (lsFilesOutput paths) false = paths.map (pathFromGitOutput unix) := by
  have hsplit := splitOn_lsFiles hpaths (List.not_mem_nil (a := (0 : UInt8)))
  rw [List.append_nil] at hsplit
  unfold untrackedRecords
  dsimp only
  rw [hsplit, Bool.false_or]
  split
  · rw [List.dropLast_concat, filter_paths hpaths]
  · rw [List.filter_append, filter_paths hpaths]
    simp

/-- **The untracked files** that are read from the first bytes of git's output are those of the snapshot, cut at the
same place. -/
theorem untracked_agree {snapshot : Snapshot}
    (hpaths : ∀ entry ∈ snapshot.entries, entry.untracked = true → IsPath entry.path) (unix : Bool) (cap : ℕ) :
    (stdoutHead cap (lsFilesOutput ((snapshot.entries.filter Entry.untracked).map Entry.path))).2 =
        (snapshotUntrackedPaths unix cap snapshot).2 ∧
      untrackedRecords unix
          (stdoutHead cap (lsFilesOutput ((snapshot.entries.filter Entry.untracked).map Entry.path))).1
          (snapshotUntrackedPaths unix cap snapshot).2 =
        (snapshotUntrackedPaths unix cap snapshot).1 := by
  have hlisted : ∀ path ∈ (snapshot.entries.filter Entry.untracked).map Entry.path, IsPath path := by
    intro path hpath
    obtain ⟨entry, hentry, rfl⟩ := List.mem_map.1 hpath
    obtain ⟨hmem, huntracked⟩ := List.mem_filter.1 hentry
    exact hpaths entry hmem huntracked
  have hgo := untrackedGo_eq unix (snapshot.entries.filter Entry.untracked) (Nat.zero_le cap) []
  rw [List.nil_append, Nat.sub_zero] at hgo
  unfold snapshotUntrackedPaths
  rw [hgo]
  generalize (snapshot.entries.filter Entry.untracked).map Entry.path = paths at *
  have hsize : ∀ path ∈ paths, (lsFilesRecord path).length = lsFilesSize path := by
    intro path _
    rw [lsFilesRecord, List.length_append, List.length_singleton]
    rfl
  have htruncated := fitting_snd hsize cap
  obtain ⟨part, htake, hcut⟩ := take_stream hsize cap
  have hhead : stdoutHead cap (lsFilesOutput paths) =
      ((fitting lsFilesSize cap paths).1.flatMap lsFilesRecord ++ part,
        (fitting lsFilesSize cap paths).2) := Prod.ext htake htruncated.symm
  rw [hhead]
  refine ⟨rfl, ?_⟩
  dsimp only
  generalize fitting lsFilesSize cap paths = fit at *
  cases hcut with
  | whole =>
    rw [List.append_nil]
    exact untrackedRecords_whole hlisted
  | part kept next later n hlt =>
    have hnext := hlisted next (by simp)
    have hle : n ≤ next.length := by
      rw [lsFilesRecord, List.length_append, List.length_singleton] at hlt
      omega
    have hpart : 0 ∉ (lsFilesRecord next).take n := by
      rw [lsFilesRecord, List.take_append_of_le_length hle]
      exact fun hmem => hnext.2 (List.mem_of_mem_take hmem)
    refine untrackedRecords_truncated (fun path h => hlisted path ?_) hpart
    exact List.mem_append_left _ h

end Paneflow.Workspace
