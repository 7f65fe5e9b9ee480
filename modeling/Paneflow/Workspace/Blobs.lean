import Paneflow.OrdMap
import Paneflow.Workspace.Changes
import Mathlib.Data.Char
import Mathlib.Data.List.Lex

/-!
# The blobs of changed files

workspace/git.rs. The contents of the files of a change are read from `git cat-file --batch`, again of at most `cap`
bytes, or from the object database in the process. `blobs_agree` says that both give the same; `parsers_safe` that the
parsers index nothing that is not there, whatever the bytes are. `engines_agree` puts the three lists together.
-/

namespace Paneflow.Workspace

open Paneflow.Framing Paneflow.Numerals

def gitDiffStatFileBytesCap : ℕ := 512 * 1024

def gitBinarySniffBytes : ℕ := 8000

/-- `" blob \n".len()` -/
def blobHeaderFraming : ℕ := 7

/-- `" missing\n".len()` -/
def missingBlobFraming : ℕ := 9

def blobTrailerFraming : ℕ := 1

inductive SideText where
  | text (text : List Char)
  | binary (bytes : List UInt8)
  | tooLarge
  | unreadable
  deriving DecidableEq, Repr

abbrev Blobs := OrdMap (List Char) SideText

def isNullOid (oid : List Char) : Bool := !oid.isEmpty && oid.all (· = '0')

def RawChange.storedBlobs (change : RawChange) : List (List Char) :=
  ([(change.oldMode, change.oldOid), (change.newMode, change.newOid)].filter fun side =>
    side.1 ≠ 0 && side.1 ≠ gitlinkMode && !isNullOid side.2).map Prod.snd

/-- The ids of the blobs, sorted and each of them once. -/
def wantedBlobs (changes : List RawChange) : List (List Char) :=
  ((changes.flatMap RawChange.storedBlobs).mergeSort (· ≤ ·)).destutter (· ≠ ·)

/-- `text.replace("\r\n", "\n")` -/
def replaceCrlf : List Char → List Char
  | '\r' :: '\n' :: text => '\n' :: replaceCrlf text
  | c :: text => c :: replaceCrlf text
  | [] => []

def statText (bytes : List UInt8) : Reading SideText := do
  let sniffed ← Reading.sliceTo bytes (min bytes.length gitBinarySniffBytes)
  if sniffed.contains 0 then .read (.binary bytes)
  else
    let text := (Utf8.fromUtf8 bytes).getD (Utf8.fromUtf8Lossy bytes)
    .read (.text (replaceCrlf text))

/-! ### In the process -/

section
variable {E : Type} (objects : Objects E)

/-- The side of an object that is there, as `read_blobs_in_process` finds it. -/
def sideOf (oid : List Char) (header : Header) : Reading (Except E SideText) :=
  if !header.isBlob then .read (.ok .unreadable)
  else if header.size > gitDiffStatFileBytesCap then .read (.ok .tooLarge)
  else
    match objects.blob oid with
    | .error error => .read (.error error)
    | .ok none => .read (.ok .unreadable)
    | .ok (some bytes) => do
      let side ← statText bytes
      .read (.ok side)

/-- The loop of `read_blobs_in_process`; `reached` says of each round whether the deadline is. -/
def readWanted (cap : ℕ) : List (List Char) → (ℕ → Bool) → ℕ → Blobs → Reading (Except E Blobs)
  | [], _, _, blobs => .read (.ok blobs)
  | oid :: wanted, reached, listed, blobs =>
    if reached 0 then .read (.ok blobs)
    else
      match objects.header oid with
      | .error error => .read (.error error)
      | .ok none =>
        let listed := listed + (Utf8.size oid + missingBlobFraming)
        if listed > cap then .read (.ok blobs)
        else readWanted cap wanted (reached <| · + 1) listed (blobs.insert oid .unreadable)
      | .ok (some header) =>
        let listed := listed + (Utf8.size oid + blobHeaderFraming + (Nat.toDigits 10 header.size).length +
          header.size + blobTrailerFraming)
        if listed > cap then .read (.ok blobs)
        else do
          match ← sideOf objects oid header with
          | .error error => .read (.error error)
          | .ok side => readWanted cap wanted (reached <| · + 1) listed (blobs.insert oid side)

def readBlobsInProcess (cap : ℕ) (changes : List RawChange) (reached : ℕ → Bool) :
    Reading (Except E Blobs) :=
  readWanted objects cap (wantedBlobs changes) reached 0 .empty

end

/-! ### git's output -/

/-- A record of `git cat-file --batch`, for an object that is a blob or missing. -/
def batchRecord (store : List Char → Option (List UInt8)) (oid : List Char) : List UInt8 :=
  match store oid with
  | none => Utf8.bytes (oid ++ ' ' :: "missing".toList) ++ [10]
  | some content =>
    Utf8.bytes (oid ++ ' ' :: ("blob".toList ++ ' ' :: Nat.toDigits 10 content.length)) ++
      10 :: (content ++ [10])

def batchOutput (store : List Char → Option (List UInt8)) (wanted : List (List Char)) : List UInt8 :=
  wanted.flatMap (batchRecord store)

/-- The loop of `parse_blob_batch`. Each round takes a line, so that as many rounds as there are bytes are enough; that
they run out is counted as a panic. -/
def parseBatch : ℕ → Blobs → List UInt8 → Reading Blobs
  | 0, _, _ => .panicked
  | fuel + 1, blobs, rest =>
    match rest.findIdx? (· = 10) with
    | none => .read blobs
    | some eol => do
      let line ← Reading.sliceTo rest eol
      let rest ← Reading.sliceFrom rest (eol + 1)
      let fields := (Utf8.fromUtf8Lossy line).splitOn ' '
      match fields with
      | oid :: kind :: fields =>
        match fields.head?.bind (fromStrRadix 10 (2 ^ 64)) with
        | none => parseBatch fuel (blobs.insert oid .unreadable) rest
        | some size =>
          if rest.length ≤ size then .read blobs
          else do
            let content ← Reading.sliceTo rest size
            let rest ← Reading.sliceFrom rest (size + 1)
            let side ←
              if kind ≠ "blob".toList then .read .unreadable
              else if size > gitDiffStatFileBytesCap then .read .tooLarge
              else statText content
            parseBatch fuel (blobs.insert oid side) rest
      | _ => .read blobs

def parseBlobBatch (rest : List UInt8) : Reading Blobs := parseBatch (rest.length + 1) .empty rest

/-! ### Safety -/

theorem statText_read (bytes : List UInt8) : ∃ side, statText bytes = .read side := by
  unfold statText
  rw [Reading.sliceTo_of_le (Nat.min_le_left ..), Reading.read_bind]
  split
  · exact ⟨_, rfl⟩
  · exact ⟨_, rfl⟩

theorem lt_of_findIdx? {rest : List UInt8} {eol : ℕ} (h : rest.findIdx? (· = 10) = some eol) :
    eol < rest.length := (List.findIdx?_eq_some_iff_getElem.1 h).1

theorem parseBatch_safe {fuel : ℕ} (blobs : Blobs) {rest : List UInt8} (h : rest.length < fuel) :
    Reading.Safe (parseBatch fuel blobs rest) := by
  induction fuel generalizing blobs rest with
  | zero => exact absurd h (Nat.not_lt_zero _)
  | succ fuel ih =>
    unfold parseBatch
    cases heol : rest.findIdx? (· = 10) with
    | none => exact Reading.safe_read _
    | some eol =>
      have hlt := lt_of_findIdx? heol
      dsimp only
      rw [Reading.sliceTo_of_le hlt.le, Reading.read_bind, Reading.sliceFrom_of_le hlt, Reading.read_bind]
      have hrest : (rest.drop (eol + 1)).length < fuel := by
        rw [List.length_drop]
        omega
      generalize rest.drop (eol + 1) = rest at *
      split
      · split
        · exact ih _ hrest
        · next size _ =>
          by_cases hsize : rest.length ≤ size
          · rw [if_pos hsize]
            exact Reading.safe_read _
          · have hlt : size < rest.length := Nat.lt_of_not_le hsize
            rw [if_neg hsize, Reading.sliceTo_of_le hlt.le, Reading.read_bind, Reading.sliceFrom_of_le hlt,
              Reading.read_bind]
            obtain ⟨side, hside⟩ := statText_read (rest.take size)
            rw [hside]
            have hleft : (rest.drop (size + 1)).length < fuel := by
              rw [List.length_drop]
              omega
            split_ifs
            · exact ih _ hleft
            · exact ih _ hleft
            · exact ih _ hleft
      · exact Reading.safe_read _

theorem parseRawChanges_safe (raw : List UInt8) (truncated : Bool) :
    Reading.Safe (parseRawChanges raw truncated) := by
  unfold parseRawChanges
  cases truncated with
  | false => exact Reading.safe_read _
  | true =>
    dsimp only
    rw [if_pos rfl]
    cases hlast : rposition (· = 0) raw with
    | none =>
      dsimp only
      rw [Reading.sliceTo_of_le (Nat.zero_le _)]
      exact Reading.safe_read _
    | some last =>
      have hle : last + 1 ≤ raw.length := by
        obtain ⟨i, hi, rfl⟩ := Option.map_eq_some_iff.1 hlast
        have hlt := (List.findIdx?_eq_some_iff_getElem.1 hi).1
        rw [List.length_reverse] at hlt
        omega
      dsimp only
      rw [Reading.sliceTo_of_le hle]
      exact Reading.safe_read _

/-- **The parsers** index nothing that is not there. -/
theorem parsers_safe (bytes : List UInt8) (truncated : Bool) :
    Reading.Safe (parseRawChanges bytes truncated) ∧ Reading.Safe (parseBlobBatch bytes) :=
  ⟨parseRawChanges_safe bytes truncated, parseBatch_safe _ (Nat.lt_succ_self _)⟩

/-! ### Records -/

/-- The object database has the blobs of the store, and misses what the store does. -/
def Holds {E : Type} (objects : Objects E) (store : List Char → Option (List UInt8)) (oid : List Char) : Prop :=
  match store oid with
  | none => objects.header oid = .ok none
  | some content =>
    objects.header oid = .ok (some ⟨true, content.length⟩) ∧ objects.blob oid = .ok (some content) ∧
      content.length < 2 ^ 64

/-- The size of a record, as it is counted in the process. -/
def batchSize (store : List Char → Option (List UInt8)) (oid : List Char) : ℕ :=
  match store oid with
  | none => Utf8.size oid + missingBlobFraming
  | some content =>
    Utf8.size oid + blobHeaderFraming + (Nat.toDigits 10 content.length).length + content.length +
      blobTrailerFraming

/-- What is found of an object. -/
def foundSide (store : List Char → Option (List UInt8)) (oid : List Char) : SideText :=
  match store oid with
  | none => .unreadable
  | some content =>
    if content.length > gitDiffStatFileBytesCap then .tooLarge
    else
      match statText content with
      | .read side => side
      | _ => .unreadable

/-- The blobs with what is found of the objects. -/
def insertFound (store : List Char → Option (List UInt8)) (blobs : Blobs) (wanted : List (List Char)) : Blobs :=
  wanted.foldl (fun blobs oid => blobs.insert oid (foundSide store oid)) blobs

theorem plain_toDigits (n : ℕ) : Plain (Nat.toDigits 10 n) :=
  plain_of_digits (isDigitIn_toDigits (by decide : 1 < 10) (by decide) n)

theorem plain_missing : Plain "missing".toList := by
  unfold Plain
  simp

theorem plain_blob : Plain "blob".toList := by
  unfold Plain
  simp

/-- Words with spaces in between are ASCII, and have no newline in them. -/
theorem ascii_cons_word {word text : List Char} (hword : Plain word)
    (htext : ∀ c ∈ text, 11 ≤ c.toNat ∧ c.toNat < 128) :
    ∀ c ∈ word ++ ' ' :: text, 11 ≤ c.toNat ∧ c.toNat < 128 := by
  intro c hc
  rcases List.mem_append.1 hc with hc | hc
  · have hrange := hword c hc
    omega
  · rcases List.mem_cons.1 hc with rfl | hc
    · decide
    · exact htext c hc

theorem ascii_word {word : List Char} (hword : Plain word) : ∀ c ∈ word, 11 ≤ c.toNat ∧ c.toNat < 128 := by
  intro c hc
  have hrange := hword c hc
  omega

theorem newline_notMem {text : List Char} (h : ∀ c ∈ text, 11 ≤ c.toNat ∧ c.toNat < 128) :
    10 ∉ Utf8.bytes text :=
  Utf8.notMem_bytes_ascii (fun c hc => (h c hc).2) fun c hc => Nat.ne_of_gt (h c hc).1

theorem findIdx?_line {line : List UInt8} (h : 10 ∉ line) (rest : List UInt8) :
    (line ++ 10 :: rest).findIdx? (· = 10) = some line.length := by
  have hnone : line.findIdx? (fun b => decide (b = 10)) = none := by
    rw [List.findIdx?_eq_none_iff]
    intro b hb
    rw [decide_eq_false_iff_not]
    rintro rfl
    exact h hb
  rw [List.findIdx?_append, hnone, List.findIdx?_cons]
  simp

/-- One round of the loop, over a line that is text. -/
theorem parseBatch_line {fuel : ℕ} {blobs : Blobs} {text : List Char}
    (htext : ∀ c ∈ text, 11 ≤ c.toNat ∧ c.toNat < 128) (rest : List UInt8) :
    parseBatch (fuel + 1) blobs (Utf8.bytes text ++ 10 :: rest) =
      match text.splitOn ' ' with
      | oid :: kind :: fields =>
        match fields.head?.bind (fromStrRadix 10 (2 ^ 64)) with
        | none => parseBatch fuel (blobs.insert oid .unreadable) rest
        | some size =>
          if rest.length ≤ size then .read blobs
          else do
            let content ← Reading.sliceTo rest size
            let rest ← Reading.sliceFrom rest (size + 1)
            let side ←
              if kind ≠ "blob".toList then .read .unreadable
              else if size > gitDiffStatFileBytesCap then .read .tooLarge
              else statText content
            parseBatch fuel (blobs.insert oid side) rest
      | _ => .read blobs := by
  have hline := newline_notMem htext
  have hle : (Utf8.bytes text).length + 1 ≤ (Utf8.bytes text ++ 10 :: rest).length := by
    rw [List.length_append, List.length_cons]
    omega
  have hdrop : (Utf8.bytes text ++ 10 :: rest).drop ((Utf8.bytes text).length + 1) = rest := by
    rw [List.drop_length_add_append]
    rfl
  rw [parseBatch, findIdx?_line hline]
  dsimp only
  rw [Reading.sliceTo_of_le (by omega), Reading.read_bind, Reading.sliceFrom_of_le hle,
    Reading.read_bind, hdrop, List.take_left, Utf8.fromUtf8Lossy_bytes]

/-- The first bytes of a line are no line. -/
theorem parseBatch_of_notMem {fuel : ℕ} {blobs : Blobs} {part : List UInt8} (h : 10 ∉ part) :
    parseBatch (fuel + 1) blobs part = .read blobs := by
  have hnone : part.findIdx? (fun b => decide (b = 10)) = none := by
    rw [List.findIdx?_eq_none_iff]
    intro b hb
    rw [decide_eq_false_iff_not]
    rintro rfl
    exact h hb
  rw [parseBatch, hnone]

section
variable {store : List Char → Option (List UInt8)} {oid : List Char} (hoid : IsOid oid)
  (hsize : ∀ content, store oid = some content → content.length < 2 ^ 64)
include hoid

/-- The line of a missing object. -/
theorem ascii_missing : ∀ c ∈ oid ++ ' ' :: "missing".toList, 11 ≤ c.toNat ∧ c.toNat < 128 :=
  ascii_cons_word (plain_of_isOid hoid) (ascii_word plain_missing)

/-- The line in front of a blob. -/
theorem ascii_blob (n : ℕ) :
    ∀ c ∈ oid ++ ' ' :: ("blob".toList ++ ' ' :: Nat.toDigits 10 n), 11 ≤ c.toNat ∧ c.toNat < 128 :=
  ascii_cons_word (plain_of_isOid hoid) (ascii_cons_word plain_blob (ascii_word (plain_toDigits n)))

theorem length_batchRecord : (batchRecord store oid).length = batchSize store oid := by
  have hascii {text : List Char} (h : ∀ c ∈ text, 11 ≤ c.toNat ∧ c.toNat < 128) :
      (Utf8.bytes text).length = text.length := by
    rw [Utf8.bytes_ascii fun c hc => (h c hc).2, List.length_map]
  have hid : Utf8.size oid = oid.length := hascii (ascii_word (plain_of_isOid hoid))
  have hmissing : "missing".toList.length = 7 := by decide
  have hblob : "blob".toList.length = 4 := by decide
  unfold batchRecord batchSize missingBlobFraming blobHeaderFraming blobTrailerFraming
  cases store oid with
  | none =>
    dsimp only
    rw [List.length_append, hascii (ascii_missing hoid), List.length_append, List.length_cons, hmissing, hid,
      List.length_singleton]
  | some content =>
    dsimp only
    rw [List.length_append, hascii (ascii_blob hoid _), List.length_append, List.length_cons,
      List.length_append, List.length_cons, hblob, hid, List.length_cons, List.length_append,
      List.length_singleton]
    omega

theorem splitOn_missing : (oid ++ ' ' :: "missing".toList).splitOn ' ' = [oid, "missing".toList] := by
  rw [List.splitOn_append_cons_self_of_not_mem (plain_of_isOid hoid).no_space,
    List.splitOn_eq_singleton plain_missing.no_space]

theorem splitOn_blob (n : ℕ) :
    (oid ++ ' ' :: ("blob".toList ++ ' ' :: Nat.toDigits 10 n)).splitOn ' ' =
      [oid, "blob".toList, Nat.toDigits 10 n] := by
  rw [List.splitOn_append_cons_self_of_not_mem (plain_of_isOid hoid).no_space,
    List.splitOn_append_cons_self_of_not_mem plain_blob.no_space,
    List.splitOn_eq_singleton (plain_toDigits n).no_space]

include hsize

/-- A record is read, and the loop goes on behind it. -/
theorem parseBatch_record {fuel : ℕ} {blobs : Blobs} (rest : List UInt8) :
    parseBatch (fuel + 1) blobs (batchRecord store oid ++ rest) =
      parseBatch fuel (blobs.insert oid (foundSide store oid)) rest := by
  unfold batchRecord foundSide
  cases hstore : store oid with
  | none =>
    dsimp only
    rw [List.append_assoc, List.singleton_append, parseBatch_line (ascii_missing hoid),
      splitOn_missing hoid]
    rfl
  | some content =>
    have hnumber : fromStrRadix 10 (2 ^ 64) (Nat.toDigits 10 content.length) = some content.length :=
      fromStrRadix_toDigits (by decide) (by decide) (hsize content hstore)
    have hlength : content.length < (content ++ 10 :: rest).length := by
      rw [List.length_append, List.length_cons]
      omega
    have hdrop : (content ++ 10 :: rest).drop (content.length + 1) = rest := by
      rw [List.drop_length_add_append]
      rfl
    obtain ⟨side, hside⟩ := statText_read content
    dsimp only
    rw [List.append_assoc, List.cons_append, List.append_assoc, List.singleton_append,
      parseBatch_line (ascii_blob hoid _), splitOn_blob hoid]
    dsimp only
    rw [List.head?_cons, Option.bind_some, hnumber]
    dsimp only
    rw [if_neg (Nat.not_le.2 hlength), Reading.sliceTo_of_le hlength.le, Reading.read_bind,
      Reading.sliceFrom_of_le hlength, Reading.read_bind, hdrop, List.take_left, hside]
    rw [if_neg (fun hblob => hblob rfl)]
    split_ifs with hlarge
    · rfl
    · rfl

/-- A part of a record is not read. -/
theorem parseBatch_part {fuel : ℕ} {blobs : Blobs} {n : ℕ} (hn : n < (batchRecord store oid).length) :
    parseBatch (fuel + 1) blobs ((batchRecord store oid).take n) = .read blobs := by
  unfold batchRecord at hn ⊢
  cases hstore : store oid with
  | none =>
    rw [hstore] at hn
    dsimp only at hn ⊢
    rw [List.length_append, List.length_singleton] at hn
    rw [List.take_append_of_le_length (by omega)]
    exact parseBatch_of_notMem fun hmem => newline_notMem (ascii_missing hoid) (List.mem_of_mem_take hmem)
  | some content =>
    have hnumber : fromStrRadix 10 (2 ^ 64) (Nat.toDigits 10 content.length) = some content.length :=
      fromStrRadix_toDigits (by decide) (by decide) (hsize content hstore)
    have hline := newline_notMem (ascii_blob hoid content.length)
    rw [hstore] at hn
    dsimp only at hn ⊢
    rw [List.length_append, List.length_cons, List.length_append, List.length_singleton] at hn
    generalize hwidth : (Utf8.bytes (oid ++ ' ' ::
      ("blob".toList ++ ' ' :: Nat.toDigits 10 content.length))).length = width at hn
    by_cases hle : n ≤ width
    · rw [List.take_append_of_le_length (hwidth ▸ hle)]
      exact parseBatch_of_notMem fun hmem => hline (List.mem_of_mem_take hmem)
    · obtain ⟨m, rfl⟩ : ∃ m, n = width + (m + 1) := ⟨n - width - 1, by omega⟩
      rw [← hwidth]
      have hm : m ≤ content.length := by omega
      rw [List.take_length_add_append, List.take_succ_cons, List.take_append_of_le_length hm,
        parseBatch_line (ascii_blob hoid _), splitOn_blob hoid]
      dsimp only
      rw [List.head?_cons, Option.bind_some, hnumber]
      exact if_pos (List.length_take_le m content |>.trans hm)

end

/-- The records in front of the rest are read one by one. -/
theorem parseBatch_records {store : List Char → Option (List UInt8)} {kept : List (List Char)}
    (hoid : ∀ oid ∈ kept, IsOid oid)
    (hsize : ∀ oid ∈ kept, ∀ content, store oid = some content → content.length < 2 ^ 64)
    (fuel : ℕ) (blobs : Blobs) (rest : List UInt8) :
    parseBatch (kept.length + fuel) blobs (batchOutput store kept ++ rest) =
      parseBatch fuel (insertFound store blobs kept) rest := by
  induction kept generalizing blobs with
  | nil => rw [List.length_nil, Nat.zero_add]; rfl
  | cons oid kept ih =>
    have hfuel : (oid :: kept).length + fuel = kept.length + fuel + 1 := by
      rw [List.length_cons]
      omega
    rw [hfuel, batchOutput, List.flatMap_cons, List.append_assoc,
      parseBatch_record (hoid oid List.mem_cons_self) (hsize oid List.mem_cons_self)]
    exact ih (fun oid h => hoid oid (List.mem_cons_of_mem _ h))
      (fun oid h => hsize oid (List.mem_cons_of_mem _ h)) _

theorem length_le_batchOutput (store : List Char → Option (List UInt8)) (kept : List (List Char)) :
    kept.length ≤ (batchOutput store kept).length := by
  induction kept with
  | nil => exact Nat.zero_le _
  | cons oid kept ih =>
    have hpos : 0 < (batchRecord store oid).length := by
      unfold batchRecord
      cases store oid <;> simp
    unfold batchOutput at ih ⊢
    rw [List.flatMap_cons, List.length_append, List.length_cons]
    omega

/-- The blobs that are read of the first bytes of git's output are those whose records fit. -/
theorem parseBlobBatch_head {store : List Char → Option (List UInt8)} {wanted : List (List Char)}
    (hoid : ∀ oid ∈ wanted, IsOid oid)
    (hsize : ∀ oid ∈ wanted, ∀ content, store oid = some content → content.length < 2 ^ 64) (cap : ℕ) :
    parseBlobBatch (stdoutHead cap (batchOutput store wanted)).1 =
      .read (insertFound store .empty (fitting (batchSize store) cap wanted).1) := by
  have hlength : ∀ oid ∈ wanted, (batchRecord store oid).length = batchSize store oid :=
    fun oid h => length_batchRecord (hoid oid h)
  obtain ⟨part, htake, hcut⟩ := take_stream hlength cap
  have hhead : (stdoutHead cap (batchOutput store wanted)).1 =
      batchOutput store (fitting (batchSize store) cap wanted).1 ++ part := htake
  rw [hhead]
  have hinitial := fitting_prefix (batchSize store) cap wanted
  generalize fitting (batchSize store) cap wanted = fit at *
  have hkept := fun oid h => hoid oid (hinitial.subset h)
  have hkeptSize := fun oid h => hsize oid (hinitial.subset h)
  unfold parseBlobBatch
  obtain ⟨fuel, hfuel⟩ : ∃ fuel, (batchOutput store fit.1 ++ part).length + 1 = fit.1.length + (fuel + 1) := by
    have hle := length_le_batchOutput store fit.1
    refine ⟨(batchOutput store fit.1 ++ part).length - fit.1.length, ?_⟩
    rw [List.length_append]
    omega
  rw [hfuel, parseBatch_records hkept hkeptSize]
  cases hcut with
  | whole => exact parseBatch_of_notMem List.not_mem_nil
  | part kept next later n hlt =>
    exact parseBatch_part (hoid next (by simp)) (hsize next (by simp)) hlt

/-! ### Both ways agree -/

section
variable {E : Type} {objects : Objects E} {store : List Char → Option (List UInt8)}

theorem Holds.size_lt {oid : List Char} (h : Holds objects store oid) :
    ∀ content, store oid = some content → content.length < 2 ^ 64 := by
  intro content hcontent
  unfold Holds at h
  rw [hcontent] at h
  exact h.2.2

theorem sideOf_stored {oid : List Char} {content : List UInt8} (hblob : objects.blob oid = .ok (some content))
    (hstore : store oid = some content) :
    sideOf objects oid ⟨true, content.length⟩ = .read (.ok (foundSide store oid)) := by
  unfold sideOf foundSide
  rw [hstore]
  dsimp only
  rw [if_neg (by decide)]
  by_cases hlarge : content.length > gitDiffStatFileBytesCap
  · rw [if_pos hlarge, if_pos hlarge]
  · obtain ⟨side, hside⟩ := statText_read content
    rw [if_neg hlarge, if_neg hlarge, hblob]
    dsimp only
    rw [hside]
    rfl

/-- One round of the loop in the process. -/
theorem readWanted_cons {oid : List Char} (h : Holds objects store oid) {cap listed : ℕ}
    (wanted : List (List Char)) {reached : ℕ → Bool} (hreached : reached 0 = false) (blobs : Blobs) :
    readWanted objects cap (oid :: wanted) reached listed blobs =
      if listed + batchSize store oid > cap then .read (.ok blobs)
      else readWanted objects cap wanted (reached <| · + 1) (listed + batchSize store oid)
        (blobs.insert oid (foundSide store oid)) := by
  rw [readWanted, hreached, if_neg Bool.false_ne_true]
  unfold Holds at h
  cases hstore : store oid with
  | none =>
    rw [hstore] at h
    have hsize : batchSize store oid = Utf8.size oid + missingBlobFraming := by
      unfold batchSize
      rw [hstore]
    have hside : foundSide store oid = .unreadable := by
      unfold foundSide
      rw [hstore]
    rw [h, hsize, hside]
  | some content =>
    rw [hstore] at h
    obtain ⟨hheader, hblob, -⟩ := h
    have hsize : batchSize store oid = Utf8.size oid + blobHeaderFraming +
        (Nat.toDigits 10 content.length).length + content.length + blobTrailerFraming := by
      unfold batchSize
      rw [hstore]
    rw [hheader, hsize]
    dsimp only
    rw [sideOf_stored hblob hstore]
    rfl

theorem readWanted_eq {wanted : List (List Char)} (h : ∀ oid ∈ wanted, Holds objects store oid)
    {cap listed : ℕ} (hlisted : listed ≤ cap) {reached : ℕ → Bool} (hreached : ∀ i, reached i = false)
    (blobs : Blobs) :
    readWanted objects cap wanted reached listed blobs =
      .read (.ok (insertFound store blobs (fitting (batchSize store) (cap - listed) wanted).1)) := by
  induction wanted generalizing listed reached blobs with
  | nil => rfl
  | cons oid wanted ih =>
    have hrest := fun oid hmem => h oid (List.mem_cons_of_mem _ hmem)
    rw [readWanted_cons (h oid List.mem_cons_self) wanted (hreached 0)]
    by_cases hfits : batchSize store oid ≤ cap - listed
    · have hnext : listed + batchSize store oid ≤ cap := by omega
      have hleft : cap - (listed + batchSize store oid) = cap - listed - batchSize store oid := by omega
      rw [if_neg (Nat.not_lt.2 hnext), ih hrest hnext (fun i => hreached (i + 1)), fitting_of_le hfits,
        hleft]
      rfl
    · rw [if_pos (by omega), fitting_of_lt (Nat.lt_of_not_le hfits)]
      rfl

/-- **The blobs** that are read from the first bytes of git's output are those that are read in the process. -/
theorem blobs_agree {wanted : List (List Char)} (hoid : ∀ oid ∈ wanted, IsOid oid)
    (hholds : ∀ oid ∈ wanted, Holds objects store oid) {reached : ℕ → Bool}
    (hreached : ∀ i, reached i = false) (cap : ℕ) :
    ∃ blobs, parseBlobBatch (stdoutHead cap (batchOutput store wanted)).1 = .read blobs ∧
      readWanted objects cap wanted reached 0 .empty = .read (.ok blobs) ∧
      ∀ measured, wantedBlobs measured = wanted →
        readBlobsInProcess objects cap measured reached = .read (.ok blobs) := by
  have hparse := parseBlobBatch_head hoid (fun oid h => (hholds oid h).size_lt) cap
  have hread := readWanted_eq hholds (Nat.zero_le cap) hreached .empty
  rw [Nat.sub_zero] at hread
  refine ⟨_, hparse, hread, ?_⟩
  rintro measured rfl
  exact hread

/-- **Both engines agree**, for every cap: what is parsed of the first bytes of git's outputs are the changes, the
untracked paths and the blobs of the process, cut at the same places. And the parsers are safe on all bytes. -/
theorem engines_agree {symlinkMetadata : List UInt8 → Option FileType} {snapshot : Snapshot}
    {changes : List RawChange}
    (hcomposed : composedChanges objects symlinkMetadata snapshot snapshot.entries = .ok changes)
    (hframed : ∀ change ∈ changes, Framed change)
    (hpaths : ∀ entry ∈ snapshot.entries, entry.untracked = true → IsPath entry.path)
    {wanted : List (List Char)} (hoid : ∀ oid ∈ wanted, IsOid oid)
    (hholds : ∀ oid ∈ wanted, Holds objects store oid) {reached : ℕ → Bool}
    (hreached : ∀ i, reached i = false) (unix : Bool) (cap : ℕ) :
    (∃ listed truncated, snapshotChanges objects symlinkMetadata cap snapshot = .ok (listed, truncated) ∧
      (stdoutHead cap (rawOutput changes)).2 = truncated ∧
      parseRawChanges (stdoutHead cap (rawOutput changes)).1 truncated = .read listed) ∧
    (∃ paths truncated, snapshotUntrackedPaths unix cap snapshot = (paths, truncated) ∧
      (stdoutHead cap (lsFilesOutput ((snapshot.entries.filter Entry.untracked).map Entry.path))).2 =
        truncated ∧
      untrackedRecords unix
        (stdoutHead cap (lsFilesOutput ((snapshot.entries.filter Entry.untracked).map Entry.path))).1
        truncated = paths) ∧
    (∃ blobs, parseBlobBatch (stdoutHead cap (batchOutput store wanted)).1 = .read blobs ∧
      readWanted objects cap wanted reached 0 .empty = .read (.ok blobs) ∧
      ∀ measured, wantedBlobs measured = wanted →
        readBlobsInProcess objects cap measured reached = .read (.ok blobs)) ∧
    ∀ bytes truncated, Reading.Safe (parseRawChanges bytes truncated) ∧
      Reading.Safe (parseBlobBatch bytes) := by
  obtain ⟨htruncated, hrecords⟩ := untracked_agree hpaths unix cap
  exact ⟨changes_agree hcomposed hframed cap, ⟨_, _, rfl, htruncated, hrecords⟩,
    blobs_agree hoid hholds hreached cap, parsers_safe⟩

end

/-- A file that is modified, one that is added, and one that is not tracked. -/
def sampleSnapshot : Snapshot where
  entries := [⟨[97], none, some .modified, none, false⟩, ⟨[98, 99], some .added, none, none, false⟩,
    ⟨[117], none, none, none, true⟩]
  sides path := some (if path = [97] then
      ⟨some ⟨0o100644, List.replicate 40 'a'⟩, some ⟨0o100644, List.replicate 40 'a'⟩, none⟩
    else ⟨none, some ⟨0o100644, List.replicate 40 'b'⟩, none⟩)

/-- One blob, with a newline in it. -/
def sampleStore (oid : List Char) : Option (List UInt8) :=
  if oid = List.replicate 40 'a' then some [104, 10, 105] else none

def sampleObjects : Objects Unit where
  headEntry _ := .ok none
  header oid := .ok ((sampleStore oid).map fun content => ⟨true, content.length⟩)
  blob oid := .ok (sampleStore oid)

def sampleChanges : List RawChange :=
  [⟨0o100644, 0o100644, List.replicate 40 'a', nullOid, 77, [97]⟩,
    ⟨0, 0o100644, nullOid, List.replicate 40 'b', 65, [98, 99]⟩]

/-- The output is cut in the second record. -/
theorem engines_agree_sample :
    parseRawChanges (stdoutHead 150 (rawOutput sampleChanges)).1 true = .read (sampleChanges.take 1) ∧
      ∃ blobs, parseBlobBatch (stdoutHead 150
          (batchOutput sampleStore [List.replicate 40 'a', List.replicate 40 'b'])).1 = .read blobs ∧
        readWanted sampleObjects 150 [List.replicate 40 'a', List.replicate 40 'b'] (fun _ => false) 0 .empty =
          .read (.ok blobs) := by
  have hoid (c : Char) (hc : isHexDigit c = true) : IsOid (List.replicate 40 c) :=
    ⟨List.length_replicate, fun d hd => List.eq_of_mem_replicate hd ▸ hc⟩
  have hframed : ∀ change ∈ sampleChanges, Framed change := by
    intro change hchange
    rcases List.mem_cons.1 hchange with rfl | hchange
    · exact ⟨by decide, by decide, hoid 'a' rfl, isOid_nullOid, by decide, by decide⟩
    · rw [List.mem_singleton.1 hchange]
      exact ⟨by decide, by decide, isOid_nullOid, hoid 'b' rfl, by decide, by decide⟩
  have hpaths : ∀ entry ∈ sampleSnapshot.entries, entry.untracked = true → IsPath entry.path := by
    unfold IsPath
    decide
  have hwanted : ∀ oid ∈ [List.replicate 40 'a', List.replicate 40 'b'],
      IsOid oid ∧ Holds sampleObjects sampleStore oid := by
    intro oid hmem
    rcases List.mem_cons.1 hmem with rfl | hmem
    · exact ⟨hoid 'a' rfl, rfl, rfl, by decide⟩
    · rw [List.mem_singleton.1 hmem]
      exact ⟨hoid 'b' rfl, rfl⟩
  obtain ⟨⟨listed, truncated, hlisted, -, hparse⟩, -, ⟨blobs, hblobs, hread, -⟩, -⟩ :=
    @engines_agree Unit sampleObjects sampleStore (fun _ => none) sampleSnapshot sampleChanges rfl hframed hpaths
      [List.replicate 40 'a', List.replicate 40 'b'] (fun oid h => (hwanted oid h).1)
      (fun oid h => (hwanted oid h).2) (fun _ => false) (fun _ => rfl) true 150
  have hsnapshot : snapshotChanges sampleObjects (fun _ => none) 150 sampleSnapshot =
      .ok (sampleChanges.take 1, true) := rfl
  obtain ⟨rfl, rfl⟩ := Prod.mk.inj (Except.ok.inj (hlisted.symm.trans hsnapshot))
  exact ⟨hparse, blobs, hblobs, hread⟩

end Paneflow.Workspace
