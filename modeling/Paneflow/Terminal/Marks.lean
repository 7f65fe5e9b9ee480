import Paneflow.ByteWord
import Mathlib.Data.UInt
import Mathlib.Tactic.FinCases

/-!
# The scanner for prompt marks

marks.rs of the terminal. `Osc133Scanner` looks for the sequences `ESC ] 1 3 3 ; …` in the output of a program,
whatever the chunks are that it comes in.

`feed_eq`: to skip to the next ESC by words is to look at every byte. `prompt_marked`: the next complete prompt
mark is seen after any input, unless the input has left the scanner behind an ESC or inside of a payload.
-/

namespace Paneflow.Terminal

/-! ### The next ESC -/

/-- `u64::from_ne_bytes` -/
def fromBytes (bytes : List UInt8) : UInt64 := .ofNat (ByteWord.word (bytes.map UInt8.toNat))

def escapes : UInt64 := fromBytes (List.replicate 8 0x1b)

def lowBits : UInt64 := fromBytes (List.replicate 8 0x01)

def highBits : UInt64 := fromBytes (List.replicate 8 0x80)

/-- Whether there is an ESC among eight bytes. -/
def hasEscape (chunk : List UInt8) : Bool :=
  let candidates := fromBytes chunk ^^^ escapes
  (candidates - lowBits) &&& ~~~candidates &&& highBits ≠ 0

def findEscapeFrom (start : ℕ) : List UInt8 → Option ℕ
  | a :: b :: c :: d :: e :: f :: g :: h :: rest =>
    let chunk := [a, b, c, d, e, f, g, h]
    if hasEscape chunk then (chunk.findIdx? (· = 0x1b)).map (start + ·)
    else findEscapeFrom (start + 8) rest
  | remainder => (remainder.findIdx? (· = 0x1b)).map (start + ·)

def findEscape (bytes : List UInt8) : Option ℕ := findEscapeFrom 0 bytes

theorem map_toNat_lt (bytes : List UInt8) : ∀ byte ∈ bytes.map UInt8.toNat, byte < 256 := by
  intro byte hbyte
  obtain ⟨byte, -, rfl⟩ := List.mem_map.1 hbyte
  exact byte.toNat_lt

theorem toNat_fromBytes {bytes : List UInt8} (h : bytes.length = 8) :
    (fromBytes bytes).toNat = ByteWord.word (bytes.map UInt8.toNat) := by
  have hlt := ByteWord.word_lt (map_toNat_lt bytes)
  rw [List.length_map, h] at hlt
  exact UInt64.toNat_ofNat_of_lt' hlt

theorem toNat_replicate (byte : UInt8) :
    (fromBytes (List.replicate 8 byte)).toNat = ByteWord.repeated byte.toNat 8 := by
  rw [toNat_fromBytes List.length_replicate, List.map_replicate]
  rfl

theorem toNat_zeroByte (candidates : UInt64) :
    ((candidates - lowBits) &&& ~~~candidates &&& highBits).toNat =
      ByteWord.zeroByte 8 candidates.toNat := by
  rw [UInt64.toNat_and, UInt64.toNat_and, UInt64.toNat_sub, UInt64.toNat_not]
  unfold lowBits highBits
  rw [toNat_replicate, toNat_replicate]
  rfl

theorem toNat_candidates {chunk : List UInt8} (h : chunk.length = 8) :
    (fromBytes chunk ^^^ escapes).toNat =
      ByteWord.word ((chunk.map UInt8.toNat).map fun byte => byte ^^^ 0x1b) := by
  have hkey : 0x1b < 256 := by decide
  have hxor := ByteWord.word_xor_repeated (map_toNat_lt chunk) hkey
  rw [List.length_map, h] at hxor
  unfold escapes
  rw [UInt64.toNat_xor, toNat_fromBytes h, toNat_replicate]
  exact hxor

theorem xor_escape_lt (chunk : List UInt8) :
    ∀ byte ∈ (chunk.map UInt8.toNat).map fun byte => byte ^^^ 0x1b, byte < 256 := by
  intro byte hbyte
  obtain ⟨value, hvalue, rfl⟩ := List.mem_map.1 hbyte
  have hlt : value < 2 ^ 8 := map_toNat_lt chunk value hvalue
  have hkey : 0x1b < 2 ^ 8 := by decide
  exact Nat.xor_lt_two_pow hlt hkey

theorem hasEscape_iff {chunk : List UInt8} (h : chunk.length = 8) :
    hasEscape chunk = true ↔ 0x1b ∈ chunk := by
  have hzero := ByteWord.zeroByte_iff (xor_escape_lt chunk)
  rw [List.length_map, List.length_map, h, ← toNat_candidates h, ← toNat_zeroByte] at hzero
  have hmem : 0 ∈ (chunk.map UInt8.toNat).map (fun byte => byte ^^^ 0x1b) ↔ 0x1b ∈ chunk := by
    simp only [List.mem_map, exists_exists_and_eq_and, Nat.xor_eq_zero_iff]
    constructor
    · rintro ⟨byte, hbyte, heq⟩
      have heq : byte = 0x1b := UInt8.toNat_inj.1 heq
      rwa [heq] at hbyte
    · intro hescape
      exact ⟨0x1b, hescape, rfl⟩
  rw [← hmem, ← hzero, Ne, ← UInt64.toNat_zero, UInt64.toNat_inj]
  exact decide_eq_true_iff

/-- The first ESC is in the chunk, or in what follows it. -/
theorem findIdx?_chunk (chunk rest : List UInt8) :
    (chunk ++ rest).findIdx? (fun byte => decide (byte = 0x1b)) =
      if 0x1b ∈ chunk then chunk.findIdx? (fun byte => decide (byte = 0x1b))
      else (rest.findIdx? fun byte => decide (byte = 0x1b)).map (chunk.length + ·) := by
  rw [List.findIdx?_append]
  split_ifs with hescape
  · have hsome : (chunk.findIdx? fun byte => decide (byte = 0x1b)).isSome = true := by
      rw [List.findIdx?_isSome, List.any_eq_true]
      exact ⟨0x1b, hescape, rfl⟩
    exact Option.or_of_isSome hsome
  · have hnone : (chunk.findIdx? fun byte => decide (byte = 0x1b)) = none := by
      rw [List.findIdx?_eq_none_iff]
      intro byte hbyte
      rw [decide_eq_false_iff_not]
      rintro rfl
      exact hescape hbyte
    rw [hnone, Option.none_or]
    simp only [Nat.add_comm]

theorem findEscapeFrom_eq (start : ℕ) (bytes : List UInt8) :
    findEscapeFrom start bytes =
      (bytes.findIdx? fun byte => decide (byte = 0x1b)).map (start + ·) := by
  induction start, bytes using findEscapeFrom.induct with
  | case1 start a b c d e f g h rest chunk hescape =>
    have heq := findIdx?_chunk chunk rest
    rw [if_pos ((hasEscape_iff rfl).1 hescape)] at heq
    rw [findEscapeFrom, if_pos hescape, ← heq]
    rfl
  | case2 start a b c d e f g h rest chunk hescape ih =>
    have heq := findIdx?_chunk chunk rest
    rw [if_neg (fun hmem => hescape ((hasEscape_iff rfl).2 hmem))] at heq
    rw [findEscapeFrom, if_neg hescape, ih]
    show _ = ((chunk ++ rest).findIdx? _).map _
    rw [heq, Option.map_map]
    congr 1
    funext offset
    exact Nat.add_assoc start 8 offset
  | case3 start remainder h =>
    rw [findEscapeFrom]
    exact h

/-- The word-wise search finds the first ESC. -/
theorem findEscape_eq (bytes : List UInt8) :
    findEscape bytes = bytes.findIdx? fun byte => decide (byte = 0x1b) := by
  unfold findEscape
  rw [findEscapeFrom_eq]
  simp

/-! ### The scanner -/

inductive MarkKind where
  | prompt
  | command
  | output
  deriving DecidableEq, Repr

structure RawMark where
  kind : MarkKind
  deriving DecidableEq, Repr

def payloadCap : ℕ := 16

/-- The text `133;`. -/
def oscPrefix : List UInt8 := [0x31, 0x33, 0x33, 0x3b]

inductive ScanState where
  | ground
  | esc
  | prefixed (matched : Fin 4)
  | payload
  | skipToTerminator
  | payloadEsc
  | skipEsc
  deriving DecidableEq, Repr

/-- The payload is what is filled of the array. -/
structure Osc133Scanner where
  state : ScanState
  payload : List UInt8
  deriving DecidableEq, Repr

def parsePayload (payload : List UInt8) : Option RawMark :=
  match payload with
  | [] => none
  | byte :: _ =>
    if byte = 0x41 then some ⟨.prompt⟩
    else if byte = 0x42 then some ⟨.command⟩
    else if byte = 0x43 then some ⟨.output⟩
    else none

namespace Osc133Scanner

def default : Osc133Scanner := ⟨.ground, []⟩

/-- The scanner, with the marks that it has emitted. -/
def emit (scanner : Osc133Scanner) (state : ScanState) : Osc133Scanner × List RawMark :=
  (⟨state, []⟩, (parsePayload scanner.payload).toList)

def move (scanner : Osc133Scanner) (state : ScanState) : Osc133Scanner × List RawMark :=
  ({ scanner with state := state }, [])

/-- What a byte does. In the ground state `feed` skips to the next ESC. -/
def react (scanner : Osc133Scanner) (byte : UInt8) : Osc133Scanner × List RawMark :=
  match scanner.state with
  | .ground => scanner.move (if byte = 0x1b then .esc else .ground)
  | .esc => scanner.move (if byte = 0x5d then .prefixed 0 else .ground)
  | .prefixed matched =>
    if byte = oscPrefix.get matched then
      if h : matched.val + 1 < 4 then scanner.move (.prefixed ⟨matched.val + 1, h⟩)
      else (⟨.payload, []⟩, [])
    else if byte = 0x07 ∨ byte = 0x18 ∨ byte = 0x1a then scanner.move .ground
    else if byte = 0x1b then scanner.move .skipEsc
    else scanner.move .skipToTerminator
  | .payload =>
    if byte = 0x07 then scanner.emit .ground
    else if byte = 0x1b then scanner.move .payloadEsc
    else if byte = 0x18 ∨ byte = 0x1a then scanner.move .ground
    else if scanner.payload.length < payloadCap then
      ({ scanner with payload := scanner.payload ++ [byte] }, [])
    else scanner.move .skipToTerminator
  | .payloadEsc =>
    if byte = 0x5c then scanner.emit .ground
    else if byte = 0x1b then scanner.move .esc
    else scanner.move .ground
  | .skipToTerminator =>
    if byte = 0x07 ∨ byte = 0x18 ∨ byte = 0x1a then scanner.move .ground
    else if byte = 0x1b then scanner.move .skipEsc
    else (scanner, [])
  | .skipEsc =>
    if byte = 0x5c then scanner.move .ground
    else if byte = 0x5d then scanner.move (.prefixed 0)
    else if byte = 0x1b then scanner.move .esc
    else scanner.move .ground

/-- The scanner after the bytes, with the marks that were told. -/
def feed (scanner : Osc133Scanner) (bytes : List UInt8) : Osc133Scanner × List RawMark :=
  match bytes with
  | [] => (scanner, [])
  | byte :: rest =>
    if scanner.state = .ground then
      match findEscape (byte :: rest) with
      | none => (scanner, [])
      | some offset => feed { scanner with state := .esc } (rest.drop offset)
    else
      let reacted := scanner.react byte
      let fed := feed reacted.1 rest
      (fed.1, reacted.2 ++ fed.2)
termination_by bytes.length

/-- The chunks one after the other. -/
def feedAll (scanner : Osc133Scanner) : List (List UInt8) → Osc133Scanner × List RawMark
  | [] => (scanner, [])
  | chunk :: chunks =>
    let fed := scanner.feed chunk
    let rest := feedAll fed.1 chunks
    (rest.1, fed.2 ++ rest.2)

/-! ### Byte by byte -/

/-- Every byte is looked at. -/
def scan (scanner : Osc133Scanner) : List UInt8 → Osc133Scanner × List RawMark
  | [] => (scanner, [])
  | byte :: bytes =>
    let reacted := scanner.react byte
    let rest := scan reacted.1 bytes
    (rest.1, reacted.2 ++ rest.2)

theorem scan_append (scanner : Osc133Scanner) (bytes bytes' : List UInt8) :
    scanner.scan (bytes ++ bytes') = (((scanner.scan bytes).1.scan bytes').1,
      (scanner.scan bytes).2 ++ ((scanner.scan bytes).1.scan bytes').2) := by
  induction bytes generalizing scanner with
  | nil => rfl
  | cons byte bytes ih =>
    rw [List.cons_append, scan, ih, scan, List.append_assoc]

theorem react_ground {scanner : Osc133Scanner} (h : scanner.state = .ground) (byte : UInt8) :
    scanner.react byte = scanner.move (if byte = 0x1b then .esc else .ground) := by
  unfold react
  rw [h]

/-- Up to the first ESC the ground state is kept. -/
theorem scan_ground {scanner : Osc133Scanner} (h : scanner.state = .ground) (bytes : List UInt8) :
    scanner.scan bytes =
      match bytes.findIdx? fun byte => decide (byte = 0x1b) with
      | none => (scanner, [])
      | some offset => { scanner with state := .esc }.scan (bytes.drop (offset + 1)) := by
  induction bytes with
  | nil => rfl
  | cons byte bytes ih =>
    have hmove : (scanner.move .ground).1 = scanner := by
      unfold move
      rw [← h]
    rw [scan, react_ground h, List.findIdx?_cons]
    by_cases hbyte : byte = 0x1b
    · rw [if_pos hbyte, if_pos (decide_eq_true hbyte)]
      rfl
    · rw [if_neg hbyte, if_neg (by simpa using hbyte), hmove, ih]
      cases bytes.findIdx? fun byte => decide (byte = 0x1b) <;> rfl

/-- To skip to the next ESC is to look at every byte. -/
theorem feed_eq (scanner : Osc133Scanner) (bytes : List UInt8) :
    scanner.feed bytes = scanner.scan bytes := by
  induction scanner, bytes using feed.induct with
  | case1 scanner =>
    rw [feed]
    rfl
  | case2 scanner byte rest hground hnone =>
    rw [feed, if_pos hground, hnone, scan_ground hground, ← findEscape_eq, hnone]
  | case3 scanner byte rest hground offset hoffset ih =>
    rw [feed, if_pos hground, hoffset, scan_ground hground, ← findEscape_eq, hoffset]
    exact ih
  | case4 scanner byte rest hground reacted ih =>
    rw [feed, if_neg hground, scan]
    dsimp only
    rw [ih]

theorem feedAll_eq (scanner : Osc133Scanner) (chunks : List (List UInt8)) :
    scanner.feedAll chunks = scanner.scan chunks.flatten := by
  induction chunks generalizing scanner with
  | nil => rfl
  | cons chunk chunks ih => rw [feedAll, feed_eq, ih, List.flatten_cons, scan_append]

end Osc133Scanner

/-! ### The next prompt mark -/

/-- `ESC ] 1 3 3 ; A BEL` -/
def promptMark : List UInt8 := [0x1b, 0x5d, 0x31, 0x33, 0x33, 0x3b, 0x41, 0x07]

namespace Osc133Scanner

theorem react_prefixed_esc (matched : Fin 4) (payload : List UInt8) :
    react ⟨.prefixed matched, payload⟩ 0x1b = (⟨.skipEsc, payload⟩, []) := by
  have hne : (0x1b : UInt8) ≠ oscPrefix.get matched := by
    fin_cases matched <;> decide
  unfold react
  dsimp only
  rw [if_neg hne]
  rfl

/-- What the first two bytes of the mark lead to. -/
theorem scan_opening (scanner : Osc133Scanner) :
    scanner.scan [0x1b, 0x5d] =
      (⟨if scanner.state = .esc ∨ scanner.state = .payload then .ground else .prefixed 0,
        scanner.payload⟩, []) := by
  obtain ⟨state, payload⟩ := scanner
  cases state with
  | prefixed matched =>
    rw [scan, react_prefixed_esc]
    rfl
  | ground => rfl
  | esc => rfl
  | payload => rfl
  | skipToTerminator => rfl
  | payloadEsc => rfl
  | skipEsc => rfl

theorem scan_promptMark (scanner : Osc133Scanner) :
    (scanner.scan promptMark.dropLast).2 = [] ∧
      (scanner.scan promptMark).2 =
        if scanner.state = .esc ∨ scanner.state = .payload then [] else [⟨.prompt⟩] := by
  have hbefore : promptMark.dropLast = [0x1b, 0x5d] ++ [0x31, 0x33, 0x33, 0x3b, 0x41] := rfl
  have hmark : promptMark = [0x1b, 0x5d] ++ [0x31, 0x33, 0x33, 0x3b, 0x41, 0x07] := rfl
  rw [hbefore, scan_append, hmark, scan_append, scan_opening]
  split_ifs <;> exact ⟨rfl, rfl⟩

/-- After any chunks, the next complete prompt mark, in any chunks of its own, is told with its last byte and
not before, if and only if the chunks have left the scanner neither behind an ESC nor inside of a payload. -/
theorem prompt_marked (chunks pieces : List (List UInt8)) (h : pieces.flatten = promptMark) :
    (((default.feedAll chunks).1.feed promptMark.dropLast).2 = [] ∧
        ((default.feedAll chunks).1.feedAll pieces).2 = [⟨.prompt⟩]) ↔
      (default.feedAll chunks).1.state ≠ .esc ∧ (default.feedAll chunks).1.state ≠ .payload := by
  obtain ⟨hbefore, hmark⟩ := scan_promptMark (default.feedAll chunks).1
  rw [feed_eq, feedAll_eq _ pieces, h, hmark, ← not_or]
  split_ifs with hstate
  · simp [hstate]
  · simp [hstate, hbefore]

/-- A title that was cut off does not keep the scanner from the mark. -/
theorem prompt_marked_title :
    ((default.feedAll [[0x1b, 0x5d, 0x30], [0x3b, 0x78]]).1.feed promptMark.dropLast).2 = [] ∧
      ((default.feedAll [[0x1b, 0x5d, 0x30], [0x3b, 0x78]]).1.feedAll [promptMark]).2 =
        [⟨.prompt⟩] := by
  refine (prompt_marked [[0x1b, 0x5d, 0x30], [0x3b, 0x78]] [promptMark] rfl).2 ?_
  rw [feedAll_eq]
  decide

/-- Behind an ESC that was left, and behind a payload that was cut off, the mark is not told. -/
theorem not_prompt_marked :
    ((default.feedAll [[0x1b]]).1.feed promptMark).2 = [] ∧
      ((default.feedAll [[0x1b, 0x5d, 0x31, 0x33, 0x33, 0x3b, 0x43]]).1.feed promptMark).2 = [] := by
  rw [feed_eq, feed_eq, feedAll_eq, feedAll_eq]
  decide

end Osc133Scanner

end Paneflow.Terminal
