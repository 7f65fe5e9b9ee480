import Paneflow.Textdiff.ChunkOptimizer

/-! # Words: `inline_chunks` and `WordBoundaryShift` of `by_word.rs`

The words and newlines of a text, by their byte offsets, and the shift that moves a border between
two blocks of words to whitespace.

* `inlineChunks_ordered`: the chunks of a text lie in it one behind the other.
* `wordBoundaryShift_law`: between them the shift stays among the equal words, and reads no byte
  that the text has not. -/

namespace Paneflow.Textdiff.WordChunks

open Paneflow.Checked Paneflow.Textdiff.ChunkOptimizer Paneflow.Textdiff.Text Paneflow.Utf8

/-! ### Characters of words -/

def isPunctuationByte (byte : ℕ) : Bool :=
  byte ≠ 95 && ((33 ≤ byte && byte ≤ 47) || (58 ≤ byte && byte ≤ 64) || (91 ≤ byte && byte ≤ 96) ||
    (123 ≤ byte && byte ≤ 126))

def isPunctuation (c : Char) : Bool := c.toNat < 128 && isPunctuationByte c.toNat

def isAlpha (c : Char) : Bool := !isWhitespace c && !isPunctuation c

def ideographicStarts : List ℕ := [
  0x3006, 0x3007, 0x3021, 0x3038, 0x3400, 0x4e00, 0xf900, 0xfa70, 0x16fe4, 0x17000, 0x18800, 0x18cff,
  0x1b170, 0x20000, 0x2a700, 0x2b740, 0x2b820, 0x2ceb0, 0x2ebf0, 0x2f800, 0x30000, 0x31350]

def ideographicEnds : List ℕ := [
  0x3006, 0x3007, 0x3029, 0x303a, 0x4dbf, 0x9fff, 0xfa6d, 0xfad9, 0x16fe4, 0x187f7, 0x18cd5, 0x18d08,
  0x1b2fb, 0x2a6df, 0x2b739, 0x2b81d, 0x2cea1, 0x2ebe0, 0x2ee5d, 0x2fa1d, 0x3134a, 0x323af]

def hiraganaStarts : List ℕ := [0x3041, 0x309d, 0x309f, 0x1b001, 0x1b132, 0x1b150, 0x1f200]

def hiraganaEnds : List ℕ := [0x3096, 0x309e, 0x309f, 0x1b11f, 0x1b132, 0x1b152, 0x1f200]

def katakanaStarts : List ℕ := [
  0x30a1, 0x30fd, 0x30ff, 0x31f0, 0x32d0, 0x3300, 0xff66, 0xff71, 0x1aff0, 0x1aff5, 0x1affd, 0x1b000,
  0x1b120, 0x1b155, 0x1b164]

def katakanaEnds : List ℕ := [
  0x30fa, 0x30fe, 0x30ff, 0x31ff, 0x32fe, 0x3357, 0xff6f, 0xff9d, 0x1aff3, 0x1affb, 0x1affe, 0x1b000,
  0x1b122, 0x1b155, 0x1b167]

def thaiStarts : List ℕ := [0x0e01, 0x0e31, 0x0e32, 0x0e34, 0x0e40, 0x0e46, 0x0e47, 0x0e4f, 0x0e50, 0x0e5a]

def thaiEnds : List ℕ := [0x0e30, 0x0e31, 0x0e33, 0x0e3a, 0x0e45, 0x0e46, 0x0e4e, 0x0e4f, 0x0e59, 0x0e5b]

def javaneseStarts : List ℕ := [
  0xa980, 0xa983, 0xa984, 0xa9b3, 0xa9b4, 0xa9b6, 0xa9ba, 0xa9bc, 0xa9be, 0xa9c1, 0xa9d0, 0xa9de]

def javaneseEnds : List ℕ := [
  0xa982, 0xa983, 0xa9b2, 0xa9b3, 0xa9b5, 0xa9b9, 0xa9bb, 0xa9bd, 0xa9c0, 0xa9cd, 0xa9d9, 0xa9df]

def decimalDigitStarts : List ℕ := [
  0x0030, 0x0660, 0x06F0, 0x07C0, 0x0966, 0x09E6, 0x0A66, 0x0AE6, 0x0B66, 0x0BE6, 0x0C66, 0x0CE6, 0x0D66,
  0x0DE6, 0x0E50, 0x0ED0, 0x0F20, 0x1040, 0x1090, 0x17E0, 0x1810, 0x1946, 0x19D0, 0x1A80, 0x1A90, 0x1B50,
  0x1BB0, 0x1C40, 0x1C50, 0xA620, 0xA8D0, 0xA900, 0xA9D0, 0xA9F0, 0xAA50, 0xABF0, 0xFF10, 0x104A0, 0x10D30,
  0x10D40, 0x11066, 0x110F0, 0x11136, 0x111D0, 0x112F0, 0x11450, 0x114D0, 0x11650, 0x116C0, 0x116D0,
  0x11730, 0x118E0, 0x11950, 0x11BF0, 0x11C50, 0x11D50, 0x11DA0, 0x11F50, 0x16130, 0x16A60, 0x16AC0,
  0x16B50, 0x16D70, 0x1CCF0, 0x1D7CE, 0x1E140, 0x1E2F0, 0x1E4F0, 0x1E5F1, 0x1E950]

def decimalDigitEnds : List ℕ := [
  0x0039, 0x0669, 0x06F9, 0x07C9, 0x096F, 0x09EF, 0x0A6F, 0x0AEF, 0x0B6F, 0x0BEF, 0x0C6F, 0x0CEF, 0x0D6F,
  0x0DEF, 0x0E59, 0x0ED9, 0x0F29, 0x1049, 0x1099, 0x17E9, 0x1819, 0x194F, 0x19D9, 0x1A89, 0x1A99, 0x1B59,
  0x1BB9, 0x1C49, 0x1C59, 0xA629, 0xA8D9, 0xA909, 0xA9D9, 0xA9F9, 0xAA59, 0xABF9, 0xFF19, 0x104A9, 0x10D39,
  0x10D49, 0x1106F, 0x110F9, 0x1113F, 0x111D9, 0x112F9, 0x11459, 0x114D9, 0x11659, 0x116C9, 0x116E3,
  0x11739, 0x118E9, 0x11959, 0x11BF9, 0x11C59, 0x11D59, 0x11DA9, 0x11F59, 0x16139, 0x16A69, 0x16AC9,
  0x16B59, 0x16D79, 0x1CCF9, 0x1D7FF, 0x1E149, 0x1E2F9, 0x1E4F9, 0x1E5FA, 0x1E959]

/-- Whether one of the ranges has the code, by its position among the sorted starts. -/
def inRanges (code : ℕ) (starts ends : List ℕ) : Bool :=
  code ∈ starts ||
    (let insertion := starts.countP (· < code)
    insertion ≠ 0 && (ends[insertion - 1]?).any (code ≤ ·))

/-- `is_continuous_script`, with `char::is_alphabetic` as a parameter -/
def isContinuousScript (isAlphabetic : Char → Bool) (c : Char) : Bool :=
  let code := c.toNat
  if code < 128 then false
  else if inRanges code decimalDigitStarts decimalDigitEnds then false
  else if 0xFFFF < code then true
  else if inRanges code ideographicStarts ideographicEnds then true
  else if !isAlphabetic c then true
  else inRanges code hiraganaStarts hiraganaEnds || inRanges code katakanaStarts katakanaEnds ||
    inRanges code thaiStarts thaiEnds || inRanges code javaneseStarts javaneseEnds

/-! ### Chunks -/

/-- A word or a newline of a text, by its byte offsets. -/
inductive InlineChunk
  | word (start stop : ℕ)
  | newline (offset : ℕ)
deriving DecidableEq, Repr

def InlineChunk.start : InlineChunk → ℕ
  | .word start _ => start
  | .newline offset => offset

def InlineChunk.stop : InlineChunk → ℕ
  | .word _ stop => stop
  | .newline offset => offset + 1

def InlineChunk.isNewline : InlineChunk → Bool
  | .word _ _ => false
  | .newline _ => true

section Chunks
variable (isAlphabetic : Char → Bool)

/-- The loop of `inline_chunks`, from an offset on, in a word that starts at `wordStart`. -/
def inlineChunksFrom : (offset : ℕ) → (wordStart : Option ℕ) → Str → List InlineChunk
  | offset, wordStart, [] => (wordStart.map fun start => .word start offset).toList
  | offset, wordStart, c :: text =>
    if isAlpha c && !isContinuousScript isAlphabetic c then
      inlineChunksFrom (offset + c.utf8Size) (wordStart.or (some offset)) text
    else
      (wordStart.map fun start => InlineChunk.word start offset).toList ++
        ((if isAlpha c then [.word offset (offset + c.utf8Size)]
          else if c = '\n' then [.newline offset] else []) ++
          inlineChunksFrom (offset + c.utf8Size) none text)

def inlineChunks (text : Str) : List InlineChunk := inlineChunksFrom isAlphabetic 0 none text

end Chunks

inductive ChunkToken
  | word (text : Str)
  | newline
deriving DecidableEq, Repr

def token (text : Str) : InlineChunk → Option ChunkToken
  | .word start stop => (strSlice text start stop).map .word
  | .newline _ => some .newline

structure ChunkView where
  text : Str
  chunk : InlineChunk
deriving DecidableEq, Repr

def ChunkView.token (view : ChunkView) : Option ChunkToken := WordChunks.token view.text view.chunk

/-- Views are compared by what they show. -/
instance : BEq ChunkView := ⟨fun view other => view.token == other.token⟩

def views (text : Str) (chunks : List InlineChunk) : List ChunkView := chunks.map fun chunk => ⟨text, chunk⟩

/-! ### Moving borders to whitespace -/

def byteRange (text : Str) (start stop : ℕ) : Option (List UInt8) :=
  if start ≤ stop ∧ stop ≤ size text then some (seg (bytes text) start stop) else none

def isSeparatedWithWhitespace (text : Str) (word1 word2 : InlineChunk) : Option Bool :=
  if word1.isNewline || word2.isNewline then some true
  else (byteRange text word1.stop word2.start).map fun between => between.any isWhitespaceByte

/-- Whether there is whitespace between two neighbours, `i` words to the right or to the left. -/
def separatedAt (text : Str) (words : List InlineChunk) (offset : ℕ) (leftToRight : Bool) (i : ℕ) : Option Bool := do
  if leftToRight then
    isSeparatedWithWhitespace text (← words[offset + i]?) (← words[offset + i + 1]?)
  else
    isSeparatedWithWhitespace text (← words[← checkedSub offset (i + 1)]?) (← words[← checkedSub offset i]?)

def sequenceEdgeShift (text : Str) (words : List InlineChunk) (offset count : ℕ) (leftToRight : Bool) :
    Option (Option ℕ) :=
  ((List.range count).findM? (separatedAt text words offset leftToRight)).map fun found => found.map (· + 1)

/-- The shift of a border among the words of the side that the blocks touch on. -/
def touchShift (touchText : Str) (touchWords : List InlineChunk) (touchStart equalForward equalBackward : ℕ) :
    Option ℤ := do
  let before ← checkedSub touchStart 1
  if ← isSeparatedWithWhitespace touchText (← touchWords[before]?) (← touchWords[touchStart]?) then
    return 0
  match ← sequenceEdgeShift touchText touchWords touchStart equalForward true with
  | some leftShift => return leftShift
  | none =>
    match ← sequenceEdgeShift touchText touchWords before equalBackward false with
    | some rightShift => return -rightShift
    | none => return 0

/-- `WordBoundaryShift` -/
def wordBoundaryShift (text1 text2 : Str) (words1 words2 : List InlineChunk) : BoundaryShift :=
  fun touchLeft equalForward equalBackward _ range2 =>
    touchShift (select touchLeft text1 text2) (select touchLeft words1 words2)
      (select touchLeft range2.start1 range2.start2) equalForward equalBackward

def optimizeWordChunks (text1 text2 : Str) (words1 words2 : List InlineChunk) (changes : Iterable.Changes) :
    Option Iterable.Changes :=
  optimizeChunks (views text1 words1) (views text2 words2) (wordBoundaryShift text1 text2 words1 words2)
    changes

/-! ### The chunks of a text -/

/-- Chunks that lie in the text one behind the other, from an offset on. -/
def Ordered (text : Str) : ℕ → List InlineChunk → Prop
  | lower, [] => lower ≤ size text
  | lower, chunk :: chunks => lower ≤ chunk.start ∧ chunk.start ≤ chunk.stop ∧ Boundary text chunk.start ∧
      Boundary text chunk.stop ∧ Ordered text chunk.stop chunks

theorem Ordered.mono {text : Str} {lower lower' : ℕ} (hle : lower ≤ lower') {chunks : List InlineChunk}
    (h : Ordered text lower' chunks) : Ordered text lower chunks := by
  cases chunks with
  | nil => exact hle.trans h
  | cons chunk chunks => exact ⟨hle.trans h.1, h.2⟩

theorem Ordered.le_size {text : Str} : ∀ {chunks : List InlineChunk} {lower : ℕ}, Ordered text lower chunks →
    lower ≤ size text
  | [], _, h => h
  | _ :: _, _, h => (h.1.trans h.2.1).trans h.2.2.2.2.le_size

/-- A chunk ends before the next one starts, and that is in the text. -/
theorem Ordered.next {text : Str} {chunks : List InlineChunk} {lower k : ℕ} {chunk1 chunk2 : InlineChunk}
    (h : Ordered text lower chunks) (h1 : chunks[k]? = some chunk1) (h2 : chunks[k + 1]? = some chunk2) :
    chunk1.stop ≤ chunk2.start ∧ chunk2.start ≤ size text := by
  induction chunks generalizing lower k with
  | nil => simp at h1
  | cons chunk chunks ih =>
    cases k with
    | zero =>
      cases chunks with
      | nil => simp at h2
      | cons chunk' chunks =>
        obtain rfl := Option.some.inj h1
        obtain rfl := Option.some.inj h2
        obtain ⟨-, -, -, -, hle, hstop, -, -, hrest⟩ := h
        exact ⟨hle, hstop.trans hrest.le_size⟩
    | succ k => exact ih h.2.2.2.2 (by simpa using h1) (by simpa using h2)

/-- The word that ends at an offset, in front of chunks from there on. -/
theorem Ordered.endWord {text : Str} {lower offset : ℕ} {wordStart : Option ℕ} {chunks : List InlineChunk}
    (hstart : ∀ start, wordStart = some start → lower ≤ start ∧ start ≤ offset ∧ Boundary text start)
    (hlower : lower ≤ offset) (hoffset : Boundary text offset) (h : Ordered text offset chunks) :
    Ordered text lower ((wordStart.map fun start => .word start offset).toList ++ chunks) := by
  cases wordStart with
  | none => exact h.mono hlower
  | some start =>
    obtain ⟨hle, hstart, hboundary⟩ := hstart start rfl
    exact ⟨hle, hstart, hboundary, hoffset, h⟩

theorem inlineChunksFrom_ordered {isAlphabetic : Char → Bool} (rest : Str) :
    ∀ {front : Str} {lower : ℕ} {wordStart : Option ℕ},
      (∀ start, wordStart = some start → lower ≤ start ∧ start ≤ size front ∧ Boundary (front ++ rest) start) →
      lower ≤ size front →
      Ordered (front ++ rest) lower (inlineChunksFrom isAlphabetic (size front) wordStart rest) := by
  induction rest with
  | nil =>
    intro front lower wordStart hstart hlower
    have hnil : Ordered (front ++ []) (size front) [] := by simp [Ordered]
    rw [inlineChunksFrom, ← List.append_nil ((wordStart.map _).toList)]
    exact hnil.endWord hstart hlower ⟨front, [], rfl, rfl⟩
  | cons c rest ih =>
    intro front lower wordStart hstart hlower
    have hoffset : Boundary (front ++ c :: rest) (size front) := ⟨front, c :: rest, rfl, rfl⟩
    have hsplit : front ++ c :: rest = (front ++ [c]) ++ rest := by simp
    have hsize : size (front ++ [c]) = size front + c.utf8Size := by simp
    have hafter : Boundary (front ++ c :: rest) (size front + c.utf8Size) :=
      ⟨front ++ [c], rest, hsplit, hsize⟩
    rw [inlineChunksFrom, ← hsize]
    rw [hsplit] at hstart hoffset hafter ⊢
    split_ifs with hpart halpha hline
    · refine ih (fun start h => ?_) (by omega)
      cases wordStart with
      | none =>
        obtain rfl := Option.some.inj h
        exact ⟨hlower, by omega, hoffset⟩
      | some start' =>
        obtain rfl := Option.some.inj h
        obtain ⟨h1, h2, h3⟩ := hstart _ rfl
        exact ⟨h1, by omega, h3⟩
    · refine Ordered.endWord hstart hlower hoffset ⟨le_rfl, ?_, hoffset, ?_, ih (fun _ h => nomatch h) le_rfl⟩
      · show size front ≤ size (front ++ [c])
        omega
      · rw [← hsize] at hafter
        exact hafter
    · subst hline
      have hone : size (front ++ ['\n']) = size front + 1 := hsize
      refine Ordered.endWord hstart hlower hoffset ⟨le_rfl, Nat.le_succ _, hoffset, ?_, ?_⟩
      · show Boundary _ (size front + 1)
        rw [← hone]
        rw [← hsize] at hafter
        exact hafter
      · show Ordered _ (size front + 1) _
        rw [← hone]
        exact ih (fun _ h => nomatch h) le_rfl
    · refine Ordered.endWord hstart hlower hoffset ((@ih (front ++ [c]) (size (front ++ [c])) none nofun le_rfl).mono (by omega))

/-- **The chunks of a text lie in it one behind the other.** -/
theorem inlineChunks_ordered (isAlphabetic : Char → Bool) (text : Str) :
    Ordered text 0 (inlineChunks isAlphabetic text) :=
  @inlineChunksFrom_ordered isAlphabetic text [] 0 none nofun le_rfl

theorem Ordered.boundaries {text : Str} : ∀ {chunks : List InlineChunk} {lower : ℕ}, Ordered text lower chunks →
    ∀ chunk ∈ chunks, chunk.start ≤ chunk.stop ∧ Boundary text chunk.start ∧ Boundary text chunk.stop
  | chunk :: chunks, _, h, other, hother => by
    rcases List.mem_cons.mp hother with rfl | hother
    · exact ⟨h.2.1, h.2.2.1, h.2.2.2.1⟩
    · exact h.2.2.2.2.boundaries other hother

/-- What is compared is in the text. -/
theorem token_views {text : Str} {chunks : List InlineChunk} {lower : ℕ} (h : Ordered text lower chunks) :
    ∀ view ∈ views text chunks, view.token.isSome = true := by
  intro view hview
  obtain ⟨chunk, hchunk, rfl⟩ := List.mem_map.mp hview
  obtain ⟨hle, hstart, hstop⟩ := h.boundaries chunk hchunk
  cases chunk with
  | newline offset => rfl
  | word start stop =>
    obtain ⟨word, hword, -⟩ := strSlice_eq hstart hstop hle
    change ((strSlice text start stop).map ChunkToken.word).isSome = true
    rw [Option.isSome_map, show strSlice text start stop = some word from hword, Option.isSome_some]

/-! ### The law of the shift -/

/-- Whether two neighbours are separated is read from bytes that the text has. -/
theorem isSeparatedWithWhitespace_isSome {text : Str} {words : List InlineChunk} {lower k : ℕ}
    (h : Ordered text lower words) (hk : k + 1 < words.length) : ∃ word1 word2 separated,
      words[k]? = some word1 ∧ words[k + 1]? = some word2 ∧
        isSeparatedWithWhitespace text word1 word2 = some separated := by
  obtain ⟨word1, h1⟩ : ∃ word, words[k]? = some word := ⟨_, List.getElem?_eq_getElem (by omega)⟩
  obtain ⟨word2, h2⟩ : ∃ word, words[k + 1]? = some word := ⟨_, List.getElem?_eq_getElem hk⟩
  obtain ⟨hle, hsize⟩ := h.next h1 h2
  refine ⟨word1, word2, (word1.isNewline || word2.isNewline) ||
    (seg (bytes text) word1.stop word2.start).any isWhitespaceByte, h1, h2, ?_⟩
  unfold isSeparatedWithWhitespace byteRange
  rw [if_pos (And.intro hle hsize), Option.map_some]
  cases word1.isNewline || word2.isNewline <;> rfl

theorem separatedAt_right {text : Str} {words : List InlineChunk} {lower offset i : ℕ} (h : Ordered text lower words)
    (hi : offset + i + 1 < words.length) : ∃ separated, separatedAt text words offset true i = some separated := by
  obtain ⟨word1, word2, separated, h1, h2, hsep⟩ := isSeparatedWithWhitespace_isSome h hi
  refine ⟨separated, ?_⟩
  unfold separatedAt
  rw [if_pos rfl]
  simp only [Option.bind_eq_bind, h1, h2, Option.bind_some, hsep]

theorem separatedAt_left {text : Str} {words : List InlineChunk} {lower offset i : ℕ} (h : Ordered text lower words)
    (hi : i < offset) (hoffset : offset < words.length) :
    ∃ separated, separatedAt text words offset false i = some separated := by
  obtain ⟨k, rfl⟩ := Nat.exists_eq_add_of_lt hi
  obtain ⟨word1, word2, separated, h1, h2, hsep⟩ :=
    @isSeparatedWithWhitespace_isSome text words lower k h (by omega)
  have hbefore : checkedSub (i + k + 1) (i + 1) = some k := by
    rw [checkedSub_of_le (by omega), show i + k + 1 - (i + 1) = k by omega]
  have hat : checkedSub (i + k + 1) i = some (k + 1) := by
    rw [checkedSub_of_le (by omega), show i + k + 1 - i = k + 1 by omega]
  refine ⟨separated, ?_⟩
  unfold separatedAt
  rw [if_neg Bool.false_ne_true]
  simp only [Option.bind_eq_bind, hbefore, hat, h1, h2, Option.bind_some, hsep]

theorem sequenceEdgeShift_spec {text : Str} {words : List InlineChunk} {offset count : ℕ} {leftToRight : Bool}
    (h : ∀ i < count, ∃ separated, separatedAt text words offset leftToRight i = some separated) :
    ∃ r, sequenceEdgeShift text words offset count leftToRight = some r ∧ ∀ d, r = some d → d ≤ count := by
  obtain ⟨r, hr, hmem⟩ := findM_spec (List.range count) fun i hi => h i (List.mem_range.mp hi)
  refine ⟨r.map (· + 1), by rw [sequenceEdgeShift, hr, Option.map_some], fun d hd => ?_⟩
  obtain ⟨i, hi, rfl⟩ := Option.map_eq_some_iff.mp hd
  have := List.mem_range.mp (hmem i hi)
  omega

theorem touchShift_spec {text : Str} {words : List InlineChunk} {lower start f b : ℕ}
    (h : Ordered text lower words) (hf : start + f < words.length) (hb : b < start) :
    ∃ delta : ℤ, touchShift text words start f b = some delta ∧ -(b : ℤ) ≤ delta ∧ delta ≤ f := by
  obtain ⟨word1, word2, separated, h1, h2, hsep⟩ :=
    @isSeparatedWithWhitespace_isSome text words lower (start - 1) h (by omega)
  rw [show start - 1 + 1 = start by omega] at h2
  obtain ⟨right, hright, hrightLe⟩ := @sequenceEdgeShift_spec text words start f true fun i hi =>
    separatedAt_right h (by omega)
  obtain ⟨left, hleft, hleftLe⟩ := @sequenceEdgeShift_spec text words (start - 1) b false fun i hi =>
    separatedAt_left h (by omega) (by omega)
  have hpos : 1 ≤ start := by omega
  unfold touchShift
  simp only [checkedSub_of_le hpos, Option.bind_eq_bind, Option.bind_some, h1, h2, hsep,
    hright, hleft]
  cases separated with
  | true => exact ⟨0, rfl, by omega, by omega⟩
  | false =>
    cases right with
    | some d => exact ⟨d, rfl, by omega, by have := hrightLe d rfl; omega⟩
    | none =>
      cases left with
      | some d => exact ⟨-d, rfl, by have := hleftLe d rfl; omega, by omega⟩
      | none => exact ⟨0, rfl, by omega, by omega⟩

/-- **The shift of the words stays among the equal ones.** -/
theorem wordBoundaryShift_law (isAlphabetic : Char → Bool) (text1 text2 : Str) :
    ShiftLaw (inlineChunks isAlphabetic text1).length (inlineChunks isAlphabetic text2).length
      (wordBoundaryShift text1 text2 (inlineChunks isAlphabetic text1) (inlineChunks isAlphabetic text2)) := by
  intro touchLeft forward backward range1 range2 h
  obtain ⟨hb1, hb2, hle1, hle2, hf1, hf2, hin1, hin2, -, -⟩ := h
  cases touchLeft with
  | true =>
    exact @touchShift_spec text1 (inlineChunks isAlphabetic text1) 0 range2.start1 forward backward
      (inlineChunks_ordered isAlphabetic text1) (by omega) (by omega)
  | false =>
    exact @touchShift_spec text2 (inlineChunks isAlphabetic text2) 0 range2.start2 forward backward
      (inlineChunks_ordered isAlphabetic text2) (by omega) (by omega)

end Paneflow.Textdiff.WordChunks
