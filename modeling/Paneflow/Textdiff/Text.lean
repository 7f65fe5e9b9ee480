import Mathlib.Data.List.DropRight
import Paneflow.Alignment.Tiling
import Paneflow.Checked
import Paneflow.Utf8

/-! # The text primitives of the diff: `text.rs`

Whitespace, the equality of two texts under a comparison policy with the hash that goes with it, and
the scans that count equal elements at the two ends of a stretch (`expandForward`, `expandBackward`,
`expand`).

* `isEquals_ignore`: equality under a policy, an equivalence, implies equality ignoring whitespace.
* `hash_eq_of_isEquals`: texts without newline that are equal have the same hash.
* `expand_spec`: `expand` cuts equal pairs off both ends and leaves a stretch that neither starts nor
  ends with one. -/

namespace Paneflow.Textdiff.Text

open Paneflow.Alignment.Tiling Paneflow.Checked Paneflow.Utf8

/-- A text, as its characters. -/
abbrev Str := List Char

/-- How much whitespace counts when two texts are compared. -/
inductive ComparisonPolicy
  | default
  | trimWhitespaces
  | ignoreWhitespaces
deriving DecidableEq, Repr

/-- Lines with at most this many non-space characters are unimportant. -/
def unimportantLineCharCount : ℕ := 3

def isWhitespaceByte (byte : UInt8) : Bool :=
  byte == 32 || byte == 9 || byte == 10 || byte == 13

def isWhitespace (c : Char) : Bool := c == ' ' || c == '\t' || c == '\n' || c == '\r'

/-! ### Equality under a policy -/

/-- `line.trim_matches(is_whitespace)` -/
def trimLine (line : Str) : Str := (line.dropWhile isWhitespace).rdropWhile isWhitespace

def equalsTrimWhitespaces (text1 text2 : Str) : Bool :=
  (text1.splitOn '\n').map trimLine == (text2.splitOn '\n').map trimLine

def equalsIgnoreWhitespaces (text1 text2 : Str) : Bool :=
  (bytes text1).filter (fun byte => !isWhitespaceByte byte) ==
    (bytes text2).filter fun byte => !isWhitespaceByte byte

def isEquals (text1 text2 : Str) : ComparisonPolicy → Bool
  | .default => text1 == text2
  | .trimWhitespaces => equalsTrimWhitespaces text1 text2
  | .ignoreWhitespaces => equalsIgnoreWhitespaces text1 text2

/-- One byte of the FNV-1a hash. -/
def feed (state : UInt64) (byte : UInt8) : UInt64 := (state ^^^ byte.toUInt64) * 0x100000001b3

/-- The bytes that a policy looks at. -/
def hashedBytes (text : Str) : ComparisonPolicy → List UInt8
  | .default => bytes text
  | .trimWhitespaces => bytes (trimLine text)
  | .ignoreWhitespaces => (bytes text).filter fun byte => !isWhitespaceByte byte

def hash (text : Str) (policy : ComparisonPolicy) : UInt64 :=
  (hashedBytes text policy).foldl feed 0xcbf29ce484222325

def countNonSpaceChars (text : Str) : ℕ := (text.filter fun c => !isWhitespace c).length

theorem isEquals_refl (text : Str) (policy : ComparisonPolicy) :
    isEquals text text policy = true := by
  cases policy <;> simp only [isEquals, equalsTrimWhitespaces, equalsIgnoreWhitespaces, beq_self_eq_true]

theorem isEquals_symm {text1 text2 : Str} {policy : ComparisonPolicy}
    (h : isEquals text1 text2 policy = true) : isEquals text2 text1 policy = true := by
  cases policy <;>
    simp only [isEquals, equalsTrimWhitespaces, equalsIgnoreWhitespaces, beq_iff_eq] at h ⊢ <;>
    exact h.symm

theorem isEquals_trans {text1 text2 text3 : Str} {policy : ComparisonPolicy}
    (h : isEquals text1 text2 policy = true) (h' : isEquals text2 text3 policy = true) :
    isEquals text1 text3 policy = true := by
  cases policy <;>
    simp only [isEquals, equalsTrimWhitespaces, equalsIgnoreWhitespaces, beq_iff_eq] at h h' ⊢ <;>
    exact h.trans h'

theorem asciiTest_whitespace : AsciiTest isWhitespaceByte isWhitespace where
  ascii c hc := by
    have hcode : ∀ d : Char, (c == d) = decide (c.toNat = d.toNat) := fun d => by
      rw [Bool.eq_iff_iff, beq_iff_eq, decide_eq_true_eq]
      exact ⟨fun h => by rw [h], fun h => Char.ext (UInt32.toNat_inj.mp h)⟩
    have hbyte : ∀ n : ℕ, n < 128 →
        (UInt8.ofNat c.toNat == UInt8.ofNat n) = decide (c.toNat = n) := fun n hn => by
      rw [Bool.eq_iff_iff, beq_iff_eq, decide_eq_true_eq, ← UInt8.toNat_inj, UInt8.toNat_ofNat',
        UInt8.toNat_ofNat', Nat.mod_eq_of_lt (by omega), Nat.mod_eq_of_lt (by omega)]
    have h32 := hbyte 32 (by omega)
    have h9 := hbyte 9 (by omega)
    have h10 := hbyte 10 (by omega)
    have h13 := hbyte 13 (by omega)
    simp only [isWhitespace, isWhitespaceByte, hcode]
    exact congrArg₂ _ (congrArg₂ _ (congrArg₂ _ h32.symm h9.symm) h10.symm) h13.symm
  byte b hb := by
    have hne : ∀ n : UInt8, n.toNat < 128 → (b == n) = false := fun n hn => by
      rw [beq_eq_false_iff_ne]
      rintro rfl
      omega
    simp [isWhitespaceByte, hne]
  char c hc := by
    have hne : ∀ d : Char, d.toNat < 128 → (c == d) = false := fun d hd => by
      rw [beq_eq_false_iff_ne]
      rintro rfl
      omega
    simp [isWhitespace, hne]

/-- The characters of a text that are not whitespace. -/
def nonSpace (text : Str) : Str := text.filter fun c => !isWhitespace c

theorem filter_bytes_eq (text : Str) :
    (bytes text).filter (fun byte => !isWhitespaceByte byte) = bytes (nonSpace text) :=
  asciiTest_whitespace.filter_bytes text

theorem nonSpace_cons (c : Char) (text : Str) :
    nonSpace (c :: text) = nonSpace [c] ++ nonSpace text := by
  simp only [nonSpace, List.filter_cons, List.filter_nil]
  split_ifs <;> rfl

theorem nonSpace_dropWhile (text : Str) :
    nonSpace (text.dropWhile isWhitespace) = nonSpace text := by
  induction text with
  | nil => rfl
  | cons c text ih =>
    rw [List.dropWhile_cons]
    split_ifs with h
    · rw [ih]; simp [nonSpace, h]
    · rfl

theorem nonSpace_reverse (text : Str) : nonSpace text.reverse = (nonSpace text).reverse := by
  simp [nonSpace]

theorem nonSpace_trimLine (line : Str) : nonSpace (trimLine line) = nonSpace line := by
  unfold trimLine List.rdropWhile
  rw [nonSpace_reverse, nonSpace_dropWhile, nonSpace_reverse, List.reverse_reverse,
    nonSpace_dropWhile]

theorem nonSpace_splitOn (text : Str) :
    ((text.splitOn '\n').map nonSpace).flatten = nonSpace text := by
  induction text with
  | nil => rfl
  | cons c text ih =>
    rw [List.splitOn_cons_eq_if_modifyHead]
    split_ifs with h
    · obtain rfl : c = '\n' := by simpa using h
      simp only [List.map_cons, List.flatten_cons, ih]
      rfl
    · obtain ⟨l, ls, hl⟩ := List.exists_cons_of_ne_nil (List.splitOn_ne_nil '\n' text)
      rw [hl] at ih ⊢
      rw [nonSpace_cons c text, ← ih]
      simp only [List.modifyHead_cons, List.map_cons, List.flatten_cons]
      rw [nonSpace_cons c l, List.append_assoc]

/-- **Texts equal under a policy are equal ignoring whitespace.** -/
theorem isEquals_ignore {text1 text2 : Str} {policy : ComparisonPolicy}
    (h : isEquals text1 text2 policy = true) :
    isEquals text1 text2 .ignoreWhitespaces = true := by
  cases policy with
  | default =>
    obtain rfl : text1 = text2 := by simpa [isEquals] using h
    exact isEquals_refl _ _
  | ignoreWhitespaces => exact h
  | trimWhitespaces =>
    have hlines : (text1.splitOn '\n').map trimLine = (text2.splitOn '\n').map trimLine := by
      simpa [isEquals, equalsTrimWhitespaces] using h
    have hmap := congrArg (fun ls => (ls.map nonSpace).flatten) hlines
    simp only [List.map_map, Function.comp_def, nonSpace_trimLine, nonSpace_splitOn] at hmap
    simp [isEquals, equalsIgnoreWhitespaces, filter_bytes_eq, hmap]

/-- **Texts that are equal under a policy have the same hash**; where the policy is about lines, they have
to be lines. -/
theorem hash_eq_of_isEquals {text1 text2 : Str} {policy : ComparisonPolicy}
    (h1 : policy = .trimWhitespaces → '\n' ∉ text1) (h2 : policy = .trimWhitespaces → '\n' ∉ text2)
    (h : isEquals text1 text2 policy = true) :
    hash text1 policy = hash text2 policy := by
  have hbytes : hashedBytes text1 policy = hashedBytes text2 policy := by
    cases policy with
    | default =>
      obtain rfl : text1 = text2 := by simpa [isEquals] using h
      rfl
    | ignoreWhitespaces =>
      simpa only [isEquals, equalsIgnoreWhitespaces, hashedBytes, beq_iff_eq] using h
    | trimWhitespaces =>
      have hlines : [text1].map trimLine = [text2].map trimLine := by
        rw [← List.splitOn_eq_singleton (h1 rfl), ← List.splitOn_eq_singleton (h2 rfl)]
        simpa [isEquals, equalsTrimWhitespaces] using h
      have htrim : trimLine text1 = trimLine text2 := by simpa using hlines
      simp [hashedBytes, htrim]
  rw [hash, hbytes, hash]

/-! ### Scans from the two ends of a stretch -/

section Scan
variable {α : Type} (test : α → α → Bool) (items1 items2 : List α)
  (start1 start2 end1 end2 : ℕ)

/-- The loop of the forward scans. The first argument bounds the number of rounds left: the stretch
of the first side cannot be longer. -/
def scanForwardFrom : ℕ → ℕ → Option ℕ
  | 0, count => some count
  | n + 1, count =>
    if start1 + count < end1 ∧ start2 + count < end2 then do
      let x ← items1[start1 + count]?
      let y ← items2[start2 + count]?
      if test x y then scanForwardFrom n (count + 1) else some count
    else some count

/-- The number of leading pairs of a stretch that pass the test. -/
def scanForward : Option ℕ :=
  scanForwardFrom test items1 items2 start1 start2 end1 end2 (end1 - start1) 0

/-- The loop of the backward scans. -/
def scanBackwardFrom : ℕ → ℕ → Option ℕ
  | 0, count => some count
  | n + 1, count =>
    if start1 + count < end1 ∧ start2 + count < end2 then do
      let x ← items1[end1 - count - 1]?
      let y ← items2[end2 - count - 1]?
      if test x y then scanBackwardFrom n (count + 1) else some count
    else some count

/-- The number of trailing pairs of a stretch that pass the test. -/
def scanBackward : Option ℕ :=
  scanBackwardFrom test items1 items2 start1 start2 end1 end2 (end1 - start1) 0

end Scan

section ScanSpec
variable {α : Type} {test : α → α → Bool} {items1 items2 : List α}
  {start1 start2 end1 end2 : ℕ}

theorem scanForwardFrom_spec (h1 : end1 ≤ items1.length) (h2 : end2 ≤ items2.length) :
    ∀ n count, start1 + count ≤ end1 → start2 + count ≤ end2 → end1 ≤ start1 + count + n →
      (∀ k < count, At test items1 items2 (start1 + k) (start2 + k)) →
      ∃ m, scanForwardFrom test items1 items2 start1 start2 end1 end2 n count = some m ∧
        start1 + m ≤ end1 ∧ start2 + m ≤ end2 ∧
        (∀ k < m, At test items1 items2 (start1 + k) (start2 + k)) ∧
        (start1 + m < end1 → start2 + m < end2 →
          ¬ At test items1 items2 (start1 + m) (start2 + m))
  | 0, count, hc1, hc2, hn, hk => ⟨count, rfl, hc1, hc2, hk, fun h => by omega⟩
  | n + 1, count, hc1, hc2, hn, hk => by
    rw [scanForwardFrom]
    split_ifs with hlt
    · obtain ⟨x, hx⟩ : ∃ x, items1[start1 + count]? = some x :=
        ⟨_, List.getElem?_eq_getElem (by omega)⟩
      obtain ⟨y, hy⟩ : ∃ y, items2[start2 + count]? = some y :=
        ⟨_, List.getElem?_eq_getElem (by omega)⟩
      simp only [hx, hy, Option.bind_eq_bind, Option.bind_some]
      split_ifs with ht
      · refine scanForwardFrom_spec h1 h2 n (count + 1) (by omega) (by omega) (by omega) ?_
        intro k hkc
        rcases Nat.lt_succ_iff_lt_or_eq.mp hkc with hkc | rfl
        · exact hk k hkc
        · exact ⟨x, y, hx, hy, ht⟩
      · exact ⟨count, rfl, hc1, hc2, hk, fun _ _ hat => ht ((at_iff hx hy).mp hat)⟩
    · exact ⟨count, rfl, hc1, hc2, hk, fun h h' => absurd ⟨h, h'⟩ hlt⟩

/-- **The forward scan**: it stays in bounds, passes equal pairs only, and stops at the end of a side
or at a pair that fails the test. -/
theorem scanForward_spec (test : α → α → Bool) (hs1 : start1 ≤ end1) (hs2 : start2 ≤ end2) (h1 : end1 ≤ items1.length)
    (h2 : end2 ≤ items2.length) :
    ∃ m, scanForward test items1 items2 start1 start2 end1 end2 = some m ∧
      start1 + m ≤ end1 ∧ start2 + m ≤ end2 ∧
      (∀ k < m, At test items1 items2 (start1 + k) (start2 + k)) ∧
      (start1 + m < end1 → start2 + m < end2 →
        ¬ At test items1 items2 (start1 + m) (start2 + m)) :=
  scanForwardFrom_spec h1 h2 _ 0 (by omega) (by omega) (by omega) (by omega)

theorem scanBackwardFrom_spec (h1 : end1 ≤ items1.length) (h2 : end2 ≤ items2.length) :
    ∀ n count, start1 + count ≤ end1 → start2 + count ≤ end2 → end1 ≤ start1 + count + n →
      (∀ k < count, At test items1 items2 (end1 - k - 1) (end2 - k - 1)) →
      ∃ m, scanBackwardFrom test items1 items2 start1 start2 end1 end2 n count = some m ∧
        start1 + m ≤ end1 ∧ start2 + m ≤ end2 ∧
        (∀ k < m, At test items1 items2 (end1 - k - 1) (end2 - k - 1)) ∧
        (start1 + m < end1 → start2 + m < end2 →
          ¬ At test items1 items2 (end1 - m - 1) (end2 - m - 1))
  | 0, count, hc1, hc2, hn, hk => ⟨count, rfl, hc1, hc2, hk, fun h => by omega⟩
  | n + 1, count, hc1, hc2, hn, hk => by
    rw [scanBackwardFrom]
    split_ifs with hlt
    · obtain ⟨x, hx⟩ : ∃ x, items1[end1 - count - 1]? = some x :=
        ⟨_, List.getElem?_eq_getElem (by omega)⟩
      obtain ⟨y, hy⟩ : ∃ y, items2[end2 - count - 1]? = some y :=
        ⟨_, List.getElem?_eq_getElem (by omega)⟩
      simp only [hx, hy, Option.bind_eq_bind, Option.bind_some]
      split_ifs with ht
      · refine scanBackwardFrom_spec h1 h2 n (count + 1) (by omega) (by omega) (by omega) ?_
        intro k hkc
        rcases Nat.lt_succ_iff_lt_or_eq.mp hkc with hkc | rfl
        · exact hk k hkc
        · exact ⟨x, y, hx, hy, ht⟩
      · exact ⟨count, rfl, hc1, hc2, hk, fun _ _ hat => ht ((at_iff hx hy).mp hat)⟩
    · exact ⟨count, rfl, hc1, hc2, hk, fun h h' => absurd ⟨h, h'⟩ hlt⟩

/-- **The backward scan.** -/
theorem scanBackward_spec (test : α → α → Bool) (hs1 : start1 ≤ end1) (hs2 : start2 ≤ end2) (h1 : end1 ≤ items1.length)
    (h2 : end2 ≤ items2.length) :
    ∃ m, scanBackward test items1 items2 start1 start2 end1 end2 = some m ∧
      start1 + m ≤ end1 ∧ start2 + m ≤ end2 ∧
      (∀ k < m, At test items1 items2 (end1 - k - 1) (end2 - k - 1)) ∧
      (start1 + m < end1 → start2 + m < end2 →
        ¬ At test items1 items2 (end1 - m - 1) (end2 - m - 1)) :=
  scanBackwardFrom_spec h1 h2 _ 0 (by omega) (by omega) (by omega) (by omega)

/-- The pairs of a backward scan, read forward. -/
theorem gap_of_backward {E : ℕ → ℕ → Prop} {m : ℕ} (h1 : m ≤ end1) (h2 : m ≤ end2)
    (h : ∀ k < m, E (end1 - k - 1) (end2 - k - 1)) : Gap E (end1 - m) end1 (end2 - m) end2 := by
  refine ⟨m, by omega, by omega, fun k hk => ?_⟩
  have := h (m - k - 1) (by omega)
  rwa [show end1 - (m - k - 1) - 1 = end1 - m + k by omega,
    show end2 - (m - k - 1) - 1 = end2 - m + k by omega] at this

end ScanSpec

section Expand
variable {α : Type} [BEq α]

def expandForward (items1 items2 : List α) (start1 start2 end1 end2 : ℕ) : Option ℕ :=
  scanForward (· == ·) items1 items2 start1 start2 end1 end2

def expandBackward (items1 items2 : List α) (start1 start2 end1 end2 : ℕ) : Option ℕ :=
  scanBackward (· == ·) items1 items2 start1 start2 end1 end2

/-- Cut the equal pairs off both ends of a stretch. -/
def expand (items1 items2 : List α) (start1 start2 end1 end2 : ℕ) : Option Range := do
  let forward ← expandForward items1 items2 start1 start2 end1 end2
  let backward ←
    expandBackward items1 items2 (start1 + forward) (start2 + forward) end1 end2
  return ⟨start1 + forward, ← checkedSub end1 backward, start2 + forward, ← checkedSub end2 backward⟩

/-- What `expand` leaves of a stretch. -/
structure Expanded (E : ℕ → ℕ → Prop) (start1 start2 end1 end2 : ℕ) (r : Range) : Prop where
  front : Gap E start1 r.start1 start2 r.start2
  le1 : r.start1 ≤ r.end1
  le2 : r.start2 ≤ r.end2
  back : Gap E r.end1 end1 r.end2 end2
  sharp : Sharp E r

/-- **The expanded stretch.** -/
theorem expand_spec {items1 items2 : List α} {start1 start2 end1 end2 : ℕ} (hs1 : start1 ≤ end1)
    (hs2 : start2 ≤ end2) (h1 : end1 ≤ items1.length) (h2 : end2 ≤ items2.length) :
    ∃ r, expand items1 items2 start1 start2 end1 end2 = some r ∧
      Expanded (At (· == ·) items1 items2) start1 start2 end1 end2 r := by
  obtain ⟨f, hf, hf1, hf2, hfk, hfn⟩ := scanForward_spec (fun x y : α => x == y) hs1 hs2 h1 h2
  obtain ⟨b, hb, hb1, hb2, hbk, hbn⟩ := scanBackward_spec (fun x y : α => x == y) hf1 hf2 h1 h2
  refine ⟨⟨start1 + f, end1 - b, start2 + f, end2 - b⟩, ?_, ⟨f, rfl, rfl, hfk⟩, ?_, ?_, ?_, ?_⟩
  · have hb1' : b ≤ end1 := by omega
    have hb2' : b ≤ end2 := by omega
    simp [expand, expandForward, expandBackward, hf, hb, hb1', hb2']
  · show start1 + f ≤ end1 - b; omega
  · show start2 + f ≤ end2 - b; omega
  · exact gap_of_backward (by omega) (by omega) hbk
  · intro hlt1 hlt2
    have hlt1' : start1 + f < end1 - b := hlt1
    have hlt2' : start2 + f < end2 - b := hlt2
    exact ⟨hfn (by omega) (by omega), hbn (by omega) (by omega)⟩

end Expand

end Paneflow.Textdiff.Text
