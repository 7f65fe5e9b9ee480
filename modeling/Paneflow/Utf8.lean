import Mathlib.Tactic

/-! # Texts and their UTF-8 bytes

A text is its list of characters; offsets into it count the bytes of its UTF-8 encoding. An ASCII
character is its own byte, every byte of another character is at least `128`, so the bytes of a text
that satisfy an ASCII test are the characters that do (`AsciiTest.filter_bytes`).

`Boundary s n` says that the byte offset `n` lies between two characters of `s`; next to an ASCII byte
it always does (`boundary_of_ascii`). `strSlice` is the slice of a text by byte offsets, which fails
off a boundary, and `strSlice_eq` says what it is on boundaries. -/

namespace Paneflow.Utf8

/-- The UTF-8 bytes of a text. -/
def bytes (s : List Char) : List UInt8 := s.flatMap String.utf8EncodeChar

@[simp] theorem bytes_nil : bytes [] = [] := rfl

@[simp] theorem bytes_cons (c : Char) (s : List Char) :
    bytes (c :: s) = String.utf8EncodeChar c ++ bytes s := by
  simp [bytes]

@[simp] theorem bytes_append (s t : List Char) : bytes (s ++ t) = bytes s ++ bytes t := by
  simp [bytes]

theorem encode_ascii {c : Char} (h : c.toNat < 128) :
    String.utf8EncodeChar c = [UInt8.ofNat c.toNat] := by
  have hc : c.val.toNat ≤ 127 := by
    have : c.toNat = c.val.toNat := rfl
    omega
  unfold String.utf8EncodeChar
  simp only [if_pos hc]
  rfl

theorem bytes_ascii {s : List Char} (h : ∀ c ∈ s, c.toNat < 128) :
    bytes s = s.map fun c => UInt8.ofNat c.toNat := by
  induction s with
  | nil => rfl
  | cons c s ih =>
    rw [bytes_cons, encode_ascii (h c List.mem_cons_self),
      ih fun c hc => h c (List.mem_cons_of_mem _ hc)]
    rfl

/-- A byte that is no ASCII character of the text is not in its bytes. -/
theorem notMem_bytes_ascii {s : List Char} (h : ∀ c ∈ s, c.toNat < 128) {b : UInt8}
    (hb : ∀ c ∈ s, c.toNat ≠ b.toNat) : b ∉ bytes s := by
  rw [bytes_ascii h]
  intro hmem
  obtain ⟨c, hc, rfl⟩ := List.mem_map.1 hmem
  have hlt := h c hc
  apply hb c hc
  rw [UInt8.toNat_ofNat']
  omega

theorem le_of_mem_encode {c : Char} (h : 128 ≤ c.toNat) {b : UInt8}
    (hb : b ∈ String.utf8EncodeChar c) : 128 ≤ b.toNat := by
  have hc : c.toNat = c.val.toNat := rfl
  revert hb
  fun_cases String.utf8EncodeChar c <;>
    (intro hb
     simp only [List.mem_cons, List.not_mem_nil, or_false] at hb)
  · omega
  all_goals
    rcases hb with rfl | rfl | rfl | rfl <;> (rw [UInt8.toNat_ofNat']; omega)

/-- A test on bytes and a test on characters that agree and only pass ASCII. -/
structure AsciiTest (p : UInt8 → Bool) (q : Char → Bool) : Prop where
  ascii : ∀ c : Char, c.toNat < 128 → q c = p (UInt8.ofNat c.toNat)
  byte : ∀ b : UInt8, 128 ≤ b.toNat → p b = false
  char : ∀ c : Char, 128 ≤ c.toNat → q c = false

theorem AsciiTest.filter_encode {p : UInt8 → Bool} {q : Char → Bool} (h : AsciiTest p q)
    (c : Char) : (String.utf8EncodeChar c).filter (fun b => !p b) =
      if q c then [] else String.utf8EncodeChar c := by
  rcases Nat.lt_or_ge c.toNat 128 with hc | hc
  · rw [encode_ascii hc, h.ascii c hc]
    cases hp : p (UInt8.ofNat c.toNat) <;> simp [hp]
  · rw [h.char c hc, if_neg (by simp), List.filter_eq_self]
    intro b hb
    simp [h.byte b (le_of_mem_encode hc hb)]

/-- Dropping the bytes that pass an ASCII test drops the characters that pass it. -/
theorem AsciiTest.filter_bytes {p : UInt8 → Bool} {q : Char → Bool} (h : AsciiTest p q)
    (s : List Char) : (bytes s).filter (fun b => !p b) = bytes (s.filter fun c => !q c) := by
  induction s with
  | nil => rfl
  | cons c s ih =>
    rw [bytes_cons, List.filter_append, h.filter_encode, ih]
    cases hq : q c <;> simp [hq]

/-! ### Character boundaries and slices -/

/-- The length of a text in bytes. -/
def size (s : List Char) : ℕ := (bytes s).length

@[simp] theorem size_nil : size [] = 0 := rfl

@[simp] theorem size_cons (c : Char) (s : List Char) : size (c :: s) = c.utf8Size + size s := by
  simp [size]

@[simp] theorem size_append (s t : List Char) : size (s ++ t) = size s + size t := by
  simp [size]

theorem size_eq_zero {s : List Char} : size s = 0 ↔ s = [] := by
  cases s with
  | nil => simp
  | cons c s =>
    have := c.utf8Size_pos
    simp only [size_cons, reduceCtorEq, iff_false]
    omega

/-- The byte offset `n` lies between two characters, or at an end. -/
def Boundary (s : List Char) (n : ℕ) : Prop := ∃ p q, s = p ++ q ∧ size p = n

theorem boundary_zero (s : List Char) : Boundary s 0 := ⟨[], s, rfl, rfl⟩

theorem boundary_size (s : List Char) : Boundary s (size s) := ⟨s, [], by simp, rfl⟩

theorem Boundary.le {s : List Char} {n : ℕ} (h : Boundary s n) : n ≤ size s := by
  obtain ⟨p, q, rfl, rfl⟩ := h
  simp

/-- The first part of a text is determined by its size. -/
theorem split_unique : ∀ {p p' q q' : List Char}, p ++ q = p' ++ q' → size p = size p' → p = p'
  | [], [], _, _, _, _ => rfl
  | [], c :: p', _, _, _, hs => by
    have := c.utf8Size_pos
    simp at hs
    omega
  | c :: p, [], _, _, _, hs => by
    have := c.utf8Size_pos
    simp at hs
    omega
  | c :: p, c' :: p', _, _, h, hs => by
    simp only [List.cons_append, List.cons.injEq] at h
    obtain ⟨rfl, h⟩ := h
    rw [split_unique h (by simpa using hs)]

/-- Two boundaries in order cut a text into three. -/
theorem boundary_split {s : List Char} {a b : ℕ} (ha : Boundary s a) (hb : Boundary s b)
    (hab : a ≤ b) : ∃ p t q, s = p ++ t ++ q ∧ size p = a ∧ size p + size t = b := by
  obtain ⟨p, q, rfl, rfl⟩ := ha
  obtain ⟨p', q', h, rfl⟩ := hb
  rcases List.append_eq_append_iff.mp h with ⟨t, rfl, rfl⟩ | ⟨t, rfl, rfl⟩
  · exact ⟨p, t, q', by simp, rfl, by simp⟩
  · have ht : size t = 0 := by simp at hab; omega
    exact ⟨p' ++ t, [], q, by simp, rfl, by simp [ht]⟩

/-- A text cut at a byte offset, `none` off a boundary. -/
def splitAtByte : List Char → ℕ → Option (List Char × List Char)
  | s, 0 => some ([], s)
  | [], _ + 1 => none
  | c :: s, n + 1 =>
    if c.utf8Size ≤ n + 1 then
      (splitAtByte s (n + 1 - c.utf8Size)).map fun (p, q) => (c :: p, q)
    else none

theorem splitAtByte_append : ∀ p q : List Char, splitAtByte (p ++ q) (size p) = some (p, q)
  | [], q => by cases q <;> rfl
  | c :: p, q => by
    have hpos := c.utf8Size_pos
    obtain ⟨n, hn⟩ : ∃ n, size (c :: p) = n + 1 := ⟨c.utf8Size + size p - 1, by simp; omega⟩
    have hle : c.utf8Size ≤ n + 1 := by rw [← hn]; simp
    have hrest : n + 1 - c.utf8Size = size p := by rw [← hn]; simp
    rw [hn, List.cons_append, splitAtByte, if_pos hle, hrest, splitAtByte_append p q]
    rfl

/-- `&s[start..stop]` -/
def strSlice (s : List Char) (start stop : ℕ) : Option (List Char) :=
  if start ≤ stop then do
    let (_, q) ← splitAtByte s start
    let (t, _) ← splitAtByte q (stop - start)
    return t
  else none

theorem strSlice_append (p t q : List Char) :
    strSlice (p ++ t ++ q) (size p) (size p + size t) = some t := by
  rw [strSlice, if_pos (Nat.le_add_right _ _), List.append_assoc, splitAtByte_append,
    Nat.add_sub_cancel_left]
  simp [splitAtByte_append]

theorem splitAtByte_eq_some : ∀ {s p q : List Char} {n : ℕ}, splitAtByte s n = some (p, q) →
    s = p ++ q ∧ size p = n
  | s, p, q, 0, h => by
    obtain ⟨rfl, rfl⟩ : [] = p ∧ s = q := by simpa [splitAtByte] using h
    exact ⟨rfl, rfl⟩
  | [], p, q, n + 1, h => by cases h
  | c :: s, p, q, n + 1, h => by
    rw [splitAtByte] at h
    split_ifs at h with hle
    obtain ⟨⟨p', q'⟩, hsplit, heq⟩ := Option.map_eq_some_iff.1 h
    obtain ⟨rfl, rfl⟩ := Prod.mk.inj heq
    obtain ⟨rfl, hsize⟩ := splitAtByte_eq_some hsplit
    refine ⟨rfl, ?_⟩
    rw [size_cons, hsize]
    omega

theorem strSlice_eq_some {s t : List Char} {start stop : ℕ} (h : strSlice s start stop = some t) :
    ∃ p q, s = p ++ t ++ q ∧ size p = start ∧ start + size t = stop := by
  rw [strSlice] at h
  split_ifs at h with hle
  obtain ⟨⟨p, rest⟩, hfirst, h⟩ := Option.bind_eq_some_iff.1 h
  obtain ⟨⟨t', q⟩, hsecond, h⟩ := Option.bind_eq_some_iff.1 h
  obtain rfl : t' = t := by simpa using h
  obtain ⟨rfl, hp⟩ := splitAtByte_eq_some hfirst
  obtain ⟨rfl, ht⟩ := splitAtByte_eq_some hsecond
  refine ⟨p, q, (List.append_assoc p t' q).symm, hp, ?_⟩
  omega

theorem strSlice_eq_some_iff {s t : List Char} {start stop : ℕ} :
    strSlice s start stop = some t ↔
      ∃ p q, s = p ++ t ++ q ∧ size p = start ∧ start + size t = stop := by
  constructor
  · exact strSlice_eq_some
  · rintro ⟨p, q, rfl, rfl, rfl⟩
    exact strSlice_append p t q

theorem strSlice_self {s : List Char} {start stop : ℕ} (h : Boundary s start) :
    strSlice s start stop = some [] ↔ start = stop := by
  obtain ⟨p, q, rfl, rfl⟩ := h
  constructor
  · intro hslice
    obtain ⟨-, -, -, -, hsize⟩ := strSlice_eq_some hslice
    simpa using hsize
  · rintro rfl
    exact strSlice_eq_some_iff.2 ⟨p, q, by simp, rfl, by simp⟩

/-- A slice that is cut into two is the one after the other. -/
theorem strSlice_append_iff {s t u : List Char} {start stop : ℕ} :
    strSlice s start stop = some (t ++ u) ↔
      ∃ middle, strSlice s start middle = some t ∧ strSlice s middle stop = some u := by
  simp only [strSlice_eq_some_iff]
  constructor
  · rintro ⟨p, q, rfl, rfl, rfl⟩
    refine ⟨size p + size t, ⟨p, u ++ q, by simp, rfl, rfl⟩, p ++ t, q, by simp, by simp, ?_⟩
    simp [Nat.add_assoc]
  · rintro ⟨middle, ⟨p, q, rfl, rfl, rfl⟩, p', q', heq, hp', rfl⟩
    have hsplit : (p ++ t) ++ q = p' ++ (u ++ q') := by simpa using heq
    have hsame : p ++ t = p' := split_unique hsplit (by simp [hp'])
    obtain rfl : q = u ++ q' := by
      rw [← hsame] at hsplit
      exact List.append_cancel_left hsplit
    refine ⟨p, q', by simp, rfl, ?_⟩
    simp [Nat.add_assoc]

theorem boundary_of_strSlice {s t : List Char} {start stop : ℕ} (h : strSlice s start stop = some t) :
    Boundary s stop := by
  obtain ⟨p, q, rfl, rfl, rfl⟩ := strSlice_eq_some h
  exact ⟨p ++ t, q, rfl, by simp⟩

/-- The elements from `start` to `stop`. -/
def seg {α : Type*} (xs : List α) (start stop : ℕ) : List α := (xs.drop start).take (stop - start)

theorem seg_append {α : Type*} (xs : List α) {a b c : ℕ} (hab : a ≤ b) (hbc : b ≤ c) :
    seg xs a b ++ seg xs b c = seg xs a c := by
  unfold seg
  obtain ⟨m, rfl⟩ := Nat.exists_eq_add_of_le hab
  obtain ⟨n, rfl⟩ := Nat.exists_eq_add_of_le hbc
  rw [Nat.add_sub_cancel_left, Nat.add_sub_cancel_left, Nat.add_assoc, Nat.add_sub_cancel_left,
    ← List.drop_drop, List.take_add]

/-- What a slice has to do with the text: its bytes are a segment, and its boundaries are
boundaries. -/
structure IsSlice (s : List Char) (a b : ℕ) (t : List Char) : Prop where
  bytes_eq : bytes t = seg (bytes s) a b
  size_eq : a + size t = b
  boundary : ∀ n, Boundary t n → Boundary s (a + n)
  boundary_of : ∀ n, n ≤ size t → Boundary s (a + n) → Boundary t n

/-- **Slices on boundaries.** -/
theorem strSlice_eq {s : List Char} {a b : ℕ} (ha : Boundary s a) (hb : Boundary s b)
    (hab : a ≤ b) : ∃ t, strSlice s a b = some t ∧ IsSlice s a b t := by
  obtain ⟨p, t, q, rfl, rfl, rfl⟩ := boundary_split ha hb hab
  refine ⟨t, strSlice_append p t q, ?_, rfl, ?_, ?_⟩
  · simp [seg, size]
  · rintro n ⟨u, v, rfl, rfl⟩
    exact ⟨p ++ u, v ++ q, by simp, by simp⟩
  · intro n hn hbn
    obtain ⟨u, v, q', heq, hu, huv⟩ := boundary_split ⟨p, t ++ q, by simp, rfl⟩ hbn
      (Nat.le_add_right (size p) n)
    have hsplit : p ++ (t ++ q) = u ++ (v ++ q') := by simpa using heq
    obtain rfl : p = u := split_unique hsplit hu.symm
    have hv : Boundary (t ++ q) n := ⟨v, q', List.append_cancel_left hsplit, by omega⟩
    obtain ⟨w, z, q'', heq', hw, hz⟩ := boundary_split hv ⟨t, q, rfl, rfl⟩ hn
    exact ⟨w, z, split_unique heq' (by simp; omega), hw⟩

/-- `str::from_utf8` -/
def fromUtf8 (bs : List UInt8) : Option (List Char) :=
  bs.toByteArray.utf8Decode?.map Array.toList

theorem fromUtf8_bytes (s : List Char) : fromUtf8 (bytes s) = some s := by
  have hdecode : (bytes s).toByteArray.utf8Decode? = some s.toArray := List.utf8Decode?_utf8Encode
  unfold fromUtf8
  rw [hdecode, Option.map_some, List.toList_toArray]

theorem bytes_of_fromUtf8 {bs : List UInt8} {s : List Char} (h : fromUtf8 bs = some s) :
    bytes s = bs := by
  obtain ⟨chars, hchars, rfl⟩ := Option.map_eq_some_iff.1 h
  have hsome : bs.toByteArray.utf8Decode?.isSome = true := by rw [hchars]; rfl
  have hencode : (bs.toByteArray.utf8Decode?.get hsome).toList.utf8Encode = bs.toByteArray :=
    ByteArray.utf8Encode_get_utf8Decode?
  have hget : bs.toByteArray.utf8Decode?.get hsome = chars := by simp [hchars]
  rw [hget] at hencode
  have hlists := congrArg (fun bytes => bytes.data.toList) hencode
  simpa [bytes, List.utf8Encode] using hlists

end Paneflow.Utf8
