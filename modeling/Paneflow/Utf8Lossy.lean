import Paneflow.Utf8
import Mathlib.Data.List.DropRight

/-! # Reading bytes as text

`fromUtf8Lossy` reads bytes as UTF-8 and puts a replacement character for what is not; it gives a text back
from its own bytes (`fromUtf8Lossy_bytes`). `trimEnd` drops the white space at the end of a text, in the
sense of Unicode. -/

namespace Paneflow.Utf8

/-- The second bytes that may follow the first one of a sequence of three or four. -/
def secondByte (first second : UInt8) : Bool :=
  if first = 0xE0 then 0xA0 ≤ second && second ≤ 0xBF
  else if first = 0xED then 0x80 ≤ second && second ≤ 0x9F
  else if first = 0xF0 then 0x90 ≤ second && second ≤ 0xBF
  else if first = 0xF4 then 0x80 ≤ second && second ≤ 0x8F
  else 0x80 ≤ second && second ≤ 0xBF

/-- The bytes that one replacement character stands for: as many as could have begun a character. -/
def illFormed : List UInt8 → ℕ
  | first :: second :: third :: _ =>
    if 0xE0 ≤ first && first ≤ 0xEF && secondByte first second then 2
    else if 0xF0 ≤ first && first ≤ 0xF4 && secondByte first second then
      if 0x80 ≤ third && third ≤ 0xBF then 3 else 2
    else 1
  | [first, second] =>
    if 0xE0 ≤ first && first ≤ 0xF4 && secondByte first second then 2 else 1
  | _ => 1

/-- `String::from_utf8_lossy`, for at most `fuel` characters. -/
def fromUtf8LossyFrom : ℕ → List UInt8 → List Char
  | _, [] => []
  | 0, _ => []
  | fuel + 1, text =>
    match text.toByteArray.utf8DecodeChar? 0 with
    | some c => c :: fromUtf8LossyFrom fuel (text.drop c.utf8Size)
    | none => '\uFFFD' :: fromUtf8LossyFrom fuel (text.drop (illFormed text))

def fromUtf8Lossy (text : List UInt8) : List Char := fromUtf8LossyFrom text.length text

theorem decode_encode (c : Char) (rest : List UInt8) :
    (String.utf8EncodeChar c ++ rest).toByteArray.utf8DecodeChar? 0 = some c := by
  rw [List.toByteArray_append]
  exact ByteArray.utf8DecodeChar?_utf8EncodeChar_append

theorem length_encode_pos (c : Char) : 0 < (String.utf8EncodeChar c).length := by
  rw [String.length_utf8EncodeChar]
  exact c.utf8Size_pos

theorem fromUtf8LossyFrom_bytes (s : List Char) {fuel : ℕ} (h : (bytes s).length ≤ fuel) :
    fromUtf8LossyFrom fuel (bytes s) = s := by
  induction s generalizing fuel with
  | nil => cases fuel <;> rfl
  | cons c s ih =>
    rw [bytes_cons] at h ⊢
    have hpos := length_encode_pos c
    have hsize := String.length_utf8EncodeChar c
    rw [List.length_append] at h
    obtain ⟨fuel, rfl⟩ : ∃ n, fuel = n + 1 := ⟨fuel - 1, by omega⟩
    obtain ⟨b, text, htext⟩ : ∃ b text, String.utf8EncodeChar c ++ bytes s = b :: text := by
      cases hcase : String.utf8EncodeChar c ++ bytes s with
      | nil => simp at hcase
      | cons b text => exact ⟨b, text, rfl⟩
    have hdecode := decode_encode c (bytes s)
    rw [htext] at hdecode ⊢
    simp only [fromUtf8LossyFrom, hdecode]
    rw [← htext, ← hsize, List.drop_left, ih (by omega)]

/-- A text is read back from its bytes. -/
theorem fromUtf8Lossy_bytes (s : List Char) : fromUtf8Lossy (bytes s) = s :=
  fromUtf8LossyFrom_bytes s le_rfl

/-! ### ASCII in bytes that may not be a text -/

theorem drop_encode {c : Char} {text : List UInt8} (h : text.toByteArray.utf8DecodeChar? 0 = some c) :
    text = String.utf8EncodeChar c ++ text.drop c.utf8Size := by
  obtain ⟨rest, hrest⟩ := ByteArray.exists_of_utf8DecodeChar?_eq_some h
  have hlist : text = String.utf8EncodeChar c ++ rest.data.toList := by
    have hdata := congrArg (fun bytes : ByteArray => bytes.data.toList) hrest
    simpa [List.utf8Encode] using hdata
  have hsize := String.length_utf8EncodeChar c
  rw [← hsize]
  nth_rewrite 2 [hlist]
  rw [List.drop_left, ← hlist]

/-- A byte below 128 is a character by itself. -/
theorem decode_ascii {b : UInt8} (h : b.toNat < 128) (rest : List UInt8) :
    (b :: rest).toByteArray.utf8DecodeChar? 0 = some (Char.ofNat b.toNat) := by
  have hascii : ∀ n < 128, (Char.ofNat n).toNat = n := by decide
  have hc : (Char.ofNat b.toNat).toNat = b.toNat := hascii _ h
  have hencode := encode_ascii (c := Char.ofNat b.toNat) (by omega)
  have hdecode := decode_encode (Char.ofNat b.toNat) rest
  rw [hencode, hc, UInt8.ofNat_toNat] at hdecode
  exact hdecode

theorem secondByte_le {first second : UInt8} (h : secondByte first second = true) : 128 ≤ second.toNat := by
  unfold secondByte at h
  have hle : ∀ low : UInt8, 128 ≤ low.toNat → low ≤ second → 128 ≤ second.toNat :=
    fun low hlow hsecond => hlow.trans (UInt8.le_iff_toNat_le.mp hsecond)
  split_ifs at h <;> simp only [Bool.and_eq_true, decide_eq_true_eq] at h
  · exact hle _ (by decide) h.1
  · exact hle _ (by decide) h.1
  · exact hle _ (by decide) h.1
  · exact hle _ (by decide) h.1
  · exact hle _ (by decide) h.1

/-- What a replacement character stands for is no ASCII. -/
theorem illFormed_le {first : UInt8} {rest : List UInt8} (h : 128 ≤ first.toNat) :
    ∀ b ∈ (first :: rest).take (illFormed (first :: rest)), 128 ≤ b.toNat := by
  have hone : ∀ b ∈ (first :: rest).take 1, 128 ≤ b.toNat := by
    intro b hb
    rw [List.take_succ_cons, List.take_zero, List.mem_singleton] at hb
    rwa [hb]
  match rest with
  | [] => exact hone
  | [second] =>
    rw [illFormed]
    split_ifs with hsecond
    · simp only [Bool.and_eq_true, decide_eq_true_eq] at hsecond
      have := secondByte_le hsecond.2
      simpa [h]
    · exact hone
  | second :: third :: rest =>
    rw [illFormed]
    split_ifs with hthree hfour hthird
    · simp only [Bool.and_eq_true, decide_eq_true_eq] at hthree
      have := secondByte_le hthree.2
      simpa [h]
    · simp only [Bool.and_eq_true, decide_eq_true_eq] at hfour hthird
      have hsecond := secondByte_le hfour.2
      have hlow : 128 ≤ third.toNat := UInt8.le_iff_toNat_le.mp hthird.1
      simpa [h, hsecond]
    · simp only [Bool.and_eq_true, decide_eq_true_eq] at hfour
      have := secondByte_le hfour.2
      simpa [h]
    · exact hone

theorem illFormed_pos (text : List UInt8) : 0 < illFormed text := by
  fun_cases illFormed text <;> decide

/-- A character of ASCII is in the text if and only if its byte is in what the text is read from. -/
theorem mem_fromUtf8LossyFrom {c : Char} (hc : c.toNat < 128) {fuel : ℕ} {text : List UInt8}
    (h : text.length ≤ fuel) : c ∈ fromUtf8LossyFrom fuel text ↔ UInt8.ofNat c.toNat ∈ text := by
  induction fuel generalizing text with
  | zero =>
    obtain rfl := List.length_eq_zero_iff.mp (Nat.le_zero.mp h)
    exact iff_of_false List.not_mem_nil List.not_mem_nil
  | succ fuel ih =>
    cases text with
    | nil => exact iff_of_false List.not_mem_nil List.not_mem_nil
    | cons first rest =>
      have hbyte : (UInt8.ofNat c.toNat).toNat = c.toNat := by
        rw [UInt8.toNat_ofNat']
        omega
      rw [List.length_cons] at h
      unfold fromUtf8LossyFrom
      cases hdecode : (first :: rest).toByteArray.utf8DecodeChar? 0 with
      | some d =>
        have hsplit := drop_encode hdecode
        have hpos := d.utf8Size_pos
        have hrest := @ih ((first :: rest).drop d.utf8Size) (by
          rw [List.length_drop, List.length_cons]
          omega)
        dsimp only
        rw [List.mem_cons, hrest]
        nth_rewrite 2 [hsplit]
        rw [List.mem_append]
        refine or_congr_left ⟨?_, fun hmem => ?_⟩
        · rintro rfl
          rw [encode_ascii hc]
          exact List.mem_singleton_self _
        · rcases Nat.lt_or_ge d.toNat 128 with hd | hd
          · rw [encode_ascii hd, List.mem_singleton] at hmem
            have heq := congrArg UInt8.toNat hmem
            rw [hbyte, UInt8.toNat_ofNat', Nat.mod_eq_of_lt (by omega)] at heq
            exact Char.toNat_inj.mp heq
          · have := le_of_mem_encode hd hmem
            omega
      | none =>
        have hfirst : 128 ≤ first.toNat := by
          by_contra hlt
          rw [decode_ascii (by omega)] at hdecode
          exact nomatch hdecode
        have hpos := illFormed_pos (first :: rest)
        have hrest := @ih ((first :: rest).drop (illFormed (first :: rest))) (by
          rw [List.length_drop, List.length_cons]
          omega)
        dsimp only
        rw [List.mem_cons, hrest]
        have hne : c ≠ '\uFFFD' := by
          rintro rfl
          exact absurd hc (by decide)
        have hgone : UInt8.ofNat c.toNat ∉ (first :: rest).take (illFormed (first :: rest)) := fun hmem => by
          have := illFormed_le hfirst _ hmem
          omega
        rw [or_iff_right hne]
        nth_rewrite 3 [← List.take_append_drop (illFormed (first :: rest)) (first :: rest)]
        rw [List.mem_append, or_iff_right hgone]

theorem mem_fromUtf8Lossy {c : Char} (hc : c.toNat < 128) (text : List UInt8) :
    c ∈ fromUtf8Lossy text ↔ UInt8.ofNat c.toNat ∈ text :=
  mem_fromUtf8LossyFrom hc le_rfl

theorem fromUtf8Lossy_ne_nil {text : List UInt8} (h : text ≠ []) : fromUtf8Lossy text ≠ [] := by
  cases text with
  | nil => exact absurd rfl h
  | cons first rest =>
    unfold fromUtf8Lossy
    rw [List.length_cons, fromUtf8LossyFrom]
    · split <;> exact List.cons_ne_nil _ _
    · exact List.cons_ne_nil _ _

/-- `char::is_whitespace` -/
def isUnicodeWhitespace (c : Char) : Bool :=
  let n := c.toNat
  (0x9 ≤ n && n ≤ 0xD) || n == 0x20 || n == 0x85 || n == 0xA0 || n == 0x1680 ||
    (0x2000 ≤ n && n ≤ 0x200A) || n == 0x2028 || n == 0x2029 || n == 0x202F || n == 0x205F ||
    n == 0x3000

/-- `str::trim_end` -/
def trimEnd (s : List Char) : List Char := s.rdropWhile isUnicodeWhitespace

theorem trimEnd_concat {c : Char} (h : isUnicodeWhitespace c = true) (s : List Char) :
    trimEnd (s ++ [c]) = trimEnd s :=
  List.rdropWhile_concat_pos _ _ _ h

end Paneflow.Utf8
