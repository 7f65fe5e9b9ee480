import Mathlib.Data.Nat.Digits.Defs
import Mathlib.Data.Nat.Bitwise
import Mathlib.Tactic.Ring

/-!
# Words of bytes

A word is written in base 256, the first byte lowest. `zeroByte_iff`: a single expression in the word tells
whether one of its bytes is zero. `toLeBytes` and `fromLeBytes` are inverse to each other.
-/

namespace Paneflow.ByteWord

/-- The word of some bytes. -/
def word (bytes : List ℕ) : ℕ := Nat.ofDigits 256 bytes

@[simp] theorem word_nil : word [] = 0 := rfl

theorem word_cons (byte : ℕ) (bytes : List ℕ) : word (byte :: bytes) = 256 * word bytes + byte := by
  unfold word
  rw [Nat.ofDigits_cons]
  omega

theorem word_lt {bytes : List ℕ} (h : ∀ byte ∈ bytes, byte < 256) :
    word bytes < 256 ^ bytes.length := by
  induction bytes with
  | nil => exact Nat.one_pos
  | cons byte bytes ih =>
    have hbyte := h byte List.mem_cons_self
    have hlt := ih fun other hother => h other (List.mem_cons_of_mem byte hother)
    rw [word_cons, List.length_cons, pow_succ]
    omega

theorem testBit_cons {byte : ℕ} (h : byte < 256) (rest i : ℕ) :
    (256 * rest + byte).testBit i = if i < 8 then byte.testBit i else rest.testBit (i - 8) := by
  have h : byte < 2 ^ 8 := h
  exact Nat.testBit_two_pow_mul_add rest h i

theorem and_cons {byte byte' : ℕ} (h : byte < 256) (h' : byte' < 256) (rest rest' : ℕ) :
    (256 * rest + byte) &&& (256 * rest' + byte') = 256 * (rest &&& rest') + (byte &&& byte') := by
  have hand : byte &&& byte' < 256 := Nat.and_le_left.trans_lt h
  apply Nat.eq_of_testBit_eq
  intro i
  rw [Nat.testBit_and, testBit_cons h, testBit_cons h', testBit_cons hand]
  split_ifs <;> rw [Nat.testBit_and]

theorem xor_cons {byte byte' : ℕ} (h : byte < 256) (h' : byte' < 256) (rest rest' : ℕ) :
    (256 * rest + byte) ^^^ (256 * rest' + byte') = 256 * (rest ^^^ rest') + (byte ^^^ byte') := by
  have hxor : byte ^^^ byte' < 256 := by
    have h : byte < 2 ^ 8 := h
    have h' : byte' < 2 ^ 8 := h'
    exact Nat.xor_lt_two_pow h h'
  apply Nat.eq_of_testBit_eq
  intro i
  rw [Nat.testBit_xor, testBit_cons h, testBit_cons h', testBit_cons hxor]
  split_ifs <;> rw [Nat.testBit_xor]

/-! ### Numbers as bytes -/

/-- `to_le_bytes`, for a number of `n` bytes. -/
def toLeBytes : ℕ → ℕ → List UInt8
  | 0, _ => []
  | n + 1, value => .ofNat value :: toLeBytes n (value / 256)

/-- `from_le_bytes` -/
def fromLeBytes (bytes : List UInt8) : ℕ := word (bytes.map UInt8.toNat)

@[simp] theorem length_toLeBytes (n value : ℕ) : (toLeBytes n value).length = n := by
  induction n generalizing value with
  | zero => rfl
  | succ n ih => rw [toLeBytes, List.length_cons, ih]

theorem fromLeBytes_toLeBytes {n value : ℕ} (h : value < 256 ^ n) :
    fromLeBytes (toLeBytes n value) = value := by
  induction n generalizing value with
  | zero =>
    have hzero : value = 0 := by omega
    rw [hzero]
    rfl
  | succ n ih =>
    have hdiv : value / 256 < 256 ^ n := by
      rw [pow_succ] at h
      exact Nat.div_lt_of_lt_mul (by rwa [Nat.mul_comm])
    have hrest := ih hdiv
    unfold fromLeBytes at hrest ⊢
    rw [toLeBytes, List.map_cons, word_cons, hrest, UInt8.toNat_ofNat']
    omega

theorem fromLeBytes_lt (bytes : List UInt8) : fromLeBytes bytes < 256 ^ bytes.length := by
  have hbytes : ∀ byte ∈ bytes.map UInt8.toNat, byte < 256 := by
    intro byte hbyte
    obtain ⟨byte, -, rfl⟩ := List.mem_map.1 hbyte
    exact byte.toNat_lt
  have hlt := word_lt hbytes
  rwa [List.length_map] at hlt

theorem toLeBytes_fromLeBytes (bytes : List UInt8) :
    toLeBytes bytes.length (fromLeBytes bytes) = bytes := by
  induction bytes with
  | nil => rfl
  | cons byte bytes ih =>
    have hlt := byte.toNat_lt
    have hdiv : fromLeBytes (byte :: bytes) / 256 = fromLeBytes bytes := by
      unfold fromLeBytes
      rw [List.map_cons, word_cons]
      omega
    have hbyte : UInt8.ofNat (fromLeBytes (byte :: bytes)) = byte := by
      unfold fromLeBytes
      rw [List.map_cons, word_cons]
      apply UInt8.toNat_inj.1
      rw [UInt8.toNat_ofNat']
      omega
    rw [List.length_cons, toLeBytes, hbyte, hdiv, ih]

/-! ### Zero bytes -/

/-- The word with the same byte at every place. -/
def repeated (byte n : ℕ) : ℕ := word (List.replicate n byte)

theorem repeated_succ (byte n : ℕ) : repeated byte (n + 1) = 256 * repeated byte n + byte := by
  unfold repeated
  rw [List.replicate_succ, word_cons]

theorem repeated_lt {byte : ℕ} (h : byte < 256) (n : ℕ) : repeated byte n < 256 ^ n := by
  have hbytes : ∀ other ∈ List.replicate n byte, other < 256 :=
    fun other hother => (List.eq_of_mem_replicate hother).symm ▸ h
  have hlt := word_lt hbytes
  rwa [List.length_replicate] at hlt

/-- To exclusive-or every byte with the same one. -/
theorem word_xor_repeated {bytes : List ℕ} (h : ∀ byte ∈ bytes, byte < 256) {key : ℕ} (hkey : key < 256) :
    word bytes ^^^ repeated key bytes.length = word (bytes.map fun byte => byte ^^^ key) := by
  induction bytes with
  | nil => exact Nat.xor_self 0
  | cons byte bytes ih =>
    have hbyte := h byte List.mem_cons_self
    have hrest := ih fun other hother => h other (List.mem_cons_of_mem byte hother)
    rw [List.length_cons, repeated_succ, word_cons, xor_cons hbyte hkey, hrest, List.map_cons,
      word_cons]

theorem mod_cons {byte : ℕ} (h : byte < 256) (rest n : ℕ) :
    (256 * rest + byte) % 256 ^ (n + 1) = 256 * (rest % 256 ^ n) + byte := by
  have hpow : 256 ^ (n + 1) = 256 * 256 ^ n := by ring
  have hlow : (256 * rest + byte) % 256 = byte := by omega
  have hhigh : (256 * rest + byte) / 256 = rest := by omega
  rw [hpow, Nat.mod_mul, hlow, hhigh]
  omega

/-- Every byte is decreased, and what is left are the bits at the top that were not there before. -/
def zeroByte (n v : ℕ) : ℕ :=
  (256 ^ n - repeated 1 n + v) % 256 ^ n &&& (256 ^ n - 1 - v) &&& repeated 128 n

theorem top_of_pos : ∀ byte < 256, 0 < byte → (byte - 1) &&& (255 - byte) &&& 128 = 0 := by
  decide +kernel

/-- When the lowest byte is not zero it borrows nothing, and leaves no bit. -/
theorem zeroByte_cons {byte n rest : ℕ} (hbyte : byte < 256) (hpos : 0 < byte) (hrest : rest < 256 ^ n) :
    zeroByte (n + 1) (256 * rest + byte) = 256 * zeroByte n rest := by
  have hones := repeated_lt Nat.one_lt_ofNat n
  have hpow : 256 ^ (n + 1) = 256 * 256 ^ n := by ring
  have hless : 256 ^ (n + 1) - repeated 1 (n + 1) + (256 * rest + byte) =
      256 * (256 ^ n - repeated 1 n + rest) + (byte - 1) := by
    rw [hpow, repeated_succ]
    omega
  have hnot : 256 ^ (n + 1) - 1 - (256 * rest + byte) =
      256 * (256 ^ n - 1 - rest) + (255 - byte) := by
    rw [hpow]
    omega
  have hdec : byte - 1 < 256 := by omega
  have hinv : 255 - byte < 256 := by omega
  unfold zeroByte
  rw [hless, hnot, mod_cons hdec, repeated_succ, and_cons hdec hinv,
    and_cons (Nat.and_le_left.trans_lt hdec) (by decide), top_of_pos byte hbyte hpos, Nat.add_zero]

theorem zeroByte_cons_zero {n rest : ℕ} (hrest : rest < 256 ^ n) :
    zeroByte (n + 1) (256 * rest) ≠ 0 := by
  have hones := repeated_lt Nat.one_lt_ofNat n
  have hpow : 256 ^ (n + 1) = 256 * 256 ^ n := by ring
  have hborrow : 256 ^ (n + 1) - repeated 1 (n + 1) + 256 * rest =
      256 * (256 ^ n - repeated 1 n + rest - 1) + 255 := by
    rw [hpow, repeated_succ]
    omega
  have hnot : 256 ^ (n + 1) - 1 - 256 * rest = 256 * (256 ^ n - 1 - rest) + 255 := by
    rw [hpow]
    omega
  have hmax : 255 < 256 := by decide
  unfold zeroByte
  rw [hborrow, hnot, mod_cons hmax, repeated_succ, and_cons hmax hmax, and_cons (by decide) (by decide)]
  simp

theorem zeroByte_iff {bytes : List ℕ} (h : ∀ byte ∈ bytes, byte < 256) :
    zeroByte bytes.length (word bytes) ≠ 0 ↔ 0 ∈ bytes := by
  induction bytes with
  | nil => simp [zeroByte]
  | cons byte bytes ih =>
    have hbyte := h byte List.mem_cons_self
    have hrest : ∀ other ∈ bytes, other < 256 :=
      fun other hother => h other (List.mem_cons_of_mem byte hother)
    have hlt := word_lt hrest
    rw [List.length_cons, word_cons, List.mem_cons]
    rcases Nat.eq_zero_or_pos byte with rfl | hpos
    · simp [zeroByte_cons_zero hlt]
    · rw [zeroByte_cons hbyte hpos hlt, ← ih hrest]
      omega

end Paneflow.ByteWord
