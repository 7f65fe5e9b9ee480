import Paneflow.Json
import Paneflow.Utf8

/-!
# The text of a JSON value

`serde_json::to_string`: no blanks, and in a string only what has to be escaped. `size_encode` gives the number of bytes
of a text without writing it; how a float is written is left open.
-/

namespace Paneflow.JsonText

open Paneflow.Json Paneflow.Utf8

/-- A character inside a string. -/
def escape (c : Char) : List Char :=
  if c = '"' then ['\\', '"']
  else if c = '\\' then ['\\', '\\']
  else if c = '\n' then ['\\', 'n']
  else if c = '\r' then ['\\', 'r']
  else if c = '\t' then ['\\', 't']
  else if c = '\x08' then ['\\', 'b']
  else if c = '\x0c' then ['\\', 'f']
  else if c.toNat < 0x20 then ['\\', 'u', '0', '0', Nat.digitChar (c.toNat / 16), Nat.digitChar (c.toNat % 16)]
  else [c]

def quoted (text : List Char) : List Char := '"' :: (text.flatMap escape ++ ['"'])

/-- The bytes of a text inside a string. -/
def escapedLen (text : List Char) : ℕ := size (text.flatMap escape)

/-- The digits of a number. -/
def digits (n : ℕ) : ℕ := (Nat.toDigits 10 n).length

section Encode

variable (floats : UInt64 → List Char)

mutual

def encode : Value → List Char
  | .null => "null".toList
  | .bool value => if value then "true".toList else "false".toList
  | .number (.posInt n) => Nat.toDigits 10 n
  | .number (.negInt n) => '-' :: Nat.toDigits 10 n.natAbs
  | .number (.float bits) => floats bits
  | .string text => quoted text.toList
  | .array items => '[' :: (encodeItems items ++ [']'])
  | .object fields => '\x7b' :: (encodeFields fields ++ ['\x7d'])

def encodeItems : List Value → List Char
  | [] => []
  | item :: items => encode item ++ if items.isEmpty then [] else ',' :: encodeItems items

def encodeFields : List (String × Value) → List Char
  | [] => []
  | (key, value) :: fields =>
    quoted key.toList ++ ':' :: (encode value ++ if fields.isEmpty then [] else ',' :: encodeFields fields)

end

mutual

/-- The bytes of the text. -/
def encodedLen : Value → ℕ
  | .null => 4
  | .bool value => if value then 4 else 5
  | .number (.posInt n) => digits n
  | .number (.negInt n) => 1 + digits n.natAbs
  | .number (.float bits) => size (floats bits)
  | .string text => 2 + escapedLen text.toList
  | .array items => 2 + itemsLen items
  | .object fields => 2 + fieldsLen fields

def itemsLen : List Value → ℕ
  | [] => 0
  | item :: items => encodedLen item + if items.isEmpty then 0 else 1 + itemsLen items

def fieldsLen : List (String × Value) → ℕ
  | [] => 0
  | (key, value) :: fields =>
    3 + escapedLen key.toList + (encodedLen value + if fields.isEmpty then 0 else 1 + fieldsLen fields)

end

theorem size_ascii {text : List Char} (h : ∀ c ∈ text, c.toNat < 128) : size text = text.length := by
  rw [size, bytes_ascii h, List.length_map]

theorem size_toDigits (n : ℕ) : size (Nat.toDigits 10 n) = digits n := by
  refine size_ascii fun c hc => ?_
  have h := Nat.isDigit_of_mem_toDigits (by norm_num) (by norm_num) hc
  simp only [Char.isDigit, Bool.and_eq_true, decide_eq_true_eq] at h
  have hle : c.toNat ≤ ('9' : Char).toNat := h.2
  exact lt_of_le_of_lt hle (by decide)

theorem size_quoted (text : List Char) : size (quoted text) = 2 + escapedLen text := by
  rw [quoted, size_cons, size_append, escapedLen]
  change 1 + (size (text.flatMap escape) + 1) = _
  omega

mutual

theorem size_encode (value : Value) : size (encode floats value) = encodedLen floats value := by
  match value with
  | .null => rfl
  | .bool true | .bool false => rfl
  | .number (.posInt n) => exact size_toDigits n
  | .number (.negInt n) =>
    rw [encode, encodedLen, size_cons, size_toDigits]
    rfl
  | .number (.float bits) => rfl
  | .string text => exact size_quoted text.toList
  | .array items =>
    rw [encode, encodedLen, size_cons, size_append, size_encodeItems items]
    change 1 + (itemsLen floats items + 1) = _
    omega
  | .object fields =>
    rw [encode, encodedLen, size_cons, size_append, size_encodeFields fields]
    change 1 + (fieldsLen floats fields + 1) = _
    omega

theorem size_encodeItems (items : List Value) : size (encodeItems floats items) = itemsLen floats items := by
  match items with
  | [] => rfl
  | item :: items =>
    rw [encodeItems, itemsLen, size_append, size_encode item]
    congr 1
    split_ifs
    · rfl
    · rw [size_cons, size_encodeItems items]
      rfl

theorem size_encodeFields (fields : List (String × Value)) :
    size (encodeFields floats fields) = fieldsLen floats fields := by
  match fields with
  | [] => rfl
  | (key, value) :: fields =>
    rw [encodeFields, fieldsLen, size_append, size_cons, size_append, size_quoted, size_encode value]
    have hrest : size (if fields.isEmpty then [] else ',' :: encodeFields floats fields) =
        if fields.isEmpty then 0 else 1 + fieldsLen floats fields := by
      split_ifs
      · rfl
      · rw [size_cons, size_encodeFields fields]
        rfl
    rw [hrest]
    change _ + (1 + _) = _
    omega

end

/-- A field with what follows it, a comma or the end. -/
def entryLen (field : String × Value) : ℕ := 4 + escapedLen field.1.toList + encodedLen floats field.2

def entriesLen (fields : List (String × Value)) : ℕ := (fields.map (entryLen floats)).sum

@[simp] theorem entriesLen_nil : entriesLen floats [] = 0 := rfl

@[simp] theorem entriesLen_cons (field : String × Value) (fields : List (String × Value)) :
    entriesLen floats (field :: fields) = entryLen floats field + entriesLen floats fields := rfl

@[simp] theorem entriesLen_append (fields fields' : List (String × Value)) :
    entriesLen floats (fields ++ fields') = entriesLen floats fields + entriesLen floats fields' := by
  simp [entriesLen]

theorem encodedLen_object {fields : List (String × Value)} (h : fields ≠ []) :
    encodedLen floats (.object fields) = 1 + entriesLen floats fields := by
  rw [encodedLen]
  suffices hfields : fieldsLen floats fields + 1 = entriesLen floats fields by omega
  induction fields with
  | nil => exact absurd rfl h
  | cons field fields ih =>
    obtain ⟨key, value⟩ := field
    rw [fieldsLen, entriesLen_cons, entryLen]
    dsimp only
    cases fields with
    | nil =>
      rw [entriesLen_nil, List.isEmpty_nil, if_pos rfl]
      omega
    | cons field fields =>
      rw [← ih (by simp), List.isEmpty_cons, if_neg Bool.false_ne_true]
      omega

theorem encodedLen_array {items : List Value} (h : items ≠ []) :
    encodedLen floats (.array items) = 1 + (items.map fun item => 1 + encodedLen floats item).sum := by
  rw [encodedLen]
  suffices hitems : itemsLen floats items + 1 = (items.map fun item => 1 + encodedLen floats item).sum by omega
  induction items with
  | nil => exact absurd rfl h
  | cons item items ih =>
    rw [itemsLen, List.map_cons, List.sum_cons]
    cases items with
    | nil =>
      rw [List.isEmpty_nil, if_pos rfl, List.map_nil, List.sum_nil]
      omega
    | cons item items =>
      rw [← ih (by simp), List.isEmpty_cons, if_neg Bool.false_ne_true]
      omega

theorem entriesLen_insertField {key : String} {fields : List (String × Value)} (h : key ∉ fields.map Prod.fst)
    (value : Value) :
    entriesLen floats (Value.insertField key value fields) =
      entryLen floats (key, value) + entriesLen floats fields := by
  induction fields with
  | nil => rfl
  | cons field fields ih =>
    obtain ⟨key', value'⟩ := field
    rw [List.map_cons, List.mem_cons, not_or] at h
    unfold Value.insertField
    split_ifs with hlt heq
    · rfl
    · exact absurd heq h.1
    · rw [entriesLen_cons, entriesLen_cons, ih h.2]
      omega

end Encode

@[simp] theorem escapedLen_nil : escapedLen [] = 0 := rfl

theorem escapedLen_cons (c : Char) (text : List Char) : escapedLen (c :: text) = size (escape c) + escapedLen text := by
  simp [escapedLen]

@[simp] theorem escapedLen_append (text text' : List Char) :
    escapedLen (text ++ text') = escapedLen text + escapedLen text' := by
  simp [escapedLen]

/-- Characters that are written as they are. -/
theorem escapedLen_plain {text : List Char} (h : ∀ c ∈ text, escape c = [c]) : escapedLen text = size text := by
  rw [escapedLen, List.flatMap_congr h, List.flatMap_singleton']

def plain (c : Char) : Bool := 0x20 ≤ c.toNat && c.toNat < 128 && c ≠ '"' && c ≠ '\\'

theorem escape_plain {c : Char} (h : plain c = true) : escape c = [c] := by
  simp only [plain, Bool.and_eq_true, decide_eq_true_eq] at h
  obtain ⟨⟨⟨hlow, -⟩, hquote⟩, hback⟩ := h
  have hcontrol : ∀ d : Char, d.toNat < 0x20 → c ≠ d := by
    rintro d hd rfl
    omega
  unfold escape
  rw [if_neg hquote, if_neg hback, if_neg (hcontrol _ (by decide)), if_neg (hcontrol _ (by decide)),
    if_neg (hcontrol _ (by decide)), if_neg (hcontrol _ (by decide)), if_neg (hcontrol _ (by decide)),
    if_neg (by omega)]

theorem escapedLen_ascii {text : List Char} (h : text.all plain = true) : escapedLen text = text.length := by
  rw [List.all_eq_true] at h
  rw [escapedLen_plain fun c hc => escape_plain (h c hc), size_ascii]
  intro c hc
  have := h c hc
  simp only [plain, Bool.and_eq_true, decide_eq_true_eq] at this
  exact this.1.1.2

end Paneflow.JsonText
