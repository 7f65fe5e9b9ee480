import Mathlib.Data.Nat.Basic
import Mathlib.Logic.Basic

/-!
# JSON values

`serde_json::Value` with the accessors of it. The fields of an object are in the order of their keys, as in
its `BTreeMap`, so equality of values is equality here.
-/

namespace Paneflow.Json

/-- A number as `serde_json` keeps it; a float by its bits. -/
inductive Number where
  | posInt (value : ℕ)
  | negInt (value : ℤ)
  | float (bits : UInt64)
  deriving DecidableEq, Repr

inductive Value where
  | null
  | bool (value : Bool)
  | number (value : Number)
  | string (text : String)
  | array (items : List Value)
  | object (fields : List (String × Value))
  deriving Repr

namespace Value

mutual

def decEq (value value' : Value) : Decidable (value = value') :=
  match value, value' with
  | .null, .null => isTrue rfl
  | .bool b, .bool b' => decidable_of_iff (b = b') (by simp)
  | .number n, .number n' => decidable_of_iff (n = n') (by simp)
  | .string text, .string text' => decidable_of_iff (text = text') (by simp)
  | .array items, .array items' =>
    haveI := decEqItems items items'
    decidable_of_iff (items = items') (by simp)
  | .object fields, .object fields' =>
    haveI := decEqFields fields fields'
    decidable_of_iff (fields = fields') (by simp)
  | .null, .bool _ | .null, .number _ | .null, .string _ | .null, .array _ | .null, .object _
  | .bool _, .null | .bool _, .number _ | .bool _, .string _ | .bool _, .array _
  | .bool _, .object _ | .number _, .null | .number _, .bool _ | .number _, .string _
  | .number _, .array _ | .number _, .object _ | .string _, .null | .string _, .bool _
  | .string _, .number _ | .string _, .array _ | .string _, .object _ | .array _, .null
  | .array _, .bool _ | .array _, .number _ | .array _, .string _ | .array _, .object _
  | .object _, .null | .object _, .bool _ | .object _, .number _ | .object _, .string _
  | .object _, .array _ => isFalse (by intro h; cases h)

def decEqItems (items items' : List Value) : Decidable (items = items') :=
  match items, items' with
  | [], [] => isTrue rfl
  | item :: items, item' :: items' =>
    haveI := decEq item item'
    haveI := decEqItems items items'
    decidable_of_iff (item = item' ∧ items = items') (by simp)
  | [], _ :: _ | _ :: _, [] => isFalse (by intro h; cases h)

def decEqFields (fields fields' : List (String × Value)) : Decidable (fields = fields') :=
  match fields, fields' with
  | [], [] => isTrue rfl
  | (key, value) :: fields, (key', value') :: fields' =>
    haveI := decEq value value'
    haveI := decEqFields fields fields'
    decidable_of_iff (key = key' ∧ value = value' ∧ fields = fields') (by simp [and_assoc])
  | [], _ :: _ | _ :: _, [] => isFalse (by intro h; cases h)

end

instance : DecidableEq Value := decEq

def get (value : Value) (key : String) : Option Value :=
  match value with
  | .object fields => (fields.find? fun field => field.1 = key).map Prod.snd
  | _ => none

/-- `value[key]` -/
def index (value : Value) (key : String) : Value := (value.get key).getD .null

def pointer (value : Value) (path : List String) : Option Value :=
  path.foldlM get value

def isNull : Value → Bool
  | .null => true
  | _ => false

def asStr : Value → Option String
  | .string text => some text
  | _ => none

def asBool : Value → Option Bool
  | .bool value => some value
  | _ => none

def asU64 : Value → Option ℕ
  | .number (.posInt value) => some value
  | _ => none

def isObject : Value → Bool
  | .object _ => true
  | _ => false

/-- The fields of an object, and nothing for other values. -/
def fields : Value → List (String × Value)
  | .object fields => fields
  | _ => []

/-- `Map::insert` -/
def insertField (key : String) (value : Value) : List (String × Value) → List (String × Value)
  | [] => [(key, value)]
  | (key', value') :: fields =>
    if key < key' then (key, value) :: (key', value') :: fields
    else if key = key' then (key, value) :: fields
    else (key', value') :: insertField key value fields

theorem insertField_ne_nil (key : String) (value : Value) (fields : List (String × Value)) :
    insertField key value fields ≠ [] := by
  unfold insertField
  split
  · simp
  · split_ifs <;> simp

theorem keys_insertField {key key' : String} {value : Value} {fields : List (String × Value)}
    (h : key' ∈ (insertField key value fields).map Prod.fst) : key' = key ∨ key' ∈ fields.map Prod.fst := by
  induction fields with
  | nil => simpa [insertField] using h
  | cons field fields ih =>
    unfold insertField at h
    split_ifs at h with hlt heq
    · simpa using h
    · simp only [List.map_cons, List.mem_cons] at h ⊢
      exact h.imp_right .inr
    · rw [List.map_cons, List.mem_cons] at h
      rw [List.map_cons, List.mem_cons]
      rcases h with h | h
      · exact .inr (.inl h)
      · exact (ih h).imp_right .inr

theorem get_object (fields : List (String × Value)) (key : String) :
    (Value.object fields).get key = (fields.find? fun field => field.1 = key).map Prod.snd := rfl

theorem get_eq_fields (value : Value) (key : String) :
    value.get key = (value.fields.find? fun field => field.1 = key).map Prod.snd := by
  cases value <;> rfl

/-- The text under the key. -/
def text (value : Value) (key : String) : Option String := (value.get key).bind asStr

end Value

end Paneflow.Json
