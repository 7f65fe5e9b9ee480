import Mathlib.Data.Nat.Notation

/-!
# Readers that may refuse or panic

What a reader of bytes comes to: it has panicked (an index out of bounds), it has refused its input, or it has
read a value. `Safe` readers do not panic; a reader is safe when its parts are.
-/

namespace Paneflow

inductive Reading (α : Type) where
  | panicked
  | refused
  | read (value : α)
  deriving DecidableEq, Repr

namespace Reading

variable {α β : Type}

protected def bind (reading : Reading α) (next : α → Reading β) : Reading β :=
  match reading with
  | .panicked => .panicked
  | .refused => .refused
  | .read value => next value

instance : Monad Reading where
  pure := .read
  bind := Reading.bind

@[simp] theorem read_bind (value : α) (next : α → Reading β) : (Reading.read value >>= next) = next value :=
  rfl

@[simp] theorem pure_eq (value : α) : (pure value : Reading α) = .read value := rfl

theorem bind_eq_read {reading : Reading α} {next : α → Reading β} {result : β} :
    (reading >>= next) = .read result ↔ ∃ value, reading = .read value ∧ next value = .read result := by
  constructor
  · intro h
    cases reading with
    | panicked => cases h
    | refused => cases h
    | read value => exact ⟨value, rfl, h⟩
  · rintro ⟨value, rfl, h⟩
    exact h

/-- The reader does not panic. -/
def Safe (reading : Reading α) : Prop := reading ≠ .panicked

theorem Safe.bind {reading : Reading α} {next : α → Reading β} (h : Safe reading)
    (hnext : ∀ value, reading = .read value → Safe (next value)) : Safe (reading >>= next) := by
  cases reading with
  | panicked => exact absurd rfl h
  | refused => exact fun hpanicked => nomatch hpanicked
  | read value => exact hnext value rfl

theorem safe_read (value : α) : Safe (.read value) := fun hpanicked => nomatch hpanicked

theorem safe_refused : Safe (.refused : Reading α) := fun hpanicked => nomatch hpanicked

/-- `?` -/
def ofOption : Option α → Reading α
  | none => .refused
  | some value => .read value

theorem safe_ofOption (value : Option α) : Safe (ofOption value) := by
  cases value
  · exact safe_refused
  · exact safe_read _

@[simp] theorem ofOption_some (value : α) : ofOption (some value) = .read value := rfl

theorem ofOption_eq_read {value : Option α} {result : α} :
    ofOption value = .read result ↔ value = some result := by
  cases value <;> simp [ofOption]

/-- The reader goes on only when the condition holds. -/
def require (condition : Bool) : Reading Unit := if condition then .read () else .refused

theorem safe_require (condition : Bool) : Safe (require condition) := by
  unfold require
  split
  · exact safe_read ()
  · exact safe_refused

theorem require_eq_read {condition : Bool} {done : Unit} :
    require condition = .read done ↔ condition = true := by
  unfold require
  split <;> simp_all

/-- `xs[i]` -/
def index (xs : List α) (i : ℕ) : Reading α :=
  match xs[i]? with
  | none => .panicked
  | some x => .read x

theorem safe_index {xs : List α} {i : ℕ} (h : i < xs.length) : Safe (index xs i) := by
  unfold index
  rw [List.getElem?_eq_getElem h]
  exact safe_read _

theorem index_eq_read {xs : List α} {i : ℕ} {x : α} : index xs i = .read x ↔ xs[i]? = some x := by
  unfold index
  cases xs[i]? <;> simp

/-- `&xs[..n]` -/
def sliceTo (xs : List α) (n : ℕ) : Reading (List α) :=
  if n ≤ xs.length then .read (xs.take n) else .panicked

/-- `&xs[n..]` -/
def sliceFrom (xs : List α) (n : ℕ) : Reading (List α) :=
  if n ≤ xs.length then .read (xs.drop n) else .panicked

theorem sliceTo_of_le {xs : List α} {n : ℕ} (h : n ≤ xs.length) : sliceTo xs n = .read (xs.take n) :=
  if_pos h

theorem sliceFrom_of_le {xs : List α} {n : ℕ} (h : n ≤ xs.length) :
    sliceFrom xs n = .read (xs.drop n) := if_pos h

/-- `xs.split_at(n)` -/
def splitAt (xs : List α) (n : ℕ) : Reading (List α × List α) :=
  if n ≤ xs.length then .read (xs.take n, xs.drop n) else .panicked

end Reading

end Paneflow
