import Mathlib.Data.List.Basic
import Mathlib.Tactic.Common

/-!
# Streams of records that are cut

A stream of records is cut after `cap` items. `fitting` says which records are in what is left, by the sizes alone;
`take_stream` says that what is left is these records and, when the stream was cut, a part of the next one.
-/

namespace Paneflow.Framing

variable {α β : Type}

/-- The records that fit into the cap one after the other, and whether there are more. -/
def fitting (size : α → ℕ) : ℕ → List α → List α × Bool
  | _, [] => ([], false)
  | cap, record :: records =>
    if size record > cap then ([], true)
    else
      let rest := fitting size (cap - size record) records
      (record :: rest.1, rest.2)

theorem fitting_nil (size : α → ℕ) (cap : ℕ) : fitting size cap [] = ([], false) := rfl

theorem fitting_of_lt {size : α → ℕ} {cap : ℕ} {record : α} (h : cap < size record) (records : List α) :
    fitting size cap (record :: records) = ([], true) := if_pos h

theorem fitting_of_le {size : α → ℕ} {cap : ℕ} {record : α} (h : size record ≤ cap) (records : List α) :
    fitting size cap (record :: records) =
      (record :: (fitting size (cap - size record) records).1,
        (fitting size (cap - size record) records).2) := if_neg (Nat.not_lt.2 h)

theorem fitting_prefix (size : α → ℕ) (cap : ℕ) (records : List α) :
    (fitting size cap records).1 <+: records := by
  induction records generalizing cap with
  | nil => exact List.prefix_refl []
  | cons record records ih =>
    by_cases h : size record ≤ cap
    · rw [fitting_of_le h]
      exact (List.prefix_cons_inj record).2 (ih _)
    · rw [fitting_of_lt (Nat.lt_of_not_le h)]
      exact List.nil_prefix

/-- What is left of a stream that is cut. -/
inductive Cut (render : α → List β) : List α → List α × Bool → List β → Prop where
  /-- The whole stream. -/
  | whole (records : List α) : Cut render records (records, false) []
  /-- Some records, and a part of the next one. -/
  | part (kept : List α) (next : α) (later : List α) (n : ℕ) (h : n < (render next).length) :
      Cut render (kept ++ next :: later) (kept, true) ((render next).take n)

theorem Cut.cons {render : α → List β} {records : List α} {fit : List α × Bool} {part : List β}
    (h : Cut render records fit part) (record : α) :
    Cut render (record :: records) (record :: fit.1, fit.2) part := by
  cases h with
  | whole => exact .whole (record :: records)
  | part kept next later n hlt => exact .part (record :: kept) next later n hlt

/-- The first `cap` items of the stream are the records that fit and a part of the next one. -/
theorem take_stream {render : α → List β} {size : α → ℕ} {records : List α}
    (hsize : ∀ record ∈ records, (render record).length = size record) (cap : ℕ) :
    ∃ part, (records.flatMap render).take cap = (fitting size cap records).1.flatMap render ++ part ∧
      Cut render records (fitting size cap records) part := by
  induction records generalizing cap with
  | nil => exact ⟨[], List.take_nil, .whole []⟩
  | cons record records ih =>
    have hlength := hsize record List.mem_cons_self
    have hrest := fun record h => hsize record (List.mem_cons_of_mem _ h)
    rw [List.flatMap_cons]
    by_cases h : size record ≤ cap
    · obtain ⟨part, htake, hcut⟩ := ih hrest (cap - size record)
      rw [fitting_of_le h]
      refine ⟨part, ?_, hcut.cons record⟩
      have hcap : cap = (render record).length + (cap - size record) := by omega
      rw [hcap, List.take_length_add_append, ← hcap, htake, List.flatMap_cons, List.append_assoc]
    · have hlt : cap < (render record).length := by omega
      rw [fitting_of_lt (Nat.lt_of_not_le h)]
      refine ⟨(render record).take cap, ?_, .part [] record records cap hlt⟩
      rw [List.take_append_of_le_length (Nat.le_of_lt hlt)]
      rfl

/-- The stream is cut when it is longer than the cap. -/
theorem fitting_snd {render : α → List β} {size : α → ℕ} {records : List α}
    (hsize : ∀ record ∈ records, (render record).length = size record) (cap : ℕ) :
    (fitting size cap records).2 = decide (cap < (records.flatMap render).length) := by
  induction records generalizing cap with
  | nil => rfl
  | cons record records ih =>
    have hlength := hsize record List.mem_cons_self
    have hrest := fun record h => hsize record (List.mem_cons_of_mem _ h)
    rw [List.flatMap_cons, List.length_append]
    by_cases h : size record ≤ cap
    · rw [fitting_of_le h]
      show (fitting size (cap - size record) records).2 = _
      rw [ih hrest, decide_eq_decide]
      omega
    · rw [fitting_of_lt (Nat.lt_of_not_le h)]
      exact (decide_eq_true (by omega)).symm

end Paneflow.Framing
