import Mathlib.Tactic

/-!
# Patches of a list

A patch puts other elements in the place of a segment of a list. Patches that stand one below the other can be applied
one after the other, from the last place to the first, or all at once by a cursor that goes over the list from its
beginning: `foldl_apply`. An element that no patch replaces is found again where the patches below it have moved it:
`getElem?_foldl_apply`.
-/

namespace Paneflow.Patches

variable {α : Type*}

structure Patch (α : Type*) where
  start : ℕ
  stop : ℕ
  /-- What stands there afterwards, from what stood there. -/
  make : List α → List α

variable {patch : Patch α} {patches : List (Patch α)} {rows rows' : List α} {n : ℕ}

def Patch.segment (patch : Patch α) (rows : List α) : List α := (rows.take patch.stop).drop patch.start

def Patch.apply (patch : Patch α) (rows : List α) : List α :=
  rows.take patch.start ++ patch.make (patch.segment rows) ++ rows.drop patch.stop

/-- The patches stand below `n`, and each below the one in front of it. -/
def Below : ℕ → List (Patch α) → Prop
  | _, [] => True
  | n, patch :: patches => patch.start ≤ patch.stop ∧ patch.stop ≤ n ∧ Below patch.start patches

/-- What a cursor has written behind all patches, and where it stands. -/
def rebuild (rows : List α) : List (Patch α) → List α × ℕ
  | [] => ([], 0)
  | patch :: patches =>
    ((rebuild rows patches).1 ++ (rows.take patch.start).drop (rebuild rows patches).2 ++
      patch.make (patch.segment rows), patch.stop)

theorem rebuild_cursor_le (h : Below n patches) : (rebuild rows patches).2 ≤ n := by
  cases patches with
  | nil => exact Nat.zero_le n
  | cons patch patches => exact h.2.1

theorem take_of_take {m : ℕ} (hm : m ≤ n) (h : rows.take n = rows'.take n) : rows.take m = rows'.take m := by
  have hboth := congrArg (List.take m) h
  rwa [List.take_take, List.take_take, Nat.min_eq_left hm] at hboth

/-- What stands above the patches does not matter. -/
theorem rebuild_congr (h : Below n patches) (hrows : rows.take n = rows'.take n) :
    rebuild rows patches = rebuild rows' patches := by
  induction patches generalizing n with
  | nil => rfl
  | cons patch patches ih =>
    obtain ⟨hle, hstop, hbelow⟩ := h
    have hstart := take_of_take (Nat.le_trans hle hstop) hrows
    have hsegment : patch.segment rows = patch.segment rows' := by
      unfold Patch.segment
      rw [take_of_take hstop hrows]
    unfold rebuild
    rw [ih hbelow hstart, hstart, hsegment]

theorem take_apply (hstart : patch.start ≤ rows.length) : (patch.apply rows).take patch.start = rows.take patch.start := by
  unfold Patch.apply
  rw [List.append_assoc, List.take_append_of_le_length (by rw [List.length_take]; omega), List.take_take, Nat.min_self]

/-- **One after the other or all at once**. -/
theorem foldl_apply (h : Below n patches) (hn : n ≤ rows.length) :
    patches.foldl (fun rows patch => patch.apply rows) rows =
      (rebuild rows patches).1 ++ rows.drop (rebuild rows patches).2 := by
  induction patches generalizing n rows with
  | nil => rfl
  | cons patch patches ih =>
    obtain ⟨hle, hstop, hbelow⟩ := h
    have hlength : patch.start ≤ rows.length := by omega
    have htake := take_apply hlength
    have hlengthTake : (rows.take patch.start).length = patch.start := by
      rw [List.length_take]
      omega
    have hstart : patch.start ≤ (patch.apply rows).length := by
      unfold Patch.apply
      rw [List.length_append, List.length_append, hlengthTake]
      omega
    have hcursor : (rebuild rows patches).2 ≤ (rows.take patch.start).length :=
      hlengthTake.symm ▸ rebuild_cursor_le hbelow
    rw [List.foldl_cons, ih hbelow hstart, rebuild_congr hbelow htake, rebuild, Patch.apply]
    rw [List.append_assoc (rows.take patch.start), List.drop_append_of_le_length hcursor]
    simp only [List.append_assoc]

/-- The elements of a list of which a part is replaced. -/
theorem getElem?_around {middle : List α} {start stop i : ℕ} (hstart : start ≤ rows.length) :
    (rows.take start ++ middle ++ rows.drop stop)[i]? =
      if i < start then rows[i]?
      else if i < start + middle.length then middle[i - start]?
      else rows[i - (start + middle.length) + stop]? := by
  have hlength : (rows.take start).length = start := by
    rw [List.length_take]
    omega
  rw [List.append_assoc]
  split_ifs with hfront hmiddle
  · rw [List.getElem?_append_left (by omega), List.getElem?_take_of_lt hfront]
  · rw [List.getElem?_append_right (by omega), hlength, List.getElem?_append_left (by omega)]
  · rw [List.getElem?_append_right (by omega), hlength, List.getElem?_append_right (by omega), List.getElem?_drop]
    congr 1
    omega

/-! ### Where the elements go -/

/-- Patches by their numbers, and what each puts in. -/
structure Plan (σ : Type*) (α : Type*) where
  start : σ → ℕ
  stop : σ → ℕ
  put : σ → List α

namespace Plan
variable {σ : Type*} (plan : Plan σ α)

def toPatch (op : σ) : Patch α := ⟨plan.start op, plan.stop op, fun _ => plan.put op⟩

def apply (ops : List σ) (rows : List α) : List α := ops.foldl (fun rows op => (plan.toPatch op).apply rows) rows

/-- By how much a patch moves what stands above it. -/
def gain (op : σ) : ℤ := (plan.put op).length - ((plan.stop op : ℤ) - plan.start op)

/-- Where the place `i` is moved by the patches below it. -/
def moved (ops : List σ) (i : ℕ) : ℤ := i + ((ops.filter fun op => plan.stop op ≤ i).map plan.gain).sum

variable {ops : List σ} {i : ℕ}

theorem stop_le_of_below (h : Below n (ops.map plan.toPatch)) : ∀ op ∈ ops, plan.stop op ≤ n := by
  induction ops generalizing n with
  | nil => exact fun op hop => absurd hop List.not_mem_nil
  | cons first ops ih =>
    obtain ⟨hle, hstop, hbelow⟩ := h
    intro op hop
    rcases List.mem_cons.mp hop with rfl | hop
    · exact hstop
    · exact (ih hbelow op hop).trans (hle.trans hstop)

theorem moved_of_le (h : ∀ op ∈ ops, plan.stop op ≤ i) : plan.moved ops i = i + (ops.map plan.gain).sum := by
  rw [moved, List.filter_eq_self.mpr fun op hop => decide_eq_true (h op hop)]

theorem length_apply (h : Below n (ops.map plan.toPatch)) (hn : n ≤ rows.length) :
    ((plan.apply ops rows).length : ℤ) = rows.length + (ops.map plan.gain).sum := by
  induction ops generalizing n rows with
  | nil => simp [apply]
  | cons op ops ih =>
    obtain ⟨hle, hstop, hbelow⟩ := h
    change plan.start op ≤ plan.stop op at hle
    change plan.stop op ≤ n at hstop
    have hlength : ((plan.toPatch op).apply rows).length =
        plan.start op + (plan.put op).length + (rows.length - plan.stop op) := by
      change (rows.take (plan.start op) ++ plan.put op ++ rows.drop (plan.stop op)).length = _
      rw [List.length_append, List.length_append, List.length_take, List.length_drop]
      omega
    rw [apply, List.foldl_cons, ← apply, ih hbelow (show plan.start op ≤ _ by omega), hlength, List.map_cons,
      List.sum_cons, gain]
    omega

/-- **What is not replaced is found again** at its new place. -/
theorem getElem?_apply (h : Below n (ops.map plan.toPatch)) (hn : n ≤ rows.length)
    (hkept : ∀ op ∈ ops, i < plan.start op ∨ plan.stop op ≤ i) :
    ∃ j : ℕ, (j : ℤ) = plan.moved ops i ∧ (plan.apply ops rows)[j]? = rows[i]? := by
  induction ops generalizing n rows i with
  | nil => exact ⟨i, by simp [moved], rfl⟩
  | cons op ops ih =>
    obtain ⟨hle, hstop, hbelow⟩ := h
    obtain ⟨hop, hrest⟩ := List.forall_mem_cons.mp hkept
    change plan.start op ≤ plan.stop op at hle
    change plan.stop op ≤ n at hstop
    change Below (plan.start op) _ at hbelow
    have hstart : plan.start op ≤ rows.length := by omega
    have hstops := stop_le_of_below plan hbelow
    have happly : (plan.toPatch op).apply rows = rows.take (plan.start op) ++ plan.put op ++ rows.drop (plan.stop op) := rfl
    have hlength : plan.start op ≤ ((plan.toPatch op).apply rows).length := by
      rw [happly, List.length_append, List.length_append, List.length_take]
      omega
    rw [apply, List.foldl_cons, ← apply]
    rcases hop with hlt | hge
    · -- below the first patch
      obtain ⟨j, hj, hget⟩ := ih hbelow hlength hrest
      refine ⟨j, ?_, ?_⟩
      · rw [hj, moved, moved, List.filter_cons_of_neg (by rw [decide_eq_true_iff]; omega)]
      · rw [hget, happly, getElem?_around hstart, if_pos hlt]
    · -- above it, where it has moved the element
      obtain ⟨i', hi'⟩ : ∃ i' : ℕ, i' = i - plan.stop op + (plan.start op + (plan.put op).length) := ⟨_, rfl⟩
      have hstops' : ∀ other ∈ ops, plan.stop other ≤ i' := fun other hother => by
        have := hstops other hother
        omega
      have hall : ∀ other ∈ op :: ops, plan.stop other ≤ i := by
        refine List.forall_mem_cons.mpr ⟨hge, fun other hother => ?_⟩
        have := hstops other hother
        omega
      obtain ⟨j, hj, hget⟩ := ih hbelow hlength fun other hother => .inr (hstops' other hother)
      refine ⟨j, ?_, ?_⟩
      · rw [hj, moved_of_le plan hstops', moved_of_le plan hall, List.map_cons, List.sum_cons, gain]
        omega
      · rw [hget, happly, getElem?_around hstart, if_neg (by omega), if_neg (by omega)]
        congr 1
        omega

end Plan

end Paneflow.Patches
