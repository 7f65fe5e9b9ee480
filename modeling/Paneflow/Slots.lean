import Mathlib.Data.List.InsertIdx
import Mathlib.Data.List.Nodup
import Mathlib.Data.List.Perm.Basic

/-!
# The slots of some of a list

`fill p xs members` puts the members one after the other into the slots of the list that satisfy `p`, and keeps
what is in the others. `move` takes an element out of a list and puts it back at another index.

`filter_fill`, `perm_fill`: what is in the slots then is the members, and nothing is lost. `filter_move`: without
the element that moved nothing has changed.
-/

namespace Paneflow.Slots

variable {α β : Type*}

/-- The members in the slots that satisfy `p`, as long as there are any. -/
def fill (p : α → Bool) : List α → List α → List α
  | [], _ => []
  | x :: xs, members =>
    if p x then members.head?.getD x :: fill p xs members.tail else x :: fill p xs members

@[simp] theorem length_fill (p : α → Bool) (xs members : List α) : (fill p xs members).length = xs.length := by
  induction xs generalizing members with
  | nil => rfl
  | cons x xs ih =>
    unfold fill
    split_ifs <;> rw [List.length_cons, List.length_cons, ih]

/-- A slot that does not satisfy `p` is kept. -/
theorem getElem?_fill {p : α → Bool} {xs members : List α} {i : ℕ} {x : α} (h : xs[i]? = some x)
    (hx : p x = false) : (fill p xs members)[i]? = some x := by
  induction xs generalizing members i with
  | nil => exact nomatch h
  | cons y xs ih =>
    unfold fill
    cases i with
    | zero =>
      obtain rfl := Option.some.inj h
      rw [hx]
      rfl
    | succ i =>
      rw [List.getElem?_cons_succ] at h
      split_ifs <;> exact ih h

theorem filter_fill {p : α → Bool} {xs members : List α} (hlength : members.length = (xs.filter p).length)
    (hmembers : ∀ member ∈ members, p member = true) : (fill p xs members).filter p = members := by
  induction xs generalizing members with
  | nil => exact (List.length_eq_zero_iff.mp hlength).symm
  | cons x xs ih =>
    unfold fill
    cases hx : p x with
    | false =>
      rw [List.filter_cons_of_neg (by simp [hx])] at hlength
      rw [if_neg Bool.false_ne_true, List.filter_cons_of_neg (by simp [hx]), ih hlength hmembers]
    | true =>
      rw [List.filter_cons_of_pos hx, List.length_cons] at hlength
      obtain ⟨member, members, rfl⟩ := List.exists_cons_of_length_eq_add_one hlength
      obtain ⟨hmember, hmembers⟩ := List.forall_mem_cons.mp hmembers
      rw [List.length_cons, Nat.add_right_cancel_iff] at hlength
      rw [if_pos rfl, List.head?_cons, Option.getD_some, List.tail_cons, List.filter_cons_of_pos hmember,
        ih hlength hmembers]

theorem filter_not_fill {p : α → Bool} {xs members : List α} (hmembers : ∀ member ∈ members, p member = true) :
    (fill p xs members).filter (fun x => !p x) = xs.filter fun x => !p x := by
  induction xs generalizing members with
  | nil => rfl
  | cons x xs ih =>
    unfold fill
    cases hx : p x with
    | false =>
      rw [if_neg Bool.false_ne_true, List.filter_cons_of_pos (by simp [hx]), ih hmembers,
        List.filter_cons_of_pos (by simp [hx])]
    | true =>
      have htail := ih (fun member hmember => hmembers member (List.mem_of_mem_tail hmember))
      have hhead : p (members.head?.getD x) = true := by
        cases members with
        | nil => exact hx
        | cons member members => exact hmembers member List.mem_cons_self
      rw [if_pos rfl, List.filter_cons_of_neg (by simp [hhead]), htail,
        List.filter_cons_of_neg (by simp [hx])]

/-- If the members are those of the list in another order, so is the whole. -/
theorem perm_fill {p : α → Bool} {xs members : List α} (h : members.Perm (xs.filter p)) :
    (fill p xs members).Perm xs := by
  have hmembers : ∀ member ∈ members, p member = true := fun member hmember =>
    List.of_mem_filter (h.mem_iff.mp hmember)
  refine (List.filter_append_perm p (fill p xs members)).symm.trans ?_
  rw [filter_fill h.length_eq hmembers, filter_not_fill hmembers]
  exact (h.append_right _).trans (List.filter_append_perm p xs)

theorem fill_self (p : α → Bool) (xs : List α) : fill p xs (xs.filter p) = xs := by
  induction xs with
  | nil => rfl
  | cons x xs ih =>
    unfold fill
    cases hx : p x with
    | false => rw [if_neg Bool.false_ne_true, List.filter_cons_of_neg (by simp [hx]), ih]
    | true =>
      rw [if_pos rfl, List.filter_cons_of_pos hx, List.head?_cons, Option.getD_some, List.tail_cons, ih]

/-! ### One element moved -/

/-- The list with its element at `source` taken out and put back at `target`, or at the end. -/
def move (xs : List α) (source target : ℕ) : List α :=
  match xs[source]? with
  | none => xs
  | some x =>
    let rest := xs.eraseIdx source
    rest.insertIdx (min target rest.length) x

theorem move_eq {xs : List α} {source : ℕ} {x : α} (h : xs[source]? = some x) (target : ℕ) :
    move xs source target = (xs.eraseIdx source).insertIdx (min target (xs.eraseIdx source).length) x := by
  unfold move
  rw [h]

theorem perm_move (xs : List α) (source target : ℕ) : (move xs source target).Perm xs := by
  cases h : xs[source]? with
  | none =>
    unfold move
    rw [h]
  | some x =>
    obtain ⟨hlt, rfl⟩ := List.getElem?_eq_some_iff.mp h
    rw [move_eq h]
    exact (List.perm_insertIdx _ _ (Nat.min_le_right _ _)).trans (List.getElem_cons_eraseIdx_perm hlt)

theorem filter_insertIdx {p : α → Bool} {x : α} (hx : p x = false) (xs : List α) (i : ℕ) :
    (xs.insertIdx i x).filter p = xs.filter p := by
  induction i generalizing xs with
  | zero => rw [List.insertIdx_zero, List.filter_cons_of_neg (by simp [hx])]
  | succ i ih =>
    cases xs with
    | nil => rfl
    | cons y xs => rw [List.insertIdx_succ_cons, List.filter_cons, ih, List.filter_cons]

theorem filter_eraseIdx {p : α → Bool} {xs : List α} {i : ℕ} {x : α} (h : xs[i]? = some x) (hx : p x = false) :
    (xs.eraseIdx i).filter p = xs.filter p := by
  induction xs generalizing i with
  | nil => rfl
  | cons y xs ih =>
    cases i with
    | zero =>
      obtain rfl := Option.some.inj h
      rw [List.eraseIdx_cons_zero, List.filter_cons_of_neg (by simp [hx])]
    | succ i => rw [List.eraseIdx_cons_succ, List.filter_cons, ih h, List.filter_cons]

/-- The others are where they were among themselves. -/
theorem filter_move {p : α → Bool} {xs : List α} {source : ℕ} {x : α} (h : xs[source]? = some x)
    (hx : p x = false) (target : ℕ) : (move xs source target).filter p = xs.filter p := by
  rw [move_eq h, filter_insertIdx hx, filter_eraseIdx h hx]

theorem map_move (f : α → β) (xs : List α) (source target : ℕ) :
    (move xs source target).map f = move (xs.map f) source target := by
  unfold move
  rw [List.getElem?_map]
  cases xs[source]? with
  | none => rfl
  | some x => simp only [Option.map_some, List.map_insertIdx, List.eraseIdx_map, List.length_map]

end Paneflow.Slots
