import Mathlib.Data.List.Induction
import Mathlib.Data.List.Perm.Basic
import Mathlib.Data.List.Sort
import Mathlib.Tactic.Common

/-!
# Tables of the best

A table of fixed length keeps the best of the items that are offered to it: an item takes the place of the worst one in
the table when that is worse. `worse` is any strict weak order. `offered_spec` says that what was dropped on the way is
nowhere better than what the table has.
-/

namespace Paneflow.Table

variable {α : Type}

theorem set_perm {xs : List α} {index : ℕ} {x : α} (h : xs[index]? = some x) (y : α) :
    ∃ others, xs.Perm (x :: others) ∧ (xs.set index y).Perm (y :: others) := by
  obtain ⟨hlt, hget⟩ := List.getElem?_eq_some_iff.1 h
  refine ⟨xs.take index ++ xs.drop (index + 1), ?_, ?_⟩
  · calc xs.Perm (xs.take index ++ xs.drop index) := by rw [List.take_append_drop]
      _ = xs.take index ++ x :: xs.drop (index + 1) := by rw [List.drop_eq_getElem_cons hlt, hget]
      _ |>.Perm (x :: (xs.take index ++ xs.drop (index + 1))) := List.perm_middle
  · rw [List.set_eq_take_append_cons_drop, if_pos hlt]
    exact List.perm_middle

/-- A strict weak order. -/
structure Weak (worse : α → α → Bool) : Prop where
  irrefl : ∀ a, worse a a = false
  trans : ∀ a b c, worse a b = true → worse b c = true → worse a c = true
  incomp : ∀ a b c, worse a b = false → worse b c = false → worse a c = false

theorem Weak.pairwise_insertionSort {worse : α → α → Bool} (h : Weak worse) (xs : List α) :
    (xs.insertionSort fun a b => worse a b = false).Pairwise fun a b => worse a b = false := by
  have htrans : IsTrans α fun a b => worse a b = false := ⟨h.incomp⟩
  have htotal : Std.Total fun a b => worse a b = false := by
    refine ⟨fun a b => ?_⟩
    by_contra hboth
    rw [not_or, Bool.not_eq_false, Bool.not_eq_false] at hboth
    have hself := h.trans a b a hboth.1 hboth.2
    rw [h.irrefl] at hself
    exact Bool.false_ne_true hself
  exact List.pairwise_insertionSort _ xs

section
variable (worse : α → α → Bool)

/-- The index of the worst item, the first one of these, with the items behind the index still to be looked at. -/
def worstFrom : List α → ℕ → ℕ → α → ℕ
  | [], _, worst, _ => worst
  | x :: xs, index, worst, item =>
    if worse x item then worstFrom xs (index + 1) index x else worstFrom xs (index + 1) worst item

/-- The worst item of the table gives way to a better one. -/
def keepIfBetter (kept : List α) (x : α) : List α :=
  match kept with
  | [] => []
  | first :: rest =>
    let worst := worstFrom worse rest 1 0 first
    match kept[worst]? with
    | some item => if worse item x then kept.set worst x else kept
    | none => kept

end

variable {worse : α → α → Bool}

theorem worstFrom_spec (hweak : Weak worse) (kept xs : List α) (index worst : ℕ) (item : α)
    (hrest : kept.drop index = xs) (hitem : kept[worst]? = some item)
    (hworst : ∀ i < index, ∀ x, kept[i]? = some x → worse x item = false) :
    ∃ last, kept[worstFrom worse xs index worst item]? = some last ∧ ∀ x ∈ kept, worse x last = false := by
  induction xs generalizing index worst item with
  | nil =>
    refine ⟨item, hitem, fun x hx => ?_⟩
    obtain ⟨i, hi⟩ := List.getElem?_of_mem hx
    have hlength := List.drop_eq_nil_iff.1 hrest
    have hlt := (List.getElem?_eq_some_iff.1 hi).1
    exact hworst i (by omega) x hi
  | cons x xs ih =>
    have hx : kept[index]? = some x := by
      rw [← List.head?_drop, hrest, List.head?_cons]
    have hnext : kept.drop (index + 1) = xs := by
      rw [← List.drop_drop, hrest, List.drop_one, List.tail_cons]
    unfold worstFrom
    split_ifs with hworse
    · refine ih _ _ _ hnext hx fun i hi y hy => ?_
      rcases Nat.lt_succ_iff_lt_or_eq.1 hi with hlt | rfl
      · have hy' := hworst i hlt y hy
        -- otherwise `y` would be worse than the item before
        by_contra hyx
        have hyx : worse y x = true := by simpa using hyx
        exact absurd (hweak.trans y x item hyx hworse) (by rw [hy']; exact Bool.false_ne_true)
      · obtain rfl : x = y := Option.some.inj (hx.symm.trans hy)
        exact hweak.irrefl x
    · refine ih _ _ _ hnext hitem fun i hi y hy => ?_
      rcases Nat.lt_succ_iff_lt_or_eq.1 hi with hlt | rfl
      · exact hworst i hlt y hy
      · obtain rfl : x = y := Option.some.inj (hx.symm.trans hy)
        simpa using hworse

theorem length_keepIfBetter (kept : List α) (x : α) : (keepIfBetter worse kept x).length = kept.length := by
  unfold keepIfBetter
  split
  · rfl
  · dsimp only
    split
    · split_ifs
      · exact List.length_set
      · rfl
    · rfl

theorem length_foldl_keepIfBetter (start xs : List α) :
    (xs.foldl (keepIfBetter worse) start).length = start.length := by
  induction xs generalizing start with
  | nil => rfl
  | cons x xs ih => rw [List.foldl_cons, ih, length_keepIfBetter]

/-- An item is kept for the worst one, or dropped. -/
theorem keepIfBetter_cases (hweak : Weak worse) (kept : List α) (x : α) :
    (keepIfBetter worse kept x = kept ∧ ∀ item ∈ kept, worse item x = false) ∨
    ∃ last others, kept.Perm (last :: others) ∧ (keepIfBetter worse kept x).Perm (x :: others) ∧
      worse last x = true ∧ ∀ item ∈ kept, worse item last = false := by
  cases kept with
  | nil => exact .inl ⟨rfl, fun item hitem => absurd hitem List.not_mem_nil⟩
  | cons first rest =>
    have hfirst : ∀ i < 1, ∀ y, (first :: rest)[i]? = some y → worse y first = false := by
      intro i hi y hy
      obtain rfl : i = 0 := by omega
      obtain rfl : first = y := Option.some.inj hy
      exact hweak.irrefl first
    obtain ⟨last, hlast, hworst⟩ := worstFrom_spec hweak (first :: rest) rest 1 0 first rfl rfl hfirst
    have hkeep : keepIfBetter worse (first :: rest) x =
        if worse last x then (first :: rest).set (worstFrom worse rest 1 0 first) x else first :: rest := by
      unfold keepIfBetter
      dsimp only
      rw [hlast]
    rw [hkeep]
    by_cases hbetter : worse last x = true
    · obtain ⟨others, hperm, hset⟩ := set_perm hlast x
      rw [if_pos hbetter]
      exact .inr ⟨last, others, hperm, hset, hbetter, hworst⟩
    · rw [if_neg hbetter]
      refine .inl ⟨rfl, fun item hitem => ?_⟩
      exact hweak.incomp item last x (hworst item hitem) (by simpa using hbetter)

/-- **What a table keeps** of the items that are offered: with what it drops it is all items, and what it drops is no
better than what it keeps. -/
theorem offered_spec (hweak : Weak worse) (start xs : List α) :
    ∃ dropped, (xs.foldl (keepIfBetter worse) start ++ dropped).Perm (start ++ xs) ∧
      ∀ out ∈ dropped, ∀ item ∈ xs.foldl (keepIfBetter worse) start, worse item out = false := by
  induction xs using List.reverseRecOn with
  | nil => exact ⟨[], .refl _, fun out hout => absurd hout List.not_mem_nil⟩
  | append_singleton xs x ih =>
    obtain ⟨dropped, hperm, hbest⟩ := ih
    rw [List.foldl_append, List.foldl_cons, List.foldl_nil]
    generalize xs.foldl (keepIfBetter worse) start = kept at *
    have hall : (x :: (kept ++ dropped)).Perm (start ++ (xs ++ [x])) := by
      rw [← List.append_assoc]
      exact (hperm.cons x).trans (List.perm_append_singleton x (start ++ xs)).symm
    rcases keepIfBetter_cases hweak kept x with ⟨hkeep, hworse⟩ | ⟨last, others, hkept, hkeep, hbetter, hworst⟩
    · rw [hkeep]
      refine ⟨x :: dropped, List.perm_middle.trans hall, ?_⟩
      intro out hout item hitem
      rcases List.mem_cons.1 hout with rfl | hout
      · exact hworse item hitem
      · exact hbest out hout item hitem
    · have hlast : last ∈ kept := hkept.symm.subset List.mem_cons_self
      have hothers : ∀ item ∈ others, item ∈ kept := fun item h => hkept.symm.subset (List.mem_cons_of_mem _ h)
      refine ⟨last :: dropped, ?_, ?_⟩
      · have hswap : (x :: others ++ last :: dropped).Perm (x :: (kept ++ dropped)) := by
          refine List.Perm.cons x ?_
          exact List.perm_middle.trans (hkept.symm.append_right dropped)
        exact ((hkeep.append_right _).trans hswap).trans hall
      · intro out hout item hitem
        rcases List.mem_cons.1 (hkeep.subset hitem) with rfl | hitem
        · -- an item that was better than the worst one is not worse than what was dropped before
          rcases List.mem_cons.1 hout with rfl | hout
          · by_contra hworse
            have hworse : worse item out = true := by simpa using hworse
            have hself := hweak.trans out item out hbetter hworse
            rw [hweak.irrefl] at hself
            exact Bool.false_ne_true hself
          · by_contra hworse
            have hworse : worse item out = true := by simpa using hworse
            have hlastOut := hweak.trans last item out hbetter hworse
            rw [hbest out hout last hlast] at hlastOut
            exact Bool.false_ne_true hlastOut
        · rcases List.mem_cons.1 hout with rfl | hout
          · exact hworst item (hothers item hitem)
          · exact hbest out hout item (hothers item hitem)

end Paneflow.Table
