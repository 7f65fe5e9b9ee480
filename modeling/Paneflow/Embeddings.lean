import Mathlib.Data.List.Forall2

/-!
# Where a list stands in another one

`Embeds f text needle items` says that the items are taken from the text in its order and that `f` makes the needle of
them. `pick` takes each item as soon as it can: it finds an embedding whenever there is one (`pick_embeds`), and none
of its items comes later than the same item of another embedding (`pick_first`).
-/

namespace Paneflow.Embeddings

variable {α β : Type*} {f : α → β} {text : List α} {needle : List β} {items : List α}

structure Embeds (f : α → β) (text : List α) (needle : List β) (items : List α) : Prop where
  sublist : items.Sublist text
  map : items.map f = needle

theorem embeds_iff : (∃ items, Embeds f text needle items) ↔ needle.Sublist (text.map f) := by
  rw [List.sublist_map_iff]
  constructor
  · rintro ⟨items, hsublist, hmap⟩
    exact ⟨items, hsublist, hmap.symm⟩
  · rintro ⟨items, hsublist, hmap⟩
    exact ⟨items, hsublist, hmap.symm⟩

theorem Embeds.reverse (h : Embeds f text needle items) : Embeds f text.reverse needle.reverse items.reverse :=
  ⟨h.sublist.reverse, by rw [List.map_reverse, h.map]⟩

theorem Embeds.mono {more : List α} (h : Embeds f text needle items) (hmore : text.Sublist more) :
    Embeds f more needle items :=
  ⟨h.sublist.trans hmore, h.map⟩

/-- What is not wanted first is passed over. -/
theorem cons_sublist_of_ne {x y : β} {xs ys : List β} (h : y ≠ x) :
    (x :: xs).Sublist (y :: ys) ↔ (x :: xs).Sublist ys := by
  refine ⟨fun hsublist => ?_, fun hsublist => hsublist.cons _⟩
  cases hsublist with
  | cons _ hsublist => exact hsublist
  | cons_cons _ _ => exact absurd rfl h

variable [DecidableEq β]

def pick (f : α → β) : List α → List β → List α
  | x :: xs, wanted :: needle => if f x = wanted then x :: pick f xs needle else pick f xs (wanted :: needle)
  | _, _ => []

theorem pick_embeds (h : needle.Sublist (text.map f)) : Embeds f text needle (pick f text needle) := by
  induction text generalizing needle with
  | nil =>
    rw [List.map_nil, List.sublist_nil] at h
    subst h
    exact ⟨.slnil, rfl⟩
  | cons x xs ih =>
    cases needle with
    | nil => exact ⟨List.nil_sublist _, rfl⟩
    | cons wanted needle =>
      rw [List.map_cons] at h
      unfold pick
      split_ifs with hwanted
      · rw [hwanted, List.cons_sublist_cons] at h
        obtain ⟨hsublist, hmap⟩ := ih h
        exact ⟨hsublist.cons_cons x, by rw [List.map_cons, hmap, hwanted]⟩
      · exact (ih ((cons_sublist_of_ne hwanted).mp h)).mono (List.sublist_cons_self x xs)

theorem pick_first {r : α → α → Prop} (hr : text.Pairwise r) (h : Embeds f text needle items) :
    List.Forall₂ (fun mine other => mine = other ∨ r mine other) (pick f text needle) items := by
  induction text generalizing needle items with
  | nil =>
    obtain rfl := List.sublist_nil.mp h.sublist
    exact .nil
  | cons x xs ih =>
    obtain ⟨hfirst, hrest⟩ := List.pairwise_cons.mp hr
    cases items with
    | nil =>
      obtain rfl : [] = needle := h.map
      exact .nil
    | cons item items =>
      obtain rfl : f item :: items.map f = needle := h.map
      unfold pick
      split_ifs with hwanted
      · cases h.sublist with
        | cons _ hsublist =>
          -- the other embedding leaves `x` out
          refine .cons (Or.inr (hfirst item (hsublist.subset List.mem_cons_self))) ?_
          exact ih hrest ⟨(List.sublist_cons_self item items).trans hsublist, rfl⟩
        | cons_cons _ hsublist => exact .cons (Or.inl rfl) (ih hrest ⟨hsublist, rfl⟩)
      · cases h.sublist with
        | cons _ hsublist => exact ih hrest ⟨hsublist, rfl⟩
        | cons_cons _ _ => exact absurd rfl hwanted

end Paneflow.Embeddings
