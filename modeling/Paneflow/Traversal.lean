import Mathlib.Data.List.Basic

/-!
# Visiting the items of a structure in their order

A step that visits the items of a structure one after the other, with a state, and may change each: `Visits` says that
it does to the items, and to the state, what the visits of the list of the items do, that it leaves the rest as it is,
and that it leaves everything as it is if it leaves the items. A list of such structures is one again (`Visits.list`).
-/

namespace Paneflow.Traversal

variable {α P X Y : Type*}

def visitList (step : X → P → X × P) : List X → P → List X × P
  | [], p => ([], p)
  | x :: xs, p =>
    let (x, p) := step x p
    let (xs, p) := visitList step xs p
    (x :: xs, p)

section
variable {step : X → P → X × P}

theorem length_visitList (step : X → P → X × P) (xs : List X) (p : P) : (visitList step xs p).1.length = xs.length := by
  induction xs generalizing p with
  | nil => rfl
  | cons x xs ih => exact congrArg (· + 1) (ih _)

theorem visitList_append (xs ys : List X) (p : P) :
    visitList step (xs ++ ys) p =
      ((visitList step xs p).1 ++ (visitList step ys (visitList step xs p).2).1,
        (visitList step ys (visitList step xs p).2).2) := by
  induction xs generalizing p with
  | nil => rfl
  | cons x xs ih =>
    rw [List.cons_append, visitList]
    dsimp only
    rw [ih]
    rfl

theorem getElem?_visitList (front : List X) (x : X) (rest : List X) (p : P) :
    (visitList step (front ++ x :: rest) p).1[front.length]? = some (step x (visitList step front p).2).1 := by
  have hlength := length_visitList step front p
  rw [visitList_append]
  dsimp only
  rw [List.getElem?_append_right (Nat.le_of_eq hlength), hlength, Nat.sub_self]
  rfl

end

/-- What the step does to a structure. -/
structure Visits (f : α → P → α × P) (items : X → List α) (shape : X → Y) (step : X → P → X × P) (x : X) : Prop where
  visited : ∀ p, items (step x p).1 = (visitList f (items x) p).1
  state : ∀ p, (step x p).2 = (visitList f (items x) p).2
  kept : ∀ p, shape (step x p).1 = shape x
  fixed : ∀ p, items (step x p).1 = items x → (step x p).1 = x

variable {f : α → P → α × P} {items : X → List α} {shape : X → Y} {step : X → P → X × P}

theorem Visits.length {x : X} (h : Visits f items shape step x) (p : P) :
    (items (step x p).1).length = (items x).length := by
  rw [h.visited, length_visitList]

theorem Visits.list {xs : List X} (h : ∀ x ∈ xs, Visits f items shape step x) :
    Visits f (List.flatMap items) (List.map shape) (visitList step) xs := by
  induction xs with
  | nil => exact ⟨fun p => rfl, fun p => rfl, fun p => rfl, fun p _ => rfl⟩
  | cons x xs ih =>
    obtain ⟨hfirst, hrest⟩ := List.forall_mem_cons.mp h
    have hlist := ih hrest
    have hstep : ∀ p, visitList step (x :: xs) p =
        ((step x p).1 :: (visitList step xs (step x p).2).1, (visitList step xs (step x p).2).2) := fun p => rfl
    refine ⟨fun p => ?_, fun p => ?_, fun p => ?_, fun p heq => ?_⟩
    · rw [hstep, List.flatMap_cons, List.flatMap_cons, visitList_append, hlist.visited, hfirst.visited, hfirst.state]
    · rw [hstep, List.flatMap_cons, visitList_append, hlist.state, hfirst.state]
    · rw [hstep, List.map_cons, List.map_cons, hlist.kept, hfirst.kept]
    · rw [hstep, List.flatMap_cons, List.flatMap_cons] at heq
      obtain ⟨hhead, htail⟩ := List.append_inj heq (hfirst.length p)
      rw [hstep, hfirst.fixed p hhead, hlist.fixed _ htail]

end Paneflow.Traversal
