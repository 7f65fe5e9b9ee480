import Mathlib.Data.List.Basic

/-!
# Labelled paths and their replay

`Path step labels x y` says that the labels lead from the state `x` to the state `y`, one step each.
A path can be walked backwards (`Path.reverse`), and a machine that performs each label follows the
path (`Path.replay`): the states of the path are only what `view` shows of the machine's states, and
`ok` is whatever the machine needs to be able to move.
-/

namespace Paneflow.Trace

variable {L S D : Type*} {step step' : L → S → S → Prop}

def Path (step : L → S → S → Prop) : List L → S → S → Prop
  | [], x, y => x = y
  | l :: ls, x, z => ∃ y, step l x y ∧ Path step ls y z

theorem path_append {as bs : List L} {x z : S} :
    Path step (as ++ bs) x z ↔ ∃ y, Path step as x y ∧ Path step bs y z := by
  induction as generalizing x with
  | nil => simp [Path]
  | cons l as ih =>
    simp only [List.cons_append, Path, ih]
    constructor
    · rintro ⟨y, hl, w, has, hbs⟩
      exact ⟨w, ⟨y, hl, has⟩, hbs⟩
    · rintro ⟨w, ⟨y, hl, has⟩, hbs⟩
      exact ⟨y, hl, w, has, hbs⟩

theorem path_singleton {l : L} {x y : S} : Path step [l] x y ↔ step l x y := by
  simp [Path]

theorem path_concat {as : List L} {l : L} {x z : S} :
    Path step (as ++ [l]) x z ↔ ∃ y, Path step as x y ∧ step l y z := by
  simp only [path_append, path_singleton]

theorem Path.mono {ls : List L} {x y : S} (h : Path step ls x y)
    (hmono : ∀ l ∈ ls, ∀ x y, step l x y → step' l x y) : Path step' ls x y := by
  induction ls generalizing x with
  | nil => exact h
  | cons l ls ih =>
    obtain ⟨w, hl, hls⟩ := h
    exact ⟨w, hmono l (by simp) _ _ hl, ih hls fun l hl => hmono l (by simp [hl])⟩

theorem Path.reverse {ls : List L} {x y : S} (h : Path step ls x y) :
    Path (fun l a b => step l b a) ls.reverse y x := by
  induction ls generalizing x with
  | nil => exact h.symm
  | cons l ls ih =>
    obtain ⟨w, hl, hls⟩ := h
    rw [List.reverse_cons, path_concat]
    exact ⟨w, ih hls, hl⟩

/-- A machine that performs each label goes from the start of a path to its end. -/
theorem Path.replay (ok : D → Prop) (view : D → S) {f : D → L → D} {ls : List L} {x y : S}
    (h : Path step ls x y)
    (hf : ∀ d l x y, step l x y → ok d → view d = x → ok (f d l) ∧ view (f d l) = y) {d : D}
    (hok : ok d) (hd : view d = x) : ok (ls.foldl f d) ∧ view (ls.foldl f d) = y := by
  induction ls generalizing x d with
  | nil => exact ⟨hok, hd.trans h⟩
  | cons l ls ih =>
    obtain ⟨w, hl, hls⟩ := h
    obtain ⟨hok', hd'⟩ := hf d l x w hl hok hd
    exact ih hls hok' hd'

end Paneflow.Trace
