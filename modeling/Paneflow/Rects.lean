import Mathlib

/-!
# Tilings by rectangles

Rectangles with sides along the axes, over an ordered field, and lists of them that tile a rectangle:
each lies inside, they do not overlap and their areas add up. A tiling of each of two parts of a
rectangle is a tiling of the rectangle (`Tiles.append`), and which sides a rectangle touches is decided
part by part (`touching_trans`).
-/

namespace Paneflow.Rects

/-- The rectangle with the corner `(x, y)`, the width `w` and the height `h`. -/
structure Rect (α : Type) where
  x : α
  y : α
  w : α
  h : α
  deriving DecidableEq

/-- One value for each side of a rectangle. -/
structure Edges (β : Type) where
  top : β
  right : β
  bottom : β
  left : β
  deriving DecidableEq

variable {α : Type} [Field α] [LinearOrder α]

def Rect.area (r : Rect α) : α := r.w * r.h

def Rect.interior (r : Rect α) : Set (α × α) :=
  {p | r.x < p.1 ∧ p.1 < r.x + r.w ∧ r.y < p.2 ∧ p.2 < r.y + r.h}

/-- A rectangle that lies inside another. -/
structure Rect.Inside (r outer : Rect α) : Prop where
  left : outer.x ≤ r.x
  right : r.x + r.w ≤ outer.x + outer.w
  top : outer.y ≤ r.y
  bottom : r.y + r.h ≤ outer.y + outer.h

theorem Rect.Inside.refl (r : Rect α) : r.Inside r :=
  ⟨le_rfl, le_rfl, le_rfl, le_rfl⟩

theorem Rect.Inside.trans {r part outer : Rect α} (h : r.Inside part) (h' : part.Inside outer) :
    r.Inside outer :=
  ⟨h'.left.trans h.left, h.right.trans h'.right, h'.top.trans h.top, h.bottom.trans h'.bottom⟩

theorem Rect.Inside.interior_subset {r outer : Rect α} (h : r.Inside outer) :
    r.interior ⊆ outer.interior :=
  fun _ ⟨hl, hr, ht, hb⟩ =>
    ⟨h.left.trans_lt hl, hr.trans_le h.right, h.top.trans_lt ht, hb.trans_le h.bottom⟩

/-- The sides on which `r` touches `outer`. -/
def Rect.touching (r outer : Rect α) : Edges Bool where
  top := decide (r.y = outer.y)
  right := decide (r.x + r.w = outer.x + outer.w)
  bottom := decide (r.y + r.h = outer.y + outer.h)
  left := decide (r.x = outer.x)

/-- The sides of both. -/
def Edges.and (a b : Edges Bool) : Edges Bool :=
  ⟨a.top && b.top, a.right && b.right, a.bottom && b.bottom, a.left && b.left⟩

/-- Equality across a chain is equality at both of its links. -/
theorem decide_eq_and {β : Type} [LinearOrder β] {a b c : β} (h : a ≤ b) (h' : b ≤ c) :
    decide (a = c) = (decide (b = c) && decide (a = b)) := by
  rw [Bool.eq_iff_iff, Bool.and_eq_true, decide_eq_true_iff, decide_eq_true_iff, decide_eq_true_iff]
  constructor
  · rintro rfl
    have hab := le_antisymm h h'
    exact ⟨hab.symm, hab⟩
  · rintro ⟨rfl, rfl⟩
    rfl

/-- A rectangle in a part of `outer` touches the sides that it and the part both reach. -/
theorem touching_trans {r part outer : Rect α} (h : r.Inside part) (h' : part.Inside outer) :
    r.touching outer = (part.touching outer).and (r.touching part) := by
  unfold Rect.touching Edges.and
  simp only [Edges.mk.injEq]
  refine ⟨?_, decide_eq_and h.right h'.right, decide_eq_and h.bottom h'.bottom, ?_⟩
  · simpa only [eq_comm, Bool.and_comm] using decide_eq_and h'.top h.top
  · simpa only [eq_comm, Bool.and_comm] using decide_eq_and h'.left h.left

/-- The rectangles of positive size that fill `outer` and do not overlap. -/
structure Tiles (outer : Rect α) (rects : List (Rect α)) : Prop where
  inside : ∀ r ∈ rects, r.Inside outer
  pos : ∀ r ∈ rects, 0 < r.w ∧ 0 < r.h
  apart : rects.Pairwise fun r s => Disjoint r.interior s.interior
  area : (rects.map Rect.area).sum = outer.area

theorem Tiles.single {r : Rect α} (hw : 0 < r.w) (hh : 0 < r.h) : Tiles r [r] :=
  ⟨by simpa using .refl r, by simpa using ⟨hw, hh⟩, by simp, by simp⟩

/-- Two parts of a rectangle, each of them tiled. -/
theorem Tiles.append {outer a b : Rect α} {as bs : List (Rect α)} (ha : Tiles a as) (hb : Tiles b bs)
    (hina : a.Inside outer) (hinb : b.Inside outer) (hapart : Disjoint a.interior b.interior)
    (harea : a.area + b.area = outer.area) : Tiles outer (as ++ bs) := by
  constructor
  · intro r hr
    rcases List.mem_append.1 hr with hr | hr
    · exact (ha.inside r hr).trans hina
    · exact (hb.inside r hr).trans hinb
  · intro r hr
    rcases List.mem_append.1 hr with hr | hr
    · exact ha.pos r hr
    · exact hb.pos r hr
  · refine List.pairwise_append.2 ⟨ha.apart, hb.apart, fun r hr s hs => ?_⟩
    exact hapart.mono (ha.inside r hr).interior_subset (hb.inside s hs).interior_subset
  · rw [List.map_append, List.sum_append, ha.area, hb.area, harea]

/-! ### Bands -/

variable [IsStrictOrderedRing α]

/-- The part of `r` of the width `len`, `offset` from the left. -/
def Rect.column (r : Rect α) (offset len : α) : Rect α := ⟨r.x + offset, r.y, len, r.h⟩

/-- The part of `r` of the height `len`, `offset` from the top. -/
def Rect.row (r : Rect α) (offset len : α) : Rect α := ⟨r.x, r.y + offset, r.w, len⟩

theorem Rect.column_inside (r : Rect α) {offset len : α} (h0 : 0 ≤ offset) (h1 : offset + len ≤ r.w) :
    (r.column offset len).Inside r :=
  ⟨by simpa [column] using h0, by simp only [column]; linarith, le_rfl, le_rfl⟩

theorem Rect.row_inside (r : Rect α) {offset len : α} (h0 : 0 ≤ offset) (h1 : offset + len ≤ r.h) :
    (r.row offset len).Inside r :=
  ⟨le_rfl, le_rfl, by simpa [row] using h0, by simp only [row]; linarith⟩

/-- A column and what is tiled to the right of it. -/
theorem Tiles.columns {r : Rect α} {offset a b : α} {as bs : List (Rect α)}
    (ha : Tiles (r.column offset a) as) (hb : Tiles (r.column (offset + a) b) bs) (hpa : 0 ≤ a)
    (hpb : 0 ≤ b) : Tiles (r.column offset (a + b)) (as ++ bs) := by
  refine ha.append hb ⟨le_rfl, ?_, le_rfl, le_rfl⟩ ⟨?_, ?_, le_rfl, le_rfl⟩ ?_ ?_
  · simp only [Rect.column]; linarith
  · simp only [Rect.column]; linarith
  · simp only [Rect.column]; linarith
  · rw [Set.disjoint_left]
    rintro p ⟨-, hr, -, -⟩ ⟨hl, -, -, -⟩
    simp only [Rect.column] at hl hr
    linarith
  · simp only [Rect.area, Rect.column]; ring

/-- A row and what is tiled below it. -/
theorem Tiles.rows {r : Rect α} {offset a b : α} {as bs : List (Rect α)}
    (ha : Tiles (r.row offset a) as) (hb : Tiles (r.row (offset + a) b) bs) (hpa : 0 ≤ a)
    (hpb : 0 ≤ b) : Tiles (r.row offset (a + b)) (as ++ bs) := by
  refine ha.append hb ⟨le_rfl, le_rfl, le_rfl, ?_⟩ ⟨le_rfl, le_rfl, ?_, ?_⟩ ?_ ?_
  · simp only [Rect.row]; linarith
  · simp only [Rect.row]; linarith
  · simp only [Rect.row]; linarith
  · rw [Set.disjoint_left]
    rintro p ⟨-, -, -, hb⟩ ⟨-, -, ht, -⟩
    simp only [Rect.row] at ht hb
    linarith
  · simp only [Rect.area, Rect.row]; ring

theorem Rect.touching_column (r : Rect α) (offset len : α) :
    (r.column offset len).touching r =
      ⟨true, decide (offset + len = r.w), true, decide (offset = 0)⟩ := by
  simp only [touching, column, add_assoc, add_eq_left, add_right_inj, decide_true]

theorem Rect.touching_row (r : Rect α) (offset len : α) :
    (r.row offset len).touching r =
      ⟨decide (offset = 0), true, decide (offset + len = r.h), true⟩ := by
  simp only [touching, row, add_assoc, add_eq_left, add_right_inj, decide_true]

end Paneflow.Rects
