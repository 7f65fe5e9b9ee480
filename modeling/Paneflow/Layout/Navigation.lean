import Paneflow.Layout.Tree
import Paneflow.Rects

/-!
# The rectangles of the docked leaves

`collect_leaf_rects` of layout/navigation.rs and `docked_leaf_edges` of layout/queries.rs. Both leave the
detached panes out and walk the rest of the tree, one with bounds that it shares out by the ratios, the
other with flags for the outer edges. Over positive rational ratios the rectangles tile the bounds, and
the flags of a leaf say where its rectangle touches them (`docked_leaves`).
-/

namespace Paneflow.Layout.Navigation

open Paneflow.Layout.Tree Paneflow.Rects

variable {Pane : Type}

def hasDockedPanes (isDetached : Pane → Bool) (tree : LayoutTree Pane) : Bool :=
  tree.anyLeaf fun pane => !isDetached pane

/-- The children that are left when those without a docked pane are filtered out. -/
def dockedChildren (isDetached : Pane → Bool) (children : List (LayoutChild Pane)) :
    List (LayoutChild Pane) :=
  children.filter fun child => hasDockedPanes isDetached child.node

/-! ### Rectangles -/

structure LeafRect (Pane : Type) where
  pane : Pane
  bounds : Rect ℚ

def ratioSum (children : List (LayoutChild Pane)) : ℚ :=
  ((children.map LayoutChild.ratio).filter fun ratio => 0 < ratio).sum

def childFraction (ratio : ℚ) (sum fallback : ℚ) : ℚ :=
  if sum ≤ 0 then fallback else if 0 < ratio then ratio / sum else 0

/-- The part of the bounds that a child of the given fraction gets. -/
def childBounds (direction : SplitDirection) (bounds : Rect ℚ) (offset fraction : ℚ) : Rect ℚ :=
  match direction with
  | .horizontal => bounds.row offset (bounds.h * fraction)
  | .vertical => bounds.column offset (bounds.w * fraction)

/-- How far the offset moves over a child of the given fraction. -/
def advance (direction : SplitDirection) (bounds : Rect ℚ) (fraction : ℚ) : ℚ :=
  match direction with
  | .horizontal => bounds.h * fraction
  | .vertical => bounds.w * fraction

mutual

def collectLeafRects (isDetached : Pane → Bool) (bounds : Rect ℚ) :
    LayoutTree Pane → List (LeafRect Pane)
  | .leaf pane => if hasDockedPanes isDetached (.leaf pane) then [⟨pane, bounds⟩] else []
  | .container direction children drag containerSize =>
    if hasDockedPanes isDetached (.container direction children drag containerSize) then
      let docked := dockedChildren isDetached children
      if docked.isEmpty then []
      else
        collectChildRects isDetached direction bounds (ratioSum docked) (1 / docked.length) children 0
    else []

/-- The loop over the docked children, with the sum of their ratios and the fallback. -/
def collectChildRects (isDetached : Pane → Bool) (direction : SplitDirection) (bounds : Rect ℚ)
    (sum fallback : ℚ) : List (LayoutChild Pane) → ℚ → List (LeafRect Pane)
  | [], _ => []
  | ⟨node, ratio⟩ :: children, offset =>
    if hasDockedPanes isDetached node then
      let fraction := childFraction ratio sum fallback
      collectLeafRects isDetached (childBounds direction bounds offset fraction) node ++
        collectChildRects isDetached direction bounds sum fallback children
          (offset + advance direction bounds fraction)
    else collectChildRects isDetached direction bounds sum fallback children offset

end

/-! ### Edges -/

def childEdges (parent : Edges Bool) (direction : SplitDirection) (first last : Bool) : Edges Bool :=
  match direction with
  | .vertical => { parent with left := parent.left && first, right := parent.right && last }
  | .horizontal => { parent with top := parent.top && first, bottom := parent.bottom && last }

mutual

/-- What `docked_leaf_edges` visits, in order. -/
def dockedLeafEdges (isDetached : Pane → Bool) (edges : Edges Bool) :
    LayoutTree Pane → List (Pane × Edges Bool)
  | .leaf pane => if isDetached pane then [] else [(pane, edges)]
  | .container direction children _ _ =>
    let docked := dockedChildren isDetached children
    dockedChildEdges isDetached edges direction (docked.length - 1) children 0

/-- The loop over the docked children, with the index of the last. -/
def dockedChildEdges (isDetached : Pane → Bool) (edges : Edges Bool) (direction : SplitDirection)
    (last : ℕ) : List (LayoutChild Pane) → ℕ → List (Pane × Edges Bool)
  | [], _ => []
  | ⟨node, _⟩ :: children, index =>
    if hasDockedPanes isDetached node then
      dockedLeafEdges isDetached (childEdges edges direction (index = 0) (index = last)) node ++
        dockedChildEdges isDetached edges direction last children (index + 1)
    else dockedChildEdges isDetached edges direction last children index

end

/-- All ratios of a tree are positive. -/
inductive PosRatios : LayoutTree Pane → Prop
  | leaf (pane : Pane) : PosRatios (.leaf pane)
  | container {d : SplitDirection} {children : List (LayoutChild Pane)} {drag : Option DragState}
    {size : ℚ} : (∀ c ∈ children, 0 < c.ratio) → (∀ c ∈ children, PosRatios c.node) →
    PosRatios (.container d children drag size)

theorem PosRatios.inv {d : SplitDirection} {children : List (LayoutChild Pane)}
    {drag : Option DragState} {size : ℚ} (h : PosRatios (.container d children drag size)) :
    (∀ c ∈ children, 0 < c.ratio) ∧ ∀ c ∈ children, PosRatios c.node := by
  cases h with
  | container hpos hc => exact ⟨hpos, hc⟩

section
variable {isDetached : Pane → Bool}

/-! ### Docked children -/

theorem hasDockedPanes_iff {tree : LayoutTree Pane} :
    hasDockedPanes isDetached tree = true ↔ ∃ pane ∈ tree.collectLeaves, isDetached pane = false := by
  unfold hasDockedPanes
  rw [anyLeaf_eq]
  simp

/-- A tree without docked panes has no leaf that passes the filter. -/
theorem filter_docked_eq_nil {tree : LayoutTree Pane} (h : hasDockedPanes isDetached tree = false) :
    tree.collectLeaves.filter (fun pane => !isDetached pane) = [] := by
  rw [List.filter_eq_nil_iff]
  intro pane hmem hp
  have := hasDockedPanes_iff.2 ⟨pane, hmem, by simpa using hp⟩
  rw [h] at this
  exact absurd this (by decide)

theorem dockedChildren_cons (c : LayoutChild Pane) (children : List (LayoutChild Pane)) :
    dockedChildren isDetached (c :: children) =
      if hasDockedPanes isDetached c.node then c :: dockedChildren isDetached children
      else dockedChildren isDetached children := by
  unfold dockedChildren
  rw [List.filter_cons]

theorem hasDockedPanes_container {direction : SplitDirection} {children : List (LayoutChild Pane)}
    {drag : Option DragState} {size : ℚ} :
    hasDockedPanes isDetached (.container direction children drag size) = false ↔
      dockedChildren isDetached children = [] := by
  unfold dockedChildren
  rw [List.filter_eq_nil_iff, ← Bool.not_eq_true, hasDockedPanes_iff, collectLeaves_container]
  constructor
  · intro h c hc hdocked
    obtain ⟨pane, hp, hpane⟩ := hasDockedPanes_iff.1 hdocked
    exact h ⟨pane, mem_leavesOf.2 ⟨c, hc, hp⟩, hpane⟩
  · rintro h ⟨pane, hp, hpane⟩
    obtain ⟨c, hc, hp⟩ := mem_leavesOf.1 hp
    exact h c hc (hasDockedPanes_iff.2 ⟨pane, hp, hpane⟩)

theorem ratioSum_of_pos {children : List (LayoutChild Pane)} (hpos : ∀ c ∈ children, 0 < c.ratio) :
    ratioSum children = (children.map LayoutChild.ratio).sum := by
  unfold ratioSum
  rw [List.filter_eq_self.2]
  simpa using hpos

/-- The share of the docked children of a list in the sum of the ratios. -/
def share (isDetached : Pane → Bool) (sum : ℚ) (children : List (LayoutChild Pane)) : ℚ :=
  ((dockedChildren isDetached children).map LayoutChild.ratio).sum / sum

theorem share_cons (sum : ℚ) (c : LayoutChild Pane) (children : List (LayoutChild Pane)) :
    share isDetached sum (c :: children) =
      if hasDockedPanes isDetached c.node then c.ratio / sum + share isDetached sum children
      else share isDetached sum children := by
  unfold share
  rw [dockedChildren_cons]
  split_ifs
  · rw [List.map_cons, List.sum_cons, add_div]
  · rfl

/-- Docked children have a positive share as long as there are any. -/
theorem share_spec {sum : ℚ} (hsum : 0 < sum) {children : List (LayoutChild Pane)}
    (hpos : ∀ c ∈ children, 0 < c.ratio) :
    (dockedChildren isDetached children = [] → share isDetached sum children = 0) ∧
      (dockedChildren isDetached children ≠ [] → 0 < share isDetached sum children) := by
  constructor
  · intro hnil
    unfold share
    rw [hnil]
    simp
  · intro hne
    refine div_pos (List.sum_pos _ ?_ (by simpa using hne)) hsum
    intro ratio hratio
    obtain ⟨c, hc, rfl⟩ := List.mem_map.1 hratio
    exact hpos c (List.mem_of_mem_filter hc)

theorem share_nonneg {sum : ℚ} (hsum : 0 < sum) {children : List (LayoutChild Pane)}
    (hpos : ∀ c ∈ children, 0 < c.ratio) : 0 ≤ share isDetached sum children := by
  by_cases hnil : dockedChildren isDetached children = []
  · exact ((share_spec hsum hpos).1 hnil).ge
  · exact ((share_spec hsum hpos).2 hnil).le

theorem childFraction_of_pos {ratio sum : ℚ} (hsum : 0 < sum) (hratio : 0 < ratio) (fallback : ℚ) :
    childFraction ratio sum fallback = ratio / sum := by
  unfold childFraction
  rw [if_neg hsum.not_ge, if_pos hratio]

/-! ### One rectangle for each docked leaf -/

theorem collectChildRects_none (direction : SplitDirection) (bounds : Rect ℚ) (sum fallback : ℚ)
    {children : List (LayoutChild Pane)} (h : dockedChildren isDetached children = []) (offset : ℚ) :
    collectChildRects isDetached direction bounds sum fallback children offset = [] := by
  induction children with
  | nil => simp [collectChildRects]
  | cons c children ih =>
    obtain ⟨node, ratio⟩ := c
    rw [dockedChildren_cons] at h
    split_ifs at h with hdocked
    unfold collectChildRects
    rw [if_neg hdocked, ih h]

/-- Without its early returns, a container is its loop. -/
theorem collectLeafRects_container (bounds : Rect ℚ) (direction : SplitDirection)
    (children : List (LayoutChild Pane)) (drag : Option DragState) (size : ℚ) :
    collectLeafRects isDetached bounds (.container direction children drag size) =
      collectChildRects isDetached direction bounds (ratioSum (dockedChildren isDetached children))
        (1 / (dockedChildren isDetached children).length) children 0 := by
  unfold collectLeafRects
  by_cases hnil : dockedChildren isDetached children = []
  · rw [if_neg (by simp [hasDockedPanes_container.2 hnil]), collectChildRects_none _ _ _ _ hnil]
  · have hdocked : hasDockedPanes isDetached (.container direction children drag size) = true := by
      rw [← Bool.not_eq_false, hasDockedPanes_container]
      exact hnil
    rw [if_pos hdocked]
    dsimp only
    rw [if_neg (by simpa using hnil)]

theorem panes_collectChildRects {children : List (LayoutChild Pane)}
    (ih : ∀ c ∈ children, ∀ bounds, (collectLeafRects isDetached bounds c.node).map LeafRect.pane =
      c.node.collectLeaves.filter fun pane => !isDetached pane)
    (direction : SplitDirection) (bounds : Rect ℚ) (sum fallback offset : ℚ) :
    (collectChildRects isDetached direction bounds sum fallback children offset).map LeafRect.pane =
      (leavesOf children).filter fun pane => !isDetached pane := by
  induction children generalizing offset with
  | nil => simp [collectChildRects]
  | cons c children ihc =>
    obtain ⟨node, ratio⟩ := c
    have hrest := ihc fun c hc => ih c (List.mem_cons_of_mem _ hc)
    unfold collectChildRects
    rw [leavesOf_cons, List.filter_append]
    by_cases hdocked : hasDockedPanes isDetached node = true
    · rw [if_pos hdocked, List.map_append, ih _ List.mem_cons_self, hrest]
    · rw [if_neg hdocked, hrest, filter_docked_eq_nil (by simpa using hdocked), List.nil_append]

theorem panes_collectLeafRects (bounds : Rect ℚ) (tree : LayoutTree Pane) :
    (collectLeafRects isDetached bounds tree).map LeafRect.pane =
      tree.collectLeaves.filter fun pane => !isDetached pane := by
  induction tree using LayoutTree.induction generalizing bounds with
  | leaf pane =>
    unfold collectLeafRects
    by_cases hdocked : isDetached pane = true
    · rw [if_neg (by simp [hasDockedPanes_iff, hdocked])]
      simp [hdocked]
    · rw [if_pos (by simp [hasDockedPanes_iff, hdocked])]
      simp [hdocked]
  | container direction children drag size ih =>
    rw [collectLeafRects_container, collectLeaves_container]
    exact panes_collectChildRects (fun c hc bounds => ih c hc bounds) _ _ _ _ _

/-! ### The rectangles tile the bounds -/

/-- The tiled bounds of a child and of what comes behind it. -/
theorem tiles_childBounds {direction : SplitDirection} {bounds : Rect ℚ} {offset a b : ℚ}
    {as bs : List (Rect ℚ)} (hw : 0 < bounds.w) (hh : 0 < bounds.h) (hpa : 0 ≤ a) (hpb : 0 ≤ b)
    (ha : Tiles (childBounds direction bounds offset a) as)
    (hb : Tiles (childBounds direction bounds (offset + advance direction bounds a) b) bs) :
    Tiles (childBounds direction bounds offset (a + b)) (as ++ bs) := by
  cases direction with
  | horizontal =>
    simp only [childBounds, mul_add]
    exact ha.rows hb (mul_nonneg hh.le hpa) (mul_nonneg hh.le hpb)
  | vertical =>
    simp only [childBounds, mul_add]
    exact ha.columns hb (mul_nonneg hw.le hpa) (mul_nonneg hw.le hpb)

theorem childBounds_pos {bounds : Rect ℚ} (hw : 0 < bounds.w) (hh : 0 < bounds.h) {fraction : ℚ}
    (hf : 0 < fraction) (direction : SplitDirection) (offset : ℚ) :
    0 < (childBounds direction bounds offset fraction).w ∧
      0 < (childBounds direction bounds offset fraction).h := by
  cases direction with
  | horizontal => exact ⟨hw, mul_pos hh hf⟩
  | vertical => exact ⟨mul_pos hw hf, hh⟩

theorem childBounds_one (direction : SplitDirection) (bounds : Rect ℚ) :
    childBounds direction bounds 0 1 = bounds := by
  cases direction with
  | horizontal => simp [childBounds, Rect.row]
  | vertical => simp [childBounds, Rect.column]

/-- Rectangles of no leaf tile bounds of no size. -/
theorem tiles_childBounds_zero (direction : SplitDirection) (bounds : Rect ℚ) (offset : ℚ) :
    Tiles (childBounds direction bounds offset 0) [] := by
  refine ⟨by simp, by simp, by simp, ?_⟩
  cases direction with
  | horizontal => simp [childBounds, Rect.row, Rect.area]
  | vertical => simp [childBounds, Rect.column, Rect.area]

theorem tiles_collectChildRects {children : List (LayoutChild Pane)} {bounds : Rect ℚ}
    (ih : ∀ c ∈ children, hasDockedPanes isDetached c.node = true → ∀ bounds : Rect ℚ, 0 < bounds.w →
      0 < bounds.h → Tiles bounds ((collectLeafRects isDetached bounds c.node).map LeafRect.bounds))
    (hpos : ∀ c ∈ children, 0 < c.ratio) (hw : 0 < bounds.w) (hh : 0 < bounds.h) {sum : ℚ}
    (hsum : 0 < sum) (direction : SplitDirection) (fallback offset : ℚ) :
    Tiles (childBounds direction bounds offset (share isDetached sum children))
      ((collectChildRects isDetached direction bounds sum fallback children offset).map
        LeafRect.bounds) := by
  induction children generalizing offset with
  | nil =>
    have hzero : share isDetached sum ([] : List (LayoutChild Pane)) = 0 := (share_spec hsum hpos).1 rfl
    unfold collectChildRects
    rw [hzero]
    exact tiles_childBounds_zero _ _ _
  | cons c children ihc =>
    obtain ⟨node, ratio⟩ := c
    have hratio : 0 < ratio := hpos ⟨node, ratio⟩ List.mem_cons_self
    have hposr : ∀ c ∈ children, 0 < c.ratio := fun c hc => hpos c (List.mem_cons_of_mem _ hc)
    have hrest := ihc (fun c hc => ih c (List.mem_cons_of_mem _ hc)) hposr
    unfold collectChildRects
    rw [share_cons]
    by_cases hdocked : hasDockedPanes isDetached node = true
    · rw [if_pos hdocked, if_pos hdocked, childFraction_of_pos hsum hratio, List.map_append]
      have hf : 0 < ratio / sum := div_pos hratio hsum
      obtain ⟨hcw, hch⟩ := childBounds_pos hw hh hf direction offset
      exact tiles_childBounds hw hh hf.le (share_nonneg hsum hposr)
        (ih _ List.mem_cons_self hdocked _ hcw hch) (hrest _)
    · rw [if_neg hdocked, if_neg hdocked]
      exact hrest offset

/-- The docked children share out everything. -/
theorem share_all {children : List (LayoutChild Pane)} (hpos : ∀ c ∈ children, 0 < c.ratio)
    (hne : dockedChildren isDetached children ≠ []) :
    0 < ratioSum (dockedChildren isDetached children) ∧
      share isDetached (ratioSum (dockedChildren isDetached children)) children = 1 := by
  have heq : ratioSum (dockedChildren isDetached children) =
      ((dockedChildren isDetached children).map LayoutChild.ratio).sum :=
    ratioSum_of_pos fun c hc => hpos c (List.mem_of_mem_filter hc)
  have hsum : 0 < ((dockedChildren isDetached children).map LayoutChild.ratio).sum := by
    refine List.sum_pos _ ?_ (by simpa using hne)
    intro ratio hratio
    obtain ⟨c, hc, rfl⟩ := List.mem_map.1 hratio
    exact hpos c (List.mem_of_mem_filter hc)
  rw [heq]
  exact ⟨hsum, div_self hsum.ne'⟩

theorem tiles_collectLeafRects {tree : LayoutTree Pane} (h : PosRatios tree)
    (hdocked : hasDockedPanes isDetached tree = true) {bounds : Rect ℚ} (hw : 0 < bounds.w)
    (hh : 0 < bounds.h) :
    Tiles bounds ((collectLeafRects isDetached bounds tree).map LeafRect.bounds) := by
  induction tree using LayoutTree.induction generalizing bounds with
  | leaf pane =>
    unfold collectLeafRects
    rw [if_pos hdocked]
    exact .single hw hh
  | container direction children drag size ih =>
    obtain ⟨hpos, hc⟩ := h.inv
    have hne : dockedChildren isDetached children ≠ [] := by
      intro hnil
      rw [hasDockedPanes_container.2 hnil] at hdocked
      exact absurd hdocked (by decide)
    obtain ⟨hsum, hall⟩ := share_all hpos hne
    have htiles := tiles_collectChildRects
      (fun c hmem hd bounds hw hh => ih c hmem (hc c hmem) hd hw hh) hpos hw hh hsum
      direction (1 / (dockedChildren isDetached children).length) 0
    rwa [hall, childBounds_one, ← collectLeafRects_container bounds direction children drag size] at htiles

/-! ### Outer edges -/

theorem dockedChildEdges_none (edges : Edges Bool) (direction : SplitDirection) (last : ℕ)
    {children : List (LayoutChild Pane)} (h : dockedChildren isDetached children = []) (index : ℕ) :
    dockedChildEdges isDetached edges direction last children index = [] := by
  induction children with
  | nil => simp [dockedChildEdges]
  | cons c children ih =>
    obtain ⟨node, ratio⟩ := c
    rw [dockedChildren_cons] at h
    split_ifs at h with hdocked
    unfold dockedChildEdges
    rw [if_neg hdocked, ih h]

theorem advance_add (direction : SplitDirection) (bounds : Rect ℚ) (a b : ℚ) :
    advance direction bounds (a + b) = advance direction bounds a + advance direction bounds b := by
  cases direction with
  | horizontal => exact mul_add _ _ _
  | vertical => exact mul_add _ _ _

/-- The child behind a share of `done` touches what the flags of `child_edges` say. -/
theorem touching_childBounds (direction : SplitDirection) {bounds outer : Rect ℚ} {done fraction : ℚ}
    (hw : 0 < bounds.w) (hh : 0 < bounds.h) (hin : bounds.Inside outer) (h0 : 0 ≤ done)
    (h1 : done + fraction ≤ 1) :
    (childBounds direction bounds (advance direction bounds done) fraction).Inside bounds ∧
      (childBounds direction bounds (advance direction bounds done) fraction).touching outer =
        childEdges (bounds.touching outer) direction (done = 0) (done + fraction = 1) := by
  cases direction with
  | horizontal =>
    have hle : bounds.h * done + bounds.h * fraction ≤ bounds.h := by
      rw [← mul_add]
      exact mul_le_of_le_one_right hh.le h1
    have hlast : bounds.h * done + bounds.h * fraction = bounds.h ↔ done + fraction = 1 := by
      rw [← mul_add, mul_eq_left₀ hh.ne']
    have hinside := bounds.row_inside (mul_nonneg hh.le h0) hle
    refine ⟨hinside, (touching_trans hinside hin).trans ?_⟩
    rw [Rect.touching_row]
    simp [Edges.and, childEdges, hlast, hh.ne']
  | vertical =>
    have hle : bounds.w * done + bounds.w * fraction ≤ bounds.w := by
      rw [← mul_add]
      exact mul_le_of_le_one_right hw.le h1
    have hlast : bounds.w * done + bounds.w * fraction = bounds.w ↔ done + fraction = 1 := by
      rw [← mul_add, mul_eq_left₀ hw.ne']
    have hinside := bounds.column_inside (mul_nonneg hw.le h0) hle
    refine ⟨hinside, (touching_trans hinside hin).trans ?_⟩
    rw [Rect.touching_column]
    simp [Edges.and, childEdges, hlast, hw.ne']

/-- Both loops over the docked children, with a share of `done` behind them: a child is the first when
nothing is done, and the last when nothing is left. -/
theorem edges_collectChildRects {children : List (LayoutChild Pane)} {bounds outer : Rect ℚ}
    (ih : ∀ c ∈ children, ∀ bounds : Rect ℚ, 0 < bounds.w → 0 < bounds.h → bounds.Inside outer →
      dockedLeafEdges isDetached (bounds.touching outer) c.node =
        (collectLeafRects isDetached bounds c.node).map fun r => (r.pane, r.bounds.touching outer))
    (hpos : ∀ c ∈ children, 0 < c.ratio) (hw : 0 < bounds.w) (hh : 0 < bounds.h)
    (hin : bounds.Inside outer) {sum : ℚ} (hsum : 0 < sum) (direction : SplitDirection) (fallback : ℚ)
    {done : ℚ} (h0 : 0 ≤ done) (hall : done + share isDetached sum children = 1) (index last : ℕ)
    (hfirst : index = 0 ↔ done = 0)
    (hlast : dockedChildren isDetached children ≠ [] →
      index + (dockedChildren isDetached children).length = last + 1) :
    dockedChildEdges isDetached (bounds.touching outer) direction last children index =
      (collectChildRects isDetached direction bounds sum fallback children
        (advance direction bounds done)).map fun r => (r.pane, r.bounds.touching outer) := by
  induction children generalizing done index with
  | nil => simp [collectChildRects, dockedChildEdges]
  | cons c children ihc =>
    obtain ⟨node, ratio⟩ := c
    have hratio : 0 < ratio := hpos ⟨node, ratio⟩ List.mem_cons_self
    have hposr : ∀ c ∈ children, 0 < c.ratio := fun c hc => hpos c (List.mem_cons_of_mem _ hc)
    have hrest := @ihc (fun c hc => ih c (List.mem_cons_of_mem _ hc)) hposr
    unfold collectChildRects dockedChildEdges
    rw [share_cons] at hall
    rw [dockedChildren_cons] at hlast
    by_cases hdocked : hasDockedPanes isDetached node = true
    · rw [if_pos hdocked] at hall hlast
      rw [if_pos hdocked, if_pos hdocked, childFraction_of_pos hsum hratio, List.map_append]
      have hf : 0 < ratio / sum := div_pos hratio hsum
      have hnonneg : 0 ≤ share isDetached sum children := share_nonneg hsum hposr
      have hcount := hlast (List.cons_ne_nil _ _)
      rw [List.length_cons] at hcount
      have hend : done + ratio / sum = 1 ↔ index = last := by
        obtain ⟨hzero, hmore⟩ := @share_spec _ isDetached _ hsum _ hposr
        by_cases hnil : dockedChildren isDetached children = []
        · rw [hnil, List.length_nil] at hcount
          have := hzero hnil
          constructor
          · intro _
            omega
          · intro _
            linarith
        · have := hmore hnil
          have := List.length_pos_of_ne_nil hnil
          constructor
          · intro _
            linarith
          · intro _
            omega
      have hle : done + ratio / sum ≤ 1 := by linarith
      obtain ⟨hinside, htouch⟩ := touching_childBounds direction hw hh hin h0 hle
      obtain ⟨hcw, hch⟩ := childBounds_pos hw hh hf direction (advance direction bounds done)
      have hnode := ih _ List.mem_cons_self _ hcw hch (hinside.trans hin)
      rw [htouch] at hnode
      simp only [hfirst, ← hend]
      rw [hnode, ← advance_add]
      refine congrArg _ (hrest (by linarith) (by linarith) _ ?_ fun _ => by omega)
      constructor
      · intro h
        omega
      · intro h
        linarith
    · rw [if_neg hdocked] at hall hlast
      rw [if_neg hdocked, if_neg hdocked]
      exact hrest h0 hall index hfirst hlast

theorem edges_collectLeafRects {tree : LayoutTree Pane} (h : PosRatios tree) {bounds outer : Rect ℚ}
    (hw : 0 < bounds.w) (hh : 0 < bounds.h) (hin : bounds.Inside outer) :
    dockedLeafEdges isDetached (bounds.touching outer) tree =
      (collectLeafRects isDetached bounds tree).map fun r => (r.pane, r.bounds.touching outer) := by
  induction tree using LayoutTree.induction generalizing bounds with
  | leaf pane =>
    unfold dockedLeafEdges collectLeafRects
    by_cases hdocked : isDetached pane = true
    · rw [if_pos hdocked, if_neg (by simp [hasDockedPanes_iff, hdocked])]
      rfl
    · rw [if_neg hdocked, if_pos (by simp [hasDockedPanes_iff, hdocked])]
      rfl
  | container direction children drag size ih =>
    obtain ⟨hpos, hc⟩ := h.inv
    rw [collectLeafRects_container]
    unfold dockedLeafEdges
    dsimp only
    by_cases hnil : dockedChildren isDetached children = []
    · rw [dockedChildEdges_none _ _ _ hnil, collectChildRects_none _ _ _ _ hnil, List.map_nil]
    · obtain ⟨hsum, hall⟩ := share_all hpos hnil
      have hzero : advance direction bounds 0 = 0 := by
        cases direction with
        | horizontal => exact mul_zero _
        | vertical => exact mul_zero _
      have hlen := List.length_pos_of_ne_nil hnil
      have hloops := edges_collectChildRects
        (fun c hmem bounds hw hh hin => ih c hmem (hc c hmem) hw hh hin) hpos hw hh
        hin hsum direction (1 / (dockedChildren isDetached children).length) le_rfl
        (by rw [hall, zero_add]) 0 ((dockedChildren isDetached children).length - 1) (by simp)
        (fun _ => by omega)
      rwa [hzero] at hloops

end

/-! ### The unit square -/

/-- The bounds of a whole layout. -/
def unit : Rect ℚ := ⟨0, 0, 1, 1⟩

/-- All sides of the layout are outer. -/
def outer : Edges Bool := ⟨true, true, true, true⟩

/-- The docked leaves of a layout, each with one rectangle: they fill the unit square without
overlapping, and the flags of a leaf say which sides of the square its rectangle touches. -/
theorem docked_leaves (isDetached : Pane → Bool) {tree : LayoutTree Pane} (h : PosRatios tree) :
    (collectLeafRects isDetached unit tree).map LeafRect.pane =
        tree.collectLeaves.filter (fun pane => !isDetached pane) ∧
      ((collectLeafRects isDetached unit tree).map LeafRect.bounds).Pairwise
        (fun r s => Disjoint r.interior s.interior) ∧
      ((∃ pane ∈ tree.collectLeaves, isDetached pane = false) →
        Tiles unit ((collectLeafRects isDetached unit tree).map LeafRect.bounds) ∧
        ((collectLeafRects isDetached unit tree).map fun r => r.bounds.area).sum = 1) ∧
      dockedLeafEdges isDetached outer tree =
        (collectLeafRects isDetached unit tree).map fun r => (r.pane, r.bounds.touching unit) := by
  have hpanes := @panes_collectLeafRects _ isDetached unit tree
  have htiles : hasDockedPanes isDetached tree = true →
      Tiles unit ((collectLeafRects isDetached unit tree).map LeafRect.bounds) :=
    fun hdocked => tiles_collectLeafRects h hdocked one_pos one_pos
  refine ⟨hpanes, ?_, fun hdocked => ?_, ?_⟩
  · by_cases hdocked : hasDockedPanes isDetached tree = true
    · exact (htiles hdocked).apart
    · rw [filter_docked_eq_nil (by simpa using hdocked), List.map_eq_nil_iff] at hpanes
      rw [hpanes]
      simp
  · have htile := htiles (hasDockedPanes_iff.2 hdocked)
    refine ⟨htile, ?_⟩
    have harea := htile.area
    rw [List.map_map] at harea
    exact harea.trans (by norm_num [Rect.area, unit])
  · have hself : unit.touching unit = outer := by simp [Rect.touching, outer]
    rw [← hself]
    exact edges_collectLeafRects h one_pos one_pos (.refl unit)

/-- A pane beside two stacked ones. -/
def besideStacked : LayoutTree ℕ :=
  .container .vertical [⟨.leaf 1, 1 / 3⟩,
    ⟨.container .horizontal [⟨.leaf 2, 1 / 4⟩, ⟨.leaf 3, 1 / 2⟩] none 0, 1⟩] none 0

theorem posRatios_besideStacked : PosRatios besideStacked := by
  refine .container (by norm_num) fun c hc => ?_
  simp only [List.mem_cons, List.not_mem_nil, or_false] at hc
  rcases hc with rfl | rfl
  · exact .leaf 1
  · refine .container (by norm_num) fun c hc => ?_
    simp only [List.mem_cons, List.not_mem_nil, or_false] at hc
    rcases hc with rfl | rfl
    · exact .leaf 2
    · exact .leaf 3

/-- The upper of the stacked panes is detached, so the lower one has its room. -/
theorem docked_leaves_besideStacked :
    (collectLeafRects (· == 2) unit besideStacked).map LeafRect.pane = [1, 3] ∧
      ((collectLeafRects (· == 2) unit besideStacked).map LeafRect.bounds).Pairwise
        (fun r s => Disjoint r.interior s.interior) ∧
      ((∃ pane ∈ [1, 2, 3], (pane == 2) = false) →
        Tiles unit ((collectLeafRects (· == 2) unit besideStacked).map LeafRect.bounds) ∧
        ((collectLeafRects (· == 2) unit besideStacked).map fun r => r.bounds.area).sum = 1) ∧
      dockedLeafEdges (· == 2) outer besideStacked =
        (collectLeafRects (· == 2) unit besideStacked).map fun r => (r.pane, r.bounds.touching unit) :=
  docked_leaves (· == 2) posRatios_besideStacked

end Paneflow.Layout.Navigation
