import Mathlib.Algebra.BigOperators.Group.List.Basic
import Mathlib.Algebra.Order.BigOperators.Group.List
import Mathlib.Algebra.Order.Field.Rat
import Mathlib.Tactic.FieldSimp
import Mathlib.Tactic.Linarith
import Mathlib.Tactic.Ring

/-!
# The pane layout tree

`LayoutTree` of layout/tree.rs with the queries of layout/queries.rs, over rational ratios. A tree is
`WellFormed` when every container has at least two children whose ratios are positive and sum to one;
the ratio updates that the mutations share (`insertSibling`, `redistributeEqual`, `normalizeRatios`)
keep a list of ratios `Balanced`.
-/

namespace Paneflow.Layout.Tree

inductive SplitDirection where
  | horizontal
  | vertical
  deriving DecidableEq

structure DragState where
  dividerIdx : ℕ
  startPos : ℚ
  startRatioBefore : ℚ
  startRatioAfter : ℚ

mutual

inductive LayoutTree (Pane : Type) where
  | leaf (pane : Pane)
  | container (direction : SplitDirection) (children : List (LayoutChild Pane))
    (drag : Option DragState) (containerSize : ℚ)

structure LayoutChild (Pane : Type) where
  node : LayoutTree Pane
  ratio : ℚ

end

variable {Pane : Type}

/-- Induction on a layout tree, with the hypothesis for every child of a container. -/
@[elab_as_elim]
theorem LayoutTree.induction {motive : LayoutTree Pane → Prop} (leaf : ∀ pane, motive (.leaf pane))
    (container : ∀ direction children drag size, (∀ c ∈ children, motive c.node) →
      motive (.container direction children drag size)) (tree : LayoutTree Pane) : motive tree := by
  refine @LayoutTree.rec Pane motive (fun c => motive c.node) (fun cs => ∀ c ∈ cs, motive c.node)
    leaf container (fun _ _ h => h) ?_ ?_ tree
  · simp
  · intro c cs hc hcs
    simpa using ⟨hc, hcs⟩

/-! ### Queries -/

mutual

def LayoutTree.collectLeaves : LayoutTree Pane → List Pane
  | .leaf pane => [pane]
  | .container _ children _ _ => leavesOf children

def leavesOf : List (LayoutChild Pane) → List Pane
  | [] => []
  | ⟨node, _⟩ :: children => node.collectLeaves ++ leavesOf children

end

mutual

def LayoutTree.anyLeaf (pred : Pane → Bool) : LayoutTree Pane → Bool
  | .leaf pane => pred pane
  | .container _ children _ _ => anyLeafOf pred children

def anyLeafOf (pred : Pane → Bool) : List (LayoutChild Pane) → Bool
  | [] => false
  | ⟨node, _⟩ :: children => if node.anyLeaf pred then true else anyLeafOf pred children

end

def LayoutTree.containsLeaf [DecidableEq Pane] (tree : LayoutTree Pane) (pane : Pane) : Bool :=
  tree.anyLeaf (fun p => p = pane)

mutual

def LayoutTree.firstLeaf : LayoutTree Pane → Option Pane
  | .leaf pane => some pane
  | .container _ children _ _ => firstLeafOf children

def firstLeafOf : List (LayoutChild Pane) → Option Pane
  | [] => none
  | ⟨node, _⟩ :: _ => node.firstLeaf

end

mutual

def LayoutTree.lastLeaf : LayoutTree Pane → Option Pane
  | .leaf pane => some pane
  | .container _ children _ _ => lastLeafOf children

def lastLeafOf : List (LayoutChild Pane) → Option Pane
  | [] => none
  | [⟨node, _⟩] => node.lastLeaf
  | _ :: c :: children => lastLeafOf (c :: children)

end

@[simp]
theorem collectLeaves_leaf (pane : Pane) : (LayoutTree.leaf pane).collectLeaves = [pane] := rfl

@[simp]
theorem collectLeaves_container (d : SplitDirection) (children : List (LayoutChild Pane))
    (drag : Option DragState) (size : ℚ) :
    (LayoutTree.container d children drag size).collectLeaves = leavesOf children := rfl

@[simp]
theorem leavesOf_nil : leavesOf ([] : List (LayoutChild Pane)) = [] := rfl

@[simp]
theorem leavesOf_cons (c : LayoutChild Pane) (children : List (LayoutChild Pane)) :
    leavesOf (c :: children) = c.node.collectLeaves ++ leavesOf children := by
  cases c
  rfl

@[simp]
theorem leavesOf_append (as bs : List (LayoutChild Pane)) :
    leavesOf (as ++ bs) = leavesOf as ++ leavesOf bs := by
  induction as with
  | nil => rfl
  | cons c as ih => simp [ih]

theorem mem_leavesOf {children : List (LayoutChild Pane)} {pane : Pane} :
    pane ∈ leavesOf children ↔ ∃ c ∈ children, pane ∈ c.node.collectLeaves := by
  induction children with
  | nil => simp
  | cons c children ih => simp [ih]

theorem anyLeaf_eq (pred : Pane → Bool) (tree : LayoutTree Pane) :
    tree.anyLeaf pred = tree.collectLeaves.any pred := by
  induction tree using LayoutTree.induction with
  | leaf pane => simp [LayoutTree.anyLeaf]
  | container d children drag size ih =>
    unfold LayoutTree.anyLeaf
    rw [collectLeaves_container]
    induction children with
    | nil => rfl
    | cons c children ihc =>
      obtain ⟨node, ratio⟩ := c
      have hnode := ih ⟨node, ratio⟩ (by simp)
      unfold anyLeafOf
      rw [leavesOf_cons, List.any_append, ← hnode, ← ihc fun c hc => ih c (by simp [hc])]
      cases node.anyLeaf pred <;> rfl

theorem containsLeaf_iff [DecidableEq Pane] {tree : LayoutTree Pane} {pane : Pane} :
    tree.containsLeaf pane = true ↔ pane ∈ tree.collectLeaves := by
  unfold LayoutTree.containsLeaf
  rw [anyLeaf_eq]
  simp

/-! ### Ratios -/

/-- The smallest difference of a 32-bit float from one, `f32::EPSILON`. -/
def f32Epsilon : ℚ := 1 / 2 ^ 23

/-- The sum of the children's ratios. -/
def ratioSum (children : List (LayoutChild Pane)) : ℚ :=
  (children.map LayoutChild.ratio).sum

def normalizeRatios (children : List (LayoutChild Pane)) : List (LayoutChild Pane) :=
  let sum := ratioSum children
  if sum > 0 ∧ |sum - 1| > f32Epsilon then
    children.map fun child => { child with ratio := child.ratio / sum }
  else children

def redistributeEqual (children : List (LayoutChild Pane)) (removedRatio : ℚ) :
    List (LayoutChild Pane) :=
  if children.isEmpty then children
  else
    let share := removedRatio / children.length
    children.map fun child => { child with ratio := child.ratio + share }

/-- Inserts a pane after the child at `idx` and gives each of the two half of the child's ratio. A
rational ratio is always finite, so the branch of the source for the other case does not occur. -/
def insertSibling (children : List (LayoutChild Pane)) (idx : ℕ) (newPane : Pane) :
    List (LayoutChild Pane) :=
  match children[idx]? with
  | none => children
  | some target =>
    let half := target.ratio / 2
    (children.set idx { target with ratio := half }).insertIdx (idx + 1) ⟨.leaf newPane, half⟩

def newSplit (direction : SplitDirection) (first second : LayoutTree Pane) : LayoutTree Pane :=
  .container direction [⟨first, 1 / 2⟩, ⟨second, 1 / 2⟩] none 0

/-- The ratios of a container: positive and of sum one. -/
structure Balanced (children : List (LayoutChild Pane)) : Prop where
  pos : ∀ c ∈ children, 0 < c.ratio
  sum : ratioSum children = 1

/-- Every container has at least two children and balanced ratios. -/
inductive WellFormed : LayoutTree Pane → Prop
  | leaf (pane : Pane) : WellFormed (.leaf pane)
  | container {d : SplitDirection} {children : List (LayoutChild Pane)} {drag : Option DragState}
    {size : ℚ} : 2 ≤ children.length → Balanced children → (∀ c ∈ children, WellFormed c.node) →
    WellFormed (.container d children drag size)

theorem WellFormed.inv {d : SplitDirection} {children : List (LayoutChild Pane)}
    {drag : Option DragState} {size : ℚ} (h : WellFormed (.container d children drag size)) :
    2 ≤ children.length ∧ Balanced children ∧ ∀ c ∈ children, WellFormed c.node := by
  cases h with
  | container h2 hb hc => exact ⟨h2, hb, hc⟩

@[simp]
theorem ratioSum_nil : ratioSum ([] : List (LayoutChild Pane)) = 0 := rfl

@[simp]
theorem ratioSum_cons (c : LayoutChild Pane) (children : List (LayoutChild Pane)) :
    ratioSum (c :: children) = c.ratio + ratioSum children := by
  simp [ratioSum]

@[simp]
theorem ratioSum_append (as bs : List (LayoutChild Pane)) :
    ratioSum (as ++ bs) = ratioSum as + ratioSum bs := by
  simp [ratioSum]

/-- Replacing the nodes of a list of children, as far as leaves and ratios go. -/
theorem leavesOf_map_ratio (f : LayoutChild Pane → ℚ) (children : List (LayoutChild Pane)) :
    leavesOf (children.map fun c => { c with ratio := f c }) = leavesOf children := by
  induction children with
  | nil => rfl
  | cons c children ih => simp [ih]

theorem ratioSum_add_share (children : List (LayoutChild Pane)) (share : ℚ) :
    ratioSum (children.map fun c => { c with ratio := c.ratio + share }) =
      ratioSum children + children.length * share := by
  induction children with
  | nil => simp
  | cons c children ih =>
    simp only [List.map_cons, ratioSum_cons, ih, List.length_cons, Nat.cast_add, Nat.cast_one]
    ring

/-- Sharing out what the remaining ratios lack to one balances them. -/
theorem balanced_redistributeEqual {children : List (LayoutChild Pane)} {removed : ℚ}
    (hpos : ∀ c ∈ children, 0 < c.ratio) (hne : children ≠ []) (hr : 0 < removed)
    (hsum : ratioSum children + removed = 1) : Balanced (redistributeEqual children removed) := by
  have hlen : (0 : ℚ) < children.length := by
    exact_mod_cast List.length_pos_of_ne_nil hne
  unfold redistributeEqual
  rw [if_neg (by simpa using hne)]
  constructor
  · intro c hc
    obtain ⟨c', hc', rfl⟩ := List.mem_map.1 hc
    have := hpos c' hc'
    have := div_pos hr hlen
    show 0 < c'.ratio + removed / children.length
    linarith
  · rw [ratioSum_add_share, mul_div_cancel₀ _ hlen.ne', hsum]

/-- Ratios that already sum to one are left alone. -/
theorem normalizeRatios_of_sum {children : List (LayoutChild Pane)} (h : ratioSum children = 1) :
    normalizeRatios children = children := by
  unfold normalizeRatios
  rw [if_neg]
  rw [h]
  norm_num [f32Epsilon]

theorem insertSibling_append (as : List (LayoutChild Pane)) (c : LayoutChild Pane)
    (bs : List (LayoutChild Pane)) (newPane : Pane) :
    insertSibling (as ++ c :: bs) as.length newPane =
      as ++ { c with ratio := c.ratio / 2 } :: ⟨.leaf newPane, c.ratio / 2⟩ :: bs := by
  unfold insertSibling
  rw [List.getElem?_append_right le_rfl, Nat.sub_self, List.getElem?_cons_zero]
  simp only [List.set_append_right _ _ le_rfl, Nat.sub_self, List.set_cons_zero]
  induction as with
  | nil => rfl
  | cons a as ih => simpa using ih

theorem wellFormed_newSplit (direction : SplitDirection) {first second : LayoutTree Pane}
    (h1 : WellFormed first) (h2 : WellFormed second) :
    WellFormed (newSplit direction first second) := by
  refine .container le_rfl ⟨?_, ?_⟩ ?_
  · simp
  · norm_num
  · simp [h1, h2]

/-- A new sibling with half of its neighbour's ratio keeps a container well formed. -/
theorem wellFormed_insertSibling {d : SplitDirection} {as bs : List (LayoutChild Pane)}
    {c : LayoutChild Pane} {drag : Option DragState} {size : ℚ}
    (h : WellFormed (.container d (as ++ c :: bs) drag size)) (newPane : Pane) :
    WellFormed (.container d (insertSibling (as ++ c :: bs) as.length newPane) drag size) := by
  obtain ⟨h2, hb, hc⟩ := h.inv
  have hcpos := hb.pos c (by simp)
  rw [insertSibling_append]
  refine .container (by simp at h2 ⊢; omega) ⟨?_, ?_⟩ ?_
  · intro x hx
    simp only [List.mem_append, List.mem_cons] at hx
    rcases hx with hx | rfl | rfl | hx
    · exact hb.pos x (by simp [hx])
    · exact div_pos hcpos two_pos
    · exact div_pos hcpos two_pos
    · exact hb.pos x (by simp [hx])
  · have hsum := hb.sum
    simp only [ratioSum_append, ratioSum_cons] at hsum ⊢
    linarith
  · intro x hx
    simp only [List.mem_append, List.mem_cons] at hx
    rcases hx with hx | rfl | rfl | hx
    · exact hc x (by simp [hx])
    · exact hc c (by simp)
    · exact .leaf newPane
    · exact hc x (by simp [hx])

end Paneflow.Layout.Tree
