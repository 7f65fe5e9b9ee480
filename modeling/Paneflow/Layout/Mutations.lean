import Mathlib.Logic.Equiv.Basic
import Paneflow.Layout.Tree

/-!
# Splitting, swapping and equalizing

The mutations of layout/mutations.rs and `equalize_ratios` of layout/queries.rs. Each is described by
what it does to the sequence of leaves, and keeps the tree well formed: `splitAt_spec`,
`splitFirstLeaf_spec`, `swapPanes_spec`, `equalizeRatios_spec`.
-/

namespace Paneflow.Layout.Mutations

open Paneflow.Layout.Tree

variable {Pane : Type}

/-! ### Splits -/

/-- The child that is itself a leaf with a pane to split, `if let Leaf(pane) = &children[i].node`. -/
def isHitLeaf (hit : Pane → Bool) (child : LayoutChild Pane) : Bool :=
  match child.node with
  | .leaf pane => hit pane
  | .container .. => false

mutual

/-- Splits the first pane with `hit` that the search of the source meets: in a container of the same
direction the leaves among the children come first, and get the new pane as a sibling. -/
def splitAt (hit : Pane → Bool) (direction : SplitDirection) (newPane : Pane) :
    LayoutTree Pane → LayoutTree Pane × Bool
  | .leaf pane =>
    if hit pane then (newSplit direction (.leaf pane) (.leaf newPane), true)
    else (.leaf pane, false)
  | .container dir children drag size =>
    match if dir = direction then children.findIdx? (isHitLeaf hit) else none with
    | some i => (.container dir (insertSibling children i newPane) drag size, true)
    | none =>
      let (children', found) := splitAtAny hit direction newPane children
      (.container dir children' drag size, found)

def splitAtAny (hit : Pane → Bool) (direction : SplitDirection) (newPane : Pane) :
    List (LayoutChild Pane) → List (LayoutChild Pane) × Bool
  | [] => ([], false)
  | ⟨node, ratio⟩ :: children =>
    let (node', found) := splitAt hit direction newPane node
    if found then (⟨node', ratio⟩ :: children, true)
    else
      let (children', found) := splitAtAny hit direction newPane children
      (⟨node', ratio⟩ :: children', found)

end

def splitAtFocused (focused : Pane → Bool) (direction : SplitDirection) (newPane : Pane)
    (tree : LayoutTree Pane) : LayoutTree Pane × Bool :=
  splitAt focused direction newPane tree

def splitAtPane [DecidableEq Pane] (target : Pane) (direction : SplitDirection) (newPane : Pane)
    (tree : LayoutTree Pane) : LayoutTree Pane × Bool :=
  splitAt (fun pane => pane = target) direction newPane tree

mutual

def splitFirstLeaf (direction : SplitDirection) (newPane : Pane) :
    LayoutTree Pane → LayoutTree Pane
  | .leaf pane => newSplit direction (.leaf pane) (.leaf newPane)
  | .container dir children drag size =>
    if dir = direction ∧ (children.head?.any (isHitLeaf fun _ => true)) = true then
      .container dir (insertSibling children 0 newPane) drag size
    else .container dir (splitFirstOf direction newPane children) drag size

def splitFirstOf (direction : SplitDirection) (newPane : Pane) :
    List (LayoutChild Pane) → List (LayoutChild Pane)
  | [] => []
  | ⟨node, ratio⟩ :: children => ⟨splitFirstLeaf direction newPane node, ratio⟩ :: children

end

/-- `l'` is `l` with `new` put right after an element that has `hit`. -/
def InsertedAfter (hit : Pane → Bool) (new : Pane) (l l' : List Pane) : Prop :=
  ∃ l1 p l2, hit p = true ∧ l = l1 ++ p :: l2 ∧ l' = l1 ++ p :: new :: l2

theorem InsertedAfter.context {hit : Pane → Bool} {new : Pane} {l l' : List Pane}
    (h : InsertedAfter hit new l l') (as bs : List Pane) :
    InsertedAfter hit new (as ++ l ++ bs) (as ++ l' ++ bs) := by
  obtain ⟨l1, p, l2, hp, rfl, rfl⟩ := h
  exact ⟨as ++ l1, p, l2 ++ bs, hp, by simp, by simp⟩

theorem isHitLeaf_iff {hit : Pane → Bool} {child : LayoutChild Pane} :
    isHitLeaf hit child = true ↔ ∃ pane, child.node = .leaf pane ∧ hit pane = true := by
  unfold isHitLeaf
  cases child.node with
  | leaf pane => simp
  | container d cs drag size => simp

/-- What a split does: nothing when no leaf has `hit`, and otherwise the new pane stands right after a
leaf with `hit`, in a tree that is still well formed. -/
structure SplitSpec (hit : Pane → Bool) (new : Pane) (tree : LayoutTree Pane)
    (r : LayoutTree Pane × Bool) : Prop where
  absent : (∀ p ∈ tree.collectLeaves, hit p = false) → r = (tree, false)
  present : (∃ p ∈ tree.collectLeaves, hit p = true) → ∃ tree', r = (tree', true) ∧
    WellFormed tree' ∧ InsertedAfter hit new tree.collectLeaves tree'.collectLeaves

/-- The search through the children: the children before the one that is split stay, it is replaced by
its split tree under the same ratio, and the rest is not looked at. -/
theorem splitAtAny_spec (hit : Pane → Bool) (direction : SplitDirection) (new : Pane)
    (children : List (LayoutChild Pane))
    (ih : ∀ c ∈ children, SplitSpec hit new c.node (splitAt hit direction new c.node)) :
    ((∀ p ∈ leavesOf children, hit p = false) →
      splitAtAny hit direction new children = (children, false)) ∧
    ((∃ p ∈ leavesOf children, hit p = true) → ∃ as c bs node, children = as ++ c :: bs ∧
      splitAtAny hit direction new children = (as ++ ⟨node, c.ratio⟩ :: bs, true) ∧
      WellFormed node ∧ InsertedAfter hit new c.node.collectLeaves node.collectLeaves) := by
  induction children with
  | nil => simp [splitAtAny]
  | cons c children ihc =>
    obtain ⟨node, ratio⟩ := c
    have hc : SplitSpec hit new node (splitAt hit direction new node) := ih _ List.mem_cons_self
    obtain ⟨hno, hyes⟩ := ihc fun c hc => ih c (by simp [hc])
    unfold splitAtAny
    by_cases hhit : ∃ p ∈ node.collectLeaves, hit p = true
    · -- the first child is split
      obtain ⟨node', heq, hwf, hins⟩ := hc.present hhit
      simp only [heq, if_true]
      constructor
      · intro h
        obtain ⟨p, hp, hpt⟩ := hhit
        exact absurd hpt (by simp [h p (by simp [hp])])
      · intro _
        exact ⟨[], ⟨node, ratio⟩, children, node', rfl, rfl, hwf, hins⟩
    · have hnone : ∀ p ∈ node.collectLeaves, hit p = false := by simpa using hhit
      rw [hc.absent hnone]
      simp only [Bool.false_eq_true, if_false]
      constructor
      · intro h
        rw [hno fun p hp => h p (by simp [hp])]
      · rintro ⟨p, hp, hpt⟩
        have hp' : p ∈ leavesOf children := by
          rcases List.mem_append.1 (by simpa using hp) with hp | hp
          · exact absurd hpt (by simp [hnone p hp])
          · exact hp
        obtain ⟨as, c, bs, node', rfl, heq, hwf, hins⟩ := hyes ⟨p, hp', hpt⟩
        exact ⟨⟨node, ratio⟩ :: as, c, bs, node', rfl, by rw [heq]; rfl, hwf, hins⟩

/-- Replacing one child's tree by a well-formed one keeps the container well formed. -/
theorem wellFormed_replace {d : SplitDirection} {as bs : List (LayoutChild Pane)}
    {c : LayoutChild Pane} {drag : Option DragState} {size : ℚ} {node : LayoutTree Pane}
    (h : WellFormed (.container d (as ++ c :: bs) drag size)) (hn : WellFormed node) :
    WellFormed (.container d (as ++ ⟨node, c.ratio⟩ :: bs) drag size) := by
  obtain ⟨h2, hb, hc⟩ := h.inv
  refine .container (by simpa using h2) ⟨?_, ?_⟩ ?_
  · intro x hx
    rcases List.mem_append.1 hx with hx | hx
    · exact hb.pos x (by simp [hx])
    · rcases List.mem_cons.1 hx with rfl | hx
      · exact hb.pos c (by simp)
      · exact hb.pos x (by simp [hx])
  · have hsum := hb.sum
    simp only [ratioSum_append, ratioSum_cons] at hsum ⊢
    exact hsum
  · intro x hx
    rcases List.mem_append.1 hx with hx | hx
    · exact hc x (by simp [hx])
    · rcases List.mem_cons.1 hx with rfl | hx
      · exact hn
      · exact hc x (by simp [hx])

/-- The first child with a property, with the children before and after it. -/
theorem split_of_findIdx? {α : Type} {p : α → Bool} {l : List α} {i : ℕ}
    (h : l.findIdx? p = some i) : ∃ as x bs, l = as ++ x :: bs ∧ as.length = i ∧ p x = true := by
  obtain ⟨hlt, hp, -⟩ := List.findIdx?_eq_some_iff_getElem.1 h
  refine ⟨l.take i, l[i], l.drop (i + 1), ?_, ?_, hp⟩
  · rw [← List.drop_eq_getElem_cons hlt, List.take_append_drop]
  · simp only [List.length_take]
    omega

theorem splitAt_spec (hit : Pane → Bool) (direction : SplitDirection) (new : Pane)
    {tree : LayoutTree Pane} (h : WellFormed tree) :
    SplitSpec hit new tree (splitAt hit direction new tree) := by
  induction tree using LayoutTree.induction with
  | leaf pane =>
    unfold splitAt
    by_cases hp : hit pane = true
    · rw [if_pos hp]
      refine ⟨fun hno => absurd hp (by simp [hno pane (by simp)]), fun _ => ⟨_, rfl, ?_, ?_⟩⟩
      · exact wellFormed_newSplit direction h (.leaf new)
      · exact ⟨[], pane, [], hp, rfl, rfl⟩
    · rw [if_neg hp]
      refine ⟨fun _ => rfl, fun ⟨p, hmem, hpt⟩ => ?_⟩
      rw [List.mem_singleton.1 hmem] at hpt
      exact absurd hpt hp
  | container dir children drag size ih =>
    obtain ⟨hno, hyes⟩ := splitAtAny_spec hit direction new children
      fun c hc => ih c hc (h.inv.2.2 c hc)
    unfold splitAt
    rcases hidx : (if dir = direction then children.findIdx? (isHitLeaf hit) else none) with _ | i
    · -- the search goes through the children
      constructor
      · intro habs
        simp only [hno habs]
      · intro hpres
        obtain ⟨as, c, bs, node, rfl, heq, hwf, hins⟩ := hyes hpres
        simp only [heq]
        refine ⟨_, rfl, wellFormed_replace h hwf, ?_⟩
        simpa using hins.context (leavesOf as) (leavesOf bs)
    · -- a leaf among the children gets a sibling
      have hfind : children.findIdx? (isHitLeaf hit) = some i := by
        split_ifs at hidx
        exact hidx
      obtain ⟨as, c, bs, rfl, rfl, hc⟩ := split_of_findIdx? hfind
      obtain ⟨pane, hnode, hpane⟩ := isHitLeaf_iff.1 hc
      refine ⟨fun hno => absurd hpane (by simp [hno pane (by simp [hnode])]),
        fun _ => ⟨_, rfl, wellFormed_insertSibling h new, leavesOf as, pane, leavesOf bs, hpane, ?_, ?_⟩⟩
      · simp [hnode]
      · simp [insertSibling_append, hnode]

theorem splitFirstLeaf_spec (direction : SplitDirection) (new : Pane) {tree : LayoutTree Pane}
    (h : WellFormed tree) : WellFormed (splitFirstLeaf direction new tree) ∧
      ∃ p l, tree.collectLeaves = p :: l ∧
        (splitFirstLeaf direction new tree).collectLeaves = p :: new :: l := by
  induction tree using LayoutTree.induction with
  | leaf pane => exact ⟨wellFormed_newSplit direction h (.leaf new), pane, [], rfl, rfl⟩
  | container dir children drag size ih =>
    obtain ⟨h2, hb, hc⟩ := h.inv
    unfold splitFirstLeaf
    cases children with
    | nil => simp at h2
    | cons c children =>
      split_ifs with hsame
      · -- the first child is a leaf and gets a sibling
        obtain ⟨pane, hnode, -⟩ := isHitLeaf_iff.1 (by simpa using hsame.2)
        have h' : WellFormed (.container dir ([] ++ c :: children) drag size) := h
        refine ⟨wellFormed_insertSibling h' new, pane, leavesOf children, ?_, ?_⟩
        · simp [hnode]
        · have := insertSibling_append [] c children new
          simp only [List.nil_append, List.length_nil] at this
          simp [this, hnode]
      · obtain ⟨hwf, p, l, hl, hl'⟩ := ih c (by simp) (hc c (by simp))
        obtain ⟨node, ratio⟩ := c
        have h' : WellFormed (.container dir ([] ++ ⟨node, ratio⟩ :: children) drag size) := h
        refine ⟨wellFormed_replace h' hwf, p, l ++ leavesOf children, ?_, ?_⟩
        · rw [collectLeaves_container, leavesOf_cons, hl, List.cons_append]
        · simp [splitFirstOf, hl']

/-! ### Swaps -/

section Swap
variable [DecidableEq Pane]

mutual

def swapPanesUnchecked (a b : Pane) : LayoutTree Pane → LayoutTree Pane
  | .leaf pane => if pane = a then .leaf b else if pane = b then .leaf a else .leaf pane
  | .container dir children drag size => .container dir (swapPanesOf a b children) drag size

def swapPanesOf (a b : Pane) : List (LayoutChild Pane) → List (LayoutChild Pane)
  | [] => []
  | ⟨node, ratio⟩ :: children => ⟨swapPanesUnchecked a b node, ratio⟩ :: swapPanesOf a b children

end

def swapPanes (a b : Pane) (tree : LayoutTree Pane) : LayoutTree Pane × Bool :=
  if a = b ∨ tree.containsLeaf a = false ∨ tree.containsLeaf b = false then (tree, false)
  else (swapPanesUnchecked a b tree, true)

theorem collectLeaves_swapPanesUnchecked (a b : Pane) (tree : LayoutTree Pane) :
    (swapPanesUnchecked a b tree).collectLeaves = tree.collectLeaves.map (Equiv.swap a b) := by
  induction tree using LayoutTree.induction with
  | leaf pane =>
    unfold swapPanesUnchecked
    rw [collectLeaves_leaf, List.map_singleton, Equiv.swap_apply_def]
    split_ifs <;> rfl
  | container dir children drag size ih =>
    unfold swapPanesUnchecked
    rw [collectLeaves_container, collectLeaves_container]
    induction children with
    | nil => rfl
    | cons c children ihc =>
      obtain ⟨node, ratio⟩ := c
      have hnode : (swapPanesUnchecked a b node).collectLeaves = _ := ih ⟨node, ratio⟩ (by simp)
      unfold swapPanesOf
      rw [leavesOf_cons, leavesOf_cons, List.map_append, hnode,
        ihc fun c hc => ih c (by simp [hc])]

theorem swapPanesOf_eq (a b : Pane) (children : List (LayoutChild Pane)) :
    swapPanesOf a b children = children.map fun c => ⟨swapPanesUnchecked a b c.node, c.ratio⟩ := by
  induction children with
  | nil => rfl
  | cons c children ih =>
    obtain ⟨node, ratio⟩ := c
    unfold swapPanesOf
    rw [ih, List.map_cons]

theorem wellFormed_swapPanesUnchecked (a b : Pane) {tree : LayoutTree Pane} (h : WellFormed tree) :
    WellFormed (swapPanesUnchecked a b tree) := by
  induction tree using LayoutTree.induction with
  | leaf pane =>
    unfold swapPanesUnchecked
    split_ifs <;> exact .leaf _
  | container dir children drag size ih =>
    obtain ⟨h2, hb, hc⟩ := h.inv
    unfold swapPanesUnchecked
    rw [swapPanesOf_eq]
    refine .container (by simpa using h2) ⟨?_, ?_⟩ ?_
    · simpa using hb.pos
    · simpa [ratioSum, Function.comp_def] using hb.sum
    · simpa using fun c hmem => ih c hmem (hc c hmem)

/-- **A swap** of two leaves exchanges them in the sequence of leaves, and any other swap is refused
with the tree unchanged. -/
theorem swapPanes_spec (a b : Pane) {tree : LayoutTree Pane} (h : WellFormed tree) :
    WellFormed (swapPanes a b tree).1 ∧
    (a ≠ b → a ∈ tree.collectLeaves → b ∈ tree.collectLeaves → (swapPanes a b tree).2 = true ∧
      (swapPanes a b tree).1.collectLeaves = tree.collectLeaves.map (Equiv.swap a b)) ∧
    (a = b ∨ a ∉ tree.collectLeaves ∨ b ∉ tree.collectLeaves → swapPanes a b tree = (tree, false)) := by
  have hiff : (a = b ∨ tree.containsLeaf a = false ∨ tree.containsLeaf b = false) ↔
      (a = b ∨ a ∉ tree.collectLeaves ∨ b ∉ tree.collectLeaves) := by
    simp only [← containsLeaf_iff, Bool.not_eq_true]
  unfold swapPanes
  by_cases hcond : a = b ∨ tree.containsLeaf a = false ∨ tree.containsLeaf b = false
  · rw [if_pos hcond]
    refine ⟨h, fun hab ha hb => ?_, fun _ => rfl⟩
    have := hiff.1 hcond
    tauto
  · rw [if_neg hcond]
    refine ⟨wellFormed_swapPanesUnchecked a b h, fun _ _ _ => ⟨rfl, ?_⟩, fun hno => ?_⟩
    · exact collectLeaves_swapPanesUnchecked a b tree
    · exact absurd (hiff.2 hno) hcond

end Swap

/-! ### Equal ratios -/

mutual

def equalizeRatios : LayoutTree Pane → LayoutTree Pane
  | .leaf pane => .leaf pane
  | .container dir children drag size =>
    .container dir (equalizeRatiosOf children.length 0 children) drag size

/-- The loop over the `n` children from index `i` on: the last one gets what is left to one. -/
def equalizeRatiosOf (n i : ℕ) : List (LayoutChild Pane) → List (LayoutChild Pane)
  | [] => []
  | ⟨node, _⟩ :: children =>
    let equal : ℚ := 1 / n
    let ratio := if i = n - 1 then 1 - equal * (n - 1 : ℕ) else equal
    ⟨equalizeRatios node, ratio⟩ :: equalizeRatiosOf n (i + 1) children

end

/-- Over the rationals the last child's ratio is the same as the others'. -/
theorem equalizeRatiosOf_eq (n i : ℕ) (children : List (LayoutChild Pane)) (hn : 0 < n) :
    equalizeRatiosOf n i children = children.map fun c => ⟨equalizeRatios c.node, 1 / n⟩ := by
  induction children generalizing i with
  | nil => rfl
  | cons c children ih =>
    obtain ⟨node, ratio⟩ := c
    have hlast : (1 : ℚ) - 1 / n * (n - 1 : ℕ) = 1 / n := by
      rw [Nat.cast_sub hn]
      have : (n : ℚ) ≠ 0 := by exact_mod_cast hn.ne'
      field_simp
      ring
    unfold equalizeRatiosOf
    rw [ih, List.map_cons]
    simp only [hlast, ite_self]

theorem ratioSum_const (f : LayoutChild Pane → LayoutTree Pane) (r : ℚ)
    (children : List (LayoutChild Pane)) :
    ratioSum (children.map fun c => ⟨f c, r⟩) = children.length * r := by
  simp [ratioSum, Function.comp_def]

theorem equalizeRatios_spec {tree : LayoutTree Pane} (h : WellFormed tree) :
    WellFormed (equalizeRatios tree) ∧
      (equalizeRatios tree).collectLeaves = tree.collectLeaves := by
  induction tree using LayoutTree.induction with
  | leaf pane => exact ⟨h, rfl⟩
  | container dir children drag size ih =>
    obtain ⟨h2, -, hc⟩ := h.inv
    have hpos : (0 : ℚ) < children.length := by exact_mod_cast (by omega : 0 < children.length)
    unfold equalizeRatios
    rw [equalizeRatiosOf_eq _ _ _ (by omega)]
    constructor
    · refine .container (by simpa using h2) ⟨?_, ?_⟩ ?_
      · intro c hmem
        obtain ⟨c', -, rfl⟩ := List.mem_map.1 hmem
        exact div_pos one_pos hpos
      · rw [ratioSum_const, mul_div_cancel₀ _ hpos.ne']
      · simpa using fun c hmem => (ih c hmem (hc c hmem)).1
    · clear h h2 hpos
      generalize (1 : ℚ) / children.length = r
      rw [collectLeaves_container, collectLeaves_container]
      induction children with
      | nil => rfl
      | cons c children ihc =>
        rw [List.map_cons, leavesOf_cons, leavesOf_cons, (ih c (by simp) (hc c (by simp))).2,
          ihc (fun c hc => ih c (by simp [hc])) fun c hmem => hc c (by simp [hmem])]

end Paneflow.Layout.Mutations
