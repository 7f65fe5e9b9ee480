import Paneflow.Layout.Tree

/-!
# Closing panes

`remove_pane` and `close_focused` of layout/close.rs. Both rebuild the children of a container, drop
the ones that became empty, collapse a container that is left with one child and give the ratios of
the dropped children to the others. `removePane_spec` and `closeFocused_spec` say what remains.

A child that was not closed always returns its tree, so the `expect` of `close_focused` never fails:
`closeFocused` returns `none` where it would.
-/

namespace Paneflow.Layout.Close

open Paneflow.Layout.Tree

variable {Pane : Type}

/-- What both functions make of the children that remain once a pane is gone. -/
def collapse (direction : SplitDirection) (newChildren : List (LayoutChild Pane))
    (removedRatio : ℚ) (containerSize : ℚ) : Option (LayoutTree Pane) :=
  match newChildren with
  | [] => none
  | [child] => some child.node
  | _ :: _ :: _ =>
    let children :=
      if removedRatio > 0 then redistributeEqual newChildren removedRatio
      else normalizeRatios newChildren
    some (.container direction children none containerSize)

/-- What remains of a tree: nothing, or a well-formed tree, with the given leaves. -/
def Remains (tree : Option (LayoutTree Pane)) (leaves : List Pane) : Prop :=
  match tree with
  | none => leaves = []
  | some tree => WellFormed tree ∧ tree.collectLeaves = leaves

/-- The children that a removal keeps from `children`, and the ratio `removed` of the others. -/
structure Kept (children kept : List (LayoutChild Pane)) (removed : ℚ) : Prop where
  wellFormed : ∀ c ∈ kept, WellFormed c.node
  pos : ∀ c ∈ kept, 0 < c.ratio
  sum : ratioSum kept + removed = ratioSum children
  nonneg : 0 ≤ removed

theorem Kept.nil : Kept ([] : List (LayoutChild Pane)) [] 0 :=
  ⟨by simp, by simp, by simp, le_rfl⟩

theorem Kept.refl {children : List (LayoutChild Pane)} (hw : ∀ c ∈ children, WellFormed c.node)
    (hpos : ∀ c ∈ children, 0 < c.ratio) : Kept children children 0 :=
  ⟨hw, hpos, add_zero _, le_rfl⟩

theorem Kept.keep {children kept : List (LayoutChild Pane)} {removed : ℚ} {c : LayoutChild Pane}
    {node : LayoutTree Pane} (h : Kept children kept removed) (hw : WellFormed node)
    (hpos : 0 < c.ratio) : Kept (c :: children) (⟨node, c.ratio⟩ :: kept) removed := by
  refine ⟨?_, ?_, ?_, h.nonneg⟩
  · simpa using ⟨hw, h.wellFormed⟩
  · simpa using ⟨hpos, h.pos⟩
  · have := h.sum
    simp only [ratioSum_cons]
    linarith

theorem Kept.drop {children kept : List (LayoutChild Pane)} {removed : ℚ} {c : LayoutChild Pane}
    (h : Kept children kept removed) (hpos : 0 < c.ratio) :
    Kept (c :: children) kept (c.ratio + removed) := by
  refine ⟨h.wellFormed, h.pos, ?_, by linarith [h.nonneg]⟩
  have := h.sum
  simp only [ratioSum_cons]
  linarith

/-- The rebuilt container is well formed: a removed share is spread over the rest, and without one the
ratios still sum to one. -/
theorem collapse_remains {children kept : List (LayoutChild Pane)} {removed : ℚ}
    (hsum : ratioSum children = 1) (h : Kept children kept removed) (direction : SplitDirection)
    (size : ℚ) : Remains (collapse direction kept removed size) (leavesOf kept) := by
  unfold collapse
  match kept, h with
  | [], _ => rfl
  | [c], h => exact ⟨h.wellFormed c (by simp), by simp⟩
  | c :: c' :: rest, h =>
    have hsum' : ratioSum (c :: c' :: rest) + removed = 1 := h.sum.trans hsum
    by_cases hr : removed > 0
    · simp only [hr, if_true]
      have hb := balanced_redistributeEqual h.pos (by simp) hr hsum'
      unfold redistributeEqual at hb ⊢
      rw [if_neg (by simp)] at hb ⊢
      refine ⟨.container (by simp) hb ?_, leavesOf_map_ratio _ _⟩
      intro x hx
      obtain ⟨x', hx', rfl⟩ := List.mem_map.1 hx
      exact h.wellFormed x' hx'
    · simp only [hr, if_false]
      have hone : ratioSum (c :: c' :: rest) = 1 := by
        have := h.nonneg
        linarith
      rw [normalizeRatios_of_sum hone]
      exact ⟨.container (by simp) ⟨h.pos, hone⟩ h.wellFormed, rfl⟩

/-! ### Removing a pane -/

/-- The loop variables of `remove_pane`. -/
structure Removing (Pane : Type) where
  newChildren : List (LayoutChild Pane)
  removedRatio : ℚ
  removed : Bool

section Remove
variable [DecidableEq Pane]

mutual

def removePane (target : Pane) : LayoutTree Pane → Option (LayoutTree Pane) × Bool
  | .leaf pane => if pane = target then (none, true) else (some (.leaf pane), false)
  | .container direction children drag containerSize =>
    let s := removeFrom target children ⟨[], 0, false⟩
    if s.removed = false then
      (some (.container direction s.newChildren drag containerSize), false)
    else (collapse direction s.newChildren s.removedRatio containerSize, true)

def removeFrom (target : Pane) : List (LayoutChild Pane) → Removing Pane → Removing Pane
  | [], s => s
  | ⟨child, ratio⟩ :: children, s =>
    let (newNode, childRemoved) := removePane target child
    let s := { s with removed := s.removed || childRemoved }
    match newNode with
    | some node =>
      removeFrom target children { s with newChildren := s.newChildren ++ [⟨node, ratio⟩] }
    | none => removeFrom target children { s with removedRatio := s.removedRatio + ratio }

end

/-- What a removal does to a tree. -/
structure RemoveSpec (target : Pane) (tree : LayoutTree Pane)
    (r : Option (LayoutTree Pane) × Bool) : Prop where
  absent : target ∉ tree.collectLeaves → r = (some tree, false)
  present : target ∈ tree.collectLeaves → r.2 = true
  remains : Remains r.1 (tree.collectLeaves.filter (· ≠ target))

theorem removeFrom_spec (target : Pane) (children : List (LayoutChild Pane))
    (ih : ∀ c ∈ children, RemoveSpec target c.node (removePane target c.node))
    (hpos : ∀ c ∈ children, 0 < c.ratio) (s : Removing Pane) :
    ∃ kept removed, Kept children kept removed ∧
      leavesOf kept = (leavesOf children).filter (· ≠ target) ∧
      (target ∉ leavesOf children → kept = children) ∧
      removeFrom target children s = ⟨s.newChildren ++ kept, s.removedRatio + removed,
        s.removed || decide (target ∈ leavesOf children)⟩ := by
  induction children generalizing s with
  | nil => exact ⟨[], 0, .nil, rfl, fun _ => rfl, by simp [removeFrom]⟩
  | cons c children ihc =>
    obtain ⟨node, ratio⟩ := c
    have hc : RemoveSpec target node (removePane target node) := ih _ List.mem_cons_self
    have hr : 0 < ratio := hpos ⟨node, ratio⟩ List.mem_cons_self
    have hrest := ihc (fun c hc => ih c (by simp [hc])) fun c hc => hpos c (by simp [hc])
    have hflag : (removePane target node).2 = decide (target ∈ node.collectLeaves) := by
      by_cases hm : target ∈ node.collectLeaves
      · simp [hc.present hm, hm]
      · simp [hc.absent hm, hm]
    unfold removeFrom
    rcases heq : removePane target node with ⟨newNode, childRemoved⟩
    rw [heq] at hc hflag
    obtain rfl : childRemoved = decide (target ∈ node.collectLeaves) := hflag
    cases newNode with
    | some node' =>
      obtain ⟨kept, removed, hk, hl, hsame, heqs⟩ :=
        hrest ⟨s.newChildren ++ [⟨node', ratio⟩], s.removedRatio, s.removed ||
          decide (target ∈ node.collectLeaves)⟩
      obtain ⟨hw', hl'⟩ : WellFormed node' ∧ node'.collectLeaves = _ := hc.remains
      refine ⟨⟨node', ratio⟩ :: kept, removed, hk.keep (c := ⟨node, ratio⟩) hw' hr, ?_, ?_, ?_⟩
      · rw [leavesOf_cons, leavesOf_cons, List.filter_append, hl, hl']
      · intro hno
        have hno' : target ∉ node.collectLeaves ∧ target ∉ leavesOf children := by
          simpa using hno
        have := hc.absent hno'.1
        simp only [Prod.mk.injEq, Option.some.injEq] at this
        rw [this.1, hsame hno'.2]
      · simp only [heqs, leavesOf_cons, List.mem_append, Bool.decide_or, Bool.or_assoc,
          List.append_assoc, List.singleton_append]
    | none =>
      obtain ⟨kept, removed, hk, hl, -, heqs⟩ :=
        hrest ⟨s.newChildren, s.removedRatio + ratio, s.removed ||
          decide (target ∈ node.collectLeaves)⟩
      have hempty : node.collectLeaves.filter (· ≠ target) = [] := hc.remains
      refine ⟨kept, ratio + removed, hk.drop (c := ⟨node, ratio⟩) hr, ?_, ?_, ?_⟩
      · rw [leavesOf_cons, List.filter_append, hempty, hl, List.nil_append]
      · intro hno
        have := hc.absent (by simp at hno; exact hno.1)
        simp at this
      · simp only [heqs, leavesOf_cons, List.mem_append, Bool.decide_or, Bool.or_assoc, add_assoc]

theorem removePane_spec (target : Pane) {tree : LayoutTree Pane} (h : WellFormed tree) :
    RemoveSpec target tree (removePane target tree) := by
  induction tree using LayoutTree.induction with
  | leaf pane =>
    unfold removePane
    by_cases hp : pane = target
    · rw [if_pos hp]
      exact ⟨fun hno => absurd (by simp [hp]) hno, fun _ => rfl, by simp [Remains, hp]⟩
    · rw [if_neg hp]
      refine ⟨fun _ => rfl, fun hmem => ?_, .leaf pane, by simp [hp]⟩
      exact absurd (List.mem_singleton.1 hmem).symm hp
  | container direction children drag size ih =>
    obtain ⟨h2, hb, hc⟩ := h.inv
    obtain ⟨kept, removed, hk, hl, hsame, heq⟩ := removeFrom_spec target children
      (fun c hmem => ih c hmem (hc c hmem)) hb.pos ⟨[], 0, false⟩
    unfold removePane
    simp only [heq, Bool.false_or, List.nil_append, zero_add]
    by_cases hmem : target ∈ leavesOf children
    · rw [if_neg (by simpa using hmem)]
      refine ⟨fun hno => absurd hmem hno, fun _ => rfl, ?_⟩
      have := collapse_remains hb.sum hk direction size
      rwa [hl] at this
    · rw [if_pos (by simpa using hmem), hsame hmem]
      refine ⟨fun _ => rfl, fun hyes => absurd hyes hmem, h, ?_⟩
      rw [collectLeaves_container, ← hl, hsame hmem]

end Remove

/-! ### Closing the focused pane -/

/-- The loop variables of `close_focused`. -/
structure Closing (Pane : Type) where
  newChildren : List (LayoutChild Pane)
  closed : Bool
  closedIdx : Option ℕ
  removedRatio : ℚ
  focusNeighbor : Option Pane

/-- The pane next to the closed one, in the children that remain. -/
def Closing.neighbor (s : Closing Pane) : Option Pane :=
  match s.focusNeighbor, s.closedIdx with
  | none, some idx =>
    if 0 < idx then (s.newChildren[idx - 1]?).bind fun c => c.node.lastLeaf
    else s.newChildren.head?.bind fun c => c.node.firstLeaf
  | focusNeighbor, _ => focusNeighbor

mutual

def closeFocused (focused : Pane → Bool) :
    LayoutTree Pane → Option (Option (LayoutTree Pane) × Bool × Option Pane)
  | .leaf pane =>
    if focused pane then some (none, true, none) else some (some (.leaf pane), false, none)
  | .container direction children drag containerSize => do
    let s ← closeIn focused children 0 ⟨[], false, none, 0, none⟩
    if s.closed = false then
      some (some (.container direction s.newChildren drag containerSize), false, none)
    else
      let focusNeighbor := if s.newChildren.isEmpty then none else s.neighbor
      some (collapse direction s.newChildren s.removedRatio containerSize, true, focusNeighbor)

def closeIn (focused : Pane → Bool) :
    List (LayoutChild Pane) → ℕ → Closing Pane → Option (Closing Pane)
  | [], _, s => some s
  | ⟨child, ratio⟩ :: children, i, s =>
    if s.closed then
      closeIn focused children (i + 1) { s with newChildren := s.newChildren ++ [⟨child, ratio⟩] }
    else do
      let (newNode, wasClosed, nestedFocus) ← closeFocused focused child
      if wasClosed then
        let s := { s with closed := true, closedIdx := some i, focusNeighbor := nestedFocus }
        match newNode with
        | some node =>
          closeIn focused children (i + 1) { s with newChildren := s.newChildren ++ [⟨node, ratio⟩] }
        | none => closeIn focused children (i + 1) { s with removedRatio := ratio }
      else
        let node ← newNode
        closeIn focused children (i + 1) { s with newChildren := s.newChildren ++ [⟨node, ratio⟩] }

end

/-- `l'` is `l` without one element that has `hit`. -/
def Deleted (hit : Pane → Bool) (l l' : List Pane) : Prop :=
  ∃ l1 p l2, hit p = true ∧ l = l1 ++ p :: l2 ∧ l' = l1 ++ l2

theorem Deleted.append_left {hit : Pane → Bool} {l l' : List Pane} (h : Deleted hit l l')
    (as : List Pane) : Deleted hit (as ++ l) (as ++ l') := by
  obtain ⟨l1, p, l2, hp, rfl, rfl⟩ := h
  exact ⟨as ++ l1, p, l2, hp, by simp, by simp⟩

theorem Deleted.append_right {hit : Pane → Bool} {l l' : List Pane} (h : Deleted hit l l')
    (bs : List Pane) : Deleted hit (l ++ bs) (l' ++ bs) := by
  obtain ⟨l1, p, l2, hp, rfl, rfl⟩ := h
  exact ⟨l1, p, l2 ++ bs, hp, by simp, by simp⟩

/-- What closing the focused pane does to a tree. -/
structure CloseSpec (focused : Pane → Bool) (tree : LayoutTree Pane)
    (r : Option (Option (LayoutTree Pane) × Bool × Option Pane)) : Prop where
  absent : (∀ p ∈ tree.collectLeaves, focused p = false) → r = some (some tree, false, none)
  present : (∃ p ∈ tree.collectLeaves, focused p = true) → ∃ tree' focus leaves,
    r = some (tree', true, focus) ∧ Remains tree' leaves ∧
    Deleted focused tree.collectLeaves leaves

theorem closeIn_closed (focused : Pane → Bool) (children : List (LayoutChild Pane)) (i : ℕ)
    (s : Closing Pane) (h : s.closed = true) :
    closeIn focused children i s = some { s with newChildren := s.newChildren ++ children } := by
  induction children generalizing i s with
  | nil => simp [closeIn]
  | cons c children ih =>
    obtain ⟨node, ratio⟩ := c
    unfold closeIn
    rw [if_pos h, ih _ { s with newChildren := s.newChildren ++ [⟨node, ratio⟩] } h]
    simp

/-- The loop before anything is closed: it runs to the first child with a focused leaf, rebuilds or
drops that one, and copies the rest. -/
theorem closeIn_spec (focused : Pane → Bool) (children : List (LayoutChild Pane))
    (ih : ∀ c ∈ children, CloseSpec focused c.node (closeFocused focused c.node))
    (hw : ∀ c ∈ children, WellFormed c.node) (hpos : ∀ c ∈ children, 0 < c.ratio) (i : ℕ)
    (s : Closing Pane) (hs : s.closed = false) (hr : s.removedRatio = 0) :
    ((∀ p ∈ leavesOf children, focused p = false) →
      closeIn focused children i s = some { s with newChildren := s.newChildren ++ children }) ∧
    ((∃ p ∈ leavesOf children, focused p = true) → ∃ kept s', Kept children kept s'.removedRatio ∧
      closeIn focused children i s = some s' ∧ s'.closed = true ∧
      s'.newChildren = s.newChildren ++ kept ∧
      Deleted focused (leavesOf children) (leavesOf kept)) := by
  induction children generalizing i s with
  | nil => simp [closeIn]
  | cons c children ihc =>
    obtain ⟨node, ratio⟩ := c
    have hc : CloseSpec focused node (closeFocused focused node) := ih _ List.mem_cons_self
    have hwn : WellFormed node := hw ⟨node, ratio⟩ List.mem_cons_self
    have hrn : 0 < ratio := hpos ⟨node, ratio⟩ List.mem_cons_self
    have hwr : ∀ c ∈ children, WellFormed c.node := fun c hc => hw c (by simp [hc])
    have hposr : ∀ c ∈ children, 0 < c.ratio := fun c hc => hpos c (by simp [hc])
    have hrefl : Kept children children 0 := .refl hwr hposr
    unfold closeIn
    rw [if_neg (by simp [hs])]
    by_cases hfoc : ∃ p ∈ node.collectLeaves, focused p = true
    · refine ⟨fun hno => ?_, fun _ => ?_⟩
      · obtain ⟨p, hp, hpt⟩ := hfoc
        exact absurd hpt (by simp [hno p (by simp [hp])])
      obtain ⟨tree', focus, leaves, heq, hrem, hdel⟩ := hc.present hfoc
      simp only [heq, Option.bind_eq_bind, Option.bind_some, if_true]
      cases tree' with
      | some node' =>
        obtain ⟨hw', rfl⟩ := hrem
        dsimp only
        rw [closeIn_closed _ _ _ _ rfl]
        refine ⟨⟨node', ratio⟩ :: children,
          ⟨s.newChildren ++ [⟨node', ratio⟩] ++ children, true, some i, s.removedRatio, focus⟩,
          ?_, rfl, rfl, by simp, ?_⟩
        · exact hr ▸ hrefl.keep (c := ⟨node, ratio⟩) hw' hrn
        · simpa using hdel.append_right (leavesOf children)
      | none =>
        obtain rfl : leaves = [] := hrem
        dsimp only
        rw [closeIn_closed _ _ _ _ rfl]
        refine ⟨children, ⟨s.newChildren ++ children, true, some i, ratio, focus⟩, ?_, rfl, rfl, rfl, ?_⟩
        · simpa using hrefl.drop (c := ⟨node, ratio⟩) hrn
        · simpa using hdel.append_right (leavesOf children)
    · -- nothing is focused in the first child
      have hnone : ∀ p ∈ node.collectLeaves, focused p = false := by simpa using hfoc
      simp only [hc.absent hnone, Option.bind_eq_bind, Option.bind_some, Bool.false_eq_true, if_false]
      obtain ⟨hno, hyes⟩ := ihc (fun c hc => ih c (by simp [hc])) hwr hposr (i + 1)
        { s with newChildren := s.newChildren ++ [⟨node, ratio⟩] } hs hr
      constructor
      · intro h
        rw [hno fun p hp => h p (by simp [hp])]
        simp
      · rintro ⟨p, hp, hpt⟩
        have hp' : p ∈ leavesOf children := by
          rcases List.mem_append.1 (by simpa using hp) with hp | hp
          · exact absurd hpt (by simp [hnone p hp])
          · exact hp
        obtain ⟨kept, s', hk, heq, hcl, hnew, hdel⟩ := hyes ⟨p, hp', hpt⟩
        refine ⟨⟨node, ratio⟩ :: kept, s', hk.keep (c := ⟨node, ratio⟩) hwn hrn, heq, hcl, ?_, ?_⟩
        · simp [hnew]
        · simpa using hdel.append_left node.collectLeaves

theorem closeFocused_spec (focused : Pane → Bool) {tree : LayoutTree Pane} (h : WellFormed tree) :
    CloseSpec focused tree (closeFocused focused tree) := by
  induction tree using LayoutTree.induction with
  | leaf pane =>
    unfold closeFocused
    by_cases hp : focused pane = true
    · rw [if_pos hp]
      refine ⟨fun hno => absurd hp (by simp [hno pane (by simp)]), fun _ => ?_⟩
      exact ⟨none, none, [], rfl, rfl, [], pane, [], hp, rfl, rfl⟩
    · rw [if_neg hp]
      refine ⟨fun _ => rfl, fun ⟨p, hmem, hpt⟩ => ?_⟩
      rw [List.mem_singleton.1 hmem] at hpt
      exact absurd hpt hp
  | container direction children drag size ih =>
    obtain ⟨h2, hb, hc⟩ := h.inv
    obtain ⟨hno, hyes⟩ := closeIn_spec focused children (fun c hmem => ih c hmem (hc c hmem)) hc
      hb.pos 0 ⟨[], false, none, 0, none⟩ rfl rfl
    unfold closeFocused
    constructor
    · intro habs
      simp only [hno habs, Option.bind_eq_bind, Option.bind_some, if_true, List.nil_append]
    · intro hpres
      obtain ⟨kept, s', hk, heq, hcl, hnew, hdel⟩ := hyes hpres
      simp only [heq, Option.bind_eq_bind, Option.bind_some, hcl, Bool.true_eq_false, if_false]
      refine ⟨_, _, _, rfl, ?_, hdel⟩
      rw [hnew, List.nil_append]
      exact collapse_remains hb.sum hk direction size

end Paneflow.Layout.Close
