import Paneflow.Layout.Close

/-!
# Closing the focused pane is removing it

`close_focused` and `remove_pane` of layout/close.rs are two recursions that should agree when exactly
one pane is focused. Here the ratios may be anything: all that is asked of the tree is that it is
`Branching`. Both functions copy the children in front of the one with the pane and behind it, so what
they do to a container is what they do to that one child (`removeFrom_split`, `closeIn_split`).
-/

namespace Paneflow.Layout.CloseRemove

open Paneflow.Layout.Tree Paneflow.Layout.Close

variable {Pane : Type}

/-- Every container has at least two children. -/
inductive Branching : LayoutTree Pane → Prop
  | leaf (pane : Pane) : Branching (.leaf pane)
  | container {d : SplitDirection} {children : List (LayoutChild Pane)} {drag : Option DragState}
    {size : ℚ} : 2 ≤ children.length → (∀ c ∈ children, Branching c.node) →
    Branching (.container d children drag size)

theorem Branching.inv {d : SplitDirection} {children : List (LayoutChild Pane)}
    {drag : Option DragState} {size : ℚ} (h : Branching (.container d children drag size)) :
    2 ≤ children.length ∧ ∀ c ∈ children, Branching c.node := by
  cases h with
  | container h2 hc => exact ⟨h2, hc⟩

/-! ### First and last leaf -/

theorem Branching.leaves_ne_nil {tree : LayoutTree Pane} (h : Branching tree) :
    tree.collectLeaves ≠ [] := by
  induction tree using LayoutTree.induction with
  | leaf pane => simp
  | container d children drag size ih =>
    obtain ⟨h2, hc⟩ := h.inv
    cases children with
    | nil => simp at h2
    | cons c children =>
      have := ih c (by simp) (hc c (by simp))
      simp [this]

theorem Branching.firstLeaf_eq {tree : LayoutTree Pane} (h : Branching tree) :
    tree.firstLeaf = tree.collectLeaves.head? := by
  induction tree using LayoutTree.induction with
  | leaf pane => rfl
  | container d children drag size ih =>
    obtain ⟨h2, hc⟩ := h.inv
    cases children with
    | nil => simp at h2
    | cons c children =>
      have hne := (hc c (by simp)).leaves_ne_nil
      have hfirst := ih c (by simp) (hc c (by simp))
      obtain ⟨node, ratio⟩ := c
      unfold LayoutTree.firstLeaf firstLeafOf
      rw [collectLeaves_container, leavesOf_cons, List.head?_append_of_ne_nil _ hne, ← hfirst]

/-- The last leaf of a list of children, which is that of the last child. -/
theorem getLast?_leavesOf_concat (children : List (LayoutChild Pane)) {c : LayoutChild Pane}
    (hc : Branching c.node) :
    (leavesOf (children ++ [c])).getLast? = c.node.collectLeaves.getLast? := by
  rw [leavesOf_append, leavesOf_cons, leavesOf_nil, List.append_nil,
    List.getLast?_append_of_ne_nil _ hc.leaves_ne_nil]

theorem lastLeafOf_concat (children : List (LayoutChild Pane)) (c : LayoutChild Pane) :
    lastLeafOf (children ++ [c]) = c.node.lastLeaf := by
  obtain ⟨node, ratio⟩ := c
  induction children with
  | nil => simp [lastLeafOf]
  | cons b children ih =>
    cases children with
    | nil => simp [lastLeafOf]
    | cons b' children => simpa [lastLeafOf] using ih

theorem Branching.lastLeaf_eq {tree : LayoutTree Pane} (h : Branching tree) :
    tree.lastLeaf = tree.collectLeaves.getLast? := by
  induction tree using LayoutTree.induction with
  | leaf pane => rfl
  | container d children drag size ih =>
    obtain ⟨h2, hc⟩ := h.inv
    have hne : children ≠ [] := by
      rintro rfl
      simp at h2
    obtain ⟨before, c, rfl⟩ := (List.eq_nil_or_concat' children).resolve_left hne
    have hmem : c ∈ before ++ [c] := by simp
    unfold LayoutTree.lastLeaf
    rw [lastLeafOf_concat, collectLeaves_container, getLast?_leavesOf_concat before (hc c hmem),
      ih c hmem (hc c hmem)]

/-! ### One child among others -/

/-- The children once the one between `before` and `after` has become `node`, and the ratio that is
free then. -/
def around (before after : List (LayoutChild Pane)) (ratio : ℚ) :
    Option (LayoutTree Pane) → List (LayoutChild Pane) × ℚ
  | some node => (before ++ ⟨node, ratio⟩ :: after, 0)
  | none => (before ++ after, ratio)

section Remove
variable [DecidableEq Pane]

/-- A child that keeps its tree is copied. -/
theorem removeFrom_copies (target : Pane) {before : List (LayoutChild Pane)}
    (h : ∀ c ∈ before, removePane target c.node = (some c.node, false))
    (after : List (LayoutChild Pane)) (s : Removing Pane) :
    removeFrom target (before ++ after) s =
      removeFrom target after { s with newChildren := s.newChildren ++ before } := by
  induction before generalizing s with
  | nil => simp
  | cons c before ih =>
    obtain ⟨node, ratio⟩ := c
    have hnode : removePane target node = (some node, false) := h _ List.mem_cons_self
    rw [List.cons_append]
    conv_lhs => unfold removeFrom
    simp only [hnode, Bool.or_false]
    rw [ih fun c hc => h c (List.mem_cons_of_mem _ hc)]
    simp

theorem removePane_absent {target : Pane} {tree : LayoutTree Pane}
    (h : target ∉ tree.collectLeaves) : removePane target tree = (some tree, false) := by
  induction tree using LayoutTree.induction with
  | leaf pane =>
    unfold removePane
    rw [if_neg (by rintro rfl; simp at h)]
  | container direction children drag size ih =>
    have hcopy := removeFrom_copies target
      (fun c hc => ih c hc fun hmem => h (mem_leavesOf.2 ⟨c, hc, hmem⟩)) [] ⟨[], 0, false⟩
    rw [List.append_nil] at hcopy
    unfold removePane
    rw [hcopy]
    simp [removeFrom]

/-- Removing from children of which one has the pane. -/
theorem removeFrom_split {target : Pane} {before after : List (LayoutChild Pane)}
    {c : LayoutChild Pane} {node : Option (LayoutTree Pane)} (hbefore : target ∉ leavesOf before)
    (hafter : target ∉ leavesOf after) (hc : removePane target c.node = (node, true)) :
    removeFrom target (before ++ c :: after) ⟨[], 0, false⟩ =
      ⟨(around before after c.ratio node).1, (around before after c.ratio node).2, true⟩ := by
  have hcopies : ∀ children : List (LayoutChild Pane), target ∉ leavesOf children →
      ∀ c ∈ children, removePane target c.node = (some c.node, false) :=
    fun children hno c hc => removePane_absent fun hmem => hno (mem_leavesOf.2 ⟨c, hc, hmem⟩)
  rw [removeFrom_copies target (hcopies before hbefore)]
  obtain ⟨child, ratio⟩ := c
  dsimp only at hc
  unfold removeFrom
  rw [hc]
  have hrest := removeFrom_copies target (hcopies after hafter) []
  simp only [List.append_nil] at hrest
  cases node with
  | some node =>
    dsimp only
    rw [hrest]
    simp [removeFrom, around]
  | none =>
    dsimp only
    rw [hrest]
    simp [removeFrom, around]

end Remove

theorem closeIn_copies {focused : Pane → Bool} {before : List (LayoutChild Pane)}
    (h : ∀ c ∈ before, closeFocused focused c.node = some (some c.node, false, none))
    (after : List (LayoutChild Pane)) (i : ℕ) (s : Closing Pane) (hs : s.closed = false) :
    closeIn focused (before ++ after) i s =
      closeIn focused after (i + before.length) { s with newChildren := s.newChildren ++ before } := by
  induction before generalizing i s with
  | nil => simp
  | cons c before ih =>
    obtain ⟨node, ratio⟩ := c
    have hnode : closeFocused focused node = some (some node, false, none) := h _ List.mem_cons_self
    rw [List.cons_append]
    conv_lhs => unfold closeIn
    simp only [hs, hnode, Option.bind_eq_bind, Option.bind_some, Bool.false_eq_true, if_false]
    refine (ih (fun c hc => h c (List.mem_cons_of_mem _ hc)) (i + 1) _ rfl).trans ?_
    simp [Nat.add_assoc, Nat.add_comm 1]

theorem closeFocused_absent {focused : Pane → Bool} {tree : LayoutTree Pane}
    (h : ∀ q ∈ tree.collectLeaves, focused q = false) :
    closeFocused focused tree = some (some tree, false, none) := by
  induction tree using LayoutTree.induction with
  | leaf pane =>
    unfold closeFocused
    rw [if_neg (by simp [h pane (by simp)])]
  | container direction children drag size ih =>
    have hcopy := closeIn_copies (fun c hc => ih c hc fun q hq => h q (mem_leavesOf.2 ⟨c, hc, hq⟩)) []
      0 ⟨[], false, none, 0, none⟩ rfl
    rw [List.append_nil] at hcopy
    unfold closeFocused
    rw [hcopy]
    simp [closeIn]

/-- Closing among children of which one has the focused pane. -/
theorem closeIn_split {focused : Pane → Bool} {before : List (LayoutChild Pane)}
    {c : LayoutChild Pane} {node : Option (LayoutTree Pane)} {nested : Option Pane}
    (hbefore : ∀ q ∈ leavesOf before, focused q = false)
    (hc : closeFocused focused c.node = some (node, true, nested))
    (after : List (LayoutChild Pane)) :
    closeIn focused (before ++ c :: after) 0 ⟨[], false, none, 0, none⟩ =
      some ⟨(around before after c.ratio node).1, true, some before.length,
        (around before after c.ratio node).2, nested⟩ := by
  have hcopies : ∀ c ∈ before, closeFocused focused c.node = some (some c.node, false, none) :=
    fun c hc => closeFocused_absent fun q hq => hbefore q (mem_leavesOf.2 ⟨c, hc, hq⟩)
  rw [closeIn_copies hcopies _ _ _ rfl]
  obtain ⟨child, ratio⟩ := c
  dsimp only at hc
  unfold closeIn
  simp only [hc, Bool.false_eq_true, if_false, Option.bind_eq_bind, Option.bind_some, if_true]
  cases node with
  | some node =>
    dsimp only
    rw [closeIn_closed _ _ _ _ rfl]
    simp [around]
  | none =>
    dsimp only
    rw [closeIn_closed _ _ _ _ rfl]
    simp [around]

/-! ### The agreement -/

/-- The leaves that a removal leaves behind. -/
def remaining (tree : Option (LayoutTree Pane)) : List Pane :=
  match tree with
  | none => []
  | some tree => tree.collectLeaves

/-- A pane next to the gap between `front` and `back`, if there is any pane. -/
structure NextTo (front back : List Pane) (neighbor : Option Pane) : Prop where
  none_iff : neighbor = none ↔ front ++ back = []
  adjacent : ∀ q, neighbor = some q → front.getLast? = some q ∨ back.head? = some q

/-- More panes on the outer sides do not change what is next to the gap. -/
theorem NextTo.widen {front back : List Pane} {q : Pane} (h : NextTo front back (some q))
    (outerFront outerBack : List Pane) :
    NextTo (outerFront ++ front) (back ++ outerBack) (some q) := by
  constructor
  · have hne : front ++ back ≠ [] := fun hnil => by simpa using h.none_iff.2 hnil
    constructor
    · intro hno
      simp at hno
    · intro hnil
      simp only [List.append_eq_nil_iff] at hnil
      exact absurd (by simp [hnil]) hne
  · intro q' hq'
    rcases h.adjacent q' hq' with hlast | hhead
    · exact .inl (by rw [List.getLast?_append, hlast]; rfl)
    · exact .inr (by rw [List.head?_append, hhead]; rfl)

/-- Where the closed child is dropped, the neighbour is the last leaf of the child before it, or else
the first leaf of the child behind it. -/
theorem neighbor_dropped {before after : List (LayoutChild Pane)}
    (hbranch : ∀ c ∈ before ++ after, Branching c.node) (hne : before ++ after ≠ []) (removed : ℚ) :
    NextTo (leavesOf before) (leavesOf after)
      (Closing.neighbor ⟨before ++ after, true, some before.length, removed, none⟩) := by
  rcases List.eq_nil_or_concat' before with rfl | ⟨front, c, rfl⟩
  · cases after with
    | nil => simp at hne
    | cons c after =>
      have hc : Branching c.node := hbranch c (by simp)
      have hfirst : Closing.neighbor ⟨[] ++ c :: after, true, some 0, removed, none⟩ =
          (leavesOf (c :: after)).head? := by
        rw [leavesOf_cons, List.head?_append_of_ne_nil _ hc.leaves_ne_nil, ← hc.firstLeaf_eq]
        rfl
      constructor
      · show Closing.neighbor ⟨[] ++ c :: after, true, some 0, removed, none⟩ = none ↔ _
        rw [hfirst, List.head?_eq_none_iff]
        simp
      · intro q hq
        exact .inr (hfirst ▸ hq)
  · have hc : Branching c.node := hbranch c (by simp)
    have hlast : Closing.neighbor ⟨front ++ [c] ++ after, true, some (front ++ [c]).length, removed,
        none⟩ = (leavesOf (front ++ [c])).getLast? := by
      rw [getLast?_leavesOf_concat front hc, ← hc.lastLeaf_eq]
      simp [Closing.neighbor]
    constructor
    · rw [hlast, List.getLast?_eq_none_iff]
      have := hc.leaves_ne_nil
      simp [this]
    · intro q hq
      exact .inl (hlast ▸ hq)

theorem leaves_collapse (direction : SplitDirection) (children : List (LayoutChild Pane))
    (removed size : ℚ) :
    remaining (collapse direction children removed size) = leavesOf children := by
  unfold collapse
  match children with
  | [] => rfl
  | [c] => simp [remaining]
  | c :: c' :: rest =>
    dsimp only
    split_ifs with hr
    · unfold redistributeEqual
      rw [if_neg (by simp)]
      exact leavesOf_map_ratio _ _
    · unfold normalizeRatios
      dsimp only
      split_ifs
      · exact leavesOf_map_ratio _ _
      · rfl

/-- What both functions make of a tree in which `p`, between `front` and `back`, is the one focused
leaf. -/
structure Agree [DecidableEq Pane] (focused : Pane → Bool) (p : Pane) (front back : List Pane)
    (tree : LayoutTree Pane) (tree' : Option (LayoutTree Pane)) (neighbor : Option Pane) : Prop where
  close : closeFocused focused tree = some (tree', true, neighbor)
  remove : removePane p tree = (tree', true)
  leaves : remaining tree' = front ++ back
  gone : tree' ≠ none → front ++ back ≠ []
  next : NextTo front back neighbor

/-- The leaf `p` of a list of children is a leaf of one of them. -/
theorem leavesOf_split {children : List (LayoutChild Pane)} {p : Pane} {front back : List Pane}
    (h : leavesOf children = front ++ p :: back) :
    ∃ before c after inner outer, children = before ++ c :: after ∧
      c.node.collectLeaves = inner ++ p :: outer ∧ front = leavesOf before ++ inner ∧
      back = outer ++ leavesOf after := by
  induction children generalizing front with
  | nil => simp at h
  | cons c children ih =>
    rw [leavesOf_cons] at h
    rcases List.append_eq_append_iff.1 h with ⟨more, hfront, hrest⟩ | ⟨more, hnode, hrest⟩
    · -- the pane comes after the leaves of the first child
      obtain ⟨before, c', after, inner, outer, rfl, hc', hinner, hback⟩ := ih hrest
      refine ⟨c :: before, c', after, inner, outer, rfl, hc', ?_, hback⟩
      rw [hfront, hinner, leavesOf_cons, List.append_assoc]
    · cases more with
      | nil =>
        obtain ⟨before, c', after, inner, outer, rfl, hc', hinner, hback⟩ :=
          @ih [] (by simpa using hrest.symm)
        refine ⟨c :: before, c', after, inner, outer, rfl, hc', ?_, hback⟩
        rw [List.append_nil] at hnode
        rw [leavesOf_cons, List.append_assoc, ← hinner, List.append_nil, hnode]
      | cons q more =>
        obtain ⟨rfl, hback⟩ : p = q ∧ back = more ++ leavesOf children := by simpa using hrest
        exact ⟨[], c, children, front, more, rfl, hnode, by simp, hback⟩

theorem agree [DecidableEq Pane] {focused : Pane → Bool} {p : Pane} (hp : focused p = true)
    {tree : LayoutTree Pane} (h : Branching tree) {front back : List Pane}
    (hleaves : tree.collectLeaves = front ++ p :: back)
    (hfront : ∀ q ∈ front, focused q = false) (hback : ∀ q ∈ back, focused q = false) :
    ∃ tree' neighbor, Agree focused p front back tree tree' neighbor := by
  induction tree using LayoutTree.induction generalizing front back with
  | leaf pane =>
    obtain ⟨rfl, rfl, rfl⟩ : front = [] ∧ p = pane ∧ back = [] := by
      cases front with
      | nil => simpa [eq_comm] using hleaves
      | cons q front => simp at hleaves
    refine ⟨none, none, ?_, ?_, rfl, by simp, ⟨by simp, by simp⟩⟩
    · unfold closeFocused
      rw [if_pos hp]
    · unfold removePane
      rw [if_pos rfl]
  | container direction children drag size ih =>
    obtain ⟨h2, hc⟩ := h.inv
    obtain ⟨before, c, after, inner, outer, rfl, hcleaves, rfl, rfl⟩ := leavesOf_split hleaves
    have hbefore : ∀ q ∈ leavesOf before, focused q = false := fun q hq => hfront q (by simp [hq])
    have hafter : ∀ q ∈ leavesOf after, focused q = false := fun q hq => hback q (by simp [hq])
    have hmem : c ∈ before ++ c :: after := by simp
    obtain ⟨node, nested, hagree⟩ := ih c hmem (hc c hmem) hcleaves
      (fun q hq => hfront q (by simp [hq])) fun q hq => hback q (by simp [hq])
    have habsent : ∀ {leaves : List Pane}, (∀ q ∈ leaves, focused q = false) → p ∉ leaves :=
      fun hno hmem => by simp [hno p hmem] at hp
    have hclose := closeIn_split hbefore hagree.close after
    have hremove := removeFrom_split (habsent hbefore) (habsent hafter) hagree.remove
    refine ⟨collapse direction (around before after c.ratio node).1
      (around before after c.ratio node).2 size, Closing.neighbor ⟨(around before after c.ratio node).1,
        true, some before.length, (around before after c.ratio node).2, nested⟩, ?_⟩
    cases node with
    | some node =>
      -- the pane was found further down, and so was its neighbour
      have hnode : node.collectLeaves = inner ++ outer := hagree.leaves
      have hne : inner ++ outer ≠ [] := hagree.gone (by simp)
      obtain ⟨q, rfl⟩ : ∃ q, nested = some q := by
        cases nested with
        | none => exact absurd (hagree.next.none_iff.1 rfl) hne
        | some q => exact ⟨q, rfl⟩
      refine ⟨?_, ?_, ?_, ?_, ?_⟩
      · unfold closeFocused
        rw [hclose]
        simp [around]
      · unfold removePane
        rw [hremove]
        simp
      · rw [leaves_collapse]
        simp [around, hnode]
      · intro _ hnil
        simp only [List.append_eq_nil_iff] at hnil
        exact hne (by simp [hnil])
      · exact hagree.next.widen (leavesOf before) (leavesOf after)
    | none =>
      -- the child is gone, and the neighbour is in the children that remain
      obtain ⟨rfl, rfl⟩ : inner = [] ∧ outer = [] := by simpa [remaining] using hagree.leaves
      obtain rfl : nested = none := hagree.next.none_iff.2 rfl
      have hne : before ++ after ≠ [] := by
        intro hnil
        simp only [List.append_eq_nil_iff] at hnil
        simp [hnil] at h2
      have hkept : ∀ c' ∈ before ++ after, Branching c'.node := fun c' hc' => hc c' (by
        rcases List.mem_append.1 hc' with hc' | hc'
        · simp [hc']
        · simp [hc'])
      simp only [List.append_nil, List.nil_append]
      refine ⟨?_, ?_, ?_, ?_, neighbor_dropped hkept hne c.ratio⟩
      · unfold closeFocused
        rw [hclose]
        simp only [Option.bind_eq_bind, Option.bind_some, Bool.true_eq_false, if_false, around]
        rw [if_neg (by simpa using hne)]
      · unfold removePane
        rw [hremove]
        simp
      · rw [leaves_collapse]
        simp [around]
      · intro _ hnil
        obtain ⟨c', rest, hcons⟩ := List.exists_cons_of_ne_nil hne
        rw [← leavesOf_append, hcons, leavesOf_cons, List.append_eq_nil_iff] at hnil
        exact (hkept c' (by simp [hcons])).leaves_ne_nil hnil.1

/-- With exactly one focused pane, closing the focused pane and removing that pane leave the same
tree, ratios included, and the focus goes to a leaf next to it as long as there is another. -/
theorem closeFocused_eq_removePane [DecidableEq Pane] {focused : Pane → Bool} {p : Pane}
    {tree : LayoutTree Pane} (h : Branching tree)
    (hone : tree.collectLeaves.filter focused = [p]) :
    ∃ tree' neighbor front back, closeFocused focused tree = some (tree', true, neighbor) ∧
      removePane p tree = (tree', true) ∧ tree.collectLeaves = front ++ p :: back ∧
      remaining tree' = front ++ back ∧ (neighbor = none ↔ tree.collectLeaves = [p]) ∧
      ∀ q, neighbor = some q → front.getLast? = some q ∨ back.head? = some q := by
  obtain ⟨front, back, hleaves, hfront, hp, hback⟩ := List.filter_eq_cons_iff.1 hone
  have hfront' : ∀ q ∈ front, focused q = false := by simpa using hfront
  have hback' : ∀ q ∈ back, focused q = false := by simpa using hback
  obtain ⟨tree', neighbor, hagree⟩ := agree hp h hleaves hfront' hback'
  refine ⟨tree', neighbor, front, back, hagree.close, hagree.remove, hleaves, hagree.leaves, ?_,
    hagree.next.adjacent⟩
  rw [hagree.next.none_iff, hleaves]
  cases front with
  | nil => simp
  | cons q front => simp

/-- One pane beside two stacked ones. -/
def threePanes : LayoutTree ℕ :=
  .container .vertical [⟨.leaf 1, 1 / 3⟩,
    ⟨.container .horizontal [⟨.leaf 2, 1 / 4⟩, ⟨.leaf 3, 1 / 2⟩] none 0, 2 / 3⟩] none 0

theorem branching_threePanes : Branching threePanes := by
  refine .container le_rfl fun c hc => ?_
  simp only [List.mem_cons, List.not_mem_nil, or_false] at hc
  rcases hc with rfl | rfl
  · exact .leaf 1
  · refine .container le_rfl fun c hc => ?_
    simp only [List.mem_cons, List.not_mem_nil, or_false] at hc
    rcases hc with rfl | rfl
    · exact .leaf 2
    · exact .leaf 3

/-- The upper one of the stacked panes is focused. -/
theorem closeFocused_eq_removePane_threePanes :
    ∃ tree' neighbor front back, closeFocused (· == 2) threePanes = some (tree', true, neighbor) ∧
      removePane 2 threePanes = (tree', true) ∧ [1, 2, 3] = front ++ 2 :: back ∧
      remaining tree' = front ++ back ∧ (neighbor = none ↔ [1, 2, 3] = [2]) ∧
      ∀ q, neighbor = some q → front.getLast? = some q ∨ back.head? = some q :=
  closeFocused_eq_removePane branching_threePanes (by decide)

end Paneflow.Layout.CloseRemove
