import Paneflow.Layout.Close
import Paneflow.Layout.Mutations
import Paneflow.Layout.Presets

/-!
# Runs of layout operations

The operations that the application applies to the layout tree of a tab, in any order, from a single
pane or a preset. Main result: `reach_lawful`, every tree that a run reaches is well formed with
distinct leaves, and every operation has exactly its `Effect` on the sequence of leaves.
-/

namespace Paneflow.Layout.Run

open Paneflow.Layout.Tree Paneflow.Layout.Mutations Paneflow.Layout.Close Paneflow.Layout.Presets

variable {Pane : Type} [DecidableEq Pane]

inductive Op (Pane : Type) where
  | splitAtPane (target : Pane) (direction : SplitDirection) (newPane : Pane)
  | splitAtFocused (focused : Pane → Bool) (direction : SplitDirection) (newPane : Pane)
  | splitFirstLeaf (direction : SplitDirection) (newPane : Pane)
  | removePane (target : Pane)
  | closeFocused (focused : Pane → Bool)
  | swapPanes (a b : Pane)
  | equalizeRatios

/-- The tree that is left, if any, and whether the operation found its target. -/
def step (tree : LayoutTree Pane) : Op Pane → Option (Option (LayoutTree Pane) × Bool)
  | .splitAtPane target direction newPane =>
    let (tree', found) := splitAtPane target direction newPane tree
    some (some tree', found)
  | .splitAtFocused focused direction newPane =>
    let (tree', found) := splitAtFocused focused direction newPane tree
    some (some tree', found)
  | .splitFirstLeaf direction newPane => some (some (splitFirstLeaf direction newPane tree), true)
  | .removePane target => some (removePane target tree)
  | .closeFocused focused => do
    let (tree', closed, _) ← closeFocused focused tree
    some (tree', closed)
  | .swapPanes a b =>
    let (tree', swapped) := swapPanes a b tree
    some (some tree', swapped)
  | .equalizeRatios => some (some (equalizeRatios tree), true)

/-- At most one of the panes has the focus. -/
def OneFocused (focused : Pane → Bool) (panes : List Pane) : Prop :=
  ∀ p ∈ panes, ∀ q ∈ panes, focused p = true → focused q = true → p = q

/-- A new pane is not in the tree yet, and the window has one focus. -/
def Admissible (tree : LayoutTree Pane) : Op Pane → Prop
  | .splitAtPane _ _ newPane => newPane ∉ tree.collectLeaves
  | .splitAtFocused focused _ newPane =>
    newPane ∉ tree.collectLeaves ∧ OneFocused focused tree.collectLeaves
  | .splitFirstLeaf _ newPane => newPane ∉ tree.collectLeaves
  | .closeFocused focused => OneFocused focused tree.collectLeaves
  | .removePane _ => True
  | .swapPanes _ _ => True
  | .equalizeRatios => True

def leavesLeft : Option (LayoutTree Pane) → List Pane
  | none => []
  | some tree => tree.collectLeaves

/-- The new pane stands right after the target and nothing else changed in the order of leaves. -/
def SplitEffect (target newPane : Pane) (before after : List Pane) : Prop :=
  ∃ l1 l2, before = l1 ++ target :: l2 ∧ after = l1 ++ target :: newPane :: l2

/-- Exactly the target is gone from the order of leaves. -/
def RemoveEffect (target : Pane) (before after : List Pane) : Prop :=
  ∃ l1 l2, before = l1 ++ target :: l2 ∧ after = l1 ++ l2

/-- What an operation does to the leaves of a tree; without its target it leaves the tree as it is. -/
def Effect (tree : LayoutTree Pane) (tree' : Option (LayoutTree Pane)) (done : Bool) :
    Op Pane → Prop
  | .splitAtPane target _ newPane =>
    (target ∈ tree.collectLeaves →
      done = true ∧ SplitEffect target newPane tree.collectLeaves (leavesLeft tree')) ∧
    (target ∉ tree.collectLeaves → done = false ∧ tree' = some tree)
  | .splitAtFocused focused _ newPane =>
    (∀ target ∈ tree.collectLeaves, focused target = true →
      done = true ∧ SplitEffect target newPane tree.collectLeaves (leavesLeft tree')) ∧
    ((∀ p ∈ tree.collectLeaves, focused p = false) → done = false ∧ tree' = some tree)
  | .splitFirstLeaf _ newPane =>
    ∃ target, tree.collectLeaves.head? = some target ∧
      SplitEffect target newPane tree.collectLeaves (leavesLeft tree')
  | .removePane target =>
    (target ∈ tree.collectLeaves →
      done = true ∧ RemoveEffect target tree.collectLeaves (leavesLeft tree')) ∧
    (target ∉ tree.collectLeaves → done = false ∧ tree' = some tree)
  | .closeFocused focused =>
    (∀ target ∈ tree.collectLeaves, focused target = true →
      done = true ∧ RemoveEffect target tree.collectLeaves (leavesLeft tree')) ∧
    ((∀ p ∈ tree.collectLeaves, focused p = false) → done = false ∧ tree' = some tree)
  | .swapPanes a b =>
    (a ≠ b → a ∈ tree.collectLeaves → b ∈ tree.collectLeaves →
      done = true ∧ leavesLeft tree' = tree.collectLeaves.map (Equiv.swap a b)) ∧
    (a = b ∨ a ∉ tree.collectLeaves ∨ b ∉ tree.collectLeaves → done = false ∧ tree' = some tree)
  | .equalizeRatios => leavesLeft tree' = tree.collectLeaves

/-! ### One operation -/

omit [DecidableEq Pane] in
/-- A split at whatever pane has `hit`, when only the target can have it. -/
theorem splitEffect_of_spec {hit : Pane → Bool} {new : Pane} {tree : LayoutTree Pane}
    {r : LayoutTree Pane × Bool} (h : SplitSpec hit new tree r) {target : Pane}
    (hmem : target ∈ tree.collectLeaves) (hhit : hit target = true)
    (hone : ∀ p ∈ tree.collectLeaves, hit p = true → p = target) :
    r.2 = true ∧ SplitEffect target new tree.collectLeaves r.1.collectLeaves := by
  obtain ⟨tree', rfl, -, l1, p, l2, hp, hl, hl'⟩ := h.present ⟨target, hmem, hhit⟩
  obtain rfl := hone p (by simp [hl]) hp
  exact ⟨rfl, l1, l2, hl, hl'⟩

omit [DecidableEq Pane] in
theorem wellFormed_of_splitSpec {hit : Pane → Bool} {new : Pane} {tree : LayoutTree Pane}
    {r : LayoutTree Pane × Bool} (h : SplitSpec hit new tree r) (hw : WellFormed tree) :
    WellFormed r.1 := by
  by_cases hhit : ∃ p ∈ tree.collectLeaves, hit p = true
  · obtain ⟨tree', rfl, hw', -⟩ := h.present hhit
    exact hw'
  · have hno : ∀ p ∈ tree.collectLeaves, hit p = false := by simpa using hhit
    rw [h.absent hno]
    exact hw

/-- The tree that is left is well formed. -/
def LeftWellFormed (tree' : Option (LayoutTree Pane)) : Prop :=
  ∀ tree, tree' = some tree → WellFormed tree

omit [DecidableEq Pane] in
theorem leavesLeft_of_remains {tree' : Option (LayoutTree Pane)} {leaves : List Pane}
    (h : Remains tree' leaves) : leavesLeft tree' = leaves ∧ LeftWellFormed tree' := by
  cases tree' with
  | none => exact ⟨h.symm, fun _ h => by cases h⟩
  | some tree => exact ⟨h.2, fun _ h' => by cases h'; exact h.1⟩

/-- Without repetition, filtering out an element removes its one occurrence. -/
theorem removeEffect_filter {target : Pane} {l : List Pane} (hnd : l.Nodup) (hmem : target ∈ l) :
    RemoveEffect target l (l.filter (· ≠ target)) := by
  obtain ⟨l1, l2, rfl⟩ := List.append_of_mem hmem
  refine ⟨l1, l2, rfl, ?_⟩
  have h1 : ∀ p ∈ l1, p ≠ target := by
    rintro p hp rfl
    exact (List.nodup_append.1 hnd).2.2 p hp p (by simp) rfl
  have h2 : ∀ p ∈ l2, p ≠ target := by
    rintro p hp rfl
    have := (List.nodup_append.1 hnd).2.1
    rw [List.nodup_cons] at this
    exact this.1 hp
  rw [List.filter_append, List.filter_cons_of_neg (by simp), List.filter_eq_self.2 (by simpa using h1),
    List.filter_eq_self.2 (by simpa using h2)]

/-- **One operation** on a well-formed tree with distinct leaves. -/
theorem step_effect {tree : LayoutTree Pane} (hw : WellFormed tree) (hnd : tree.collectLeaves.Nodup)
    (op : Op Pane) (ha : Admissible tree op) :
    ∃ tree' done, step tree op = some (tree', done) ∧ LeftWellFormed tree' ∧
      Effect tree tree' done op := by
  cases op with
  | splitAtPane target direction newPane =>
    have hs := splitAt_spec (fun pane => decide (pane = target)) direction newPane hw
    refine ⟨some (splitAtPane target direction newPane tree).1,
      (splitAtPane target direction newPane tree).2, rfl, ?_, ?_, ?_⟩
    · rintro _ ⟨⟩
      exact wellFormed_of_splitSpec hs hw
    · intro hmem
      exact splitEffect_of_spec hs hmem (by simp) (by simp)
    · intro hno
      have hne : ∀ p ∈ tree.collectLeaves, decide (p = target) = false := by
        intro p hp
        simpa using ne_of_mem_of_not_mem hp hno
      unfold splitAtPane
      rw [hs.absent hne]
      exact ⟨rfl, rfl⟩
  | splitAtFocused focused direction newPane =>
    have hs := splitAt_spec focused direction newPane hw
    refine ⟨some (splitAtFocused focused direction newPane tree).1,
      (splitAtFocused focused direction newPane tree).2, rfl, ?_, ?_, ?_⟩
    · rintro _ ⟨⟩
      exact wellFormed_of_splitSpec hs hw
    · intro target hmem hfoc
      exact splitEffect_of_spec hs hmem hfoc fun p hp hpf => ha.2 p hp target hmem hpf hfoc
    · intro hno
      unfold splitAtFocused
      rw [hs.absent hno]
      exact ⟨rfl, rfl⟩
  | splitFirstLeaf direction newPane =>
    obtain ⟨hw', p, l, hl, hl'⟩ := splitFirstLeaf_spec direction newPane hw
    refine ⟨_, _, rfl, ?_, p, by rw [hl]; rfl, [], l, hl, hl'⟩
    rintro _ ⟨⟩
    exact hw'
  | removePane target =>
    have hs := removePane_spec target hw
    obtain ⟨hl, hw'⟩ := leavesLeft_of_remains hs.remains
    refine ⟨_, _, rfl, hw', ?_, ?_⟩
    · intro hmem
      rw [hl]
      exact ⟨hs.present hmem, removeEffect_filter hnd hmem⟩
    · intro hno
      rw [hs.absent hno]
      exact ⟨rfl, rfl⟩
  | closeFocused focused =>
    have hs := closeFocused_spec focused hw
    by_cases hfoc : ∃ p ∈ tree.collectLeaves, focused p = true
    · obtain ⟨tree', focus, leaves, heq, hrem, l1, p, l2, hp, hl, hl'⟩ := hs.present hfoc
      obtain ⟨hleft, hw'⟩ := leavesLeft_of_remains hrem
      refine ⟨tree', true, by simp [step, heq], hw', ?_, ?_⟩
      · intro target hmem htf
        obtain rfl := ha p (by simp [hl]) target hmem hp htf
        exact ⟨rfl, l1, l2, hl, hleft.trans hl'⟩
      · intro hno
        exact absurd hp (by simp [hno p (by simp [hl])])
    · have hno : ∀ p ∈ tree.collectLeaves, focused p = false := by simpa using hfoc
      refine ⟨some tree, false, by simp [step, hs.absent hno], ?_, ?_, fun _ => ⟨rfl, rfl⟩⟩
      · rintro _ ⟨⟩
        exact hw
      · intro target hmem htf
        exact absurd ⟨target, hmem, htf⟩ hfoc
  | swapPanes a b =>
    obtain ⟨hw', hyes, hno⟩ := swapPanes_spec a b hw
    refine ⟨some (swapPanes a b tree).1, (swapPanes a b tree).2, rfl, ?_, hyes, ?_⟩
    · rintro _ ⟨⟩
      exact hw'
    · intro h
      rw [hno h]
      exact ⟨rfl, rfl⟩
  | equalizeRatios =>
    obtain ⟨hw', hl⟩ := equalizeRatios_spec hw
    refine ⟨_, _, rfl, ?_, hl⟩
    rintro _ ⟨⟩
    exact hw'

omit [DecidableEq Pane] in
theorem SplitEffect.nodup {target newPane : Pane} {before after : List Pane}
    (h : SplitEffect target newPane before after) (hnd : before.Nodup) (hnew : newPane ∉ before) :
    after.Nodup := by
  obtain ⟨l1, l2, rfl, rfl⟩ := h
  have hperm : (l1 ++ target :: newPane :: l2).Perm (newPane :: (l1 ++ target :: l2)) := by
    rw [show l1 ++ target :: newPane :: l2 = (l1 ++ [target]) ++ newPane :: l2 by simp,
      show l1 ++ target :: l2 = (l1 ++ [target]) ++ l2 by simp]
    exact List.perm_middle
  exact hperm.nodup_iff.2 (List.nodup_cons.2 ⟨hnew, hnd⟩)

omit [DecidableEq Pane] in
theorem RemoveEffect.nodup {target : Pane} {before after : List Pane}
    (h : RemoveEffect target before after) (hnd : before.Nodup) : after.Nodup := by
  obtain ⟨l1, l2, rfl, rfl⟩ := h
  exact hnd.sublist ((List.Sublist.refl l1).append (List.sublist_cons_self target l2))

/-- Fresh panes keep the leaves distinct. -/
theorem effect_nodup {tree : LayoutTree Pane} {tree' : Option (LayoutTree Pane)} {done : Bool}
    {op : Op Pane} (hnd : tree.collectLeaves.Nodup) (ha : Admissible tree op)
    (h : Effect tree tree' done op) : (leavesLeft tree').Nodup := by
  cases op with
  | splitAtPane target direction newPane =>
    by_cases hmem : target ∈ tree.collectLeaves
    · exact (h.1 hmem).2.nodup hnd ha
    · rw [(h.2 hmem).2]
      exact hnd
  | splitAtFocused focused direction newPane =>
    by_cases hfoc : ∃ p ∈ tree.collectLeaves, focused p = true
    · obtain ⟨p, hp, hpf⟩ := hfoc
      exact (h.1 p hp hpf).2.nodup hnd ha.1
    · rw [(h.2 (by simpa using hfoc)).2]
      exact hnd
  | splitFirstLeaf direction newPane =>
    obtain ⟨target, -, hs⟩ := h
    exact hs.nodup hnd ha
  | removePane target =>
    by_cases hmem : target ∈ tree.collectLeaves
    · exact (h.1 hmem).2.nodup hnd
    · rw [(h.2 hmem).2]
      exact hnd
  | closeFocused focused =>
    by_cases hfoc : ∃ p ∈ tree.collectLeaves, focused p = true
    · obtain ⟨p, hp, hpf⟩ := hfoc
      exact (h.1 p hp hpf).2.nodup hnd
    · rw [(h.2 (by simpa using hfoc)).2]
      exact hnd
  | swapPanes a b =>
    by_cases hab : a = b ∨ a ∉ tree.collectLeaves ∨ b ∉ tree.collectLeaves
    · rw [(h.2 hab).2]
      exact hnd
    · push Not at hab
      rw [(h.1 hab.1 hab.2.1 hab.2.2).2]
      exact hnd.map (Equiv.injective _)
  | equalizeRatios =>
    rw [show leavesLeft tree' = tree.collectLeaves from h]
    exact hnd

/-! ### Runs -/

/-- The trees a run starts from: a single leaf or a preset of distinct panes. -/
inductive Start : LayoutTree Pane → Prop
  | leaf (pane : Pane) : Start (.leaf pane)
  | fromPanesEqual (direction : SplitDirection) {panes : List Pane} {tree : LayoutTree Pane} :
    panes.Nodup → fromPanesEqual direction panes = some tree → Start tree
  | mainVertical {mainPane : Pane} {others : List Pane} {tree : LayoutTree Pane} :
    (mainPane :: others).Nodup → mainVertical mainPane others = some (some tree) → Start tree
  | tiled {panes : List Pane} {tree : LayoutTree Pane} :
    panes.Nodup → tiled panes = some (some tree) → Start tree

/-- The trees that a run of admissible operations reaches. -/
inductive Reach : LayoutTree Pane → Prop
  | start {tree : LayoutTree Pane} : Start tree → Reach tree
  | step {tree tree' : LayoutTree Pane} {done : Bool} (op : Op Pane) : Reach tree →
    Admissible tree op → step tree op = some (some tree', done) → Reach tree'

omit [DecidableEq Pane] in
theorem start_wellFormed {tree : LayoutTree Pane} (h : Start tree) :
    WellFormed tree ∧ tree.collectLeaves.Nodup := by
  cases h with
  | leaf pane => exact ⟨.leaf pane, List.nodup_singleton pane⟩
  | @fromPanesEqual direction panes _ hnd heq =>
    have hne : panes ≠ [] := by
      rintro rfl
      cases heq
    obtain ⟨tree', heq', hw, hl⟩ := fromPanesEqual_spec direction hne
    obtain rfl : tree' = tree := Option.some.inj (heq'.symm.trans heq)
    exact ⟨hw, hl ▸ hnd⟩
  | @mainVertical mainPane others _ hnd heq =>
    obtain ⟨tree', heq', hw, hl⟩ := mainVertical_spec mainPane others
    obtain rfl : tree' = tree := Option.some.inj (Option.some.inj (heq'.symm.trans heq))
    exact ⟨hw, hl ▸ hnd⟩
  | @tiled panes _ hnd heq =>
    have hne : panes ≠ [] := by
      rintro rfl
      cases heq
    obtain ⟨tree', heq', hw, hl⟩ := tiled_spec hne
    obtain rfl : tree' = tree := Option.some.inj (Option.some.inj (heq'.symm.trans heq))
    exact ⟨hw, hl ▸ hnd⟩

theorem Reach.wellFormed {tree : LayoutTree Pane} (h : Reach tree) :
    WellFormed tree ∧ tree.collectLeaves.Nodup := by
  induction h with
  | start h => exact start_wellFormed h
  | @step tree tree' done op _ ha heq ih =>
    obtain ⟨left, done', heq', hw, heff⟩ := step_effect ih.1 ih.2 op ha
    obtain ⟨rfl, rfl⟩ : left = some tree' ∧ done' = done := by
      simpa using heq'.symm.trans heq
    exact ⟨hw tree' rfl, effect_nodup ih.2 ha heff⟩

/-- **Layout runs.** Every tree that a run reaches is well formed and has pairwise distinct leaves, and
every operation on it succeeds with exactly its effect on the sequence of leaves. -/
theorem reach_lawful {tree : LayoutTree Pane} (h : Reach tree) :
    WellFormed tree ∧ tree.collectLeaves.Nodup ∧ ∀ op, Admissible tree op →
      ∃ tree' done, step tree op = some (tree', done) ∧ Effect tree tree' done op := by
  obtain ⟨hw, hnd⟩ := h.wellFormed
  refine ⟨hw, hnd, fun op ha => ?_⟩
  obtain ⟨tree', done, heq, -, heff⟩ := step_effect hw hnd op ha
  exact ⟨tree', done, heq, heff⟩

/-- The law at the tree reached from one pane by a split. -/
theorem reach_lawful_after_split :
    let tree : LayoutTree ℕ := newSplit .vertical (.leaf 1) (.leaf 2)
    WellFormed tree ∧ tree.collectLeaves.Nodup ∧ ∀ op, Admissible tree op →
      ∃ tree' done, step tree op = some (tree', done) ∧ Effect tree tree' done op := by
  have hstart : Reach (LayoutTree.leaf 1) := .start (.leaf 1)
  exact reach_lawful (hstart.step (.splitAtPane 1 .vertical 2) (by simp [Admissible]) rfl)

end Paneflow.Layout.Run
