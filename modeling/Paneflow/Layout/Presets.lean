import Paneflow.Checked
import Paneflow.Layout.Tree

/-!
# Preset layouts

The trees of layout/presets.rs. Every preset of at least one pane is a well-formed tree with the given
panes as its leaves, in their order: `fromPanesEqual_spec`, `mainVertical_spec`, `tiled_spec`. The
tiled layout is `Tiled`, a grid whose last row may be shorter. Where an `expect` of the source could
fail, or a subtraction underflow, the model returns `none`.
-/

namespace Paneflow.Layout.Presets

open Paneflow.Checked Paneflow.Layout.Tree

variable {Pane : Type}

/-- The children of equal ratio that hold the given panes. -/
def equalChildren (panes : List Pane) (ratio : ℚ) : List (LayoutChild Pane) :=
  panes.map fun pane => ⟨.leaf pane, ratio⟩

def fromPanesEqual (direction : SplitDirection) (panes : List Pane) : Option (LayoutTree Pane) :=
  match panes with
  | [] => none
  | [pane] => some (.leaf pane)
  | p :: q :: rest =>
    let panes := p :: q :: rest
    let ratio : ℚ := 1 / panes.length
    some (.container direction (equalChildren panes ratio) none 0)

def mainVertical (mainPane : Pane) (others : List Pane) : Option (Option (LayoutTree Pane)) :=
  if others.isEmpty then some (some (.leaf mainPane))
  else do
    let right ← fromPanesEqual .horizontal others
    some (some (.container .vertical [⟨.leaf mainPane, 1 / 2⟩, ⟨right, 1 / 2⟩] none 0))

/-- `while rows * cols < n`, with fuel for the number of rounds. -/
def grid (n : ℕ) : ℕ → ℕ → ℕ → ℕ × ℕ
  | 0, rows, cols => (rows, cols)
  | fuel + 1, rows, cols =>
    if rows * cols < n then
      if cols ≤ rows then grid n fuel rows (cols + 1) else grid n fuel (rows + 1) cols
    else (rows, cols)

def panesInRow (n rows cols r : ℕ) : Option ℕ :=
  if r < rows - 1 then some cols else checkedSub n (cols * (rows - 1))

/-- One round of the loop over the rows: takes the panes of row `r` from the iterator. -/
def tiledRow (n rows cols : ℕ) (s : List Pane × List (LayoutChild Pane)) (r : ℕ) :
    Option (List Pane × List (LayoutChild Pane)) := do
  let size ← panesInRow n rows cols r
  let rowTree ← fromPanesEqual .vertical (s.1.take size)
  some (s.1.drop size, s.2 ++ [⟨rowTree, 1 / rows⟩])

/-- The layout of `tiled` for at least two panes. -/
def tiledGrid (panes : List Pane) : Option (Option (LayoutTree Pane)) :=
  let n := panes.length
  let (rows, cols) := grid n n 1 1
  if rows = 1 then some (fromPanesEqual .vertical panes)
  else do
    let s ← (List.range rows).foldlM (tiledRow n rows cols) (panes, [])
    some (some (.container .horizontal s.2 none 0))

def tiled (panes : List Pane) : Option (Option (LayoutTree Pane)) :=
  match panes with
  | [] => some none
  | [pane] => some (some (.leaf pane))
  | p :: q :: rest => tiledGrid (p :: q :: rest)

theorem leavesOf_equalChildren (panes : List Pane) (ratio : ℚ) :
    leavesOf (equalChildren panes ratio) = panes := by
  unfold equalChildren
  induction panes with
  | nil => rfl
  | cons p panes ih => simp [ih]

/-- Equal children of the right ratio are balanced. -/
theorem balanced_of_ratio {children : List (LayoutChild Pane)} {ratio : ℚ}
    (hr : ∀ c ∈ children, c.ratio = ratio) (hne : children ≠ [])
    (hratio : ratio = 1 / children.length) : Balanced children := by
  have hlen : (0 : ℚ) < children.length := by exact_mod_cast List.length_pos_of_ne_nil hne
  constructor
  · intro c hc
    rw [hr c hc, hratio]
    exact div_pos one_pos hlen
  · have hmap : children.map LayoutChild.ratio = List.replicate children.length ratio :=
      List.eq_replicate_iff.2 ⟨by simp, by simpa using hr⟩
    unfold ratioSum
    rw [hmap, List.sum_replicate, hratio, nsmul_eq_mul, mul_div_cancel₀ _ hlen.ne']

theorem fromPanesEqual_spec (direction : SplitDirection) {panes : List Pane} (h : panes ≠ []) :
    ∃ tree, fromPanesEqual direction panes = some tree ∧ WellFormed tree ∧
      tree.collectLeaves = panes := by
  match panes, h with
  | [pane], _ => exact ⟨.leaf pane, rfl, .leaf pane, rfl⟩
  | p :: q :: rest, _ =>
    refine ⟨_, rfl, .container (by simp [equalChildren]) ?_ ?_, leavesOf_equalChildren _ _⟩
    · refine balanced_of_ratio ?_ ?_ rfl
      · simp [equalChildren]
      · simp [equalChildren]
    · intro c hc
      obtain ⟨pane, -, rfl⟩ := List.mem_map.1 hc
      exact .leaf pane

theorem mainVertical_spec (mainPane : Pane) (others : List Pane) :
    ∃ tree, mainVertical mainPane others = some (some tree) ∧ WellFormed tree ∧
      tree.collectLeaves = mainPane :: others := by
  unfold mainVertical
  by_cases hno : others = []
  · subst hno
    exact ⟨.leaf mainPane, rfl, .leaf mainPane, rfl⟩
  · obtain ⟨right, heq, hw, hl⟩ := fromPanesEqual_spec .horizontal hno
    rw [if_neg (by simpa using hno), heq]
    refine ⟨_, rfl, wellFormed_newSplit .vertical (.leaf mainPane) hw, ?_⟩
    simp [hl]

/-- The grid has as many columns as rows or one more, its last row holds at least one pane, and the
fuel is enough for the loop to end by its condition. -/
structure GridSpec (n : ℕ) (g : ℕ × ℕ) : Prop where
  square : g.2 = g.1 ∨ g.2 = g.1 + 1
  pos : 1 ≤ g.1
  last : g.2 * (g.1 - 1) < n
  exit : n ≤ g.1 * g.2

theorem grid_spec (n fuel rows cols : ℕ) (hsq : cols = rows ∨ cols = rows + 1) (hpos : 1 ≤ rows)
    (hlast : cols * (rows - 1) < n) (hfuel : n ≤ rows * cols + fuel) :
    GridSpec n (grid n fuel rows cols) := by
  induction fuel generalizing rows cols with
  | zero =>
    unfold grid
    exact ⟨hsq, hpos, hlast, hfuel⟩
  | succ fuel ih =>
    unfold grid
    obtain ⟨r, rfl⟩ : ∃ r, rows = r + 1 := ⟨rows - 1, by omega⟩
    by_cases hn : (r + 1) * cols < n
    · rw [if_pos hn]
      split_ifs with hc
      · obtain rfl : cols = r + 1 := by omega
        refine ih _ _ (by omega) hpos ?_ ?_
        · simp only [Nat.add_sub_cancel] at hlast ⊢
          nlinarith
        · nlinarith
      · refine ih _ _ (by omega) (by omega) ?_ ?_
        · simp only [Nat.add_sub_cancel]
          nlinarith
        · have : 1 ≤ cols := by omega
          nlinarith
    · rw [if_neg hn]
      exact ⟨hsq, hpos, hlast, not_lt.1 hn⟩

/-- A grid that the loop ends with by its condition is the same for all greater fuel. -/
theorem grid_more (n fuel more rows cols : ℕ)
    (hexit : n ≤ (grid n fuel rows cols).1 * (grid n fuel rows cols).2) :
    grid n (fuel + more) rows cols = grid n fuel rows cols := by
  induction fuel generalizing rows cols with
  | zero =>
    have hdone : ¬rows * cols < n := not_lt.2 hexit
    cases more with
    | zero => rfl
    | succ more =>
      rw [Nat.zero_add]
      unfold grid
      rw [if_neg hdone]
  | succ fuel ih =>
    rw [Nat.add_right_comm]
    unfold grid at hexit ⊢
    split_ifs at hexit ⊢
    · exact ih _ _ hexit
    · exact ih _ _ hexit
    · rfl

/-! ### Rows -/

/-- A row of the grid: one pane, or panes side by side. -/
def IsRow (tree : LayoutTree Pane) : Prop :=
  match tree with
  | .leaf _ => True
  | .container direction children _ _ =>
    direction = .vertical ∧ ∀ c ∈ children, ∃ pane, c.node = .leaf pane

theorem isRow_fromPanesEqual {panes : List Pane} {tree : LayoutTree Pane}
    (h : fromPanesEqual .vertical panes = some tree) : IsRow tree := by
  match panes with
  | [pane] =>
    obtain rfl := Option.some.inj h
    trivial
  | p :: q :: rest =>
    obtain rfl := Option.some.inj h
    refine ⟨rfl, fun c hc => ?_⟩
    obtain ⟨pane, -, rfl⟩ := List.mem_map.1 hc
    exact ⟨pane, rfl⟩

/-- The rows built so far: well-formed trees of equal ratio that hold the first panes, `sizes` of
them each. -/
structure Rows (panes : List Pane) (rows : ℕ) (sizes : List ℕ)
    (s : List Pane × List (LayoutChild Pane)) : Prop where
  rest : s.1 = panes.drop sizes.sum
  leaves : leavesOf s.2 = panes.take sizes.sum
  sizes : s.2.map (fun c => c.node.collectLeaves.length) = sizes
  ratio : ∀ c ∈ s.2, c.ratio = 1 / (rows : ℚ)
  wellFormed : ∀ c ∈ s.2, WellFormed c.node
  isRow : ∀ c ∈ s.2, IsRow c.node

/-- Each round adds a row with the next panes, as long as there are enough. -/
theorem tiledRow_rows {panes : List Pane} {rows cols size : ℕ} {sizes : List ℕ}
    {s : List Pane × List (LayoutChild Pane)} (h : Rows panes rows sizes s) (r : ℕ)
    (hsize : panesInRow panes.length rows cols r = some size) (hpos : 0 < size)
    (hm : sizes.sum + size ≤ panes.length) :
    ∃ s', tiledRow panes.length rows cols s r = some s' ∧
      Rows panes rows (sizes ++ [size]) s' := by
  have hlen : (s.1.take size).length = size := by
    rw [h.rest, List.length_take, List.length_drop]
    omega
  have hne : s.1.take size ≠ [] := List.ne_nil_of_length_pos (by omega)
  obtain ⟨tree, heq, hw, hl⟩ := fromPanesEqual_spec .vertical hne
  unfold tiledRow
  rw [hsize]
  simp only [Option.bind_eq_bind, Option.bind_some, heq]
  refine ⟨_, rfl, ?_, ?_, ?_, ?_, ?_, ?_⟩
  · simp only [h.rest, List.drop_drop, List.sum_append, List.sum_singleton]
  · simp only [leavesOf_append, leavesOf_cons, leavesOf_nil, h.leaves, hl, h.rest,
      List.append_nil, ← List.take_add, List.sum_append, List.sum_singleton]
  · simp [h.sizes, hl, hlen]
  · simpa [or_imp, forall_and] using h.ratio
  · simpa [or_imp, forall_and, hw] using h.wellFormed
  · simpa [or_imp, forall_and, isRow_fromPanesEqual heq] using h.isRow

/-- The full rows of the grid, all but the last. -/
theorem fullRows {panes : List Pane} {rows cols : ℕ} (hc : 1 ≤ cols)
    (hlast : cols * (rows - 1) < panes.length) (k : ℕ) (hk : k ≤ rows - 1) :
    ∃ s, (List.range k).foldlM (tiledRow panes.length rows cols) (panes, []) = some s ∧
      Rows panes rows (List.replicate k cols) s := by
  induction k with
  | zero => exact ⟨(panes, []), rfl, by simp, by simp, rfl, by simp, by simp, by simp⟩
  | succ k ih =>
    obtain ⟨s, heq, hs⟩ := ih (by omega)
    have hm : (List.replicate k cols).sum + cols ≤ panes.length := by
      have := Nat.mul_le_mul_left cols hk
      rw [List.sum_replicate, smul_eq_mul]
      nlinarith
    obtain ⟨s', heq', hs'⟩ := tiledRow_rows hs k (if_pos (by omega)) hc hm
    rw [← List.replicate_succ'] at hs'
    refine ⟨s', ?_, hs'⟩
    rw [List.range_succ, List.foldlM_append, heq]
    simpa using heq'

/-! ### The tiled layout -/

/-- The panes of each row: the children of a horizontal split, or the tree as one row. -/
def rowsOf : LayoutTree Pane → List (LayoutTree Pane)
  | .container .horizontal children _ _ => children.map LayoutChild.node
  | tree => [tree]

/-- `tree` shows `panes` in `rows` rows of `cols` columns, the last row of which may be shorter. -/
structure Tiled (panes : List Pane) (rows cols : ℕ) (tree : LayoutTree Pane) : Prop where
  wellFormed : WellFormed tree
  leaves : tree.collectLeaves = panes
  isRow : ∀ row ∈ rowsOf tree, IsRow row
  sizes : ∃ last, 1 ≤ last ∧ last ≤ cols ∧
    (rowsOf tree).map (fun row => row.collectLeaves.length) = List.replicate (rows - 1) cols ++ [last]

/-- A tree that is one row. -/
theorem tiled_row {panes : List Pane} {cols : ℕ} {tree : LayoutTree Pane}
    (heq : fromPanesEqual .vertical panes = some tree) (hne : panes ≠ [])
    (hcols : panes.length ≤ cols) : Tiled panes 1 cols tree := by
  obtain ⟨tree', heq', hw, hl⟩ := fromPanesEqual_spec .vertical hne
  obtain rfl := Option.some.inj (heq.symm.trans heq')
  have hrow := isRow_fromPanesEqual heq
  have hrows : rowsOf tree = [tree] := by
    cases tree with
    | leaf pane => rfl
    | container direction children drag size =>
      obtain ⟨rfl, -⟩ := hrow
      rfl
  refine ⟨hw, hl, by simpa [hrows] using hrow, panes.length, ?_, hcols, by simp [hrows, hl]⟩
  exact List.length_pos_of_ne_nil hne

theorem tiledGrid_tiled {panes : List Pane} (h : panes ≠ []) :
    ∃ tree, tiledGrid panes = some (some tree) ∧
      Tiled panes (grid panes.length panes.length 1 1).1 (grid panes.length panes.length 1 1).2
        tree := by
  have hg := grid_spec panes.length panes.length 1 1 (.inl rfl) le_rfl
    (by simpa using List.length_pos_of_ne_nil h) (by omega)
  unfold tiledGrid
  dsimp only
  generalize grid panes.length panes.length 1 1 = g at hg ⊢
  obtain ⟨rows, cols⟩ := g
  obtain ⟨hsq, hr, hlast, hexit⟩ := hg
  dsimp only at hsq hr hlast hexit ⊢
  by_cases h1 : rows = 1
  · subst h1
    rw [if_pos rfl]
    obtain ⟨tree, heq, -, -⟩ := fromPanesEqual_spec .vertical h
    exact ⟨tree, by rw [heq], tiled_row heq h (by omega)⟩
  · rw [if_neg h1]
    -- the full rows, and then the last one with what is left
    obtain ⟨s, heq, hs⟩ := fullRows (by omega) hlast (rows - 1) le_rfl
    have hsum : (List.replicate (rows - 1) cols).sum = cols * (rows - 1) := by
      rw [List.sum_replicate, smul_eq_mul, mul_comm]
    have hsize : panesInRow panes.length rows cols (rows - 1) =
        some (panes.length - cols * (rows - 1)) := by
      unfold panesInRow
      rw [if_neg (lt_irrefl _), checkedSub_of_le hlast.le]
    obtain ⟨s', heq', hs'⟩ := tiledRow_rows hs (rows - 1) hsize (by omega) (by omega)
    have hall : (List.range rows).foldlM (tiledRow panes.length rows cols) (panes, []) = some s' := by
      obtain ⟨r, rfl⟩ : ∃ r, rows = r + 1 := ⟨rows - 1, by omega⟩
      rw [List.range_succ, List.foldlM_append]
      rw [Nat.add_sub_cancel] at heq heq'
      rw [heq]
      simpa using heq'
    rw [hall]
    have hlen : s'.2.length = rows := by
      have := congrArg List.length hs'.sizes
      simp only [List.length_map, List.length_append, List.length_replicate,
        List.length_singleton] at this
      omega
    refine ⟨_, rfl, .container (by omega) ?_ hs'.wellFormed, ?_, ?_,
      panes.length - cols * (rows - 1), by omega, ?_, ?_⟩
    · refine balanced_of_ratio hs'.ratio (List.ne_nil_of_length_pos (by omega)) ?_
      rw [hlen]
    · have hl := hs'.leaves
      rw [List.sum_append, List.sum_singleton, hsum, Nat.add_sub_cancel' hlast.le,
        List.take_length] at hl
      exact hl
    · intro row hrow
      obtain ⟨c, hc, rfl⟩ := List.mem_map.1 hrow
      exact hs'.isRow c hc
    · obtain ⟨r, rfl⟩ : ∃ r, rows = r + 1 := ⟨rows - 1, by omega⟩
      rw [Nat.add_sub_cancel]
      have : (r + 1) * cols = cols * r + cols := by ring
      omega
    · simpa [rowsOf, Function.comp_def] using hs'.sizes

theorem tiled_tiled {panes : List Pane} (h : panes ≠ []) :
    ∃ tree, tiled panes = some (some tree) ∧
      Tiled panes (grid panes.length panes.length 1 1).1 (grid panes.length panes.length 1 1).2
        tree := by
  match panes, h with
  | [pane], h => exact ⟨.leaf pane, rfl, tiled_row rfl h le_rfl⟩
  | p :: q :: rest, h => exact tiledGrid_tiled h

theorem tiled_spec {panes : List Pane} (h : panes ≠ []) :
    ∃ tree, tiled panes = some (some tree) ∧ WellFormed tree ∧ tree.collectLeaves = panes := by
  obtain ⟨tree, heq, ht⟩ := tiled_tiled h
  exact ⟨tree, heq, ht.wellFormed, ht.leaves⟩

/-- The tiled layout of at least one pane is a grid that is as good as square; the search for its
size ends within as many rounds as there are panes, and leaves at least one pane to the last row. -/
theorem tiled_square {panes : List Pane} (h : panes ≠ []) :
    ∃ tree rows cols, tiled panes = some (some tree) ∧ Tiled panes rows cols tree ∧
      (cols = rows ∨ cols = rows + 1) ∧
      (∀ fuel, panes.length ≤ fuel → grid panes.length fuel 1 1 = (rows, cols)) ∧
      cols * (rows - 1) < panes.length ∧ panes.length ≤ rows * cols := by
  have hg := grid_spec panes.length panes.length 1 1 (.inl rfl) le_rfl
    (by simpa using List.length_pos_of_ne_nil h) (by omega)
  obtain ⟨tree, heq, ht⟩ := tiled_tiled h
  refine ⟨tree, _, _, heq, ht, hg.square, fun fuel hfuel => ?_, hg.last, hg.exit⟩
  obtain ⟨more, rfl⟩ := Nat.exists_eq_add_of_le hfuel
  exact grid_more panes.length panes.length more 1 1 hg.exit

/-- Five panes: a row of three and a row of two. -/
theorem tiled_square_five :
    ∃ tree rows cols, tiled [1, 2, 3, 4, 5] = some (some tree) ∧ Tiled [1, 2, 3, 4, 5] rows cols tree ∧
      (cols = rows ∨ cols = rows + 1) ∧ (∀ fuel, 5 ≤ fuel → grid 5 fuel 1 1 = (rows, cols)) ∧
      cols * (rows - 1) < 5 ∧ 5 ≤ rows * cols :=
  tiled_square (by decide)

end Paneflow.Layout.Presets
