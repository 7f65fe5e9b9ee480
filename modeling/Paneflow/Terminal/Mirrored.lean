import Paneflow.Terminal.CellMirror

/-!
# What is published

`runs_mirrored`: in every run the cells that are published are those of the snapshot, and rows with the same
version have the same content.
-/

namespace Paneflow.Terminal

/-! ### Rows up to their line -/

/-- The cell on line zero. -/
def Ghostty.Cell.unlined (cell : Ghostty.Cell) : Ghostty.Cell :=
  { cell with point := { cell.point with line := 0 } }

/-- The row of the new snapshot is that of the old one, up to its line. -/
def SameRow (new : Ghostty.Content) (row : ℕ) (old : Ghostty.Content) (source : ℕ) : Prop :=
  (Grid.row new.cols row new.cells).map Ghostty.Cell.unlined =
    (Grid.row old.cols source old.cells).map Ghostty.Cell.unlined

/-- The row has moved by the shift. -/
def Moved (old new : Ghostty.Content) (shift : ℤ) (row : ℕ) : Prop :=
  old.cols = new.cols ∧ old.rows = new.rows ∧
    ∃ source < old.rows, (row : ℤ) + shift = source ∧ SameRow new row old source

theorem sourceOf_eq_some {rows row source : ℕ} {shift : ℤ}
    (h : sourceOf rows shift row = some source) : source < rows ∧ (row : ℤ) + shift = source := by
  unfold sourceOf checkedAddSigned at h
  obtain ⟨hsource, hlt⟩ := Option.filter_eq_some_iff.1 h
  split_ifs at hsource with hrange
  obtain rfl := Option.some.inj hsource
  exact ⟨by simpa using hlt, (Int.toNat_of_nonneg hrange.1).symm⟩

/-- Cells that are equal but for their lines are equal on the same line. -/
theorem cellFromGhostty_onLine {cell cell' : Ghostty.Cell} (h : cell.unlined = cell'.unlined) :
    (cellFromGhostty cell').onLine cell.point.line = cellFromGhostty cell := by
  obtain ⟨⟨line, column⟩, character, zerowidth, foreground, background, flags, width, selected,
    hyperlink⟩ := cell
  obtain ⟨⟨line', column'⟩, character', zerowidth', foreground', background', flags', width',
    selected', hyperlink'⟩ := cell'
  simp only [Ghostty.Cell.unlined, Ghostty.Cell.mk.injEq, Point.mk.injEq, true_and] at h
  obtain ⟨rfl, rfl, rfl, rfl, rfl, rfl, rfl, rfl, rfl⟩ := h
  rfl

/-- What is drawn of a row that is the same, once it has its line. -/
theorem SameRow.drawn {new old : Ghostty.Content} {row source : ℕ} (h : SameRow new row old source)
    (hrow : row < new.rows) :
    (cellsFromGhostty (Grid.row old.cols source old.cells)).map (Cell.onLine (Int32.ofNat row)) =
      cellsFromGhostty (Grid.row new.cols row new.cells) := by
  have hline := new.line_cells row hrow
  unfold SameRow at h
  generalize Grid.row new.cols row new.cells = cells at *
  generalize Grid.row old.cols source old.cells = cells' at *
  unfold cellsFromGhostty
  induction cells generalizing cells' with
  | nil =>
    rw [List.map_eq_nil_iff.1 h.symm]
    rfl
  | cons cell cells ih =>
    obtain ⟨cell', rest, rfl, hcell, hrest⟩ := List.map_eq_cons_iff.1 h.symm
    obtain ⟨hfirst, hlines⟩ := List.forall_mem_cons.1 hline
    have hsame := cellFromGhostty_onLine hcell.symm
    rw [hfirst] at hsame
    simp only [List.map_cons, hsame, ih hlines rest hrest.symm]

/-! ### Runs -/

/-- What a snapshot says about the last one that was published: when it is the next one and of the same size,
a row that is not dirty has moved by the shift. -/
def Continues (last next : Ghostty.Content) : Prop :=
  last.revision + 1 = next.revision → last.cols = next.cols → last.rows = next.rows →
    ∀ row source : ℕ, next.dirtyRows[row]? = some false → source < last.rows →
      (row : ℤ) + next.rowShift = source → SameRow next row last source

structure Publication where
  snapshot : Ghostty.Content
  content : Content

/-- What is published from an empty mirror on, with the state that it comes to. -/
inductive Runs : List Publication → SharedState → Prop
  | start (content : Content) (counter : ℕ) (hcontent : content.cells.address ≠ 0) :
      Runs [] ⟨.default, content, counter⟩
  | updateSelection {publications : List Publication} {state : SharedState}
      (h : Runs publications state) (others : ℕ) :
      Runs publications (state.updateSelection others)
  | update {publications : List Publication} {state : SharedState} (h : Runs publications state)
      (snapshot : Ghostty.Content) (around : Surroundings)
      (hnext : ∀ last ∈ publications.getLast?, Continues last.snapshot snapshot) :
      Runs (publications ++ [⟨snapshot, (state.update snapshot around).content⟩])
        (state.update snapshot around)

/-! ### One publication -/

variable {mirror : CellMirror} {snapshot : Ghostty.Content} {around : Surroundings}

/-- The mirror has published `last` last. -/
structure Follows (mirror : CellMirror) (last : Ghostty.Content) : Prop where
  revision : mirror.revision = some last.revision
  cols : mirror.cols = last.cols
  versions : mirror.rowVersions.length = last.rows

/-- The old buffer has the rows of the snapshot before `last` that `last` took over. -/
def Backed (mirror : CellMirror) (last : Ghostty.Content) : Prop :=
  mirror.backValid = true → ∃ old : Ghostty.Content,
    mirror.back.cells = cellsFromGhostty old.cells ∧
      ∀ row, mirror.backStale[row]? = some false → Moved old last mirror.backShift row

theorem getD_true_eq_false {flags : List Bool} {i : ℕ} :
    flags.getD i true = false ↔ flags[i]? = some false := by
  rw [List.getD_eq_getElem?_getD]
  cases flags[i]? with
  | none => simp
  | some flag => simp

theorem length_dirty (mirror : CellMirror) (snapshot : Ghostty.Content) :
    (mirror.dirty snapshot).length = snapshot.rows := by
  simp [CellMirror.dirty]

/-- A row that is not dirty comes from the last snapshot. -/
theorem dirty_eq_false {row : ℕ} (h : (mirror.dirty snapshot)[row]? = some false) :
    row < snapshot.rows ∧ mirror.continuous snapshot = true ∧
      snapshot.dirtyRows[row]? = some false ∧
      ∃ source, sourceOf snapshot.rows (mirror.shift snapshot) row = some source := by
  have hlt : row < snapshot.rows := by
    rw [← length_dirty mirror snapshot]
    exact (List.getElem?_eq_some_iff.1 h).1
  unfold CellMirror.dirty at h
  rw [List.getElem?_map, List.getElem?_range hlt, Option.map_some, Option.some.injEq] at h
  simp only [Bool.or_eq_false_iff, Bool.not_eq_false', Option.isNone_eq_false_iff,
    Option.isSome_iff_exists] at h
  obtain ⟨⟨hcontinuous, hclean⟩, hsource⟩ := h
  exact ⟨hlt, hcontinuous, getD_true_eq_false.1 hclean, hsource⟩

theorem Follows.moved {last : Ghostty.Content} (h : Follows mirror last)
    (hnext : Continues last snapshot) {row : ℕ} (hrow : (mirror.dirty snapshot)[row]? = some false) :
    Moved last snapshot (mirror.shift snapshot) row := by
  obtain ⟨-, hcontinuous, hclean, source, hsource⟩ := dirty_eq_false hrow
  obtain ⟨hlt, hshift⟩ := sourceOf_eq_some hsource
  have hshape := hcontinuous
  simp only [CellMirror.continuous, h.revision, h.cols, h.versions, Option.any_some,
    Bool.and_eq_true, decide_eq_true_eq] at hshape
  obtain ⟨⟨⟨hrevision, hcols⟩, hrows⟩, -⟩ := hshape
  have hmoved : mirror.shift snapshot = snapshot.rowShift := if_pos hcontinuous
  rw [← hrows] at hlt
  exact ⟨hcols, hrows, source, hlt, hshift,
    hnext hrevision hcols hrows row source hclean hlt (hmoved ▸ hshift)⟩

theorem rotateCells_row {α : Type} {cells : List α} {cols rows row source : ℕ} {offset : ℤ}
    (hlength : cells.length = rows * cols) (hoffset : offset.natAbs < rows)
    (hrow : row < rows) (hsource : source < rows) (hmoved : (row : ℤ) + offset = source) :
    Grid.row cols row (rotateCells cells (offset * cols)) = Grid.row cols source cells := by
  rcases Nat.eq_zero_or_pos cols with rfl | hcols
  · simp [Grid.row]
  have hcount : (offset * cols).natAbs = offset.natAbs * cols := by
    rw [Int.natAbs_mul, Int.natAbs_natCast]
  have hlt : offset.natAbs * cols < cells.length := by
    rw [hlength]
    exact Nat.mul_lt_mul_of_pos_right hoffset hcols
  have hsome : ¬ cells.length = 0 := by omega
  have hsmall : ¬ offset.natAbs * cols ≥ cells.length := not_le.2 hlt
  unfold rotateCells
  dsimp only
  rw [hcount, if_neg hsmall]
  rcases lt_trichotomy offset 0 with hneg | rfl | hpos
  · have hmove : ¬ (offset.natAbs * cols = 0 ∨ cells.length = 0) := by
      rintro (hzero | hzero)
      · rcases Nat.mul_eq_zero.1 hzero with hzero | hzero <;> omega
      · omega
    have hdown : ¬ offset * cols > 0 :=
      not_lt.2 (Int.mul_nonpos_of_nonpos_of_nonneg hneg.le (Int.natCast_nonneg cols))
    rw [if_neg hmove, if_neg hdown,
      Grid.row_rotateRight (by omega) (Grid.row_end_le hrow hlength)]
    congr 1
    omega
  · rw [if_pos (.inl (by simp))]
    congr 1
    omega
  · have hmove : ¬ (offset.natAbs * cols = 0 ∨ cells.length = 0) := by
      rintro (hzero | hzero)
      · rcases Nat.mul_eq_zero.1 hzero with hzero | hzero <;> omega
      · omega
    have hend : (row + offset.natAbs + 1) * cols ≤ cells.length :=
      Grid.row_end_le (by omega) hlength
    rw [if_neg hmove, if_pos (Int.mul_pos hpos (Int.natCast_pos.2 hcols)),
      Grid.row_rotateLeft hend]
    congr 1
    omega

theorem length_rotateCells {α : Type} (cells : List α) (shift : ℤ) :
    (rotateCells cells shift).length = cells.length := by
  unfold rotateCells
  dsimp only
  split_ifs <;> simp only [List.length_append, List.length_drop, List.length_take] <;> omega

theorem cells_length_row {row : ℕ} (h : row < snapshot.rows) :
    (Grid.row snapshot.cols row snapshot.cells).length = snapshot.cols :=
  Grid.length_row (Grid.row_end_le h snapshot.length_cells)

/-- A row that the old buffer has is there, up to its line. -/
theorem reusable_row {last : Ghostty.Content} (h : Follows mirror last) (hback : Backed mirror last)
    (hnext : Continues last snapshot) {offset : ℤ} (hoffset : mirror.backOffset snapshot = some offset)
    {row : ℕ} (hrow : mirror.reusable snapshot offset row = true) :
    ∃ (old : Ghostty.Content) (source : ℕ), mirror.back.cells = cellsFromGhostty old.cells ∧
      old.cols = snapshot.cols ∧ old.rows = snapshot.rows ∧ source < snapshot.rows ∧
      (row : ℤ) + offset = source ∧ SameRow snapshot row old source := by
  unfold CellMirror.backOffset checkedAdd at hoffset
  obtain ⟨hsum, hok⟩ := Option.filter_eq_some_iff.1 hoffset
  simp only [Bool.and_eq_true, decide_eq_true_eq, Bool.not_eq_true'] at hok
  obtain ⟨old, hcells, hmoved⟩ := hback hok.1.1.1.1.2
  split_ifs at hsum
  obtain rfl := Option.some.inj hsum
  simp only [CellMirror.reusable, Bool.and_eq_true, Bool.not_eq_true', Option.any_eq_true] at hrow
  obtain ⟨⟨hclean, source, hsource, hfresh⟩, -⟩ := hrow
  obtain ⟨hcols, hrows, source', hlt, hshift, hsame⟩ :=
    h.moved hnext (getD_true_eq_false.1 hclean)
  have heq : source' = source := by
    have hshift' := (sourceOf_eq_some hsource).2
    omega
  subst heq
  obtain ⟨hcols', hrows', first, hlt', hshift', hsame'⟩ := hmoved source' (getD_true_eq_false.1 hfresh)
  exact ⟨old, first, hcells, hcols'.trans hcols, hrows'.trans hrows, by omega, by omega,
    hsame.trans hsame'⟩

/-- The old buffer is patched to what the snapshot shows. -/
theorem patched_eq {last : Ghostty.Content} (h : Follows mirror last) (hback : Backed mirror last)
    (hnext : Continues last snapshot) {offset : ℤ}
    (hoffset : mirror.backOffset snapshot = some offset) :
    mirror.patched snapshot offset = cellsFromGhostty snapshot.cells := by
  have hok := (Option.filter_eq_some_iff.1 hoffset).2
  simp only [Bool.and_eq_true, decide_eq_true_eq] at hok
  have hsmall : offset.natAbs < snapshot.rows := hok.1.1.1.1.1
  have hlength : mirror.back.cells.length = snapshot.rows * snapshot.cols :=
    hok.1.2.trans snapshot.length_cells
  have hrotated : (rotateCells mirror.back.cells (offset * snapshot.cols)).length =
      snapshot.rows * snapshot.cols := (length_rotateCells _ _).trans hlength
  have hcells : (cellsFromGhostty snapshot.cells).length = snapshot.rows * snapshot.cols := by
    rw [← snapshot.length_cells]
    exact List.length_map _
  -- what the loop leaves in a row
  have hrow (row : ℕ) (hlt : row < snapshot.rows) :
      mirror.patchRow snapshot offset row
          (Grid.row snapshot.cols row (rotateCells mirror.back.cells (offset * snapshot.cols))) =
        cellsFromGhostty (Grid.row snapshot.cols row snapshot.cells) := by
    unfold CellMirror.patchRow
    split_ifs with hreusable hmoves
    · obtain ⟨old, source, hold, hcols, hrows, hsource, hshift, hsame⟩ :=
        reusable_row h hback hnext hoffset hreusable
      rw [rotateCells_row hlength hsmall hlt hsource hshift, hold, ← hsame.drawn hlt, hcols]
      exact congrArg _ (Grid.row_map cellFromGhostty)
    · obtain ⟨old, source, hold, hcols, hrows, hsource, hshift, hsame⟩ :=
        reusable_row h hback hnext hoffset hreusable
      have hstays : row = source := by omega
      subst hstays
      have hdrawn := SameRow.drawn (rfl : SameRow old row old row) (hrows ▸ hlt)
      rw [rotateCells_row hlength hsmall hlt hsource hshift, hold, ← hsame.drawn hlt, hdrawn, hcols]
      exact Grid.row_map cellFromGhostty
    · rfl
  have hline (row : ℕ) (hlt : row < snapshot.rows) :
      (cellsFromGhostty (Grid.row snapshot.cols row snapshot.cells)).length = snapshot.cols :=
    (List.length_map _).trans (cells_length_row hlt)
  obtain ⟨hpatched, hrows⟩ := Grid.mapRows_spec hrotated
    (fun row hlt => (congrArg List.length (hrow row hlt)).trans (hline row hlt)) le_rfl
  refine Grid.eq_of_rows (hpatched.trans hrotated) hcells ?_
  intro row hlt
  unfold CellMirror.patched
  rw [hrows, if_pos hlt, hrow row hlt]
  exact (Grid.row_map cellFromGhostty).symm

/-- **What is published** is what the snapshot shows. -/
theorem buffer_cells {last : Ghostty.Content} (h : Follows mirror last) (hback : Backed mirror last)
    (hnext : Continues last snapshot) :
    (mirror.buffer snapshot around).cells = cellsFromGhostty snapshot.cells := by
  unfold CellMirror.buffer
  split
  · next offset hoffset => exact patched_eq h hback hnext (Option.filter_eq_some_iff.1 hoffset).1
  · rfl

theorem buffer_cells_of_not_valid (h : mirror.backValid = false) :
    (mirror.buffer snapshot around).cells = cellsFromGhostty snapshot.cells := by
  have hnone : mirror.backOffset snapshot = none := by
    rw [CellMirror.backOffset, Option.filter_eq_none_iff]
    simp [h]
  unfold CellMirror.buffer
  rw [hnone]
  rfl

/-! ### Versions -/

/-- The row has the version that its row in the last snapshot had. -/
def Inherits (mirror : CellMirror) (snapshot : Ghostty.Content) (row version : ℕ) : Prop :=
  (mirror.dirty snapshot)[row]? = some false ∧
    ∃ source, sourceOf snapshot.rows (mirror.shift snapshot) row = some source ∧
      version = mirror.rowVersions.getD source 0

/-- Versions that were drawn from a counter: inherited, or new and given once. -/
structure Drawn (mirror : CellMirror) (snapshot : Ghostty.Content) (counter : ℕ)
    (drawn : ℕ × List ℕ) : Prop where
  le : counter ≤ drawn.1
  cases : ∀ row version, drawn.2[row]? = some version →
    Inherits mirror snapshot row version ∨ (counter < version ∧ version ≤ drawn.1)
  once : ∀ row row' version, drawn.2[row]? = some version → drawn.2[row']? = some version →
    row = row' ∨ Inherits mirror snapshot row version ∨ Inherits mirror snapshot row' version

theorem getElem?_concat_cases {xs : List ℕ} {x y i : ℕ} (h : (xs ++ [x])[i]? = some y) :
    xs[i]? = some y ∨ (i = xs.length ∧ y = x) := by
  rcases Nat.lt_or_ge i xs.length with hlt | hge
  · rw [List.getElem?_append_left hlt] at h
    exact .inl h
  · rw [List.getElem?_append_right hge, List.getElem?_singleton] at h
    split_ifs at h with hzero
    exact .inr ⟨by omega, (Option.some.inj h).symm⟩

theorem Drawn.inherit {counter version : ℕ} {drawn : ℕ × List ℕ}
    (h : Drawn mirror snapshot counter drawn)
    (hversion : Inherits mirror snapshot drawn.2.length version) :
    Drawn mirror snapshot counter (drawn.1, drawn.2 ++ [version]) := by
  refine ⟨h.le, ?_, ?_⟩
  · intro row version' hrow
    rcases getElem?_concat_cases hrow with hold | ⟨rfl, rfl⟩
    · exact h.cases row version' hold
    · exact .inl hversion
  · intro row row' version' hrow hrow'
    rcases getElem?_concat_cases hrow with hold | ⟨rfl, rfl⟩
    · rcases getElem?_concat_cases hrow' with hold' | ⟨rfl, rfl⟩
      · exact h.once row row' version' hold hold'
      · exact .inr (.inr hversion)
    · exact .inr (.inl hversion)

theorem Drawn.draw {counter version : ℕ} {drawn : ℕ × List ℕ}
    (h : Drawn mirror snapshot counter drawn) (hversion : drawn.1 < version) :
    Drawn mirror snapshot counter (version, drawn.2 ++ [version]) := by
  -- a version that is there already is inherited, as those that were drawn are below the new one
  have hinherits (row : ℕ) (hrow : drawn.2[row]? = some version) :
      Inherits mirror snapshot row version :=
    (h.cases row version hrow).resolve_right fun hle => by omega
  refine ⟨h.le.trans hversion.le, ?_, ?_⟩
  · intro row version' hrow
    rcases getElem?_concat_cases hrow with hold | ⟨rfl, rfl⟩
    · exact (h.cases row version' hold).imp_right fun hle => ⟨hle.1, hle.2.trans hversion.le⟩
    · exact .inr ⟨h.le.trans_lt hversion, le_rfl⟩
  · intro row row' version' hrow hrow'
    rcases getElem?_concat_cases hrow with hold | ⟨rfl, rfl⟩
    · rcases getElem?_concat_cases hrow' with hold' | ⟨rfl, rfl⟩
      · exact h.once row row' version' hold hold'
      · exact .inr (.inl (hinherits row hold))
    · rcases getElem?_concat_cases hrow' with hold' | ⟨rfl, -⟩
      · exact .inr (.inr (hinherits row' hold'))
      · exact .inl rfl

/-- One row more. -/
theorem Drawn.step {counter : ℕ} {drawn : ℕ × List ℕ} {dirty : Bool} (othersAt : ℕ → ℕ)
    (h : Drawn mirror snapshot counter drawn)
    (hdirty : (mirror.dirty snapshot)[drawn.2.length]? = some dirty) :
    Drawn mirror snapshot counter
        (mirror.drawVersion snapshot othersAt drawn (dirty, drawn.2.length)) ∧
      (mirror.drawVersion snapshot othersAt drawn (dirty, drawn.2.length)).2.length =
        drawn.2.length + 1 := by
  unfold CellMirror.drawVersion
  split
  · next source hsource =>
    obtain ⟨hsource, hclean⟩ := Option.filter_eq_some_iff.1 hsource
    have hfalse : dirty = false := by simpa using hclean
    rw [hfalse] at hdirty
    exact ⟨h.inherit ⟨hdirty, source, hsource, rfl⟩, List.length_append⟩
  · exact ⟨h.draw (by unfold nextContentGeneration; omega), List.length_append⟩

/-- The versions of a publication. -/
theorem versions_drawn (mirror : CellMirror) (snapshot : Ghostty.Content) (counter : ℕ)
    (othersAt : ℕ → ℕ) :
    Drawn mirror snapshot counter (mirror.versions snapshot counter othersAt) ∧
      (mirror.versions snapshot counter othersAt).2.length = snapshot.rows := by
  -- the loop over what is left of the rows, after those that are done
  have hloop (left : List Bool) : ∀ (done : List Bool) (drawn : ℕ × List ℕ),
      mirror.dirty snapshot = done ++ left → drawn.2.length = done.length →
      Drawn mirror snapshot counter drawn →
      Drawn mirror snapshot counter
          ((left.zipIdx drawn.2.length).foldl (mirror.drawVersion snapshot othersAt) drawn) ∧
        ((left.zipIdx drawn.2.length).foldl (mirror.drawVersion snapshot othersAt) drawn).2.length =
          (mirror.dirty snapshot).length := by
    induction left with
    | nil =>
      intro done drawn hrows hlength hdrawn
      exact ⟨hdrawn, by simpa [hrows] using hlength⟩
    | cons dirty left ih =>
      intro done drawn hrows hlength hdrawn
      have hdirty : (mirror.dirty snapshot)[drawn.2.length]? = some dirty := by
        rw [hrows, hlength, List.getElem?_append_right le_rfl, Nat.sub_self]
        rfl
      obtain ⟨hstep, hnext⟩ := hdrawn.step othersAt hdirty
      rw [List.zipIdx_cons, List.foldl_cons, ← hnext]
      refine ih (done ++ [dirty]) _ ?_ ?_ hstep
      · rw [hrows, List.append_assoc]
        rfl
      · rw [hnext, hlength, List.length_append]
        rfl
  have hstart : Drawn mirror snapshot counter (counter, []) :=
    ⟨le_rfl, fun _ _ h => by simp at h, fun _ _ _ h => by simp at h⟩
  rw [← length_dirty mirror snapshot]
  exact hloop (mirror.dirty snapshot) [] (counter, []) rfl rfl hstart

/-! ### Whole runs -/

/-- What was published last and the mirror's memory of it. -/
structure Latest (last : Publication) (state : SharedState) : Prop where
  content : state.content.cells = last.content.cells
  follows : Follows state.mirror last.snapshot
  versions : state.mirror.rowVersions = last.content.rowVersions
  front : state.mirror.frontAddress = state.content.cells.address
  backed : Backed state.mirror last.snapshot

/-- What has been published, and the state: nothing, or as `Latest` says. -/
structure Kept (publications : List Publication) (state : SharedState) : Prop where
  cells : ∀ p ∈ publications, p.content.cells.cells = cellsFromGhostty p.snapshot.cells
  size : ∀ p ∈ publications, p.content.cols = p.snapshot.cols ∧ p.content.rows = p.snapshot.rows
  bound : ∀ p ∈ publications, ∀ version ∈ p.content.rowVersions, version ≤ state.counter
  versions : ∀ p ∈ publications, ∀ q ∈ publications, ∀ row row' version : ℕ,
    p.content.rowVersions[row]? = some version → q.content.rowVersions[row']? = some version →
      SameRow p.snapshot row q.snapshot row'
  first : publications.getLast? = none →
    state.mirror = .default ∧ state.content.cells.address ≠ 0
  latest : ∀ last, publications.getLast? = some last → Latest last state

variable {publications : List Publication} {state : SharedState}

theorem Kept.updateSelection (h : Kept publications state) (others : ℕ) :
    Kept publications (state.updateSelection others) := by
  refine ⟨h.cells, h.size, ?_, h.versions, h.first, ?_⟩
  · intro p hp version hversion
    have hle := h.bound p hp version hversion
    show version ≤ state.counter + others + 1
    omega
  · intro last hlast
    have hlatest := h.latest last hlast
    exact ⟨hlatest.content, hlatest.follows, hlatest.versions, hlatest.front, hlatest.backed⟩

/-- The cells of the next publication. -/
theorem Kept.published (h : Kept publications state)
    (hnext : ∀ last ∈ publications.getLast?, Continues last.snapshot snapshot) :
    (state.mirror.buffer snapshot around).cells = cellsFromGhostty snapshot.cells := by
  cases hlast : publications.getLast? with
  | none =>
    rw [(h.first hlast).1]
    exact buffer_cells_of_not_valid rfl
  | some last =>
    have hlatest := h.latest last hlast
    exact buffer_cells hlatest.follows hlatest.backed (hnext last hlast)

/-- A version that is inherited belongs to the same row of the last publication. -/
theorem Kept.inherited (h : Kept publications state)
    (hnext : ∀ last ∈ publications.getLast?, Continues last.snapshot snapshot) {row version : ℕ}
    (hinherits : Inherits state.mirror snapshot row version) :
    ∃ last ∈ publications, ∃ source, last.content.rowVersions[source]? = some version ∧
      SameRow snapshot row last.snapshot source := by
  obtain ⟨hclean, source, hsource, rfl⟩ := hinherits
  cases hlast : publications.getLast? with
  | none =>
    have hcontinuous := (dirty_eq_false hclean).2.1
    rw [(h.first hlast).1] at hcontinuous
    exact absurd hcontinuous Bool.false_ne_true
  | some last =>
    have hlatest := h.latest last hlast
    obtain ⟨-, hrows, source', hlt, hshift, hsame⟩ :=
      hlatest.follows.moved (hnext last hlast) hclean
    have heq : source' = source := by
      have hshift' := (sourceOf_eq_some hsource).2
      omega
    subst heq
    refine ⟨last, List.mem_of_getLast? hlast, source', ?_, hsame⟩
    have hin : source' < state.mirror.rowVersions.length := by rwa [hlatest.follows.versions]
    rw [← hlatest.versions, List.getD_eq_getElem?_getD, List.getElem?_eq_getElem hin]
    rfl

/-- A version that is not new belongs to the same row of an earlier publication. -/
theorem Kept.earlier (h : Kept publications state)
    (hnext : ∀ last ∈ publications.getLast?, Continues last.snapshot snapshot) {row version : ℕ}
    (hrow : (state.update snapshot around).content.rowVersions[row]? = some version)
    (hold : version ≤ state.counter) :
    ∃ last ∈ publications, ∃ source, last.content.rowVersions[source]? = some version ∧
      SameRow snapshot row last.snapshot source := by
  obtain ⟨hdrawn, -⟩ := versions_drawn state.mirror snapshot
    (nextContentGeneration state.counter around.others) around.othersAt
  refine h.inherited hnext ((hdrawn.cases row version hrow).resolve_right fun hnew => ?_)
  have hlt : state.counter + around.others + 1 < version := hnew.1
  omega

/-- A version of the new publication and one of an earlier publication -/
theorem Kept.versions_old (h : Kept publications state)
    (hnext : ∀ last ∈ publications.getLast?, Continues last.snapshot snapshot)
    {row row' version : ℕ} {q : Publication} (hq : q ∈ publications)
    (hrow : (state.update snapshot around).content.rowVersions[row]? = some version)
    (hrow' : q.content.rowVersions[row']? = some version) :
    SameRow snapshot row q.snapshot row' := by
  obtain ⟨last, hmem, source, hsource, hsame⟩ :=
    h.earlier hnext hrow (h.bound q hq version (List.mem_of_getElem? hrow'))
  exact hsame.trans (h.versions last hmem q hq source row' version hsource hrow')

/-- Two versions of the new publication -/
theorem Kept.versions_new (h : Kept publications state)
    (hnext : ∀ last ∈ publications.getLast?, Continues last.snapshot snapshot)
    {row row' version : ℕ}
    (hrow : (state.update snapshot around).content.rowVersions[row]? = some version)
    (hrow' : (state.update snapshot around).content.rowVersions[row']? = some version) :
    SameRow snapshot row snapshot row' := by
  have hinherited {row : ℕ} (hinherits : Inherits state.mirror snapshot row version) :
      version ≤ state.counter := by
    obtain ⟨last, hmem, source, hsource, -⟩ := h.inherited hnext hinherits
    exact h.bound last hmem version (List.mem_of_getElem? hsource)
  have hboth (hold : version ≤ state.counter) : SameRow snapshot row snapshot row' := by
    obtain ⟨last, hmem, source, hsource, hsame⟩ := h.earlier hnext hrow hold
    exact hsame.trans (h.versions_old hnext hmem hrow' hsource).symm
  obtain ⟨hdrawn, -⟩ := versions_drawn state.mirror snapshot
    (nextContentGeneration state.counter around.others) around.othersAt
  rcases hdrawn.once row row' version hrow hrow' with rfl | hinherits | hinherits
  · rfl
  · exact hboth (hinherited hinherits)
  · exact hboth (hinherited hinherits)

/-- The mirror's memory of what it has just published. -/
theorem Kept.latest_update (h : Kept publications state)
    (hnext : ∀ last ∈ publications.getLast?, Continues last.snapshot snapshot) :
    Latest ⟨snapshot, (state.update snapshot around).content⟩ (state.update snapshot around) := by
  obtain ⟨-, hlength⟩ := versions_drawn state.mirror snapshot
    (nextContentGeneration state.counter around.others) around.othersAt
  refine ⟨rfl, ⟨rfl, rfl, hlength⟩, rfl, rfl, ?_⟩
  intro hvalid
  have hown : state.content.cells.address = state.mirror.frontAddress :=
    of_decide_eq_true (Bool.and_eq_true_iff.1 hvalid).2
  cases hlast : publications.getLast? with
  | none =>
    obtain ⟨hmirror, haddress⟩ := h.first hlast
    rw [hmirror] at hown
    exact absurd hown haddress
  | some last =>
    have hlatest := h.latest last hlast
    refine ⟨last.snapshot, ?_, ?_⟩
    · show state.content.cells.cells = _
      rw [hlatest.content]
      exact h.cells last (List.mem_of_getLast? hlast)
    · intro row hclean
      exact hlatest.follows.moved (hnext last hlast) hclean

theorem Kept.update (h : Kept publications state)
    (hnext : ∀ last ∈ publications.getLast?, Continues last.snapshot snapshot) :
    Kept (publications ++ [⟨snapshot, (state.update snapshot around).content⟩])
      (state.update snapshot around) := by
  obtain ⟨hdrawn, -⟩ := versions_drawn state.mirror snapshot
    (nextContentGeneration state.counter around.others) around.othersAt
  have hcounter : state.counter < (state.update snapshot around).counter := by
    have hle : state.counter + around.others + 1 ≤ (state.update snapshot around).counter := hdrawn.le
    omega
  have hlast : (publications ++ [(⟨snapshot, (state.update snapshot around).content⟩ :
      Publication)]).getLast? = some ⟨snapshot, (state.update snapshot around).content⟩ :=
    List.getLast?_concat
  refine ⟨?_, ?_, ?_, ?_, ?_, ?_⟩
  · intro p hp
    rcases List.mem_append.1 hp with hp | hp
    · exact h.cells p hp
    · rw [List.mem_singleton.1 hp]
      exact h.published hnext
  · intro p hp
    rcases List.mem_append.1 hp with hp | hp
    · exact h.size p hp
    · rw [List.mem_singleton.1 hp]
      exact ⟨rfl, rfl⟩
  · intro p hp version hversion
    rcases List.mem_append.1 hp with hp | hp
    · exact (h.bound p hp version hversion).trans hcounter.le
    · rw [List.mem_singleton.1 hp] at hversion
      obtain ⟨row, hrow⟩ := List.mem_iff_getElem?.1 hversion
      rcases hdrawn.cases row version hrow with hinherits | hnew
      · obtain ⟨last, hmem, source, hsource, -⟩ := h.inherited hnext hinherits
        exact (h.bound last hmem version (List.mem_of_getElem? hsource)).trans hcounter.le
      · exact hnew.2
  · intro p hp q hq row row' version hrow hrow'
    rcases List.mem_append.1 hp with hp | hp
    · rcases List.mem_append.1 hq with hq | hq
      · exact h.versions p hp q hq row row' version hrow hrow'
      · rw [List.mem_singleton.1 hq] at hrow' ⊢
        exact (h.versions_old hnext hp hrow' hrow).symm
    · rw [List.mem_singleton.1 hp] at hrow ⊢
      rcases List.mem_append.1 hq with hq | hq
      · exact h.versions_old hnext hq hrow hrow'
      · rw [List.mem_singleton.1 hq] at hrow' ⊢
        exact h.versions_new hnext hrow hrow'
  · intro hnone
    rw [hlast] at hnone
    exact absurd hnone (Option.some_ne_none _)
  · intro last hsome
    rw [hlast, Option.some.injEq] at hsome
    subst hsome
    exact h.latest_update hnext

theorem Runs.kept (h : Runs publications state) : Kept publications state := by
  induction h with
  | start content counter hcontent =>
    exact ⟨List.forall_mem_nil _, List.forall_mem_nil _, List.forall_mem_nil _,
      List.forall_mem_nil _, fun _ => ⟨rfl, hcontent⟩, fun _ hlast => by simp at hlast⟩
  | updateSelection h others ih => exact ih.updateSelection others
  | update h snapshot around hnext ih => exact ih.update hnext

/-- **What the mirror publishes.** In every run the cells of each publication are those of its snapshot, and
rows with the same version have the same cells, up to their lines. -/
theorem runs_mirrored (h : Runs publications state) :
    (∀ p ∈ publications, p.content.cells.cells = cellsFromGhostty p.snapshot.cells) ∧
    ∀ p ∈ publications, ∀ q ∈ publications, ∀ row row' version : ℕ,
      p.content.rowVersions[row]? = some version → q.content.rowVersions[row']? = some version →
      (Grid.row p.content.cols row p.content.cells.cells).map (Cell.onLine 0) =
        (Grid.row q.content.cols row' q.content.cells.cells).map (Cell.onLine 0) := by
  have hkept := h.kept
  refine ⟨hkept.cells, ?_⟩
  intro p hp q hq row row' version hrow hrow'
  have hsame : SameRow p.snapshot row q.snapshot row' :=
    hkept.versions p hp q hq row row' version hrow hrow'
  have hunlined (snapshot : Ghostty.Content) (row : ℕ) :
      (Grid.row snapshot.cols row (cellsFromGhostty snapshot.cells)).map (Cell.onLine 0) =
        ((Grid.row snapshot.cols row snapshot.cells).map Ghostty.Cell.unlined).map
          cellFromGhostty := by
    unfold cellsFromGhostty
    rw [Grid.row_map, List.map_map, List.map_map]
    rfl
  rw [hkept.cells p hp, hkept.cells q hq, (hkept.size p hp).1, (hkept.size q hq).1, hunlined,
    hunlined]
  exact congrArg _ hsame

def plainCell (row : ℕ) (character : Char) : Ghostty.Cell :=
  ⟨⟨Int32.ofNat row, 0⟩, character, none, .default, .default,
    ⟨false, false, false, false, false, false, false, .none⟩, .narrow, false, false⟩

/-- Two lines of one character that have moved up by one, the second one new. -/
def scrolled (revision : UInt64) (top bottom : Char) : Ghostty.Content where
  cells := [plainCell 0 top, plainCell 1 bottom]
  dirtyRows := [false, true]
  cols := 1
  rows := 2
  rowShift := 1
  revision := revision
  length_cells := rfl
  line_cells := by
    intro row hrow cell hcell
    match row with
    | 0 => rw [List.mem_singleton.1 hcell]; rfl
    | 1 => rw [List.mem_singleton.1 hcell]; rfl

theorem scrolled_continues (revision revision' : UInt64) (top bottom next : Char) :
    Continues (scrolled revision top bottom) (scrolled revision' bottom next) := by
  intro _ _ _ row source hclean hlt hshift
  match row with
  | 0 =>
    have hsource : source = 1 := by simpa [scrolled] using hshift.symm
    rw [hsource]
    rfl
  | 1 => simp [scrolled] at hclean
  | row + 2 => simp [scrolled] at hclean

/-- Three snapshots, each one line further. The third one is published in the buffer of the first, where the
line is that of the second one, and its first row has the version that it had then. -/
theorem runs_mirrored_scrolled :
    let around : Surroundings := ⟨false, 8, 0, fun _ => 0⟩
    let start : SharedState := ⟨.default, ⟨0, [], 0, 0, ⟨1, []⟩⟩, 0⟩
    let first := start.update (scrolled 1 'a' 'b') around
    let second := first.update (scrolled 2 'b' 'c') ⟨false, 16, 0, fun _ => 0⟩
    let third := second.update (scrolled 3 'c' 'd') around
    third.content.cells.address = first.content.cells.address ∧
      third.content.cells.cells = cellsFromGhostty [plainCell 0 'c', plainCell 1 'd'] ∧
      second.content.rowVersions[1]? = some 5 ∧ third.content.rowVersions[0]? = some 5 := by
  intro around start first second third
  have hstart : Runs [] start := .start _ _ (by decide)
  have hfirst := hstart.update (scrolled 1 'a' 'b') around (fun _ hlast => by simp at hlast)
  have hsecond := hfirst.update (scrolled 2 'b' 'c') ⟨false, 16, 0, fun _ => 0⟩ (by
    intro last hlast
    obtain rfl := Option.some.inj hlast
    exact scrolled_continues 1 2 'a' 'b' 'c')
  have hthird := hsecond.update (scrolled 3 'c' 'd') around (by
    intro last hlast
    obtain rfl := Option.some.inj hlast
    exact scrolled_continues 2 3 'b' 'c' 'd')
  have hcells := (runs_mirrored hthird).1 ⟨scrolled 3 'c' 'd', third.content⟩
    (List.mem_append_right _ (List.mem_singleton_self _))
  exact ⟨by decide, hcells, by decide, by decide⟩

end Paneflow.Terminal
