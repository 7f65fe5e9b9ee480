import Paneflow.Grid

/-!
# The cell mirror

terminal/ghostty_session/convert.rs and publish.rs. A snapshot of the terminal is a grid of cells with the
rows that changed since the last one and by how many rows it has scrolled. `CellMirror` publishes it as the
cells that are drawn: into the buffer of the publication before the last one when nobody holds it, writing
only the rows that are not there yet, and else into a new buffer. Each row has a version, which a row that
did not change takes along.

`ghostty::Content` and `Content` are here without what the mirror copies or converts next to the cells: the
cursor, the selection, the scroll position, the mouse shape and the overscan rows.
-/

namespace Paneflow.Terminal

/-! ### Cells -/

structure Rgb where
  r : UInt8
  g : UInt8
  b : UInt8
  deriving DecidableEq, Repr

/-- A position; the line is an `i32`. -/
structure Point where
  line : Int32
  column : ℕ
  deriving DecidableEq, Repr

namespace Ghostty

inductive Color where
  | default
  | palette (index : UInt8)
  | rgb (rgb : Rgb)
  deriving DecidableEq, Repr

inductive UnderlineStyle where
  | none
  | single
  | double
  | curly
  | dotted
  | dashed
  deriving DecidableEq, Repr

inductive WideCell where
  | narrow
  | wide
  | spacerTail
  | spacerHead
  deriving DecidableEq, Repr

structure CellFlags where
  bold : Bool
  dim : Bool
  italic : Bool
  inverse : Bool
  invisible : Bool
  strikethrough : Bool
  overline : Bool
  underline : UnderlineStyle
  deriving DecidableEq, Repr

structure Cell where
  point : Point
  character : Char
  zerowidth : Option (List Char)
  foreground : Color
  background : Color
  flags : CellFlags
  wide : WideCell
  selected : Bool
  hyperlink : Bool
  deriving DecidableEq, Repr

/-- A snapshot. Its cells are a grid, and each of them has the number of its row, as `snapshot` builds it. -/
structure Content where
  cells : List Cell
  dirtyRows : List Bool
  cols : ℕ
  rows : ℕ
  rowShift : ℤ
  revision : UInt64
  length_cells : cells.length = rows * cols
  line_cells : ∀ row < rows, ∀ cell ∈ Grid.row cols row cells, cell.point.line = Int32.ofNat row

end Ghostty

inductive NamedColor where
  | black
  | red
  | green
  | yellow
  | blue
  | magenta
  | cyan
  | white
  | brightBlack
  | brightRed
  | brightGreen
  | brightYellow
  | brightBlue
  | brightMagenta
  | brightCyan
  | brightWhite
  | foreground
  | background
  deriving DecidableEq, Repr

inductive Color where
  | named (color : NamedColor)
  | spec (rgb : Rgb)
  | indexed (index : UInt8)
  deriving DecidableEq, Repr

namespace CellFlags

def inverse : UInt16 := (1 : UInt16) <<< 0
def bold : UInt16 := (1 : UInt16) <<< 1
def italic : UInt16 := (1 : UInt16) <<< 2
def underline : UInt16 := (1 : UInt16) <<< 3
def doubleUnderline : UInt16 := (1 : UInt16) <<< 4
def undercurl : UInt16 := (1 : UInt16) <<< 5
def dottedUnderline : UInt16 := (1 : UInt16) <<< 6
def dashedUnderline : UInt16 := (1 : UInt16) <<< 7
def strikeout : UInt16 := (1 : UInt16) <<< 8
def dim : UInt16 := (1 : UInt16) <<< 9
def wideChar : UInt16 := (1 : UInt16) <<< 10
def wideCharSpacer : UInt16 := (1 : UInt16) <<< 11

end CellFlags

/-- A cell that is drawn; the flags are the bits of `CellFlags`. -/
structure Cell where
  point : Point
  c : Char
  fg : Color
  bg : Color
  flags : UInt16
  zerowidth : Option (List Char)
  hyperlink : Bool
  deriving DecidableEq, Repr

def colorFromGhostty (color : Ghostty.Color) (default : NamedColor) : Color :=
  match color with
  | .default => .named default
  | .palette index =>
    match index.toNat with
    | 0 => .named .black
    | 1 => .named .red
    | 2 => .named .green
    | 3 => .named .yellow
    | 4 => .named .blue
    | 5 => .named .magenta
    | 6 => .named .cyan
    | 7 => .named .white
    | 8 => .named .brightBlack
    | 9 => .named .brightRed
    | 10 => .named .brightGreen
    | 11 => .named .brightYellow
    | 12 => .named .brightBlue
    | 13 => .named .brightMagenta
    | 14 => .named .brightCyan
    | 15 => .named .brightWhite
    | _ => .indexed index
  | .rgb rgb => .spec rgb

def ghosttyCellFlags (cell : Ghostty.Cell) : UInt16 :=
  (if cell.flags.inverse then CellFlags.inverse else 0) |||
  (if cell.flags.bold then CellFlags.bold else 0) |||
  (if cell.flags.italic then CellFlags.italic else 0) |||
  (if cell.flags.dim then CellFlags.dim else 0) |||
  (if cell.flags.strikethrough then CellFlags.strikeout else 0) |||
  (match cell.flags.underline with
    | .none => 0
    | .single => CellFlags.underline
    | .double => CellFlags.doubleUnderline
    | .curly => CellFlags.undercurl
    | .dotted => CellFlags.dottedUnderline
    | .dashed => CellFlags.dashedUnderline) |||
  (match cell.wide with
    | .wide | .spacerHead => CellFlags.wideChar
    | .spacerTail => CellFlags.wideCharSpacer
    | .narrow => 0)

def cellFromGhostty (cell : Ghostty.Cell) : Cell where
  point := cell.point
  c := cell.character
  fg := colorFromGhostty cell.foreground .foreground
  bg := colorFromGhostty cell.background .background
  flags := ghosttyCellFlags cell
  zerowidth := cell.zerowidth
  hyperlink := cell.hyperlink

def cellsFromGhostty (cells : List Ghostty.Cell) : List Cell := cells.map cellFromGhostty

/-- `cell.point.line = line` -/
def Cell.onLine (line : Int32) (cell : Cell) : Cell :=
  { cell with point := { cell.point with line := line } }

/-- `ghostty::rotate_cells` -/
def rotateCells {α : Type} (cells : List α) (shift : ℤ) : List α :=
  let length := cells.length
  let count := shift.natAbs
  if count = 0 ∨ length = 0 then cells
  else
    let count := if count ≥ length then count % length else count
    if shift > 0 then cells.drop count ++ cells.take count
    else cells.drop (length - count) ++ cells.take (length - count)

/-! ### The mirror -/

/-- An `Arc<[Cell]>`: where it is, and the cells. -/
structure Buffer where
  address : ℕ
  cells : List Cell
  deriving DecidableEq

structure Content where
  generation : ℕ
  rowVersions : List ℕ
  cols : ℕ
  rows : ℕ
  cells : Buffer
  deriving DecidableEq

/-- The scratch space for versions is left out. -/
structure CellMirror where
  back : Buffer
  backStale : List Bool
  backShift : ℤ
  backValid : Bool
  lastDirty : List Bool
  lastShift : ℤ
  frontAddress : ℕ
  publishedAddress : ℕ
  rowVersions : List ℕ
  revision : Option UInt64
  cols : ℕ
  deriving DecidableEq

/-- `usize::checked_add_signed` -/
def checkedAddSigned (row : ℕ) (shift : ℤ) : Option ℕ :=
  if 0 ≤ row + shift ∧ row + shift < 2 ^ 64 then some (row + shift).toNat else none

/-- `isize::checked_add` -/
def checkedAdd (shift shift' : ℤ) : Option ℤ :=
  if -2 ^ 63 ≤ shift + shift' ∧ shift + shift' < 2 ^ 63 then some (shift + shift') else none

/-- `source_of`: the row of the last snapshot that is now `row`. -/
def sourceOf (rows : ℕ) (shift : ℤ) (row : ℕ) : Option ℕ :=
  (checkedAddSigned row shift).filter fun source => source < rows

/-- `next_content_generation` when other threads have drawn `others` numbers since the counter was read. -/
def nextContentGeneration (counter others : ℕ) : ℕ := counter + others + 1

/-- What a publication finds: whether the old buffer is still held elsewhere, where a new one would be, and
how many generations other threads draw before its own and before that of each row. -/
structure Surroundings where
  held : Bool
  address : ℕ
  others : ℕ
  othersAt : ℕ → ℕ

namespace CellMirror

def default : CellMirror := ⟨⟨0, []⟩, [], 0, false, [], 0, 0, 0, [], none, 0⟩

def continuous (mirror : CellMirror) (snapshot : Ghostty.Content) : Bool :=
  mirror.revision.any (fun revision => revision + 1 = snapshot.revision) &&
    mirror.cols = snapshot.cols && mirror.rowVersions.length = snapshot.rows &&
    snapshot.dirtyRows.length = snapshot.rows

def shift (mirror : CellMirror) (snapshot : Ghostty.Content) : ℤ :=
  if mirror.continuous snapshot then snapshot.rowShift else 0

/-- The rows that are not known from the last snapshot. -/
def dirty (mirror : CellMirror) (snapshot : Ghostty.Content) : List Bool :=
  (List.range snapshot.rows).map fun row =>
    !mirror.continuous snapshot || snapshot.dirtyRows.getD row true ||
      (sourceOf snapshot.rows (mirror.shift snapshot) row).isNone

/-- The version of a row, after those of the rows before it. -/
def drawVersion (mirror : CellMirror) (snapshot : Ghostty.Content) (othersAt : ℕ → ℕ)
    (drawn : ℕ × List ℕ) (entry : Bool × ℕ) : ℕ × List ℕ :=
  match (sourceOf snapshot.rows (mirror.shift snapshot) entry.2).filter fun _ => !entry.1 with
  | some source => (drawn.1, drawn.2 ++ [mirror.rowVersions.getD source 0])
  | none =>
    (nextContentGeneration drawn.1 (othersAt entry.2),
      drawn.2 ++ [nextContentGeneration drawn.1 (othersAt entry.2)])

/-- The loop that gives the rows their versions, with the counter that it leaves. -/
def versions (mirror : CellMirror) (snapshot : Ghostty.Content) (counter : ℕ)
    (othersAt : ℕ → ℕ) : ℕ × List ℕ :=
  (mirror.dirty snapshot).zipIdx.foldl (mirror.drawVersion snapshot othersAt) (counter, [])

/-- How far the rows of the old buffer have moved, when it can be used. -/
def backOffset (mirror : CellMirror) (snapshot : Ghostty.Content) : Option ℤ :=
  (checkedAdd (mirror.shift snapshot) mirror.backShift).filter fun offset =>
    offset.natAbs < snapshot.rows && mirror.backValid && mirror.continuous snapshot &&
      !mirror.back.cells.isEmpty && mirror.back.cells.length = snapshot.cells.length &&
      mirror.backStale.length = snapshot.rows

/-- Whether the old buffer has the row. -/
def reusable (mirror : CellMirror) (snapshot : Ghostty.Content) (offset : ℤ) (row : ℕ) : Bool :=
  !(mirror.dirty snapshot).getD row true &&
    (sourceOf snapshot.rows (mirror.shift snapshot) row).any (fun source =>
      !mirror.backStale.getD source true) &&
    (checkedAddSigned row offset).any fun backRow => backRow < snapshot.rows

/-- What becomes of a row of the old buffer. -/
def patchRow (mirror : CellMirror) (snapshot : Ghostty.Content) (offset : ℤ) (row : ℕ)
    (line : List Cell) : List Cell :=
  if mirror.reusable snapshot offset row then
    if offset ≠ 0 then line.map (Cell.onLine (Int32.ofNat row)) else line
  else cellsFromGhostty (Grid.row snapshot.cols row snapshot.cells)

/-- The old buffer, rotated, with the rows that it does not have. -/
def patched (mirror : CellMirror) (snapshot : Ghostty.Content) (offset : ℤ) : List Cell :=
  Grid.mapRows snapshot.cols snapshot.rows (mirror.patchRow snapshot offset)
    (rotateCells mirror.back.cells (offset * snapshot.cols))

/-- The buffer that is published. -/
def buffer (mirror : CellMirror) (snapshot : Ghostty.Content) (around : Surroundings) : Buffer :=
  match (mirror.backOffset snapshot).filter fun _ => !around.held with
  | some offset => ⟨mirror.back.address, mirror.patched snapshot offset⟩
  | none => ⟨around.address, cellsFromGhostty snapshot.cells⟩

/-- Whether `publish` takes the old buffer. -/
def takesBack (mirror : CellMirror) (snapshot : Ghostty.Content) (around : Surroundings) : Bool :=
  ((mirror.backOffset snapshot).filter fun _ => !around.held).isSome

/-- `publish`, with the counter of generations before and after. -/
def publish (mirror : CellMirror) (snapshot : Ghostty.Content) (around : Surroundings)
    (counter : ℕ) : Content × CellMirror × ℕ :=
  let generation := nextContentGeneration counter around.others
  let drawn := mirror.versions snapshot generation around.othersAt
  let cells := mirror.buffer snapshot around
  (⟨generation, drawn.2, snapshot.cols, snapshot.rows, cells⟩,
    { mirror with
      revision := some snapshot.revision
      cols := snapshot.cols
      rowVersions := drawn.2
      back := if mirror.takesBack snapshot around then ⟨0, []⟩ else mirror.back
      backValid := false
      lastDirty := mirror.dirty snapshot
      lastShift := mirror.shift snapshot
      publishedAddress := cells.address },
    drawn.1)

def recycle (mirror : CellMirror) (previous : Content) : CellMirror :=
  { mirror with
    back := previous.cells
    backValid := !previous.cells.cells.isEmpty && previous.cells.address = mirror.frontAddress
    backStale := mirror.lastDirty
    lastDirty := mirror.backStale
    backShift := mirror.lastShift
    frontAddress := mirror.publishedAddress }

end CellMirror

/-- The mirror, the content that is shared with the renderer, and the counter of generations. -/
structure SharedState where
  mirror : CellMirror
  content : Content
  counter : ℕ
  deriving DecidableEq

/-- `update_shared_state`: the snapshot is published, and what was shared before is recycled. -/
def SharedState.update (state : SharedState) (snapshot : Ghostty.Content)
    (around : Surroundings) : SharedState :=
  let (content, mirror, counter) := state.mirror.publish snapshot around state.counter
  ⟨mirror.recycle state.content, content, counter⟩

/-- `update_shared_selection`, which leaves the cells, after other threads have drawn `others` numbers. -/
def SharedState.updateSelection (state : SharedState) (others : ℕ) : SharedState :=
  { state with
    content := { state.content with generation := nextContentGeneration state.counter others }
    counter := nextContentGeneration state.counter others }

end Paneflow.Terminal
