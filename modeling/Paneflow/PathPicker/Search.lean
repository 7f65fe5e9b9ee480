import Paneflow.PathPicker.Index
import Mathlib.Data.List.Sort
import Mathlib.Data.Fin.Basic

/-!
# Searching indexes

search.rs of the path picker. The nodes of all sources are cut into chunks, which some workers scan: a node whose name
or path has the pattern in it is a hit, and a worker keeps its best hits. `reference` is what a scan is for.

A result is none where the source panics. The threads take the chunks in turn; which worker scans which of them is a
parameter, and so is the order in which `select_nth_unstable_by` leaves its items.
-/

namespace Paneflow.PathPicker

open Paneflow.Utf8

def chunk : ℕ := 16384
def folderSlots : ℕ := 64
def localBonus : ℤ := 32
def recentBonus : ℤ := 24

/-- `start..end`, of nodes. -/
structure Range where
  start : ℕ
  stop : ℕ
  deriving DecidableEq, Repr

def Range.nodes (range : Range) : List ℕ := List.range' range.start (range.stop - range.start)

def Range.contains (range : Range) (node : ℕ) : Bool := range.start ≤ node && node < range.stop

structure RecentTarget where
  name : List Char
  relative : List Char
  deriving DecidableEq, Repr

structure Source where
  index : Index
  range : Range
  skip : List Range
  start : Located
  minDepth : ℕ
  localRange : Option Range
  showHidden : Bool
  recents : List RecentTarget

structure Hit where
  score : ℤ
  len : ℕ
  source : ℕ
  node : ℕ
  recent : Bool
  deriving DecidableEq, Repr

/-- The order of hits: by score from the highest, and then by length, source and node. -/
def Hit.rank : Hit → Hit → Ordering :=
  compareLex (fun a b => compare b.score a.score)
    (compareLex (compareOn Hit.len) (compareLex (compareOn Hit.source) (compareOn Hit.node)))

/-- One hit is not behind another. -/
def Hit.before (a b : Hit) : Prop := (a.rank b).isLE = true

instance : DecidableRel Hit.before := fun a b => inferInstanceAs (Decidable ((a.rank b).isLE = true))

/-! ### Chunks -/

/-- The pieces of a range around the ranges that are skipped, sorted by where they begin. -/
def pieces (stop : ℕ) : List Range → ℕ → List Range
  | [], start => if start < stop then [⟨start, stop⟩] else []
  | skip :: skips, start =>
    (if skip.start > start then [⟨start, min skip.start stop⟩] else []) ++
      pieces stop skips (max start skip.stop)

/-- A piece in chunks. Its end is a word of 32 bits, so that it does not matter that the source adds without
overflow. -/
def cut (start stop : ℕ) : List Range :=
  if start < stop then ⟨start, min stop (start + chunk)⟩ :: cut (min stop (start + chunk)) stop else []
termination_by stop - start
decreasing_by
  have hchunk : 0 < chunk := by decide
  omega

/-- The chunks of one source. -/
def Source.chunks (source : Source) : List Range :=
  (pieces source.range.stop (source.skip.insertionSort fun a b => a.start ≤ b.start)
    source.range.start).flatMap fun piece => cut piece.start piece.stop

def chunks (sources : List Source) : List (ℕ × Range) :=
  sources.zipIdx.flatMap fun (source, nth) => source.chunks.map fun range => (nth, range)

/-! ### Workers -/

structure Worker where
  hits : List Hit
  floor : ℤ
  foldersOf : ℕ
  folders : Fin folderSlots → ℕ × ℕ

def Worker.new : Worker := ⟨[], -2 ^ 31, 2 ^ 64 - 1, fun _ => (noParent, 0)⟩

/-- The lowest score of some hits. -/
def lowest (hits : List Hit) : ℤ := (hits.map Hit.score).min?.getD (-2 ^ 31)

section
variable (platform : Platform) (select : ℕ → List Hit → List Hit)

def keepBest (hits : List Hit) (limit : ℕ) : List Hit :=
  if hits.length > limit then (select limit hits).take limit else hits

/-- What a worker does with a hit. -/
def Worker.offer (worker : Worker) (limit : ℕ) (hit : Hit) : Worker :=
  if hit.score < worker.floor then worker
  else
    let hits := worker.hits ++ [hit]
    if hits.length ≥ max (min (limit * 4) (2 ^ 64 - 1)) 1024 then
      let best := keepBest select hits limit
      { worker with hits := best, floor := if best.length = limit then lowest best else worker.floor }
    else { worker with hits := hits }

/-- The folder of a node, when it is one of the path. -/
def folderOf (source : Source) (node : ℕ) : Option (Option ℕ) :=
  (source.index.parent node).map fun parent => parent.filter fun parent => some parent ≠ source.start.ancestor

/-- The worker remembers the folders of one source alone. -/
def Worker.foldersFor (worker : Worker) (nth : ℕ) : Worker :=
  if worker.foldersOf ≠ nth then { worker with foldersOf := nth, folders := fun _ => (noParent, 0) } else worker

def folderSlot (parent : ℕ) : Fin folderSlots := ⟨parent % folderSlots, Nat.mod_lt _ (by decide)⟩

def folderProgress (worker : Worker) (nth : ℕ) (source : Source) (node : ℕ) (pattern : Pattern) :
    Option (ℕ × Worker) := do
  match ← folderOf source node with
  | none => some (0, worker)
  | some parent =>
    let worker := worker.foldersFor nth
    let (known, matched) := worker.folders (folderSlot parent)
    if known = parent then some (matched, worker)
    else do
      let text ← source.index.writePath platform parent source.start
      let matched := advance platform text pattern 0
      some (matched,
        { worker with folders := Function.update worker.folders (folderSlot parent) (parent, matched) })

/-- The score of a node and the length of its path. -/
def nodeScore (worker : Worker) (nth : ℕ) (source : Source) (node : ℕ) (pattern : Pattern) :
    Option (Option (ℤ × ℕ) × Worker) := do
  let name ← source.index.name node
  match scoreName platform name pattern with
  | some (score, _) => do
    let len ← source.index.pathLen node source.start
    some (some (score, len), worker)
  | none => do
    let (above, worker) ← folderProgress platform worker nth source node pattern
    if !isComplete pattern (advance platform name pattern above) then some (none, worker)
    else do
      let text ← source.index.writePath platform node source.start
      some ((scorePath platform text pattern).map fun scored => (scored.1, size text), worker)

/-- Whether the path of a node is a recent one. -/
def isRecent (source : Source) (node : ℕ) : Option Bool := do
  let name ← source.index.name node
  (source.recents.filter fun target => target.name = name).foldlM (fun recent target => do
    let text ← source.index.writePath platform node source.start
    some (recent || text = target.relative)) false

def isLocal (source : Source) (node : ℕ) : Bool := source.localRange.any fun range => range.contains node

/-- The hit of a node with this score and length. -/
def hitWith (nth : ℕ) (source : Source) (node : ℕ) (score : ℤ) (len : ℕ) (recent : Bool) : Hit where
  score := score + (if isLocal source node then localBonus else 0) + if recent then recentBonus else 0
  len := min len (2 ^ 32 - 1)
  source := nth % 2 ^ 16
  node := node
  recent := recent

/-- `scan_range` for one node. -/
def scanNode (nth : ℕ) (source : Source) (pattern : Pattern) (limit : ℕ) (worker : Worker) (node : ℕ) :
    Option Worker := do
  let mask ← source.index.mask node
  let depth ← source.index.depth node
  let hidden ← source.index.isHidden node
  if pattern.excludedBy mask || depth < source.minDepth || (!source.showHidden && hidden) then some worker
  else do
    let (scored, worker) ← nodeScore platform worker nth source node pattern
    match scored with
    | none => some worker
    | some (score, len) => do
      let recent ← isRecent platform source node
      some (worker.offer select limit (hitWith nth source node score len recent))

def scanRange (sources : List Source) (pattern : Pattern) (limit : ℕ) (worker : Worker) (item : ℕ × Range) :
    Option Worker := do
  let source ← sources[item.1]?
  item.2.nodes.foldlM (scanNode platform select item.1 source pattern limit) worker

/-- A scan that is not cancelled, in which each worker scans its items. -/
def scan (sources : List Source) (pattern : Pattern) (limit : ℕ) (items : List (List (ℕ × Range))) :
    Option (List Hit) := do
  let workers ← items.mapM fun items => items.foldlM (scanRange platform select sources pattern limit) .new
  let hits := workers.flatMap Worker.hits
  some ((keepBest select hits limit).insertionSort Hit.before)

/-! ### What a scan is for -/

/-- The hit of a node by its path. -/
def referenceHit (nth : ℕ) (source : Source) (pattern : Pattern) (node : ℕ) : Option (Option Hit) := do
  let depth ← source.index.depth node
  let hidden ← source.index.isHidden node
  let name ← source.index.name node
  let path ← source.index.writePath platform node source.start
  if source.skip.any (fun skip => skip.contains node) || depth < source.minDepth ||
      (!source.showHidden && hidden) then some none
  else
    let recent := source.recents.any fun target => target.name = name && target.relative = path
    some ((matchPath platform path pattern).map fun found =>
      hitWith nth source node found.score (size path) recent)

/-- All hits, sorted and cut at the limit. -/
def reference (sources : List Source) (pattern : Pattern) (limit : ℕ) : Option (List Hit) := do
  let hits ← sources.zipIdx.mapM fun (source, nth) =>
    source.range.nodes.mapM (referenceHit platform nth source pattern)
  some ((hits.flatten.reduceOption.insertionSort Hit.before).take limit)

end

end Paneflow.PathPicker
