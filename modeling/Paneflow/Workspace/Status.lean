import Paneflow.OrdMap
import Paneflow.Workspace.Changes
import Mathlib.Data.List.Lex
import Mathlib.Data.List.Permutation

/-!
# The sides of a status

paneflow-git/snapshot.rs. The items of a status come from two threads, one that compares HEAD with the index and one that
compares the index with the worktree; `record` puts them together by their paths, and `composed_change` of
workspace/git.rs makes one change of what was recorded.

`Tracked` is a path with its three sides, and `Tracked.items` are the items that gix emits for it.
-/

namespace Paneflow.Workspace

open Paneflow

instance linearOrderByte : LinearOrder UInt8 where
  le_refl := UInt8.le_refl
  le_trans _ _ _ := UInt8.le_trans
  le_antisymm _ _ := UInt8.le_antisymm
  le_total := UInt8.le_total
  lt_iff_le_not_ge a b := by
    rw [UInt8.lt_iff_toNat_lt, UInt8.le_iff_toNat_le, UInt8.le_iff_toNat_le]
    omega
  toDecidableLE := inferInstance

/-! ### Items -/

inductive Mode where
  | dir
  | file
  | fileExecutable
  | symlink
  | commit
  deriving DecidableEq, Repr

def Mode.bits : Mode → ℕ
  | .dir => 0o040000
  | .file => 0o100644
  | .fileExecutable => 0o100755
  | .symlink => 0o120000
  | .commit => 0o160000

inductive ObjectKind where
  | blob
  | link
  | commit
  | tree
  deriving DecidableEq, Repr

def objectKind (mode : Mode) : ObjectKind :=
  if mode = .symlink then .link
  else if mode = .commit then .commit
  else if mode = .dir then .tree
  else .blob

inductive ChangeRef where
  | addition (entryMode : Mode) (id : List Char)
  | deletion (entryMode : Mode) (id : List Char)
  | modification (previousEntryMode : Mode) (previousId : List Char) (entryMode : Mode) (id : List Char)
  | rewrite (entryMode : Mode) (id : List Char)
  deriving DecidableEq, Repr

inductive EntryStatus where
  | conflict (summary : Conflict)
  | needsUpdate
  | intentToAdd
  | removed
  | typeChange (worktreeMode : Mode)
  | modification (executableBitChanged : Bool)
  | submoduleModification
  deriving DecidableEq, Repr

inductive DiskKind where
  | file
  | symlink
  | directory
  | repository
  deriving DecidableEq, Repr

inductive Item where
  | treeIndex (location : List UInt8) (change : ChangeRef)
  | modification (relaPath : List UInt8) (indexMode : Mode) (indexId : List Char) (status : EntryStatus)
  | directoryContents (relaPath : List UInt8) (untracked : Bool) (diskKind : Option DiskKind)
  | rewrite
  deriving DecidableEq, Repr

/-! ### The record -/

structure Recorded where
  sides : Sides
  staged : Bool
  deriving DecidableEq, Repr

def Recorded.default : Recorded := ⟨⟨none, none, none⟩, false⟩

def Entry.ofPath (path : List UInt8) : Entry := ⟨path, none, none, none, false⟩

structure Collected where
  entries : OrdMap (List UInt8) Entry
  sides : OrdMap (List UInt8) Recorded

/-- `entry`, with what is done to it. -/
def Collected.entry (collected : Collected) (path : List UInt8) (f : Entry → Entry) : Collected :=
  { collected with
    entries := collected.entries.insert path (f ((collected.entries.get? path).getD (.ofPath path))) }

/-- `side`, with what is done to it. -/
def Collected.side (collected : Collected) (path : List UInt8) (f : Recorded → Recorded) : Collected :=
  { collected with
    sides := collected.sides.insert path (f ((collected.sides.get? path).getD .default)) }

def stored (mode : Mode) (id : List Char) : Stored := ⟨mode.bits, id⟩

/-- The sides that `record_tree_index_sides` takes from a change. -/
def ChangeRef.sides : ChangeRef → Option Stored × Option Stored
  | .addition entryMode id => (none, some (stored entryMode id))
  | .deletion entryMode id => (some (stored entryMode id), none)
  | .modification previousEntryMode previousId entryMode id =>
    (some (stored previousEntryMode previousId), some (stored entryMode id))
  | .rewrite entryMode id => (none, some (stored entryMode id))

def recordTreeIndexSides (change : ChangeRef) (recorded : Recorded) : Recorded :=
  { staged := true
    sides := { recorded.sides with head := change.sides.1, index := change.sides.2 } }

def worktreeMode (indexMode : Mode) : EntryStatus → Option ℕ
  | .typeChange worktreeMode => some worktreeMode.bits
  | .modification true =>
    some (match indexMode with
      | .file => Mode.fileExecutable.bits
      | .fileExecutable => Mode.file.bits
      | other => other.bits)
  | .modification false | .intentToAdd => some indexMode.bits
  | .conflict _ | .needsUpdate | .removed | .submoduleModification => none

/-- What `record` does to the sides of a path whose worktree differs from the index. -/
def recordWorktreeSides (indexMode : Mode) (indexId : List Char) (status : EntryStatus) (recorded : Recorded) : Recorded :=
  { recorded with sides := { recorded.sides with
      index := recorded.sides.index.or (some (stored indexMode indexId))
      worktreeMode := (worktreeMode indexMode status).or recorded.sides.worktreeMode } }

def treeIndexChange : ChangeRef → IndexChange
  | .addition _ _ => .added
  | .deletion _ _ => .deleted
  | .modification previousEntryMode _ entryMode _ =>
    if objectKind previousEntryMode = objectKind entryMode then .modified else .typeChange
  | .rewrite _ _ => .added

def recordWorktreeStatus (collected : Collected) (path : List UInt8) (status : EntryStatus) : Collected :=
  let change (change : WorktreeChange) : Collected :=
    collected.entry path fun entry => { entry with indexToWorktree := some change }
  match status with
  | .conflict summary => collected.entry path fun entry => { entry with conflict := some summary }
  | .needsUpdate => collected
  | .intentToAdd => change .intentToAdd
  | .removed => change .deleted
  | .typeChange _ => change .typeChange
  | .modification _ => change .modified
  | .submoduleModification => collected

def record (collected : Collected) : Item → Collected
  | .treeIndex location change =>
    (collected.entry location fun entry => { entry with headToIndex := some (treeIndexChange change) }).side location
      (recordTreeIndexSides change)
  | .modification relaPath indexMode indexId status =>
    recordWorktreeStatus (collected.side relaPath (recordWorktreeSides indexMode indexId status)) relaPath status
  | .directoryContents relaPath untracked diskKind =>
    if untracked then
      let path := if diskKind = some .directory ∨ diskKind = some .repository then relaPath ++ [47] else relaPath
      collected.entry path fun entry => { entry with untracked := true }
    else collected
  | .rewrite => collected

/-! ### The snapshot -/

/-- The final pass over an entry. -/
def finalEntry (entry : Entry) : Entry :=
  let entry := if entry.indexToWorktree = some .intentToAdd then { entry with headToIndex := none } else entry
  if entry.conflict.isSome then { entry with untracked := false } else entry

/-- The sides of a path that was not staged are those of the index. -/
def keptSide (entry : Entry) (recorded : Recorded) : Sides :=
  if !recorded.staged ∧ entry.indexToWorktree ≠ some .intentToAdd then
    { recorded.sides with head := recorded.sides.index }
  else recorded.sides

def keptSides : List Entry → OrdMap (List UInt8) Recorded → OrdMap (List UInt8) Sides → OrdMap (List UInt8) Sides
  | [], _, kept => kept
  | entry :: entries, recorded, kept =>
    match recorded.get? entry.path with
    | none => keptSides entries recorded kept
    | some found => keptSides entries (recorded.erase entry.path) (kept.insert entry.path (keptSide entry found))

/-- `collect` from the items of a status on, and whether there were too many entries. -/
def collect (items : List Item) (entryCap : ℕ) : Snapshot × Bool :=
  let collected := items.foldl record ⟨.empty, .empty⟩
  let final := collected.entries.mapValues finalEntry
  let entries := final.values.take entryCap
  (⟨entries, (keptSides entries collected.sides .empty).get?⟩, entryCap < final.values.length)

/-- The change that a snapshot has for a path. -/
def Snapshot.changeAt (snapshot : Snapshot) (path : List UInt8) : Option RawChange := do
  let entry ← snapshot.entries.find? fun entry => entry.path = path
  let sides ← snapshot.sides path
  composedChange entry sides

/-! ### Paths with three sides -/

/-- What HEAD, the index or the worktree has at a path that is no submodule. -/
structure Content where
  mode : Mode
  id : List Char
  plain : mode ≠ .dir ∧ mode ≠ .commit
  deriving DecidableEq, Repr

structure IndexEntry where
  content : Content
  intentToAdd : Bool
  deriving DecidableEq, Repr

structure Tracked where
  path : List UInt8
  head : Option Content
  index : Option IndexEntry
  worktree : Option Content
  deriving DecidableEq, Repr

/-- The index as it is compared with HEAD. -/
def Tracked.staged (tracked : Tracked) : Option Content :=
  (tracked.index.filter fun entry => !entry.intentToAdd).map (·.content)

def Tracked.treeIndex (tracked : Tracked) : Option ChangeRef :=
  match tracked.head, tracked.staged with
  | none, none => none
  | none, some index => some (.addition index.mode index.id)
  | some head, none => some (.deletion head.mode head.id)
  | some head, some index => if head = index then none else some (.modification head.mode head.id index.mode index.id)

/-- The status of a worktree that differs from the index. -/
def differs (index worktree : Content) : EntryStatus :=
  if objectKind index.mode = objectKind worktree.mode then .modification (index.mode ≠ worktree.mode)
  else .typeChange worktree.mode

/-- A file that is gone is reported as such, also when its entry is one to add. -/
def Tracked.indexWorktree (tracked : Tracked) : Option (Content × EntryStatus) :=
  match tracked.index, tracked.worktree with
  | none, _ => none
  | some entry, none => some (entry.content, .removed)
  | some entry, some worktree =>
    if entry.intentToAdd then some (entry.content, .intentToAdd)
    else if entry.content = worktree then none
    else some (entry.content, differs entry.content worktree)

def Tracked.items (tracked : Tracked) : List Item :=
  (tracked.treeIndex.map (Item.treeIndex tracked.path)).toList ++
    (tracked.indexWorktree.map fun found => .modification tracked.path found.1.mode found.1.id found.2).toList

/-- The new side of the change that is due: a mode and an id, unless the worktree has nothing that is tracked. An entry to
add has no content yet, so nothing is equal to it. -/
def Tracked.newSide (tracked : Tracked) : Option (Mode × List Char) :=
  match tracked.index, tracked.worktree with
  | some entry, some worktree =>
    if entry.intentToAdd then some (entry.content.mode, nullOid)
    else if entry.content = worktree then some (entry.content.mode, entry.content.id)
    else some (worktree.mode, nullOid)
  | _, _ => none

/-- The change between two sides, with the status that their modes say. -/
def changeBetween (old new : Option (Mode × List Char)) (path : List UInt8) : Option RawChange :=
  match old, new with
  | none, none => none
  | none, some new => some ⟨0, new.1.bits, nullOid, new.2, 65, path⟩
  | some old, none => some ⟨old.1.bits, 0, old.2, nullOid, 68, path⟩
  | some old, some new =>
    some ⟨old.1.bits, new.1.bits, old.2, new.2, if objectKind old.1 = objectKind new.1 then 77 else 84, path⟩

/-- The change that is due. -/
def Tracked.change (tracked : Tracked) : Option RawChange :=
  if tracked.items = [] then none
  else changeBetween (tracked.head.map fun head => (head.mode, head.id)) tracked.newSide tracked.path

/-! ### What is recorded of one path -/

variable {collected : Collected} {path other : List UInt8} {item : Item} {items : List Item}

/-- What there is of a path to compose a change from. -/
structure Seen where
  headToIndex : Option IndexChange
  indexToWorktree : Option WorktreeChange
  recorded : Option Recorded
  deriving DecidableEq, Repr

def Collected.seen (collected : Collected) (path : List UInt8) : Seen :=
  ⟨(collected.entries.get? path).bind (·.headToIndex), (collected.entries.get? path).bind (·.indexToWorktree),
    collected.sides.get? path⟩

def EntryStatus.change : EntryStatus → Option WorktreeChange
  | .intentToAdd => some .intentToAdd
  | .removed => some .deleted
  | .typeChange _ => some .typeChange
  | .modification _ => some .modified
  | .conflict _ | .needsUpdate | .submoduleModification => none

def Seen.record (seen : Seen) : Item → Seen
  | .treeIndex _ change =>
    ⟨some (treeIndexChange change), seen.indexToWorktree,
      some (recordTreeIndexSides change (seen.recorded.getD .default))⟩
  | .modification _ indexMode indexId status =>
    ⟨seen.headToIndex, status.change.or seen.indexToWorktree,
      some (recordWorktreeSides indexMode indexId status (seen.recorded.getD .default))⟩
  | .directoryContents _ _ _ => seen
  | .rewrite => seen

/-- The item is about the path, and is no untracked file. -/
def Item.isAt (path : List UInt8) : Item → Bool
  | .treeIndex location _ => location = path
  | .modification relaPath _ _ _ => relaPath = path
  | .directoryContents _ _ _ => false
  | .rewrite => false

theorem seen_entry (collected : Collected) (path other : List UInt8) (f : Entry → Entry) :
    (collected.entry path f).seen other =
      if other = path then
        ⟨(f ((collected.entries.get? path).getD (.ofPath path))).headToIndex,
          (f ((collected.entries.get? path).getD (.ofPath path))).indexToWorktree, collected.sides.get? path⟩
      else collected.seen other := by
  unfold Collected.seen Collected.entry
  simp only [OrdMap.get?_insert]
  split_ifs with h
  · rw [h]
    rfl
  · rfl

theorem seen_side (collected : Collected) (path other : List UInt8) (f : Recorded → Recorded) :
    (collected.side path f).seen other =
      if other = path then
        { collected.seen path with recorded := some (f ((collected.sides.get? path).getD .default)) }
      else collected.seen other := by
  unfold Collected.seen Collected.side
  simp only [OrdMap.get?_insert]
  split_ifs with h
  · rw [h]
  · rfl

/-- An entry that is new has no changes. -/
theorem getD_ofPath (collected : Collected) (path : List UInt8) :
    ((collected.entries.get? path).getD (.ofPath path)).headToIndex = (collected.seen path).headToIndex ∧
      ((collected.entries.get? path).getD (.ofPath path)).indexToWorktree = (collected.seen path).indexToWorktree := by
  unfold Collected.seen
  rcases collected.entries.get? path with _ | entry
  · exact ⟨rfl, rfl⟩
  · exact ⟨rfl, rfl⟩

theorem seen_recordWorktreeStatus (collected : Collected) (path other : List UInt8) (status : EntryStatus) :
    (recordWorktreeStatus collected path status).seen other =
      if other = path then
        { collected.seen path with indexToWorktree := status.change.or (collected.seen path).indexToWorktree }
      else collected.seen other := by
  obtain ⟨hhead, hworktree⟩ := getD_ofPath collected path
  have hsame : collected.seen other = if other = path then collected.seen path else collected.seen other := by
    split_ifs with h
    · rw [h]
    · rfl
  cases status with
  | conflict summary =>
    unfold recordWorktreeStatus
    dsimp only
    rw [seen_entry, hhead, hworktree]
    rfl
  | needsUpdate => exact hsame
  | submoduleModification => exact hsame
  | _ =>
    unfold recordWorktreeStatus
    dsimp only
    rw [seen_entry, hhead]
    rfl

theorem seen_record (collected : Collected) (path : List UInt8) (item : Item) :
    (record collected item).seen path =
      if item.isAt path then (collected.seen path).record item else collected.seen path := by
  cases item with
  | treeIndex location change =>
    unfold record Item.isAt
    rw [seen_side, seen_entry, seen_entry]
    by_cases h : location = path
    · subst h
      simp [Seen.record, Collected.seen, Collected.entry, getD_ofPath]
    · simp [h, Ne.symm h]
  | modification relaPath indexMode indexId status =>
    unfold record Item.isAt
    rw [seen_recordWorktreeStatus, seen_side, seen_side]
    by_cases h : relaPath = path
    · subst h
      simp [Seen.record, Collected.seen]
    · simp [h, Ne.symm h]
  | directoryContents relaPath untracked diskKind =>
    have hlisted : ∀ listed, (collected.entry listed fun entry => { entry with untracked := true }).seen path =
        collected.seen path := by
      intro listed
      rw [seen_entry]
      split_ifs with h
      · subst h
        simp [Collected.seen, getD_ofPath]
      · rfl
    rcases untracked with _ | _
    · rfl
    · exact hlisted _
  | rewrite => rfl

theorem seen_foldl_record (items : List Item) (collected : Collected) (path : List UInt8) :
    (items.foldl record collected).seen path = (items.filter (·.isAt path)).foldl Seen.record (collected.seen path) := by
  induction items generalizing collected with
  | nil => rfl
  | cons item items ih =>
    rw [List.foldl_cons, ih, seen_record, List.filter_cons]
    split_ifs <;> rfl

/-- The entries stand at their paths, and the path has one if it has sides. -/
structure Collected.Ok (collected : Collected) (path : List UInt8) : Prop where
  paths : ∀ other entry, collected.entries.get? other = some entry → entry.path = other
  sides : ∀ recorded, collected.sides.get? path = some recorded → (collected.entries.get? path).isSome = true

theorem Collected.Ok.entry (h : collected.Ok path) (other : List UInt8) {f : Entry → Entry}
    (hf : ∀ entry, (f entry).path = entry.path) : (collected.entry other f).Ok path where
  paths listed entry hget := by
    unfold Collected.entry at hget
    rw [OrdMap.get?_insert] at hget
    split_ifs at hget with hlisted
    · cases hget
      rw [hf, hlisted]
      rcases hentry : collected.entries.get? other with _ | found
      · rfl
      · exact h.paths other found hentry
    · exact h.paths listed entry hget
  sides recorded hget := by
    unfold Collected.entry
    rw [OrdMap.get?_insert]
    split_ifs
    · rfl
    · exact h.sides recorded hget

theorem Collected.Ok.side (h : collected.Ok path) {other : List UInt8} (f : Recorded → Recorded)
    (hother : other = path → (collected.entries.get? path).isSome = true) : (collected.side other f).Ok path where
  paths := h.paths
  sides recorded hget := by
    unfold Collected.side at hget
    rw [OrdMap.get?_insert] at hget
    split_ifs at hget with hpath
    · exact hother hpath.symm
    · exact h.sides recorded hget

/-- The sides of a path are recorded together with its entry. -/
theorem Collected.Ok.both (h : collected.Ok path) (other : List UInt8) (f : Recorded → Recorded) {g : Entry → Entry}
    (hg : ∀ entry, (g entry).path = entry.path) : ((collected.entry other g).side other f).Ok path := by
  refine (h.entry other hg).side f ?_
  rintro rfl
  unfold Collected.entry
  rw [OrdMap.get?_insert, if_pos rfl]
  rfl

/-- The item leaves an entry, if it leaves anything. -/
def Item.Leaves : Item → Prop
  | .modification _ _ _ status => status ≠ .needsUpdate ∧ status ≠ .submoduleModification
  | _ => True

theorem Collected.Ok.record (h : collected.Ok path) (hitem : item.isAt path = true → item.Leaves) :
    (record collected item).Ok path := by
  cases item with
  | treeIndex location change => exact h.both location _ fun _ => rfl
  | modification relaPath indexMode indexId status =>
    have hother : (status = .needsUpdate ∨ status = .submoduleModification) → relaPath = path → False := by
      rintro hstatus rfl
      obtain ⟨hneeds, hsubmodule⟩ := hitem (by simp [Item.isAt])
      exact hstatus.elim hneeds hsubmodule
    cases status with
    | needsUpdate => exact h.side _ fun hpath => (hother (.inl rfl) hpath).elim
    | submoduleModification => exact h.side _ fun hpath => (hother (.inr rfl) hpath).elim
    | conflict summary =>
      exact h.both relaPath (recordWorktreeSides indexMode indexId (.conflict summary))
        (g := fun entry => { entry with conflict := some summary }) fun _ => rfl
    | _ =>
      exact h.both relaPath (recordWorktreeSides indexMode indexId _)
        (g := fun entry => { entry with indexToWorktree := some _ }) fun _ => rfl
  | directoryContents relaPath untracked diskKind =>
    unfold Workspace.record
    dsimp only
    split_ifs
    · exact h.entry _ fun _ => rfl
    · exact h.entry _ fun _ => rfl
    · exact h
  | rewrite => exact h

theorem Collected.Ok.foldl (h : collected.Ok path) (hitems : ∀ item ∈ items, item.isAt path = true → item.Leaves) :
    (items.foldl Workspace.record collected).Ok path := by
  induction items generalizing collected with
  | nil => exact h
  | cons item items ih =>
    exact ih (h.record (hitems item List.mem_cons_self)) fun other hother => hitems other (List.mem_cons_of_mem _ hother)

/-! ### From the record to the change -/

theorem get?_keptSides (entries : List Entry) (hdistinct : entries.Pairwise fun x y => x.path ≠ y.path)
    (recorded : OrdMap (List UInt8) Recorded) (kept : OrdMap (List UInt8) Sides) (path : List UInt8) :
    (keptSides entries recorded kept).get? path =
      ((entries.find? fun entry => entry.path = path).bind fun entry =>
        (recorded.get? path).map (keptSide entry)).or (kept.get? path) := by
  induction entries generalizing recorded kept with
  | nil => rfl
  | cons entry entries ih =>
    obtain ⟨hentry, hentries⟩ := List.pairwise_cons.1 hdistinct
    have hrest : entry.path = path → entries.find? (fun entry => entry.path = path) = none := by
      rintro rfl
      exact List.find?_eq_none.2 fun other hother => by simpa using Ne.symm (hentry other hother)
    unfold keptSides
    by_cases hpath : entry.path = path
    · rw [List.find?_cons_of_pos (by simpa using hpath), hpath, Option.bind_some]
      rcases hfound : recorded.get? path with _ | found
      · dsimp only
        rw [ih hentries, hrest hpath]
        rfl
      · dsimp only
        rw [ih hentries, hrest hpath, OrdMap.get?_insert, if_pos rfl]
        rfl
    · rw [List.find?_cons_of_neg (by simpa using hpath)]
      rcases hfound : recorded.get? entry.path with _ | found
      · exact ih hentries recorded kept
      · dsimp only
        rw [ih hentries, OrdMap.get?_erase, OrdMap.get?_insert, if_neg (Ne.symm hpath), if_neg (Ne.symm hpath)]

/-- The change of a path, from what there is of it. -/
def Seen.change (seen : Seen) (path : List UInt8) : Option RawChange :=
  let entry := finalEntry ⟨path, seen.headToIndex, seen.indexToWorktree, none, false⟩
  seen.recorded.bind fun recorded => composedChange entry (keptSide entry recorded)

theorem finalEntry_fields (entry : Entry) :
    (finalEntry entry).path = entry.path ∧ (finalEntry entry).indexToWorktree = entry.indexToWorktree ∧
      (finalEntry entry).headToIndex = if entry.indexToWorktree = some .intentToAdd then none else entry.headToIndex := by
  unfold finalEntry
  dsimp only
  split_ifs <;> exact ⟨rfl, rfl, rfl⟩

/-- The change reads no more of an entry than its path and its two changes. -/
theorem composed_congr {entry entry' : Entry} (hpath : entry.path = entry'.path)
    (hhead : entry.headToIndex = entry'.headToIndex) (hworktree : entry.indexToWorktree = entry'.indexToWorktree)
    (recorded : Recorded) :
    composedChange entry (keptSide entry recorded) = composedChange entry' (keptSide entry' recorded) := by
  unfold composedChange composedSide keptSide
  rw [hpath, hhead, hworktree]

theorem pairwise_values (hok : collected.Ok path) :
    (collected.entries.mapValues finalEntry).values.Pairwise fun x y => x.path ≠ y.path := by
  unfold OrdMap.values OrdMap.mapValues
  rw [List.pairwise_map, List.pairwise_map]
  refine List.Pairwise.imp_of_mem ?_ collected.entries.sorted
  rintro ⟨k, x⟩ ⟨k', y⟩ hx hy hlt
  dsimp only
  rw [(finalEntry_fields x).1, (finalEntry_fields y).1, hok.paths k x (OrdMap.get?_eq_some.2 hx),
    hok.paths k' y (OrdMap.get?_eq_some.2 hy)]
  exact hlt.ne

/-- The snapshot has kept the path, if it has anything of it. -/
def Kept (snapshot : Snapshot × Bool) (path : List UInt8) : Prop :=
  snapshot.2 = false ∨ ∃ entry ∈ snapshot.1.entries, entry.path = path

theorem changeAt_collect (hitems : ∀ item ∈ items, item.isAt path = true → item.Leaves) (entryCap : ℕ)
    (hkept : Kept (collect items entryCap) path) :
    (collect items entryCap).1.changeAt path =
      ((items.filter (·.isAt path)).foldl Seen.record ⟨none, none, none⟩).change path := by
  have hok : (items.foldl record ⟨.empty, .empty⟩).Ok path :=
    Collected.Ok.foldl ⟨nofun, nofun⟩ hitems
  have hseen := seen_foldl_record items ⟨.empty, .empty⟩ path
  have hempty : (⟨.empty, .empty⟩ : Collected).seen path = ⟨none, none, none⟩ := rfl
  rw [hempty] at hseen
  rw [← hseen]
  unfold collect at hkept ⊢
  generalize items.foldl record ⟨.empty, .empty⟩ = collected at hok hkept ⊢
  dsimp only at hkept ⊢
  have hdistinct := pairwise_values hok
  have hmem : ∀ entry ∈ (collected.entries.mapValues finalEntry).values, entry.path = path →
      ∃ found, collected.entries.get? path = some found ∧ entry = finalEntry found := by
    intro entry hentry hpath
    obtain ⟨key, hget⟩ := OrdMap.mem_values.1 hentry
    rw [OrdMap.get?_mapValues] at hget
    obtain ⟨found, hfound, rfl⟩ := Option.map_eq_some_iff.1 hget
    rw [(finalEntry_fields found).1, hok.paths key found hfound] at hpath
    exact ⟨found, hpath ▸ hfound, rfl⟩
  have hall : ∀ found, collected.entries.get? path = some found →
      finalEntry found ∈ (collected.entries.mapValues finalEntry).values := by
    intro found hfound
    exact OrdMap.mem_values.2 ⟨path, by rw [OrdMap.get?_mapValues, hfound, Option.map_some]⟩
  generalize (collected.entries.mapValues finalEntry).values = values at hdistinct hmem hall hkept ⊢
  unfold Snapshot.changeAt
  dsimp only
  rw [get?_keptSides _ (hdistinct.sublist (List.take_sublist _ _))]
  rcases hfind : (values.take entryCap).find? fun entry => decide (entry.path = path) with _ | entry
  · -- nothing is listed, so there is nothing
    have hnone : collected.entries.get? path = none := by
      rcases hfound : collected.entries.get? path with _ | found
      · rfl
      · have hpath : (finalEntry found).path = path := (finalEntry_fields found).1.trans (hok.paths path found hfound)
        have hmiss := List.find?_eq_none.1 hfind
        rcases hkept with htruncated | ⟨entry, hentry, hat⟩
        · rw [List.take_of_length_le (by simpa using htruncated)] at hmiss
          exact absurd (by simpa using hpath) (hmiss _ (hall found hfound))
        · exact absurd (by simpa using hat) (hmiss entry hentry)
    have hsides : collected.sides.get? path = none := by
      rcases hrecorded : collected.sides.get? path with _ | recorded
      · rfl
      · have hsome := hok.sides recorded hrecorded
        rw [hnone] at hsome
        cases hsome
    rw [hfind]
    simp [Seen.change, Collected.seen, hsides]
  · rw [hfind]
    obtain ⟨found, hfound, rfl⟩ := hmem entry (List.mem_of_mem_take (List.mem_of_find?_eq_some hfind))
      (by simpa using List.find?_some hfind)
    have hpath := hok.paths path found hfound
    obtain ⟨hfinal, hworktree, hhead⟩ := finalEntry_fields found
    simp only [Option.bind_eq_bind, Option.bind_some, OrdMap.get?_empty, Option.or_none, Seen.change, Collected.seen,
      hfound]
    rcases collected.sides.get? path with _ | recorded
    · rfl
    · refine composed_congr ?_ ?_ ?_ recorded
      · rw [hfinal, hpath, (finalEntry_fields _).1]
      · rw [hhead, (finalEntry_fields _).2.2]
      · rw [hworktree, (finalEntry_fields _).2.1]

/-! ### The change that is due -/

theorem bits_ne_zero (mode : Mode) : mode.bits ≠ 0 := by
  cases mode <;> decide

theorem mask_eq_iff (mode mode' : Mode) :
    mode.bits &&& objectTypeMask = mode'.bits &&& objectTypeMask ↔ objectKind mode = objectKind mode' := by
  cases mode <;> cases mode' <;> decide

/-- The raw form of a side. -/
def rawSide : Option (Mode × List Char) → ℕ × List Char
  | some (mode, id) => (mode.bits, id)
  | none => (0, nullOid)

theorem rawChange_rawSide (old new : Option (Mode × List Char)) (path : List UInt8) :
    rawChange (rawSide old) (rawSide new) path = changeBetween old new path := by
  rcases old with _ | ⟨oldMode, oldId⟩ <;> rcases new with _ | ⟨newMode, newId⟩
  · rfl
  · simp [rawChange, rawSide, changeBetween, bits_ne_zero]
  · simp [rawChange, rawSide, changeBetween, bits_ne_zero]
  · by_cases hkind : objectKind oldMode = objectKind newMode
    · simp [rawChange, rawSide, changeBetween, bits_ne_zero, mask_eq_iff, hkind]
    · simp [rawChange, rawSide, changeBetween, bits_ne_zero, mask_eq_iff, hkind]

/-- The mode that is reported of a worktree that differs is its mode. -/
theorem worktreeMode_differs (index worktree : Content) :
    worktreeMode index.mode (differs index worktree) = some worktree.mode.bits := by
  obtain ⟨indexMode, indexId, hindex⟩ := index
  obtain ⟨mode, id, hmode⟩ := worktree
  cases indexMode <;> simp at hindex <;> cases mode <;> simp at hmode <;> rfl

theorem change_differs (index worktree : Content) :
    (differs index worktree).change = some .modified ∨ (differs index worktree).change = some .typeChange := by
  unfold differs
  split_ifs
  · exact .inl rfl
  · exact .inr rfl

/-- The file of an entry to add is gone, and HEAD has none. -/
def Tracked.Vanished (tracked : Tracked) : Prop :=
  tracked.head = none ∧ tracked.worktree = none ∧ ∃ content, tracked.index = some ⟨content, true⟩

/-- The new side that is composed for a worktree that was reported. -/
def reportedSide (indexMode : Mode) (status : EntryStatus) : ℕ × List Char :=
  ((worktreeMode indexMode status).getD 0, nullOid)

/-- What the final pass leaves of a path with the two kinds of items. -/
theorem composedSide_reported (entry : Entry) (sides : Sides) {indexMode : Mode} {status : EntryStatus}
    (hstatus : status.change ≠ none) (hentry : entry.indexToWorktree = status.change)
    (hmode : sides.worktreeMode = worktreeMode indexMode status) :
    composedSide entry sides = some (reportedSide indexMode status) := by
  unfold composedSide reportedSide
  cases status with
  | conflict summary => exact absurd rfl hstatus
  | needsUpdate => exact absurd rfl hstatus
  | submoduleModification => exact absurd rfl hstatus
  | removed =>
    rw [hentry]
    rfl
  | intentToAdd =>
    rw [hentry, hmode]
    rfl
  | typeChange mode =>
    rw [hentry, hmode]
    rfl
  | modification changed =>
    rw [hentry, hmode]
    cases changed <;> rfl

section
variable (path : List UInt8) (change : ChangeRef) (indexMode : Mode) (indexId : List Char) {status : EntryStatus}

/-- Only the index differs. -/
theorem change_treeIndex :
    (([Item.treeIndex path change].foldl Seen.record ⟨none, none, none⟩)).change path =
      rawChange (storedSide change.sides.1) (storedSide change.sides.2) path := by
  cases change with
  | modification previousMode previousId mode id =>
    unfold Seen.change Seen.record treeIndexChange
    by_cases hkind : objectKind previousMode = objectKind mode
    · simp [hkind, recordTreeIndexSides, finalEntry, keptSide, composedChange, composedSide]
    · simp [hkind, recordTreeIndexSides, finalEntry, keptSide, composedChange, composedSide]
  | _ => rfl

/-- The worktree was reported: what HEAD has is what the index has, unless it was staged or is to be added. -/
theorem change_reported (headToIndex : Option IndexChange) (recorded : Recorded) (hstatus : status.change ≠ none)
    (hmode : recorded.sides.worktreeMode = worktreeMode indexMode status) :
    Seen.change ⟨headToIndex, status.change, some recorded⟩ path =
      rawChange (storedSide (if recorded.staged = false ∧ status ≠ .intentToAdd then recorded.sides.index
        else recorded.sides.head)) (reportedSide indexMode status) path := by
  obtain ⟨hpath, hworktree, -⟩ := finalEntry_fields ⟨path, headToIndex, status.change, none, false⟩
  have hadd : status.change ≠ some .intentToAdd ↔ status ≠ .intentToAdd := by
    cases status <;> simp [EntryStatus.change]
  have hkept : (keptSide (finalEntry ⟨path, headToIndex, status.change, none, false⟩) recorded).worktreeMode =
      worktreeMode indexMode status := by
    unfold keptSide
    split_ifs <;> exact hmode
  unfold Seen.change composedChange
  dsimp only [Option.bind_some]
  rw [composedSide_reported _ _ hstatus hworktree hkept, hpath, Option.bind_eq_bind, Option.bind_some]
  unfold keptSide
  rw [hworktree]
  simp only [Bool.not_eq_true', hadd]
  split_ifs <;> rfl

/-- Only the worktree differs. -/
theorem change_indexWorktree (hstatus : status.change ≠ none) :
    ([Item.modification path indexMode indexId status].foldl Seen.record ⟨none, none, none⟩).change path =
      rawChange (if status = .intentToAdd then (0, nullOid) else (indexMode.bits, indexId))
        (reportedSide indexMode status) path := by
  have hseen : [Item.modification path indexMode indexId status].foldl Seen.record ⟨none, none, none⟩ =
      ⟨none, status.change, some ⟨⟨none, some (stored indexMode indexId), worktreeMode indexMode status⟩, false⟩⟩ := by
    simp [Seen.record, recordWorktreeSides, Recorded.default]
  rw [hseen, change_reported path indexMode none _ hstatus rfl]
  by_cases hadd : status = .intentToAdd
  · simp [hadd, storedSide]
  · simp [hadd, storedSide, stored]

/-- Both differ, and come in either order. -/
theorem change_both (hstatus : status.change ≠ none) {items : List Item}
    (hitems : items.Perm [.treeIndex path change, .modification path indexMode indexId status]) :
    (items.foldl Seen.record ⟨none, none, none⟩).change path =
      rawChange (storedSide change.sides.1) (reportedSide indexMode status) path := by
  obtain ⟨index, hseen⟩ : ∃ index, items.foldl Seen.record ⟨none, none, none⟩ =
      ⟨some (treeIndexChange change), status.change,
        some ⟨⟨change.sides.1, index, worktreeMode indexMode status⟩, true⟩⟩ := by
    rcases List.perm_pair.1 hitems with rfl | rfl
    · exact ⟨change.sides.2.or (some (stored indexMode indexId)),
        by simp [Seen.record, recordWorktreeSides, recordTreeIndexSides, Recorded.default]⟩
    · exact ⟨change.sides.2, by simp [Seen.record, recordWorktreeSides, recordTreeIndexSides, Recorded.default]⟩
  rw [hseen, change_reported path indexMode _ _ hstatus rfl]
  rfl

end

section
variable {tracked : Tracked}

/-- A side as a pair of a mode and an id. -/
def Content.pair (content : Content) : Mode × List Char := (content.mode, content.id)

theorem sides_of_treeIndex {change : ChangeRef} (h : tracked.treeIndex = some change) :
    storedSide change.sides.1 = rawSide (tracked.head.map (·.pair)) ∧
      storedSide change.sides.2 = rawSide (tracked.staged.map (·.pair)) := by
  unfold Tracked.treeIndex at h
  generalize tracked.head = head at h ⊢
  generalize tracked.staged = staged at h ⊢
  rcases head with _ | head <;> rcases staged with _ | index
  · cases h
  · cases h
    exact ⟨rfl, rfl⟩
  · cases h
    exact ⟨rfl, rfl⟩
  · dsimp only at h
    split_ifs at h
    cases h
    exact ⟨rfl, rfl⟩

theorem head_of_treeIndex (h : tracked.treeIndex = none) : tracked.head = tracked.staged := by
  unfold Tracked.treeIndex at h
  generalize tracked.head = head at h ⊢
  generalize tracked.staged = staged at h ⊢
  rcases head with _ | head <;> rcases staged with _ | index
  · rfl
  · cases h
  · cases h
  · dsimp only at h
    split_ifs at h with heq
    rw [heq]

theorem newSide_of_indexWorktree (h : tracked.indexWorktree = none) :
    tracked.newSide = tracked.staged.map (·.pair) := by
  unfold Tracked.indexWorktree at h
  unfold Tracked.newSide Tracked.staged
  generalize tracked.index = index at h ⊢
  generalize tracked.worktree = file at h ⊢
  rcases index with _ | ⟨content, intentToAdd⟩ <;> rcases file with _ | worktree
  · rfl
  · rfl
  · cases h
  · dsimp only at h ⊢
    split_ifs at h with hadd hequal
    rw [if_neg hadd, if_pos hequal]
    simp [hadd, Content.pair]

/-- The status of a worktree that was reported says what the new side is. -/
theorem reportedSide_of_indexWorktree {content : Content} {status : EntryStatus}
    (h : tracked.indexWorktree = some (content, status)) :
    status.change ≠ none ∧ reportedSide content.mode status = rawSide tracked.newSide := by
  unfold Tracked.indexWorktree at h
  unfold Tracked.newSide
  generalize tracked.index = index at h ⊢
  generalize tracked.worktree = file at h ⊢
  rcases index with _ | ⟨entry, intentToAdd⟩ <;> rcases file with _ | worktree
  · cases h
  · cases h
  · cases h
    exact ⟨nofun, rfl⟩
  · dsimp only at h ⊢
    split_ifs at h with hadd hequal
    · cases h
      rw [if_pos hadd]
      exact ⟨nofun, rfl⟩
    · cases h
      rw [if_neg hadd, if_neg hequal]
      refine ⟨?_, ?_⟩
      · rcases change_differs content worktree with hchange | hchange <;> simp [hchange]
      · rw [reportedSide, worktreeMode_differs]
        rfl

/-- Only the worktree was reported: the old side is that of HEAD, unless the entry has vanished. -/
theorem oldSide_of_indexWorktree {content : Content} {status : EntryStatus}
    (h : tracked.indexWorktree = some (content, status)) (hhead : tracked.head = tracked.staged) :
    tracked.Vanished ∧ status = .removed ∧ tracked.newSide = none ∨
      ¬tracked.Vanished ∧
        (if status = .intentToAdd then (0, nullOid) else (content.mode.bits, content.id)) =
          rawSide (tracked.head.map (·.pair)) := by
  unfold Tracked.indexWorktree at h
  unfold Tracked.Vanished Tracked.newSide
  unfold Tracked.staged at hhead
  rw [hhead]
  generalize tracked.index = index at h ⊢
  generalize tracked.worktree = file at h ⊢
  rcases index with _ | ⟨entry, _ | _⟩ <;> rcases file with _ | worktree
  · cases h
  · cases h
  · cases h
    exact .inr ⟨by simp, rfl⟩
  · dsimp only at h
    rw [if_neg (by simp)] at h
    split_ifs at h with hequal
    cases h
    refine .inr ⟨by simp, ?_⟩
    have hstatus : differs content worktree ≠ .intentToAdd := by
      intro hadd
      rcases change_differs content worktree with hchange | hchange <;> rw [hadd] at hchange <;> cases hchange
    rw [if_neg hstatus]
    rfl
  · cases h
    exact .inl ⟨⟨rfl, rfl, _, rfl⟩, rfl, rfl⟩
  · cases h
    exact .inr ⟨by simp, rfl⟩

/-- The items of a path, in either order, make the change that is due, unless the entry has vanished. -/
theorem change_items {items : List Item} (hitems : items.Perm tracked.items) :
    (items.foldl Seen.record ⟨none, none, none⟩).change tracked.path = tracked.change ↔ ¬tracked.Vanished := by
  have hvanished : tracked.Vanished → tracked.treeIndex = none ∧ ∃ found, tracked.indexWorktree = some found := by
    rintro ⟨hhead, hworktree, content, hindex⟩
    refine ⟨?_, (content, .removed), by simp [Tracked.indexWorktree, hworktree, hindex]⟩
    unfold Tracked.treeIndex Tracked.staged
    rw [hhead, hindex]
    rfl
  have hdue : tracked.items ≠ [] →
      tracked.change = changeBetween (tracked.head.map (·.pair)) tracked.newSide tracked.path := fun hne => if_neg hne
  unfold Tracked.items at hitems hdue
  rcases htree : tracked.treeIndex with _ | change <;> rcases hfound : tracked.indexWorktree with _ | ⟨content, status⟩ <;>
    rw [htree, hfound] at hitems hdue
  · rw [List.perm_nil.1 hitems]
    refine ⟨fun _ h => ?_, fun _ => ?_⟩
    · obtain ⟨-, found, hsome⟩ := hvanished h
      cases hfound.symm.trans hsome
    · simp [Tracked.change, Tracked.items, htree, hfound, Seen.change]
  · obtain ⟨hstatus, hnew⟩ := reportedSide_of_indexWorktree hfound
    rw [List.perm_singleton.1 hitems, change_indexWorktree _ _ _ hstatus, hnew, hdue (by simp)]
    rcases oldSide_of_indexWorktree hfound (head_of_treeIndex htree) with ⟨hgone, rfl, hnone⟩ | ⟨hthere, hold⟩
    · refine ⟨fun hchange => ?_, fun hthere => absurd hgone hthere⟩
      rw [hnone, hgone.1] at hchange
      simp [rawChange, rawSide, changeBetween, bits_ne_zero] at hchange
    · rw [hold, rawChange_rawSide]
      exact ⟨fun _ => hthere, fun _ => rfl⟩
  · obtain ⟨hold, hnew⟩ := sides_of_treeIndex htree
    rw [List.perm_singleton.1 hitems, change_treeIndex, hold, hnew, hdue (by simp), rawChange_rawSide,
      newSide_of_indexWorktree hfound]
    exact ⟨fun _ h => (Option.some_ne_none _ (htree.symm.trans (hvanished h).1)).elim, fun _ => rfl⟩
  · obtain ⟨hstatus, hnew⟩ := reportedSide_of_indexWorktree hfound
    rw [change_both _ _ _ _ hstatus hitems, (sides_of_treeIndex htree).1, hnew, rawChange_rawSide, hdue (by simp)]
    exact ⟨fun _ h => (Option.some_ne_none _ (htree.symm.trans (hvanished h).1)).elim, fun _ => rfl⟩

theorem leaves_of_mem_items (hitem : item ∈ tracked.items) : item.Leaves := by
  unfold Tracked.items at hitem
  rcases List.mem_append.1 hitem with hitem | hitem
  · obtain ⟨change, -, rfl⟩ := Option.map_eq_some_iff.1 (Option.mem_toList.1 hitem)
    trivial
  · obtain ⟨⟨content, status⟩, hfound, rfl⟩ := Option.map_eq_some_iff.1 (Option.mem_toList.1 hitem)
    have hstatus := (reportedSide_of_indexWorktree hfound).1
    exact ⟨by rintro rfl; exact hstatus rfl, by rintro rfl; exact hstatus rfl⟩

/-- Whatever else is reported, and whatever the order is, the snapshot has the change that is due for a path it has kept,
unless an entry to add has lost its file and HEAD has none. -/
theorem changeAt_eq_change_iff (tracked : Tracked) {items : List Item}
    (hitems : (items.filter (·.isAt tracked.path)).Perm tracked.items) (entryCap : ℕ)
    (hkept : Kept (collect items entryCap) tracked.path) :
    (collect items entryCap).1.changeAt tracked.path = tracked.change ↔ ¬tracked.Vanished := by
  have hleaves : ∀ item ∈ items, item.isAt tracked.path = true → item.Leaves := fun item hitem hat =>
    leaves_of_mem_items (hitems.mem_iff.1 (List.mem_filter.2 ⟨hitem, hat⟩))
  rw [changeAt_collect hleaves entryCap hkept]
  exact change_items hitems

end

def blobId (digit : Char) : List Char := List.replicate 40 digit

/-- A file of HEAD is staged with other content, and is a link in the worktree. -/
def relinked : Tracked where
  path := [97]
  head := some ⟨.file, blobId '1', by decide⟩
  index := some ⟨⟨.fileExecutable, blobId '2', by decide⟩, false⟩
  worktree := some ⟨.symlink, blobId '3', by decide⟩

theorem changeAt_eq_change_relinked :
    (collect (.directoryContents [98] true none :: relinked.items.reverse) 10).1.changeAt [97] = relinked.change ∧
      relinked.change = some ⟨0o100644, 0o120000, blobId '1', nullOid, 84, [97]⟩ := by
  refine ⟨(@changeAt_eq_change_iff relinked (.directoryContents [98] true none :: relinked.items.reverse)
    (by decide) 10 (.inl (by decide))).2 ?_, by decide⟩
  rintro ⟨hhead, -⟩
  cases hhead

/-- An entry to add whose file is gone. -/
def vanished : Tracked where
  path := [97]
  head := none
  index := some ⟨⟨.file, blobId '1', by decide⟩, true⟩
  worktree := none

/-- It comes out as a deletion of what was never there. -/
theorem vanished_deleted : ¬∀ (tracked : Tracked) (items : List Item),
    (items.filter (·.isAt tracked.path)).Perm tracked.items → ∀ entryCap, Kept (collect items entryCap) tracked.path →
      (collect items entryCap).1.changeAt tracked.path = tracked.change := by
  intro h
  have hchange := h vanished vanished.items (by decide) 10 (.inl (by decide))
  revert hchange
  decide

end Paneflow.Workspace
