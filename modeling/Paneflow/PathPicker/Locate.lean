import Paneflow.Outline
import Paneflow.PathPicker.Paths
import Paneflow.Rows

/-!
# The tree of an index

`subtree`, `child`, `locate` and `path_of` of index.rs. The nodes are an outline of the folder (`outline_run`): the
parent of a node, which `push` takes from its chain of folders, is the last node before it that is less deep.

Paths are those of a platform where names are compared as they are: bytes, with the separator `/`. `components` and
`joinPath` are the ones of the standard library there; `stripRoot` gives the components of what is left of a path.
-/

namespace Paneflow.PathPicker

open Paneflow.Utf8 Paneflow.Outline

variable {platform : Platform}

/-! ### Paths of the platform -/

def slash : UInt8 := 0x2f

def dot : UInt8 := 0x2e

inductive Component where
  | rootDir
  | curDir
  | parentDir
  | normal (name : List UInt8)
  deriving DecidableEq, Repr

/-- What stands between two separators. -/
def component (segment : List UInt8) : Option Component :=
  if segment = [] ∨ segment = [dot] then none
  else if segment = [dot, dot] then some .parentDir
  else some (.normal segment)

/-- `path.components()` -/
def components (path : List UInt8) : List Component :=
  let segments := path.splitOn slash
  (if path.head? = some slash then [.rootDir] else if segments.head? = some [dot] then [.curDir] else []) ++
    segments.filterMap component

/-- `root.join(text)` -/
def joinPath (root text : List UInt8) : List UInt8 :=
  if text.head? = some slash then text
  else if root.getLast?.any (· ≠ slash) then root ++ slash :: text
  else root ++ text

def stripRoot : List Component → List Component → Option (List Component)
  | rest, [] => some rest
  | [], _ :: _ => none
  | got :: rest, wanted :: root => if got = wanted then stripRoot rest root else none

namespace Index

def isDir (index : Index) (node : ℕ) : Option Bool :=
  index.nodes[node]?.map fun node => node.depth &&& dirFlag ≠ 0

def locatedDepth (index : Index) : Located → Option ℕ
  | .root => some 0
  | .node node => index.depth node

/-- The first of so many nodes that is not deeper. -/
def findEnd (index : Index) (depth : ℕ) : ℕ → ℕ → Option ℕ
  | 0, next => some next
  | rounds + 1, next => do
    if (← index.depth next) ≤ depth then some next else findEnd index depth rounds (next + 1)

/-- The nodes below a place, from the first one to the one after the last. -/
def subtree (index : Index) : Located → Option (ℕ × ℕ)
  | .root => some (0, index.nodes.length)
  | .node node => do
    let depth ← index.depth node
    let stop ← index.findEnd depth (index.nodes.length - (node + 1)) (node + 1)
    some (node + 1, stop)

/-- The first of so many nodes that is a child with the name; none of none is a panic. -/
def findChild (index : Index) (wanted : ℕ) (name : List Char) : ℕ → ℕ → Option (Option ℕ)
  | 0, _ => some none
  | rounds + 1, next => do
    let depth ← index.depth next
    if depth < wanted then some none
    else if depth = wanted then
      if (← index.name next) = name then some (some next) else findChild index wanted name rounds (next + 1)
    else findChild index wanted name rounds (next + 1)

def child (index : Index) (at_ : Located) (name : List Char) : Option (Option ℕ) := do
  let wanted := (← index.locatedDepth at_) + 1
  let start :=
    match at_ with
    | .root => 0
    | .node node => node + 1
  index.findChild wanted name (index.nodes.length - start) start

/-- The loop of `locate` over the components. -/
def locateFrom (index : Index) : Located → List Component → Option (Option Located)
  | at_, [] => some (some at_)
  | at_, .normal name :: rest =>
    match fromUtf8 name with
    | none => some none
    | some name => do
      match ← index.child at_ name with
      | none => some none
      | some node => locateFrom index (.node node) rest
  | _, _ :: _ => some none

def locate (index : Index) (path : List UInt8) : Option (Option Located) :=
  match stripRoot (components path) (components index.root) with
  | none => some none
  | some relative => index.locateFrom .root relative

def pathOf (platform : Platform) (index : Index) (node : ℕ) : Option (List UInt8) := do
  let text ← index.writePath platform node .root
  some (joinPath index.root (bytes text))

/-- The depth of a node, and its parent, as numbers. -/
def depthAt (index : Index) (node : ℕ) : ℕ := (index.depth node).getD 0

def parentAt (index : Index) (node : ℕ) : Option ℕ := (index.parent node).join

end Index

/-! ### The outline -/

/-- The depth of a node, without the flag. -/
def Node.low (node : Node) : ℕ := node.depth &&& (2 ^ 16 - 1 - dirFlag)

def Node.isDir (node : Node) : Bool := node.depth &&& dirFlag ≠ 0

/-- A node under the last one before it that is less deep, which is a folder. -/
structure Linked (nodes : List Node) (i : ℕ) (node : Node) : Prop where
  pos : 1 ≤ node.low
  parent : (node.low = 1 ∧ node.parent = noParent) ∨
    ∃ above, node.parent < i ∧ nodes[node.parent]? = some above ∧ above.isDir = true ∧ above.low + 1 = node.low ∧
      ∀ k other, node.parent < k → k < i → nodes[k]? = some other → node.low ≤ other.low

theorem Linked.append {nodes more : List Node} {i : ℕ} {node : Node} (h : Linked nodes i node)
    (hi : i ≤ nodes.length) : Linked (nodes ++ more) i node where
  pos := h.pos
  parent := by
    rcases h.parent with htop | ⟨above, hlt, habove, hdir, hlow, hbetween⟩
    · exact .inl htop
    · refine .inr ⟨above, hlt, ?_, hdir, hlow, fun k other hk hki hother => ?_⟩
      · rw [List.getElem?_append_left (by omega)]
        exact habove
      · rw [List.getElem?_append_left (by omega)] at hother
        exact hbetween k other hk hki hother

/-- The chain of folders: each is deeper by one, and everything after it is deeper than it. -/
structure Chained (tree : Tree) : Prop where
  linked : ∀ i node, tree.nodes[i]? = some node → Linked tree.nodes i node
  folders : ∀ j a, tree.ancestors[j]? = some a → ∃ node, tree.nodes[a]? = some node ∧ node.low = j + 1 ∧
    node.isDir = true ∧ ∀ k later, a < k → tree.nodes[k]? = some later → j + 1 < later.low

theorem usable_depth {entry : Entry} {ancestors : List ℕ} (h : entry.usable platform ancestors = true) :
    1 ≤ entry.depth ∧ ancestors.length = entry.depth - 1 := by
  unfold Entry.usable at h
  simp only [Bool.and_eq_true, decide_eq_true_eq] at h
  exact ⟨h.1.1.1.1.1, h.1.1.1.2⟩

theorem linked_added {tree : Tree} {entry : Entry} (h : Chained tree) (hfits : entry.Fits)
    (husable : entry.usable platform (tree.ancestors.take (entry.depth - 1)) = true) (more : List Node) :
    Linked (tree.nodes ++ more) tree.nodes.length
      (entry.node platform (tree.ancestors.take (entry.depth - 1)) tree.nodes (size tree.names)) := by
  obtain ⟨hpos, hlength⟩ := usable_depth husable
  have hlow : (entry.node platform (tree.ancestors.take (entry.depth - 1)) tree.nodes (size tree.names)).low =
      entry.depth := flagWord_low hfits.1 entry.isDir
  refine ⟨by rw [hlow]; exact hpos, ?_⟩
  rw [hlow]
  change (entry.depth = 1 ∧ (tree.ancestors.take (entry.depth - 1)).getLast?.getD noParent = noParent) ∨
    ∃ above, (tree.ancestors.take (entry.depth - 1)).getLast?.getD noParent < tree.nodes.length ∧ _
  by_cases hone : entry.depth = 1
  · rw [hone]
    exact .inl ⟨rfl, rfl⟩
  · -- the last of the folders that are left is the one above
    have hlast : (tree.ancestors.take (entry.depth - 1)).getLast? = tree.ancestors[entry.depth - 2]? := by
      rw [List.getLast?_eq_getElem?, hlength, List.getElem?_take, if_pos (by omega)]
      rfl
    rw [List.length_take] at hlength
    have hin : entry.depth - 2 < tree.ancestors.length := by omega
    obtain ⟨above, habove, hdepth, hdir, hlater⟩ := h.folders _ _ (List.getElem?_eq_getElem hin)
    have hlt : tree.ancestors[entry.depth - 2] < tree.nodes.length := (List.getElem?_eq_some_iff.mp habove).1
    change _ ∨ ∃ above, (tree.ancestors.take (entry.depth - 1)).getLast?.getD noParent < tree.nodes.length ∧
      (tree.nodes ++ more)[(tree.ancestors.take (entry.depth - 1)).getLast?.getD noParent]? = some above ∧
      above.isDir = true ∧ above.low + 1 = entry.depth ∧ ∀ k other,
        (tree.ancestors.take (entry.depth - 1)).getLast?.getD noParent < k → k < tree.nodes.length →
          (tree.nodes ++ more)[k]? = some other → entry.depth ≤ other.low
    rw [hlast, List.getElem?_eq_getElem hin, Option.getD_some]
    refine .inr ⟨above, hlt, ?_, hdir, by omega, fun k other hk hkn hother => ?_⟩
    · rw [List.getElem?_append_left hlt]
      exact habove
    · rw [List.getElem?_append_left hkn] at hother
      have hdeeper := hlater k other hk hother
      omega

theorem grow_chained {tree tree' : Tree} {entry : Entry} (h : Chained tree)
    (hgrow : tree.grow platform entry = some tree') (hlength : tree'.nodes.length ≤ noParent) : Chained tree' := by
  have hsucc := grow_length hgrow
  have hfits := grow_fits hgrow
  obtain ⟨⟨husable, -⟩, rfl⟩ := grow_eq_some.1 hgrow
  obtain ⟨hpos, htaken⟩ := usable_depth husable
  have hlow : (entry.node platform (tree.ancestors.take (entry.depth - 1)) tree.nodes (size tree.names)).low =
      entry.depth := flagWord_low hfits.1 entry.isDir
  have hdirFlag : (entry.node platform (tree.ancestors.take (entry.depth - 1)) tree.nodes (size tree.names)).isDir =
      entry.isDir := flagWord_flag hfits.1 entry.isDir
  -- the folders that are left, with one more node after them
  have hkept : ∀ j a, (tree.ancestors.take (entry.depth - 1))[j]? = some a → ∃ node,
      (tree.added platform entry).nodes[a]? = some node ∧ node.low = j + 1 ∧ node.isDir = true ∧
        ∀ k later, a < k → (tree.added platform entry).nodes[k]? = some later → j + 1 < later.low := by
    intro j a hja
    have hj : j < entry.depth - 1 := by
      have hlt := (List.getElem?_eq_some_iff.mp hja).1
      omega
    rw [List.getElem?_take, if_pos hj] at hja
    obtain ⟨node, hnode, hdepth, hdir, hlater⟩ := h.folders j a hja
    have ha : a < tree.nodes.length := (List.getElem?_eq_some_iff.mp hnode).1
    refine ⟨node, ?_, hdepth, hdir, fun k later hk hkth => ?_⟩
    · change (tree.nodes ++ [_])[a]? = _
      rw [List.getElem?_append_left ha]
      exact hnode
    · change (tree.nodes ++ [_])[k]? = _ at hkth
      rcases Nat.lt_or_ge k tree.nodes.length with hlt | hge
      · rw [List.getElem?_append_left hlt] at hkth
        exact hlater k later hk hkth
      · rw [List.getElem?_append_right hge] at hkth
        obtain ⟨-, rfl⟩ := List.getElem?_eq_some_iff.mp hkth
        rw [List.getElem_singleton, hlow]
        omega
  refine ⟨fun i node hi => ?_, fun j a hja => ?_⟩
  · change (tree.nodes ++ [_])[i]? = _ at hi
    change Linked (tree.nodes ++ [_]) i node
    rcases Nat.lt_or_ge i tree.nodes.length with hlt | hge
    · rw [List.getElem?_append_left hlt] at hi
      exact (h.linked i node hi).append hlt.le
    · rw [List.getElem?_append_right hge] at hi
      obtain ⟨hzero, rfl⟩ := List.getElem?_eq_some_iff.mp hi
      rw [List.length_singleton] at hzero
      obtain rfl : i = tree.nodes.length := by omega
      rw [List.getElem_singleton]
      exact linked_added h hfits husable _
  · change (if entry.isDir then tree.ancestors.take (entry.depth - 1) ++ [tree.nodes.length % 2 ^ 32]
      else tree.ancestors.take (entry.depth - 1))[j]? = some a at hja
    split_ifs at hja with hdir
    · rcases Nat.lt_or_ge j (tree.ancestors.take (entry.depth - 1)).length with hlt | hge
      · rw [List.getElem?_append_left hlt] at hja
        exact hkept j a hja
      · rw [List.getElem?_append_right hge] at hja
        obtain ⟨hzero, rfl⟩ := List.getElem?_eq_some_iff.mp hja
        rw [List.length_singleton] at hzero
        have hid : tree.nodes.length % 2 ^ 32 = tree.nodes.length := by
          unfold noParent at hlength
          omega
        rw [List.getElem_singleton, hid]
        refine ⟨entry.node platform (tree.ancestors.take (entry.depth - 1)) tree.nodes (size tree.names), ?_, ?_, ?_,
          fun k later hk hkth => ?_⟩
        · change (tree.nodes ++ [_])[tree.nodes.length]? = _
          exact List.getElem?_concat_length
        · rw [hlow]
          omega
        · rw [hdirFlag]
          exact hdir
        · have hlt := (List.getElem?_eq_some_iff.mp hkth).1
          omega
    · exact hkept j a hja

theorem grown_chained {entries : List Entry} {tree tree' : Tree} (h : Chained tree)
    (hgrown : entries.foldlM (Tree.grow platform) tree = some tree') (hlength : tree'.nodes.length ≤ noParent) :
    Chained tree' := by
  induction entries generalizing tree with
  | nil =>
    obtain rfl : tree = tree' := Option.some.inj hgrown
    exact h
  | cons entry entries ih =>
    rw [List.foldlM_cons] at hgrown
    obtain ⟨middle, hgrow, hrest⟩ := Option.bind_eq_some_iff.1 hgrown
    have hmiddle := (grown_spec hrest).2.2.1
    exact ih (grow_chained h hgrow (by omega)) hrest

theorem linked_run (root : List UInt8) (cap : ℕ) (now built : SystemTime) (calls : List Builder.Call) :
    ∀ i node, (((Builder.new root cap now).run platform calls).finish built).nodes[i]? = some node →
      Linked (((Builder.new root cap now).run platform calls).finish built).nodes i node := by
  have hkept : Kept platform ((Builder.new root cap now).run platform calls) := run_kept calls (new_kept root cap now)
  obtain ⟨entries, tree, hgrown, hnodes, -, -⟩ := hkept
  have hlength : ((Builder.new root cap now).run platform calls).index.nodes.length ≤ noParent :=
    (run_cap calls (.new root cap now) (Nat.zero_le _)).trans (Nat.min_le_right cap noParent)
  have hchained : Chained tree := by
    refine grown_chained ⟨fun i node hi => by simp at hi, fun j a hja => by simp at hja⟩ hgrown ?_
    rw [hnodes]
    exact hlength
  intro i node hi
  change ((Builder.new root cap now).run platform calls).index.nodes[i]? = some node at hi
  change Linked ((Builder.new root cap now).run platform calls).index.nodes i node
  rw [← hnodes] at hi ⊢
  exact hchained.linked i node hi

/-! ### Nodes, parents and depths -/

/-- What the nodes of an index are: built by `push`, with their names, and an outline. -/
structure Ordered (platform : Platform) (index : Index) : Prop where
  built : Built platform index
  linked : ∀ i node, index.nodes[i]? = some node → Linked index.nodes i node

theorem ordered_run (root : List UInt8) (cap : ℕ) (now built : SystemTime) (calls : List Builder.Call) :
    Ordered platform (((Builder.new root cap now).run platform calls).finish built) :=
  ⟨built_run root cap now built calls, linked_run root cap now built calls⟩

section
variable {index : Index} {i j : ℕ}

theorem depth_of_lt (hi : i < index.nodes.length) : index.depth i = some (index.depthAt i) := by
  unfold Index.depthAt Index.depth
  rw [List.getElem?_eq_getElem hi]
  rfl

theorem parent_of_lt (hi : i < index.nodes.length) : index.parent i = some (index.parentAt i) := by
  unfold Index.parentAt Index.parent
  rw [List.getElem?_eq_getElem hi]
  rfl

theorem depthAt_eq {node : Node} (hnode : index.nodes[i]? = some node) : index.depthAt i = node.low := by
  unfold Index.depthAt Index.depth
  rw [hnode]
  rfl

theorem parentAt_eq {node : Node} (hnode : index.nodes[i]? = some node) :
    index.parentAt i = if node.parent ≠ noParent then some node.parent else none := by
  unfold Index.parentAt Index.parent
  rw [hnode]
  rfl

/-- The parent of a node, by what `push` says of it. -/
theorem Ordered.parentAt (h : Ordered platform index) {node : Node} (hnode : index.nodes[i]? = some node) :
    (node.low = 1 ∧ index.parentAt i = none) ∨
      ∃ above, index.parentAt i = some node.parent ∧ node.parent < i ∧ index.nodes[node.parent]? = some above ∧
        above.isDir = true ∧ above.low + 1 = node.low ∧
        ∀ k other, node.parent < k → k < i → index.nodes[k]? = some other → node.low ≤ other.low := by
  rw [parentAt_eq hnode]
  have hi := (List.getElem?_eq_some_iff.mp hnode).1
  have hlimit := h.built.length
  rcases (h.linked i node hnode).parent with ⟨hone, htop⟩ | ⟨above, hlt, hrest⟩
  · exact .inl ⟨hone, if_neg fun hne => hne htop⟩
  · exact .inr ⟨above, if_pos (by omega), hlt, hrest⟩

theorem Ordered.indented (h : Ordered platform index) :
    Indented index.nodes.length index.depthAt index.parentAt := by
  refine ⟨fun i hi => ?_, fun i hi htop => ?_, fun i hi p hp => ?_, fun i hi => ?_⟩
  · have hnode := List.getElem?_eq_getElem hi
    rw [depthAt_eq hnode]
    exact (h.linked i _ hnode).pos
  · have hnode := List.getElem?_eq_getElem hi
    rw [depthAt_eq hnode]
    rcases h.parentAt hnode with ⟨hone, -⟩ | ⟨above, hparent, -⟩
    · exact hone
    · rw [hparent] at htop
      exact nomatch htop
  · have hnode := List.getElem?_eq_getElem hi
    rcases h.parentAt hnode with ⟨-, htop⟩ | ⟨above, hparent, hlt, habove, -, hlow, hbetween⟩
    · rw [htop] at hp
      exact nomatch hp
    · obtain rfl := Option.some.inj (hparent.symm.trans hp)
      rw [depthAt_eq hnode, depthAt_eq habove]
      refine ⟨hlt, hlow, fun k hk hki => ?_⟩
      have hother := List.getElem?_eq_getElem (hki.trans hi)
      rw [depthAt_eq hother]
      exact hbetween k _ hk hki hother
  · unfold Index.parentAt Index.parent
    rw [List.getElem?_eq_none hi]
    rfl

/-! ### Subtrees -/

theorem findEnd_spec (depth : ℕ) {rounds next : ℕ} (h : next + rounds = index.nodes.length) :
    ∃ stop, index.findEnd depth rounds next = some stop ∧ next ≤ stop ∧ stop ≤ index.nodes.length ∧
      (∀ k, next ≤ k → k < stop → depth < index.depthAt k) ∧
      (stop < index.nodes.length → index.depthAt stop ≤ depth) := by
  induction rounds generalizing next with
  | zero => exact ⟨next, rfl, Nat.le_refl _, by omega, fun k hk hks => by omega, fun hlt => by omega⟩
  | succ rounds ih =>
    unfold Index.findEnd
    rw [depth_of_lt (by omega : next < index.nodes.length), Option.bind_eq_bind, Option.bind_some]
    split_ifs with hle
    · exact ⟨next, rfl, Nat.le_refl _, by omega, fun k hk hks => by omega, fun _ => hle⟩
    · obtain ⟨stop, hstop, hnext, hlength, hdeeper, hend⟩ := ih (show next + 1 + rounds = index.nodes.length by omega)
      refine ⟨stop, hstop, by omega, hlength, fun k hk hks => ?_, hend⟩
      rcases Nat.lt_or_eq_of_le hk with hk | rfl
      · exact hdeeper k hk hks
      · omega

/-- The nodes of a subtree are those that have the node as a proper ancestor. -/
theorem Ordered.subtree (h : Ordered platform index) (hi : i < index.nodes.length) :
    ∃ start stop, index.subtree (.node i) = some (start, stop) ∧
      ∀ j, start ≤ j ∧ j < stop ↔ Below index.parentAt i j := by
  obtain ⟨stop, hstop, hnext, hlength, hdeeper, hend⟩ :=
    findEnd_spec (index.depthAt i) (show i + 1 + (index.nodes.length - (i + 1)) = index.nodes.length by omega)
  refine ⟨i + 1, stop, ?_, fun j => ?_⟩
  · unfold Index.subtree
    dsimp only
    rw [depth_of_lt hi, Option.bind_eq_bind, Option.bind_some, hstop]
    rfl
  · constructor
    · rintro ⟨hij, hjs⟩
      rw [h.indented.below_iff hi (hjs.trans_le hlength)]
      exact ⟨hij, fun k hik hkj => hdeeper k hik (hkj.trans_lt hjs)⟩
    · intro hbelow
      obtain ⟨hj, hij, hbetween⟩ := h.indented.deeper hbelow
      refine ⟨hij, ?_⟩
      by_contra hge
      have hle := hend (by omega)
      have hlt := hbetween stop (by omega) (by omega)
      omega

/-! ### Masks -/

theorem maskOf_append (before after : List Char) :
    maskOf platform (before ++ after) = maskOf platform before ||| maskOf platform after := by
  refine Nat.eq_of_testBit_eq fun bit => Bool.eq_iff_iff.mpr ?_
  rw [Nat.testBit_or, Bool.or_eq_true, testBit_maskOf, testBit_maskOf, testBit_maskOf]
  simp only [List.mem_append]
  constructor
  · rintro ⟨ch, hch | hch, hbit⟩
    · exact .inl ⟨ch, hch, hbit⟩
    · exact .inr ⟨ch, hch, hbit⟩
  · rintro (⟨ch, hch, hbit⟩ | ⟨ch, hch, hbit⟩)
    · exact ⟨ch, .inl hch, hbit⟩
    · exact ⟨ch, .inr hch, hbit⟩

theorem maskOf_separator (hlawful : platform.Lawful) : maskOf platform [platform.mainSeparator] = 0 := by
  unfold maskOf
  rw [List.foldl_cons, List.foldl_nil, charBit_separator hlawful]
  rfl

/-- The mask of a node is that of its path. -/
theorem Written.mask_eq (hlawful : platform.Lawful) (hbuilt : Built platform index) {chain : List ℕ}
    {path : List Char} (h : Written platform index noParent i chain path) :
    index.mask i = some (maskOf platform path) := by
  have hlimit := hbuilt.length
  induction h with
  | @top i node name hnode hplaced hstop hi hparent =>
    unfold Index.mask
    rw [hnode]
    rcases hplaced.parent with ⟨-, hmask⟩ | ⟨above, hlt, -, -⟩
    · rw [Option.map_some, hmask]
    · have hin := (List.getElem?_eq_some_iff.mp hnode).1
      rw [hparent.elim id id] at hlt
      omega
  | @under i node name chain above hnode hplaced hstop hi habove ih =>
    rcases hplaced.parent with ⟨hroot, -⟩ | ⟨parent, -, hparent, hmask⟩
    · exact absurd hroot habove.ne.2
    · unfold Index.mask at ih ⊢
      rw [hparent] at ih
      rw [hnode, Option.map_some, hmask, maskOf_append, maskOf_append, maskOf_separator hlawful, Nat.or_zero,
        Option.some.inj ih]

/-! ### Children -/

theorem findChild_spec {name : List Char} {wanted rounds next : ℕ} (hrounds : next + rounds = index.nodes.length)
    (hi : i < index.nodes.length) (hnext : next ≤ i) (hdeep : ∀ k, next ≤ k → k ≤ i → wanted ≤ index.depthAt k)
    (hdepth : index.depthAt i = wanted) (hname : index.name i = some name)
    (hothers : ∀ k, next ≤ k → k < i → index.depthAt k = wanted → ∃ other, index.name k = some other ∧ other ≠ name) :
    index.findChild wanted name rounds next = some (some i) := by
  induction rounds generalizing next with
  | zero => omega
  | succ rounds ih =>
    unfold Index.findChild
    rw [depth_of_lt (by omega : next < index.nodes.length), Option.bind_eq_bind, Option.bind_some,
      if_neg (Nat.not_lt.mpr (hdeep next (Nat.le_refl _) hnext))]
    rcases Nat.lt_or_eq_of_le hnext with hlt | rfl
    · have hrest := ih (show next + 1 + rounds = index.nodes.length by omega) hlt
        (fun k hk hki => hdeep k (by omega) hki) (fun k hk hki hkw => hothers k (by omega) hki hkw)
      split_ifs with hwanted
      · obtain ⟨other, hother, hne⟩ := hothers next (Nat.le_refl _) hlt hwanted
        rw [hother, Option.bind_eq_bind, Option.bind_some, if_neg hne]
        exact hrest
      · exact hrest
    · rw [if_pos hdepth, hname, Option.bind_eq_bind, Option.bind_some, if_pos rfl]

/-- Where a node is looked for. -/
def Index.above (index : Index) (node : ℕ) : Located :=
  match index.parentAt node with
  | none => .root
  | some parent => .node parent

/-- The nodes of one folder have different names. -/
def Index.Distinct (index : Index) : Prop :=
  ∀ i j, i < index.nodes.length → j < index.nodes.length → index.parent i = index.parent j →
    index.name i = index.name j → i = j

theorem Ordered.name (h : Ordered platform index) (hi : i < index.nodes.length) : ∃ name, index.name i = some name := by
  have hnode := List.getElem?_eq_getElem hi
  obtain ⟨name, hplaced⟩ := h.built.placed i _ hnode
  exact ⟨name, name_of_placed hnode hplaced⟩

/-- A node is the child that its name finds, if no sibling has the name. -/
theorem Ordered.child (h : Ordered platform index) (hdistinct : index.Distinct) (hi : i < index.nodes.length)
    {name : List Char} (hname : index.name i = some name) : index.child (index.above i) name = some (some i) := by
  have hindented := h.indented
  -- an earlier node of the depth has the same parent
  have hothers : ∀ k, k < i → index.parentAt k = index.parentAt i →
      ∃ other, index.name k = some other ∧ other ≠ name := by
    intro k hki hparent
    obtain ⟨other, hother⟩ := h.name (hki.trans hi)
    refine ⟨other, hother, ?_⟩
    rintro rfl
    refine hki.ne (hdistinct k i (hki.trans hi) hi ?_ (hother.trans hname.symm))
    rw [parent_of_lt (hki.trans hi), parent_of_lt hi, hparent]
  unfold Index.child Index.above
  cases hparent : index.parentAt i with
  | none =>
    have hone := hindented.top i hi hparent
    dsimp only [Index.locatedDepth]
    rw [Option.bind_eq_bind, Option.bind_some]
    refine findChild_spec (by omega) hi (Nat.zero_le i) (fun k _ hki => ?_) hone hname fun k _ hki hk => ?_
    · exact hindented.pos k (hki.trans_lt hi)
    · refine hothers k hki ?_
      rw [hparent]
      cases habove : index.parentAt k with
      | none => rfl
      | some p =>
        obtain ⟨hpk, hdepth, -⟩ := hindented.under k (hki.trans hi) p habove
        have hpos := hindented.pos p (hpk.trans (hki.trans hi))
        omega
  | some p =>
    obtain ⟨hpi, hdepth, -⟩ := hindented.under i hi p hparent
    have hp := hpi.trans hi
    obtain ⟨-, -, hdeeper⟩ := (hindented.parent_iff hp hi).mp hparent
    dsimp only [Index.locatedDepth]
    rw [depth_of_lt hp, Option.bind_eq_bind, Option.bind_some]
    refine findChild_spec (by omega) hi hpi (fun k hk hki => hdeeper k hk hki) hdepth.symm hname fun k hk hki hkw => ?_
    refine hothers k hki ?_
    rw [hparent, hindented.parent_iff hp (hki.trans hi)]
    exact ⟨hk, hkw, fun l hl hlk => hdeeper l hl (hlk.trans hki.le)⟩

end

/-! ### Components -/

theorem bytes_inj {s t : List Char} (h : bytes s = bytes t) : s = t := by
  have hs := fromUtf8_bytes s
  rw [h, fromUtf8_bytes] at hs
  exact (Option.some.inj hs).symm

/-- A name that a path can have. -/
structure Plain (name : List Char) : Prop where
  nonempty : name ≠ []
  noSlash : ∀ ch ∈ name, ch ≠ '/'
  noDots : name ≠ ['.'] ∧ name ≠ ['.', '.']

theorem Plain.component {name : List Char} (h : Plain name) : component (bytes name) = some (.normal (bytes name)) := by
  unfold PathPicker.component
  have hempty : bytes name ≠ [] := fun heq => h.nonempty (bytes_inj heq)
  have hdot : bytes name ≠ [dot] := fun heq => h.noDots.1 (bytes_inj heq)
  have hdots : bytes name ≠ [dot, dot] := fun heq => h.noDots.2 (bytes_inj heq)
  rw [if_neg (not_or.mpr ⟨hempty, hdot⟩), if_neg hdots]

theorem Plain.notMem {name : List Char} (h : Plain name) : slash ∉ bytes name := by
  intro hmem
  obtain ⟨ch, hch, hbyte⟩ := List.mem_flatMap.mp hmem
  rcases Nat.lt_or_ge ch.toNat 128 with hascii | hlarge
  · rw [encode_ascii hascii, List.mem_singleton] at hbyte
    refine h.noSlash ch hch (Char.ext (UInt32.toNat_inj.mp ?_))
    have hvalue := congrArg UInt8.toNat hbyte
    rw [UInt8.toNat_ofNat', Nat.mod_eq_of_lt (by omega)] at hvalue
    exact hvalue.symm
  · have hle := le_of_mem_encode hlarge hbyte
    exact absurd hle (by decide)

theorem components_under (before after : List UInt8) :
    components (before ++ slash :: after) =
      components (before ++ [slash]) ++ (after.splitOn slash).filterMap component := by
  obtain ⟨first, rest, hfirst⟩ := Rows.exists_cons slash before
  have hhead : (before ++ slash :: after).head? = (before ++ [slash]).head? := by cases before <;> rfl
  unfold components
  dsimp only
  rw [hhead, List.splitOn_append_cons_self, Rows.splitOn_concat, hfirst, List.filterMap_append,
    List.filterMap_append, List.append_assoc, List.append_assoc]
  rfl

theorem components_trailing {path : List UInt8} (h : path ≠ []) : components (path ++ [slash]) = components path := by
  obtain ⟨first, rest, hfirst⟩ := Rows.exists_cons slash path
  have hhead : (path ++ [slash]).head? = path.head? := by
    cases path with
    | nil => exact absurd rfl h
    | cons byte path => rfl
  unfold components
  dsimp only
  rw [hhead, Rows.splitOn_concat, hfirst, List.filterMap_append, List.cons_append, List.head?_cons, List.head?_cons]
  exact congrArg _ (List.append_nil _)

theorem stripRoot_append (root rest : List Component) : stripRoot (root ++ rest) root = some rest := by
  induction root with
  | nil =>
    cases rest <;> rfl
  | cons wanted root ih =>
    rw [List.cons_append, stripRoot, if_pos rfl, ih]

theorem filterMap_names {names : List (List UInt8)}
    (hnormal : ∀ name ∈ names, component name = some (.normal name)) :
    names.filterMap component = names.map .normal := by
  induction names with
  | nil => rfl
  | cons name names ih =>
    obtain ⟨hfirst, hrest⟩ := List.forall_mem_cons.mp hnormal
    rw [List.filterMap_cons, hfirst, List.map_cons, ih hrest]

/-- A text that is a path of names, below a root. -/
theorem components_joinPath (root : List UInt8) {text : List UInt8} {names : List (List UInt8)}
    (hsplit : text.splitOn slash = names) (hfirst : text.head? ≠ some slash)
    (hnormal : ∀ name ∈ names, component name = some (.normal name)) :
    components (joinPath root text) = components root ++ names.map .normal := by
  have hsegments := filterMap_names hnormal
  rw [← hsplit] at hsegments
  unfold joinPath
  rw [if_neg hfirst]
  rcases List.eq_nil_or_concat' root with rfl | ⟨front, last, rfl⟩
  · -- nothing is put in front of the text
    have hdot : names.head? ≠ some [dot] := by
      intro hhead
      have hnone := hnormal [dot] (List.mem_of_head? hhead)
      exact nomatch hnone
    rw [if_neg (by simp), List.nil_append, ← hsplit, ← hsegments]
    unfold components
    dsimp only
    rw [if_neg hfirst, hsplit, if_neg hdot]
    rfl
  · rw [List.getLast?_concat]
    by_cases hlast : last = slash
    · rw [hlast, if_neg (by simp), List.append_assoc]
      change components (front ++ slash :: text) = _
      rw [components_under, hsegments, hsplit]
    · rw [if_pos (by simpa using hlast), components_under, hsegments, hsplit, components_trailing (by simp)]

/-! ### Locating -/

section
variable {index : Index} {i : ℕ}

/-- The platform compares names as they are, and its separator is `/`. -/
structure Platform.Unix (platform : Platform) : Prop where
  main : platform.mainSeparator = '/'
  separators : ∀ ch, platform.isSeparator ch = true ↔ ch = '/'

theorem bytes_under (hunix : platform.Unix) (above name : List Char) :
    bytes (above ++ [platform.mainSeparator] ++ name) = bytes above ++ slash :: bytes name := by
  rw [hunix.main, bytes_append, bytes_append, List.append_assoc]
  rfl

theorem locateFrom_child {at_ : Located} {name : List Char} {node : ℕ} (h : index.child at_ name = some (some node))
    (rest : List Component) :
    index.locateFrom at_ (.normal (bytes name) :: rest) = index.locateFrom (.node node) rest := by
  rw [Index.locateFrom, fromUtf8_bytes]
  dsimp only
  rw [h]
  rfl

/-- The path of a node is split into names that lead to it. -/
theorem Ordered.located (h : Ordered platform index) (hunix : platform.Unix) (hdistinct : index.Distinct)
    (hdots : ∀ i, index.name i ≠ some ['.'] ∧ index.name i ≠ some ['.', '.']) {chain : List ℕ} {path : List Char}
    (hwritten : Written platform index noParent i chain path) :
    ∃ names : List (List Char), (bytes path).splitOn slash = names.map bytes ∧ (∀ name ∈ names, Plain name) ∧
      (bytes path).head? ≠ some slash ∧ bytes path ≠ [] ∧
      ∀ rest, index.locateFrom .root (names.map (fun name => .normal (bytes name)) ++ rest) =
        index.locateFrom (.node i) rest := by
  have hplain : ∀ {i : ℕ} {node : Node} {name : List Char}, index.nodes[i]? = some node →
      Placed platform index.nodes index.names i node name → Plain name := by
    intro i node name hnode hplaced
    have hname := name_of_placed hnode hplaced
    refine ⟨hplaced.nonempty, fun ch hch heq => ?_, fun heq => (hdots i).1 (heq ▸ hname),
      fun heq => (hdots i).2 (heq ▸ hname)⟩
    have hno := hplaced.plain ch hch
    rw [(hunix.separators ch).mpr heq] at hno
    exact nomatch hno
  have hheads : ∀ {name : List Char}, Plain name → (bytes name).head? ≠ some slash ∧ bytes name ≠ [] :=
    fun hname => ⟨fun hhead => hname.notMem (List.mem_of_head? hhead), fun heq => hname.nonempty (bytes_inj heq)⟩
  induction hwritten with
  | @top i node name hnode hplaced hstop hi hparent =>
    have hname := hplain hnode hplaced
    have hin := (List.getElem?_eq_some_iff.mp hnode).1
    have habove : index.above i = .root := by
      unfold Index.above
      rw [parentAt_eq hnode, if_neg fun hne => hne (hparent.elim id id)]
    have hchild := h.child hdistinct hin (name_of_placed hnode hplaced)
    rw [habove] at hchild
    refine ⟨[name], ?_, fun other hother => List.mem_singleton.mp hother ▸ hname, (hheads hname).1, (hheads hname).2,
      fun rest => locateFrom_child hchild rest⟩
    exact List.splitOn_eq_singleton hname.notMem
  | @under i node name chain above hnode hplaced hstop hi hwritten ih =>
    have hname := hplain hnode hplaced
    have hin := (List.getElem?_eq_some_iff.mp hnode).1
    obtain ⟨names, hsplit, hnames, hhead, hne, hlocate⟩ := ih
    have habove : index.above i = .node node.parent := by
      unfold Index.above
      rw [parentAt_eq hnode, if_pos hwritten.ne.2]
    have hchild := h.child hdistinct hin (name_of_placed hnode hplaced)
    rw [habove] at hchild
    rw [bytes_under hunix]
    refine ⟨names ++ [name], ?_, fun other hother => ?_, ?_, by simp, fun rest => ?_⟩
    · rw [List.splitOn_append_cons_self, hsplit, List.splitOn_eq_singleton hname.notMem, List.map_append]
      rfl
    · rcases List.mem_append.mp hother with hother | hother
      · exact hnames other hother
      · exact List.mem_singleton.mp hother ▸ hname
    · rw [List.head?_append_of_ne_nil _ hne]
      exact hhead
    · rw [List.map_append, List.append_assoc, hlocate]
      exact locateFrom_child hchild rest

theorem Ordered.locate (h : Ordered platform index) (hunix : platform.Unix) (hdistinct : index.Distinct)
    (hdots : ∀ i, index.name i ≠ some ['.'] ∧ index.name i ≠ some ['.', '.']) (hi : i < index.nodes.length) :
    ∃ path, index.pathOf platform i = some path ∧ index.locate path = some (some (.node i)) := by
  have hlimit := h.built.length
  obtain ⟨chain, path, hwritten⟩ := h.built.written hi (by omega : i ≠ noParent)
  obtain ⟨names, hsplit, hnames, hhead, -, hlocate⟩ := h.located hunix hdistinct hdots hwritten
  refine ⟨joinPath index.root (bytes path), ?_, ?_⟩
  · unfold Index.pathOf
    rw [show index.writePath platform i .root = some path from hwritten.writePath]
    rfl
  · have hcomponents := components_joinPath index.root hsplit hhead fun name hname => by
      obtain ⟨chars, hchars, rfl⟩ := List.mem_map.mp hname
      exact (hnames chars hchars).component
    unfold Index.locate
    rw [hcomponents, stripRoot_append]
    dsimp only
    have hlast := hlocate []
    rw [List.append_nil] at hlast
    rw [List.map_map]
    exact hlast

end

theorem writePath_self {index : Index} {i : ℕ} {start : Located} (h : i = start.stop) :
    index.writePath platform i start = some [] := by
  unfold Index.writePath Index.chain
  rw [if_neg fun hne => hne.1 h]
  rfl

theorem pathLen_self {index : Index} {i : ℕ} {start : Located} (h : i = start.stop) :
    index.pathLen i start = some (size []) := by
  unfold Index.pathLen Index.chain
  rw [if_neg fun hne => hne.1 h]
  rfl

/-- **The index**, after every sequence of pushes: a node's parent is an earlier folder that is less deep by one, the
subtree of a node is what stands below it, its mask is that of its path, the length of a path is that of what is
written, and a node is found by its path. -/
theorem index_rules (hlawful : platform.Lawful) (root : List UInt8) (cap : ℕ) (now built : SystemTime)
    (calls : List Builder.Call) {index : Index}
    (hindex : index = ((Builder.new root cap now).run platform calls).finish built) :
    (∀ i < index.nodes.length, ∃ depth, index.depth i = some depth ∧
      ((depth = 1 ∧ index.parent i = some none) ∨
        ∃ parent, index.parent i = some (some parent) ∧ parent < i ∧ index.isDir parent = some true ∧
          1 < depth ∧ index.depth parent = some (depth - 1))) ∧
    (∀ i < index.nodes.length, ∃ start stop, index.subtree (.node i) = some (start, stop) ∧
      ∀ j, start ≤ j ∧ j < stop ↔ Below index.parentAt i j) ∧
    (∀ i < index.nodes.length, ∃ path, index.writePath platform i .root = some path ∧
      index.mask i = some (maskOf platform path)) ∧
    (∀ i < index.nodes.length, ∀ start, ∃ path, index.writePath platform i start = some path ∧
      index.pathLen i start = some (size path)) ∧
    (platform.Unix → index.Distinct → (∀ i, index.name i ≠ some ['.'] ∧ index.name i ≠ some ['.', '.']) →
      ∀ i < index.nodes.length, ∃ path, index.pathOf platform i = some path ∧
        index.locate path = some (some (.node i))) := by
  have h : Ordered platform index := hindex ▸ ordered_run root cap now built calls
  have hlimit := h.built.length
  refine ⟨fun i hi => ?_, fun i hi => h.subtree hi, fun i hi => ?_, fun i hi start => ?_,
    fun hunix hdistinct hdots i hi => h.locate hunix hdistinct hdots hi⟩
  · have hnode := List.getElem?_eq_getElem hi
    refine ⟨_, depth_of_lt hi, ?_⟩
    rw [parent_of_lt hi, depthAt_eq hnode]
    rcases h.parentAt hnode with ⟨hone, htop⟩ | ⟨above, hparent, hlt, habove, hdir, hlow, -⟩
    · exact .inl ⟨hone, by rw [htop]⟩
    · have hpos := (h.linked _ above habove).pos
      refine .inr ⟨_, by rw [hparent], hlt, ?_, by omega, ?_⟩
      · unfold Index.isDir
        rw [habove]
        exact congrArg some hdir
      · rw [depth_of_lt (hlt.trans hi), depthAt_eq habove, ← hlow, Nat.add_sub_cancel]
  · obtain ⟨chain, path, hwritten⟩ := h.built.written hi (by omega : i ≠ noParent)
    exact ⟨path, Written.writePath hwritten, hwritten.mask_eq hlawful h.built⟩
  · by_cases hne : i = start.stop
    · exact ⟨[], writePath_self hne, pathLen_self hne⟩
    · obtain ⟨chain, path, hwritten⟩ := h.built.written hi hne
      exact ⟨path, hwritten.writePath, hwritten.pathLen hlawful⟩

theorem index_rules_sample : ∃ path, sampleIndex.pathOf unixPlatform 1 = some path ∧
    sampleIndex.locate path = some (some (.node 1)) := by
  obtain ⟨-, -, -, -, hlocate⟩ := index_rules unixPlatform_lawful [0x72] 8 epoch epoch
    [⟨1, some ['a'], true, false⟩, ⟨2, some ['b'], false, false⟩, ⟨4, some ['c'], false, true⟩]
      (rfl : sampleIndex = _)
  have hnames : sampleIndex.name 0 = some ['a'] ∧ sampleIndex.name 1 = some ['b'] := by decide
  have hlength : sampleIndex.nodes.length = 2 := by decide
  have htwo : ∀ i < sampleIndex.nodes.length, i = 0 ∨ i = 1 := by omega
  refine hlocate ⟨rfl, fun ch => decide_eq_true_iff⟩ (fun i j hi hj _ hname => ?_) (fun i => ?_) 1 (by omega)
  · rcases htwo i hi with rfl | rfl <;> rcases htwo j hj with rfl | rfl
    · rfl
    · rw [hnames.1, hnames.2] at hname
      exact absurd hname (by decide)
    · rw [hnames.1, hnames.2] at hname
      exact absurd hname (by decide)
    · rfl
  · by_cases hi : i < sampleIndex.nodes.length
    · rcases htwo i hi with rfl | rfl
      · rw [hnames.1]
        decide
      · rw [hnames.2]
        decide
    · unfold Index.name
      rw [List.getElem?_eq_none (by omega)]
      exact ⟨nofun, nofun⟩

end Paneflow.PathPicker
