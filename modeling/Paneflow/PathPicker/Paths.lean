import Paneflow.PathPicker.Codec
import Paneflow.PathPicker.Matching

/-!
# The paths of an index

What `push` ensures of each node of an index (`Placed`, `Built`), and the path of a node as it follows from its parent
(`Written`): each function that walks over the parents of a node is described along that path.
-/

namespace Paneflow.PathPicker

open Paneflow.Utf8

variable {platform : Platform}

/-! ### Nodes that were pushed -/

/-- What holds of a node with this name: its parent stands in front of it, and its mask is that of all names down to
it. -/
structure Placed (platform : Platform) (nodes : List Node) (names : List Char) (i : ℕ) (node : Node)
    (name : List Char) : Prop where
  slice : strSlice names node.name (node.name + node.len) = some name
  len : node.len = size name
  nonempty : name ≠ []
  plain : ∀ ch ∈ name, platform.isSeparator ch = false
  parent : (node.parent = noParent ∧ node.mask = maskOf platform name) ∨
    ∃ above, node.parent < i ∧ nodes[node.parent]? = some above ∧ node.mask = above.mask ||| maskOf platform name

theorem Placed.append {nodes more : List Node} {names others : List Char} {i : ℕ} {node : Node} {name : List Char}
    (h : Placed platform nodes names i node name) : Placed platform (nodes ++ more) (names ++ others) i node name where
  slice := by
    obtain ⟨before, after, hsplit, hstart, hstop⟩ := strSlice_eq_some_iff.1 h.slice
    exact strSlice_eq_some_iff.2 ⟨before, after ++ others, by rw [hsplit]; simp only [List.append_assoc], hstart, hstop⟩
  len := h.len
  nonempty := h.nonempty
  plain := h.plain
  parent := by
    rcases h.parent with hroot | ⟨above, hlt, habove, hmask⟩
    · exact .inl hroot
    · refine .inr ⟨above, hlt, ?_, hmask⟩
      have hin := (List.getElem?_eq_some_iff.1 habove).1
      rw [List.getElem?_append_left hin]
      exact habove

/-- The nodes and names of a tree that is below the limit of the parents. -/
structure Rooted (platform : Platform) (tree : Tree) : Prop where
  placed : ∀ i node, tree.nodes[i]? = some node → ∃ name, Placed platform tree.nodes tree.names i node name
  ancestors : ∀ id ∈ tree.ancestors, id < tree.nodes.length

theorem usable_spec {entry : Entry} {ancestors : List ℕ} (h : entry.usable platform ancestors = true) :
    entry.name ≠ [] ∧ ∀ ch ∈ entry.name, platform.isSeparator ch = false := by
  unfold Entry.usable at h
  simp only [Bool.and_eq_true, Bool.not_eq_true', List.any_eq_false, Bool.or_eq_true, not_or] at h
  refine ⟨fun hnil => ?_, fun ch hch => ?_⟩
  · rw [hnil] at h
    exact Bool.false_ne_true h.1.1.2.symm
  · simpa using (h.2 ch hch).2

theorem node_placed {tree : Tree} {entry : Entry} (hlength : tree.nodes.length < noParent) {ancestors : List ℕ}
    (hancestors : ∀ id ∈ ancestors, id < tree.nodes.length) (husable : entry.usable platform ancestors = true)
    (hfits : entry.Fits) (more : List Node) :
    Placed platform (tree.nodes ++ more) (tree.names ++ entry.name) tree.nodes.length
      (entry.node platform ancestors tree.nodes (size tree.names)) entry.name := by
  obtain ⟨hnonempty, hplain⟩ := usable_spec husable
  have hlen : (entry.node platform ancestors tree.nodes (size tree.names)).len = size entry.name :=
    flagWord_low hfits.2 entry.hidden
  refine ⟨?_, hlen, hnonempty, hplain, ?_⟩
  · rw [hlen]
    have hslice := strSlice_append tree.names entry.name []
    rw [List.append_nil] at hslice
    exact hslice
  · show (ancestors.getLast?.getD noParent = noParent ∧
        ((tree.nodes[ancestors.getLast?.getD noParent]?.map Node.mask).getD 0 ||| maskOf platform entry.name) =
          maskOf platform entry.name) ∨ _
    rcases hlast : ancestors.getLast? with _ | id
    · refine .inl ⟨rfl, ?_⟩
      rw [Option.getD_none, List.getElem?_eq_none hlength.le]
      exact Nat.zero_or _
    · have hid := hancestors id (List.mem_of_getLast? hlast)
      refine .inr ⟨tree.nodes[id], ?_, ?_, ?_⟩
      · show ancestors.getLast?.getD noParent < _
        rw [hlast]
        exact hid
      · show (tree.nodes ++ more)[ancestors.getLast?.getD noParent]? = _
        rw [hlast, Option.getD_some, List.getElem?_append_left hid, List.getElem?_eq_getElem hid]
      · show ((tree.nodes[ancestors.getLast?.getD noParent]?.map Node.mask).getD 0 ||| _) = _
        rw [hlast, Option.getD_some, List.getElem?_eq_getElem hid]
        rfl

theorem grow_rooted {tree tree' : Tree} {entry : Entry} (hrooted : Rooted platform tree)
    (h : tree.grow platform entry = some tree') (hlength : tree'.nodes.length ≤ noParent) :
    Rooted platform tree' := by
  have hsucc := grow_length h
  have hfits := grow_fits h
  obtain ⟨⟨husable, -⟩, rfl⟩ := grow_eq_some.1 h
  have htake : ∀ id ∈ tree.ancestors.take (entry.depth - 1), id < tree.nodes.length := fun id hid =>
    hrooted.ancestors id (List.mem_of_mem_take hid)
  refine ⟨fun i node hi => ?_, fun id hid => ?_⟩
  · have hi : (tree.nodes ++ [entry.node platform (tree.ancestors.take (entry.depth - 1)) tree.nodes
        (size tree.names)])[i]? = some node := hi
    rcases Nat.lt_or_ge i tree.nodes.length with hlt | hge
    · rw [List.getElem?_append_left hlt] at hi
      obtain ⟨name, hname⟩ := hrooted.placed i node hi
      exact ⟨name, hname.append⟩
    · rw [List.getElem?_append_right hge] at hi
      obtain ⟨hzero, rfl⟩ := List.getElem?_eq_some_iff.1 hi
      rw [List.length_singleton] at hzero
      obtain rfl : i = tree.nodes.length := by omega
      refine ⟨entry.name, ?_⟩
      simp only [Nat.sub_self, List.getElem_cons_zero]
      exact node_placed (by omega) htake husable hfits _
  · rw [hsucc]
    have hid : id ∈ if entry.isDir then tree.ancestors.take (entry.depth - 1) ++ [tree.nodes.length % 2 ^ 32]
        else tree.ancestors.take (entry.depth - 1) := hid
    split_ifs at hid
    · rcases List.mem_append.1 hid with hid | hid
      · have hlt := htake id hid
        omega
      · rw [List.mem_singleton.1 hid]
        have hmod := Nat.mod_le tree.nodes.length (2 ^ 32)
        omega
    · have hlt := htake id hid
      omega

theorem grown_rooted {entries : List Entry} {tree tree' : Tree} (hrooted : Rooted platform tree)
    (h : entries.foldlM (Tree.grow platform) tree = some tree') (hlength : tree'.nodes.length ≤ noParent) :
    Rooted platform tree' := by
  induction entries generalizing tree with
  | nil =>
    obtain rfl : tree = tree' := Option.some.inj h
    exact hrooted
  | cons entry entries ih =>
    rw [List.foldlM_cons] at h
    obtain ⟨middle, hgrow, hrest⟩ := Option.bind_eq_some_iff.1 h
    have hmiddle := (grown_spec hrest).2.2.1
    exact ih (grow_rooted hrooted hgrow (by omega)) hrest

/-- The nodes of an index that was built. -/
structure Built (platform : Platform) (index : Index) : Prop where
  length : index.nodes.length ≤ noParent
  placed : ∀ i node, index.nodes[i]? = some node → ∃ name, Placed platform index.nodes index.names i node name

theorem place_cap (builder : Builder) (depth : ℕ) (name : Option (List Char)) (isDir hidden : Bool)
    (h : builder.index.nodes.length ≤ builder.cap) :
    (builder.place platform depth name isDir hidden).1.cap = builder.cap ∧
      (builder.place platform depth name isDir hidden).1.index.nodes.length ≤ builder.cap := by
  rcases place_cases builder depth name isDir hidden with ⟨_, tree, -, hlt, hgrow, heq⟩ | ⟨-, hpassed, -⟩
  · rw [heq]
    refine ⟨rfl, ?_⟩
    show tree.nodes.length ≤ builder.cap
    rw [grow_length hgrow]
    exact hlt
  · refine ⟨?_, ?_⟩
    · unfold Builder.place
      by_cases hfull : builder.index.nodes.length ≥ builder.cap
      · rw [if_pos hfull]
      · rw [if_neg hfull]
        dsimp only
        split <;> rfl
    · rw [hpassed.nodes]
      exact h

theorem run_cap (calls : List Builder.Call) (builder : Builder) (h : builder.index.nodes.length ≤ builder.cap) :
    (builder.run platform calls).index.nodes.length ≤ builder.cap := by
  induction calls generalizing builder with
  | nil => exact h
  | cons call calls ih =>
    have hpush : (builder.push platform call.depth call.name call.isDir call.hidden).1.cap = builder.cap ∧
        (builder.push platform call.depth call.name call.isDir call.hidden).1.index.nodes.length ≤
          builder.cap := by
      unfold Builder.push
      split
      · split_ifs
        · exact ⟨rfl, h⟩
        · exact place_cap { builder with skipBelow := none } _ _ _ _ h
      · exact place_cap builder _ _ _ _ h
    have hrest := ih _ (hpush.1.symm ▸ hpush.2)
    rw [hpush.1] at hrest
    exact hrest

theorem built_run (root : List UInt8) (cap : ℕ) (now built : SystemTime) (calls : List Builder.Call) :
    Built platform (((Builder.new root cap now).run platform calls).finish built) := by
  have hkept : Kept platform ((Builder.new root cap now).run platform calls) := run_kept calls (new_kept root cap now)
  obtain ⟨entries, tree, hgrown, hnodes, hnames, -⟩ := hkept
  have hlength : ((Builder.new root cap now).run platform calls).index.nodes.length ≤ noParent :=
    (run_cap calls (.new root cap now) (Nat.zero_le _)).trans (Nat.min_le_right cap noParent)
  have hrooted : Rooted platform tree := by
    refine grown_rooted ⟨fun i node hi => ?_, fun id hid => absurd hid List.not_mem_nil⟩ hgrown ?_
    · rw [List.getElem?_nil] at hi
      cases hi
    · rw [hnodes]
      exact hlength
  refine ⟨hlength, fun i node hi => ?_⟩
  show ∃ name, Placed platform ((Builder.new root cap now).run platform calls).index.nodes
    ((Builder.new root cap now).run platform calls).index.names i node name
  rw [← hnodes, ← hnames]
  exact hrooted.placed i node (hnodes ▸ hi)

/-! ### Paths -/

/-- The chain of a node and its path, as they follow from those of its parent. -/
inductive Written (platform : Platform) (index : Index) (stop : ℕ) : ℕ → List ℕ → List Char → Prop
  | top {i : ℕ} {node : Node} {name : List Char} (hnode : index.nodes[i]? = some node)
      (hplaced : Placed platform index.nodes index.names i node name) (hstop : i ≠ stop) (hi : i ≠ noParent)
      (hparent : node.parent = stop ∨ node.parent = noParent) : Written platform index stop i [i] name
  | under {i : ℕ} {node : Node} {name : List Char} {chain : List ℕ} {above : List Char}
      (hnode : index.nodes[i]? = some node) (hplaced : Placed platform index.nodes index.names i node name)
      (hstop : i ≠ stop) (hi : i ≠ noParent) (habove : Written platform index stop node.parent chain above) :
      Written platform index stop i (i :: chain) (above ++ [platform.mainSeparator] ++ name)

section
variable {index : Index} {stop i : ℕ} {chain : List ℕ} {path : List Char}

theorem Built.written (hbuilt : Built platform index) (hi : i < index.nodes.length) (hstop : i ≠ stop) :
    ∃ chain path, Written platform index stop i chain path := by
  induction i using Nat.strong_induction_on with
  | _ i ih =>
    have hnode : index.nodes[i]? = some index.nodes[i] := List.getElem?_eq_getElem hi
    obtain ⟨name, hplaced⟩ := hbuilt.placed i _ hnode
    have hlimit : i ≠ noParent := (hi.trans_le hbuilt.length).ne
    rcases hplaced.parent with ⟨hroot, -⟩ | ⟨above, hlt, -, -⟩
    · exact ⟨_, _, .top hnode hplaced hstop hlimit (.inr hroot)⟩
    · by_cases hparent : index.nodes[i].parent = stop
      · exact ⟨_, _, .top hnode hplaced hstop hlimit (.inl hparent)⟩
      · obtain ⟨chain, path, hwritten⟩ := ih _ hlt (hlt.trans hi) hparent
        exact ⟨_, _, .under hnode hplaced hstop hlimit hwritten⟩

theorem Written.ne (h : Written platform index stop i chain path) : i ≠ stop ∧ i ≠ noParent := by
  cases h with
  | top hnode hplaced hstop hi hparent => exact ⟨hstop, hi⟩
  | under hnode hplaced hstop hi habove => exact ⟨hstop, hi⟩

theorem Written.chain_eq (h : Written platform index stop i chain path) {rounds : ℕ} (hrounds : i + 1 < rounds) :
    index.chain stop rounds i = some chain := by
  induction h generalizing rounds with
  | @top i node name hnode hplaced hstop hi hparent =>
    obtain ⟨rounds, rfl⟩ := Nat.exists_eq_add_of_lt hrounds
    rw [Index.chain, if_pos ⟨hstop, hi⟩, hnode]
    have hend : ¬(node.parent ≠ stop ∧ node.parent ≠ noParent) := by
      rintro ⟨hne, hno⟩
      exact hparent.elim hne hno
    have hrest : index.chain stop (i + 1 + rounds) node.parent = some [] := by
      rw [Nat.add_right_comm, Index.chain, if_neg hend]
    show (index.chain stop (i + 1 + rounds) node.parent).bind _ = _
    rw [hrest]
    rfl
  | @under i node name chain above hnode hplaced hstop hi habove ih =>
    obtain ⟨rounds, rfl⟩ := Nat.exists_eq_add_of_lt hrounds
    rw [Index.chain, if_pos ⟨hstop, hi⟩, hnode]
    have hlt : node.parent < i := by
      rcases hplaced.parent with ⟨hroot, -⟩ | ⟨_, hlt, -, -⟩
      · exact absurd hroot habove.ne.2
      · exact hlt
    show (index.chain stop (i + 1 + rounds) node.parent).bind _ = _
    rw [ih (by omega)]
    rfl

theorem name_of_placed {node : Node} {name : List Char} (hnode : index.nodes[i]? = some node)
    (hplaced : Placed platform index.nodes index.names i node name) : index.name i = some name := by
  unfold Index.name
  rw [hnode]
  exact hplaced.slice

theorem intercalate_concat (sep : List Char) {names : List (List Char)} (h : names ≠ []) (name : List Char) :
    List.intercalate sep (names ++ [name]) = List.intercalate sep names ++ sep ++ name := by
  induction names with
  | nil => exact absurd rfl h
  | cons first names ih =>
    cases names with
    | nil => simp [List.intercalate]
    | cons second names =>
      have hrest := ih (List.cons_ne_nil _ _)
      simp only [List.intercalate, List.cons_append, List.intersperse_cons_cons, List.flatten_cons] at hrest ⊢
      rw [hrest]
      simp only [List.append_assoc]

theorem Written.names (h : Written platform index stop i chain path) :
    ∃ names, chain.reverse.mapM index.name = some names ∧ names ≠ [] ∧
      List.intercalate [platform.mainSeparator] names = path := by
  induction h with
  | @top i node name hnode hplaced hstop hi hparent =>
    refine ⟨[name], ?_, List.cons_ne_nil _ _, List.append_nil _⟩
    simp [name_of_placed hnode hplaced]
  | @under i node name chain above hnode hplaced hstop hi habove ih =>
    obtain ⟨names, hnames, hne, hpath⟩ := ih
    refine ⟨names ++ [name], ?_, by simp, ?_⟩
    · rw [List.reverse_cons, List.mapM_append, hnames]
      simp [name_of_placed hnode hplaced]
    · rw [intercalate_concat _ hne, hpath]

theorem Written.lt (h : Written platform index stop i chain path) : i < index.nodes.length := by
  cases h with
  | top hnode hplaced hstop hi hparent => exact (List.getElem?_eq_some_iff.1 hnode).1
  | under hnode hplaced hstop hi habove => exact (List.getElem?_eq_some_iff.1 hnode).1

theorem Written.writePath {start : Located} (h : Written platform index start.stop i chain path) :
    index.writePath platform i start = some path := by
  obtain ⟨names, hnames, -, hpath⟩ := h.names
  have hlt := h.lt
  unfold Index.writePath
  rw [h.chain_eq (by omega)]
  show (chain.reverse.mapM index.name).bind _ = _
  rw [hnames, ← hpath]
  rfl

theorem size_separator (hlawful : platform.Lawful) : size [platform.mainSeparator] = 1 := by
  rcases hlawful.separators _ hlawful.main with hmain | hmain
  · rw [hmain]
    rfl
  · rw [hmain]
    rfl

/-- The loop of `path_len` over the chain, from a total. -/
theorem Written.total (hlawful : platform.Lawful) (h : Written platform index stop i chain path) (total : ℕ) :
    chain.foldlM (fun total id => do
      let node ← index.nodes[id]?
      some (total + node.len + if total > 0 then 1 else 0)) total =
      some (total + size path + if total > 0 then 1 else 0) := by
  induction h generalizing total with
  | @top i node name hnode hplaced hstop hi hparent =>
    rw [List.foldlM_cons, hnode, ← hplaced.len]
    rfl
  | @under i node name chain above hnode hplaced hstop hi habove ih =>
    have hpos : 0 < node.len := by
      rw [hplaced.len, Nat.pos_iff_ne_zero, Ne, size_eq_zero]
      exact hplaced.nonempty
    have hfirst : total + node.len + (if total > 0 then 1 else 0) > 0 := by omega
    rw [List.foldlM_cons, hnode]
    show List.foldlM _ (total + node.len + if total > 0 then 1 else 0) chain = _
    rw [ih, if_pos hfirst, size_append, size_append, size_separator hlawful, ← hplaced.len]
    congr 1
    omega

theorem Written.pathLen (hlawful : platform.Lawful) {start : Located}
    (h : Written platform index start.stop i chain path) : index.pathLen i start = some (size path) := by
  have hlt := h.lt
  unfold Index.pathLen
  rw [h.chain_eq (by omega)]
  refine (h.total hlawful 0).trans ?_
  rw [Nat.zero_add]
  rfl

/-- The name of a node, and its path by that of its parent. -/
theorem Written.inv (h : Written platform index stop i chain path) :
    ∃ node name, index.nodes[i]? = some node ∧ index.name i = some name ∧
      (∀ ch ∈ name, platform.isSeparator ch = false) ∧
      (((node.parent = stop ∨ node.parent = noParent) ∧ path = name) ∨
        ∃ chain above, Written platform index stop node.parent chain above ∧
          path = above ++ [platform.mainSeparator] ++ name) := by
  cases h with
  | @top i node name hnode hplaced hstop hi hparent =>
    exact ⟨node, _, hnode, name_of_placed hnode hplaced, hplaced.plain, .inl ⟨hparent, rfl⟩⟩
  | @under i node name chain above hnode hplaced hstop hi habove =>
    exact ⟨node, _, hnode, name_of_placed hnode hplaced, hplaced.plain, .inr ⟨_, _, habove, rfl⟩⟩

theorem charBit_separator (hlawful : platform.Lawful) :
    charBit platform (fold platform platform.mainSeparator) = 0 := by
  rw [fold_separator hlawful hlawful.main]
  have hmain := hlawful.main
  rcases hlawful.separators _ hmain with hslash | hslash
  · rw [hslash] at hmain ⊢
    unfold charBit
    simp [hmain, show ¬('a' ≤ '/') by decide, show ¬('0' ≤ '/') by decide]
  · rw [hslash] at hmain ⊢
    unfold charBit
    simp [hmain, show ¬('a' ≤ '\\') by decide, show ¬('\\' ≤ '9') by decide]

/-- The mask of a node has the bits of its path. -/
theorem Written.mask (hlawful : platform.Lawful) (h : Written platform index stop i chain path) {node : Node}
    (hnode : index.nodes[i]? = some node) {bit : ℕ} (hbit : (maskOf platform path).testBit bit = true) :
    node.mask.testBit bit = true := by
  -- the bits of the name are in the mask of each node
  have hname : ∀ {i : ℕ} {node : Node} {name : List Char}, Placed platform index.nodes index.names i node name →
      (maskOf platform name).testBit bit = true → node.mask.testBit bit = true := by
    intro i node name hplaced hbit
    rcases hplaced.parent with ⟨-, hmask⟩ | ⟨above, -, -, hmask⟩
    · rw [hmask]
      exact hbit
    · rw [hmask, Nat.testBit_or, hbit, Bool.or_true]
  induction h generalizing node with
  | @top i node' name hnode' hplaced hstop hi hparent =>
    obtain rfl := Option.some.inj (hnode.symm.trans hnode')
    exact hname hplaced hbit
  | @under i node' name chain above hnode' hplaced hstop hi habove ih =>
    obtain rfl := Option.some.inj (hnode.symm.trans hnode')
    obtain ⟨ch, hch, hchbit⟩ := (testBit_maskOf _ bit).1 hbit
    rcases List.mem_append.1 hch with hch | hch
    · rcases List.mem_append.1 hch with hch | hch
      · -- a character of the folders: their mask is inherited
        rcases hplaced.parent with ⟨hroot, -⟩ | ⟨parent, -, hparent, hmask⟩
        · exact absurd hroot habove.ne.2
        · rw [hmask, Nat.testBit_or, ih hparent ((testBit_maskOf _ bit).2 ⟨ch, hch, hchbit⟩), Bool.true_or]
      · rw [List.mem_singleton.1 hch, charBit_separator hlawful, Nat.zero_testBit] at hchbit
        exact absurd hchbit Bool.false_ne_true
    · exact hname hplaced ((testBit_maskOf _ bit).2 ⟨ch, hch, hchbit⟩)

theorem Built.mask_lt (hbuilt : Built platform index) {node : Node} (hnode : index.nodes[i]? = some node) :
    node.mask < 2 ^ 32 := by
  induction i using Nat.strong_induction_on generalizing node with
  | _ i ih =>
    obtain ⟨name, hplaced⟩ := hbuilt.placed i node hnode
    rcases hplaced.parent with ⟨-, hmask⟩ | ⟨above, hlt, habove, hmask⟩
    · rw [hmask]
      exact maskOf_lt name
    · rw [hmask]
      exact Nat.or_lt_two_pow (ih _ hlt habove) (maskOf_lt name)

end

theorem unixPlatform_lawful : unixPlatform.Lawful where
  main := rfl
  separators ch h := .inl (decide_eq_true_iff.1 h)
  lowercase ch h := decide_eq_false fun heq => by
    rw [show ch = '/' from heq] at h
    exact absurd h (by decide)

end Paneflow.PathPicker
