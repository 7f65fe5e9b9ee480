import Paneflow.PathPicker.Index

/-!
# The index and its encoding

`decode_encode`, `encode_decode` and `decode_safe`: an index that was built is decoded from its encoding, what is
decoded is an encoding, and decoding never panics.

Only the entries that were added count (`Grown`): to push these alone leads to the same nodes, since whatever was
skipped in between has at most cut the chain of folders short.
-/

namespace Paneflow.PathPicker

open Paneflow.Utf8 Paneflow.ByteWord

variable {platform : Platform}

/-! ### Words with a flag -/

theorem flagged_eq {value : ℕ} (h : value < 2 ^ 15) (flag : Bool) :
    (value % 2 ^ 16 ||| if flag then 2 ^ 15 else 0) = value + if flag then 2 ^ 15 else 0 := by
  have hmod : value % 2 ^ 16 = value := by omega
  rw [hmod]
  cases flag with
  | false => exact Nat.or_zero value
  | true =>
    have hor := Nat.two_pow_add_eq_or_of_lt h 1
    rw [if_pos rfl, Nat.or_comm, Nat.add_comm]
    simpa using hor.symm

theorem and_low (word : ℕ) : word &&& (2 ^ 16 - 1 - 2 ^ 15) = word % 2 ^ 15 :=
  Nat.and_two_pow_sub_one_eq_mod word 15

theorem and_flag {word : ℕ} (h : word < 2 ^ 16) :
    decide (word &&& 2 ^ 15 ≠ 0) = decide (2 ^ 15 ≤ word) := by
  have hiff : word &&& 2 ^ 15 ≠ 0 ↔ 2 ^ 15 ≤ word := by
    rw [Nat.and_two_pow, Nat.testBit_eq_decide_div_mod_eq]
    simp only [Nat.reducePow, Bool.toNat_eq_zero, ne_eq, Nat.mul_eq_zero, decide_eq_false_iff_not]
    omega
  exact decide_eq_decide.2 hiff

/-- The bytes of a record, from its two words. -/
def recordBytes (depthWord nameWord : ℕ) : List UInt8 := toLeBytes 2 depthWord ++ toLeBytes 2 nameWord

/-- The word of a depth, or of the length of a name, with its flag. -/
def flagWord (value : ℕ) (flag : Bool) : ℕ := value % 2 ^ 16 ||| if flag then 2 ^ 15 else 0

theorem flagWord_lt {value : ℕ} (h : value < 2 ^ 15) (flag : Bool) : flagWord value flag < 2 ^ 16 := by
  rw [flagWord, flagged_eq h]
  split_ifs <;> omega

theorem flagWord_low {value : ℕ} (h : value < 2 ^ 15) (flag : Bool) :
    flagWord value flag &&& (2 ^ 16 - 1 - 2 ^ 15) = value := by
  rw [and_low, flagWord, flagged_eq h]
  split_ifs <;> omega

theorem flagWord_flag {value : ℕ} (h : value < 2 ^ 15) (flag : Bool) :
    decide (flagWord value flag &&& 2 ^ 15 ≠ 0) = flag := by
  rw [and_flag (flagWord_lt h flag), flagWord, flagged_eq h]
  cases flag with
  | false => exact decide_eq_false (by rw [if_neg Bool.false_ne_true]; omega)
  | true => exact decide_eq_true (by rw [if_pos rfl]; omega)

theorem flagWord_of_word {word : ℕ} (h : word < 2 ^ 16) :
    flagWord (word &&& (2 ^ 16 - 1 - 2 ^ 15)) (decide (word &&& 2 ^ 15 ≠ 0)) = word := by
  have hlow : word % 2 ^ 15 < 2 ^ 15 := Nat.mod_lt _ (by decide)
  rw [and_low, and_flag h, flagWord, flagged_eq hlow]
  by_cases hle : 2 ^ 15 ≤ word
  · rw [decide_eq_true hle, if_pos rfl]
    omega
  · rw [decide_eq_false hle, if_neg Bool.false_ne_true]
    omega

/-! ### Entries that are added -/

/-- The words of an entry. -/
def Entry.record (entry : Entry) : List UInt8 :=
  recordBytes (flagWord entry.depth entry.isDir) (flagWord (size entry.name) entry.hidden)

/-- What `push` builds: the nodes, the names and the chain of folders. -/
structure Tree where
  nodes : List Node
  names : List Char
  ancestors : List ℕ

/-- What an entry that is added leads to. -/
def Tree.grow (platform : Platform) (tree : Tree) (entry : Entry) : Option Tree :=
  let ancestors := tree.ancestors.take (entry.depth - 1)
  if entry.usable platform ancestors = true ∧ size tree.names < 2 ^ 32 then
    some
      { nodes := tree.nodes ++ [entry.node platform ancestors tree.nodes (size tree.names)]
        names := tree.names ++ entry.name
        ancestors := if entry.isDir then ancestors ++ [tree.nodes.length % 2 ^ 32] else ancestors }
  else none

/-- The tree with one more node. -/
def Tree.added (platform : Platform) (tree : Tree) (entry : Entry) : Tree :=
  let ancestors := tree.ancestors.take (entry.depth - 1)
  { nodes := tree.nodes ++ [entry.node platform ancestors tree.nodes (size tree.names)]
    names := tree.names ++ entry.name
    ancestors := if entry.isDir then ancestors ++ [tree.nodes.length % 2 ^ 32] else ancestors }

theorem grow_eq_some {tree tree' : Tree} {entry : Entry} :
    tree.grow platform entry = some tree' ↔
      (entry.usable platform (tree.ancestors.take (entry.depth - 1)) = true ∧
        size tree.names < 2 ^ 32) ∧ tree.added platform entry = tree' := by
  unfold Tree.grow
  rw [Option.ite_none_right_eq_some, Option.some.injEq]
  rfl

def Builder.tree (builder : Builder) : Tree :=
  ⟨builder.index.nodes, builder.index.names, builder.ancestors⟩

def Builder.withTree (builder : Builder) (tree : Tree) : Builder :=
  { builder with
    index := { builder.index with nodes := tree.nodes, names := tree.names }
    ancestors := tree.ancestors }

/-- What an entry that is not added leaves: the nodes and the names, and what is left of the chain of folders. -/
structure Passed (builder builder' : Builder) : Prop where
  nodes : builder'.index.nodes = builder.index.nodes
  names : builder'.index.names = builder.index.names
  root : builder'.index.root = builder.index.root
  ancestors : builder'.ancestors <+: builder.ancestors

/-- What a call does to a builder that skips nothing. -/
theorem place_cases (builder : Builder) (depth : ℕ) (name : Option (List Char)) (isDir hidden : Bool) :
    (∃ name' tree, name = some name' ∧ builder.index.nodes.length < builder.cap ∧
      builder.tree.grow platform ⟨depth, name', isDir, hidden⟩ = some tree ∧
      builder.place platform depth name isDir hidden = (builder.withTree tree, .added)) ∨
    ((builder.place platform depth name isDir hidden).2 ≠ .added ∧
      Passed builder (builder.place platform depth name isDir hidden).1 ∧
      ∀ name', name = some name' → builder.index.nodes.length < builder.cap →
        builder.tree.grow platform ⟨depth, name', isDir, hidden⟩ = none) := by
  unfold Builder.place
  by_cases hfull : builder.index.nodes.length ≥ builder.cap
  · rw [if_pos hfull]
    refine .inr ⟨by simp, ⟨rfl, rfl, rfl, List.prefix_refl _⟩, ?_⟩
    intro name' _ hlt
    omega
  rw [if_neg hfull]
  dsimp only
  have hinitial : builder.ancestors.take (depth - 1) <+: builder.ancestors := List.take_prefix ..
  cases name with
  | none => exact .inr ⟨by simp, ⟨rfl, rfl, rfl, hinitial⟩, by simp⟩
  | some name =>
    have hgrow (tree : Tree) (h : builder.tree.grow platform ⟨depth, name, isDir, hidden⟩ = some tree) :
        (Entry.mk depth name isDir hidden).usable platform (builder.ancestors.take (depth - 1)) = true ∧
          size builder.index.names < 2 ^ 32 := by
      exact (grow_eq_some.1 h).1
    have hfilter : (some name).filter (fun name =>
        (Entry.mk depth name isDir hidden).usable platform (builder.ancestors.take (depth - 1))) =
        if (Entry.mk depth name isDir hidden).usable platform (builder.ancestors.take (depth - 1))
        then some name else none := rfl
    rw [hfilter]
    by_cases husable : (Entry.mk depth name isDir hidden).usable platform
        (builder.ancestors.take (depth - 1)) = true
    · rw [if_pos husable]
      by_cases hsize : size builder.index.names < 2 ^ 32
      · rw [decide_eq_true hsize]
        exact .inl ⟨name, _, rfl, by omega, if_pos ⟨husable, hsize⟩, rfl⟩
      · rw [decide_eq_false hsize]
        refine .inr ⟨by simp, ⟨rfl, rfl, rfl, hinitial⟩, ?_⟩
        rintro name' ⟨rfl⟩ -
        exact Option.eq_none_iff_forall_ne_some.2 fun tree h => hsize (hgrow tree h).2
    · rw [if_neg husable]
      refine .inr ⟨by simp, ⟨rfl, rfl, rfl, hinitial⟩, ?_⟩
      rintro name' ⟨rfl⟩ -
      exact Option.eq_none_iff_forall_ne_some.2 fun tree h => husable (hgrow tree h).1

/-- To grow the tree of a longer chain of folders is the same, when the entry is added below the shorter one. -/
theorem grow_of_prefix {tree tree' tree'' : Tree} {entry : Entry} (hnodes : tree'.nodes = tree.nodes)
    (hnames : tree'.names = tree.names) (hinitial : tree.ancestors <+: tree'.ancestors)
    (h : tree.grow platform entry = some tree'') : tree'.grow platform entry = some tree'' := by
  obtain ⟨⟨husable, hsize⟩, hadded⟩ := grow_eq_some.1 h
  have hlength : (tree.ancestors.take (entry.depth - 1)).length = entry.depth - 1 := by
    unfold Entry.usable at husable
    simp only [Bool.and_eq_true, decide_eq_true_eq] at husable
    exact husable.1.1.1.2
  have htake : tree'.ancestors.take (entry.depth - 1) = tree.ancestors.take (entry.depth - 1) := by
    obtain ⟨more, hmore⟩ := hinitial
    rw [List.length_take] at hlength
    rw [← hmore, List.take_append_of_le_length (by omega)]
  rw [grow_eq_some, htake, hnames]
  refine ⟨⟨husable, hsize⟩, ?_⟩
  rw [← hadded]
  unfold Tree.added
  rw [htake, hnames, hnodes]

/-- The entries grow a tree from nothing. -/
def Grown (platform : Platform) (entries : List Entry) (tree : Tree) : Prop :=
  entries.foldlM (Tree.grow platform) ⟨[], [], []⟩ = some tree

/-- What is kept of a builder: its nodes and names are grown from the entries that were added. -/
def Kept (platform : Platform) (builder : Builder) : Prop :=
  ∃ entries tree, Grown platform entries tree ∧ tree.nodes = builder.index.nodes ∧
    tree.names = builder.index.names ∧ builder.ancestors <+: tree.ancestors

theorem Kept.passed {builder builder' : Builder} (h : Kept platform builder)
    (hpassed : Passed builder builder') : Kept platform builder' := by
  obtain ⟨entries, tree, hgrown, hnodes, hnames, hinitial⟩ := h
  exact ⟨entries, tree, hgrown, hnodes.trans hpassed.nodes.symm, hnames.trans hpassed.names.symm,
    hpassed.ancestors.trans hinitial⟩

theorem place_kept {builder : Builder} (h : Kept platform builder) (depth : ℕ)
    (name : Option (List Char)) (isDir hidden : Bool) :
    Kept platform (builder.place platform depth name isDir hidden).1 := by
  rcases place_cases builder depth name isDir hidden with
    ⟨name', tree', -, -, hgrow, heq⟩ | ⟨-, hpassed, -⟩
  · obtain ⟨entries, tree, hgrown, hnodes, hnames, hinitial⟩ := h
    rw [heq]
    refine ⟨entries ++ [⟨depth, name', isDir, hidden⟩], tree', ?_, rfl, rfl, List.prefix_refl _⟩
    unfold Grown at hgrown ⊢
    rw [List.foldlM_append, hgrown]
    have hgrow' : tree.grow platform ⟨depth, name', isDir, hidden⟩ = some tree' :=
      grow_of_prefix hnodes hnames hinitial hgrow
    simp [hgrow']
  · exact h.passed hpassed

theorem push_kept {builder : Builder} (h : Kept platform builder) (depth : ℕ)
    (name : Option (List Char)) (isDir hidden : Bool) :
    Kept platform (builder.push platform depth name isDir hidden).1 := by
  unfold Builder.push
  split
  · split_ifs
    · exact h
    · have hunskipped : Kept platform { builder with skipBelow := none } := h
      exact place_kept hunskipped depth name isDir hidden
  · exact place_kept h depth name isDir hidden

theorem run_kept (calls : List Builder.Call) {builder : Builder} (h : Kept platform builder) :
    Kept platform (builder.run platform calls) := by
  induction calls generalizing builder with
  | nil => exact h
  | cons call calls ih => exact ih (push_kept h call.depth call.name call.isDir call.hidden)

theorem new_kept (root : List UInt8) (cap : ℕ) (now : SystemTime) :
    Kept platform (.new root cap now) :=
  ⟨[], ⟨[], [], []⟩, rfl, rfl, rfl, List.prefix_refl _⟩

theorem place_root (builder : Builder) (depth : ℕ) (name : Option (List Char)) (isDir hidden : Bool) :
    (builder.place platform depth name isDir hidden).1.index.root = builder.index.root := by
  rcases place_cases builder depth name isDir hidden with ⟨_, _, -, -, -, heq⟩ | ⟨-, hpassed, -⟩
  · rw [heq]
    rfl
  · exact hpassed.root

theorem push_root (builder : Builder) (depth : ℕ) (name : Option (List Char)) (isDir hidden : Bool) :
    (builder.push platform depth name isDir hidden).1.index.root = builder.index.root := by
  unfold Builder.push
  split
  · split_ifs
    · rfl
    · exact place_root ..
  · exact place_root ..

theorem run_root (calls : List Builder.Call) (builder : Builder) :
    (builder.run platform calls).index.root = builder.index.root := by
  induction calls generalizing builder with
  | nil => rfl
  | cons call calls ih =>
    have hpush : (builder.push platform call.depth call.name call.isDir call.hidden).1.index.root =
        builder.index.root := push_root ..
    exact (ih _).trans hpush

/-! ### Records -/

/-- The depth and the length of the name leave room for the flags. -/
def Entry.Fits (entry : Entry) : Prop := entry.depth < 2 ^ 15 ∧ size entry.name < 2 ^ 15

theorem grow_fits {tree tree' : Tree} {entry : Entry} (h : tree.grow platform entry = some tree') :
    entry.Fits := by
  obtain ⟨⟨husable, -⟩, -⟩ := grow_eq_some.1 h
  unfold Entry.usable maxDepth maxName dirFlag hiddenFlag at husable
  simp only [Bool.and_eq_true, decide_eq_true_eq] at husable
  exact ⟨by omega, by omega⟩

theorem grow_length {tree tree' : Tree} {entry : Entry} (h : tree.grow platform entry = some tree') :
    tree'.nodes.length = tree.nodes.length + 1 := by
  obtain ⟨-, rfl⟩ := grow_eq_some.1 h
  exact List.length_append

/-- The bytes that a node is encoded as. -/
def Node.record (node : Node) : List UInt8 := recordBytes node.depth node.nameLen

/-- What the entries leave in the tree. -/
theorem grown_spec {entries : List Entry} {tree tree' : Tree}
    (h : entries.foldlM (Tree.grow platform) tree = some tree') :
    tree'.names = tree.names ++ entries.flatMap Entry.name ∧
      tree'.nodes.flatMap Node.record = tree.nodes.flatMap Node.record ++ entries.flatMap Entry.record ∧
      tree'.nodes.length = tree.nodes.length + entries.length ∧ ∀ entry ∈ entries, entry.Fits := by
  induction entries generalizing tree with
  | nil =>
    obtain rfl : tree = tree' := Option.some.inj h
    simp
  | cons entry entries ih =>
    rw [List.foldlM_cons] at h
    obtain ⟨middle, hgrow, hrest⟩ := Option.bind_eq_some_iff.1 h
    obtain ⟨hnames, hrecords, hlength, hfits⟩ := ih hrest
    obtain ⟨-, hadded⟩ := grow_eq_some.1 hgrow
    have hmiddle : middle.names = tree.names ++ entry.name ∧
        middle.nodes.flatMap Node.record = tree.nodes.flatMap Node.record ++ entry.record ∧
        middle.nodes.length = tree.nodes.length + 1 := by
      rw [← hadded]
      refine ⟨rfl, ?_, List.length_append⟩
      unfold Tree.added
      rw [List.flatMap_append, List.flatMap_singleton]
      rfl
    refine ⟨?_, ?_, ?_, ?_⟩
    · rw [hnames, hmiddle.1, List.flatMap_cons, List.append_assoc]
    · rw [hrecords, hmiddle.2.1, List.flatMap_cons, List.append_assoc]
    · rw [hlength, hmiddle.2.2, List.length_cons]
      omega
    · intro other hother
      rcases List.mem_cons.1 hother with rfl | hother
      · exact grow_fits hgrow
      · exact hfits other hother

/-- What a builder that skips nothing makes of an entry. -/
theorem push_added {builder builder' : Builder} (hskip : builder.skipBelow = none) {entry : Entry} :
    builder.push platform entry.depth (some entry.name) entry.isDir entry.hidden =
        (builder', .added) ↔
      builder.index.nodes.length < builder.cap ∧
        ∃ tree, builder.tree.grow platform entry = some tree ∧ builder.withTree tree = builder' := by
  unfold Builder.push
  rw [hskip]
  dsimp only
  rcases place_cases builder entry.depth (some entry.name) entry.isDir entry.hidden with
    ⟨name', tree, hname, hlt, hgrow, heq⟩ | ⟨hne, -, hnone⟩
  · obtain rfl := Option.some.inj hname
    rw [heq, Prod.mk.injEq]
    constructor
    · rintro ⟨rfl, -⟩
      exact ⟨hlt, tree, hgrow, rfl⟩
    · rintro ⟨-, tree', hgrow', rfl⟩
      obtain rfl := Option.some.inj (hgrow.symm.trans hgrow')
      exact ⟨rfl, rfl⟩
  · constructor
    · intro heq
      exact absurd (congrArg Prod.snd heq) hne
    · rintro ⟨hlt, tree, hgrow, -⟩
      have hgrow' := hnone entry.name rfl hlt
      rw [hgrow'] at hgrow
      cases hgrow

/-- The round for a record, from the two words of the record. -/
def decodeWords (platform : Platform) (names : List Char) (builder : Builder) (offset : ℕ)
    (depthWord nameWord : ℕ) : Reading (Builder × ℕ) := do
  let length := nameWord &&& (2 ^ 16 - 1 - 2 ^ 15)
  let name ← Reading.ofOption (strSlice names offset (offset + length))
  let pushed := builder.push platform (depthWord &&& (2 ^ 16 - 1 - 2 ^ 15)) (some name)
    (decide (depthWord &&& 2 ^ 15 ≠ 0)) (decide (nameWord &&& 2 ^ 15 ≠ 0))
  Reading.require (decide (pushed.2 = .added))
  pure (pushed.1, offset + length)

theorem decodeRecord_words {names : List Char} {builder : Builder} {offset depthWord nameWord : ℕ}
    (hdepth : depthWord < 2 ^ 16) (hname : nameWord < 2 ^ 16) :
    Index.decodeRecord platform names (builder, offset) (recordBytes depthWord nameWord) =
      decodeWords platform names builder offset depthWord nameWord := by
  have hdepth' := fromLeBytes_toLeBytes (n := 2) hdepth
  have hname' := fromLeBytes_toLeBytes (n := 2) hname
  obtain ⟨a, b, hab⟩ : ∃ a b, toLeBytes 2 depthWord = [a, b] := ⟨_, _, rfl⟩
  obtain ⟨c, d, hcd⟩ : ∃ c d, toLeBytes 2 nameWord = [c, d] := ⟨_, _, rfl⟩
  rw [hab] at hdepth'
  rw [hcd] at hname'
  unfold recordBytes Index.decodeRecord decodeWords hiddenFlag dirFlag
  rw [hab, hcd]
  simp only [Reading.index, List.cons_append, List.nil_append, List.getElem?_cons_zero,
    List.getElem?_cons_succ, Reading.read_bind, hdepth', hname']

/-- Four bytes are the record of two words. -/
theorem exists_words {record : List UInt8} (h : record.length = 4) :
    ∃ depthWord nameWord, record = recordBytes depthWord nameWord ∧ depthWord < 2 ^ 16 ∧
      nameWord < 2 ^ 16 := by
  match record, h with
  | [a, b, c, d], _ =>
    have hwidth : 256 ^ 2 = 2 ^ 16 := by norm_num
    have hlt : fromLeBytes [a, b] < 256 ^ 2 := fromLeBytes_lt [a, b]
    have hlt' : fromLeBytes [c, d] < 256 ^ 2 := fromLeBytes_lt [c, d]
    rw [hwidth] at hlt hlt'
    refine ⟨fromLeBytes [a, b], fromLeBytes [c, d], ?_, hlt, hlt'⟩
    have hdepth := toLeBytes_fromLeBytes [a, b]
    have hname := toLeBytes_fromLeBytes [c, d]
    unfold recordBytes
    rw [List.length_cons, List.length_cons, List.length_nil] at hdepth hname
    rw [hdepth, hname]
    rfl

theorem recordBytes_inj {depthWord nameWord depthWord' nameWord' : ℕ} (hdepth : depthWord < 2 ^ 16)
    (hname : nameWord < 2 ^ 16) (hdepth' : depthWord' < 2 ^ 16) (hname' : nameWord' < 2 ^ 16)
    (h : recordBytes depthWord nameWord = recordBytes depthWord' nameWord') :
    depthWord = depthWord' ∧ nameWord = nameWord' := by
  obtain ⟨hfirst, hsecond⟩ := List.append_inj h (by rw [length_toLeBytes, length_toLeBytes])
  constructor
  · rw [← fromLeBytes_toLeBytes (n := 2) hdepth, hfirst, fromLeBytes_toLeBytes hdepth']
  · rw [← fromLeBytes_toLeBytes (n := 2) hname, hsecond, fromLeBytes_toLeBytes hname']

theorem decodeWords_eq_read {names : List Char} {builder builder' : Builder}
    {offset offset' depthWord nameWord : ℕ} (hskip : builder.skipBelow = none)
    (hdepth : depthWord < 2 ^ 16) (hname : nameWord < 2 ^ 16) :
    decodeWords platform names builder offset depthWord nameWord = .read (builder', offset') ↔
      ∃ entry tree, depthWord = flagWord entry.depth entry.isDir ∧
        nameWord = flagWord (size entry.name) entry.hidden ∧
        builder.index.nodes.length < builder.cap ∧ builder.tree.grow platform entry = some tree ∧
        builder.withTree tree = builder' ∧ strSlice names offset offset' = some entry.name := by
  unfold decodeWords
  rw [Reading.bind_eq_read]
  constructor
  · rintro ⟨name, hslice, h⟩
    rw [Reading.ofOption_eq_read] at hslice
    obtain ⟨_, hadded, h⟩ := Reading.bind_eq_read.1 h
    rw [Reading.require_eq_read, decide_eq_true_eq] at hadded
    obtain ⟨-, -, -, -, hsize⟩ := strSlice_eq_some hslice
    have hsize : nameWord &&& (2 ^ 16 - 1 - 2 ^ 15) = size name := by omega
    rw [Reading.pure_eq, Reading.read.injEq, Prod.mk.injEq] at h
    obtain ⟨hbuilder, rfl⟩ := h
    let entry : Entry := ⟨depthWord &&& (2 ^ 16 - 1 - 2 ^ 15), name,
      decide (depthWord &&& 2 ^ 15 ≠ 0), decide (nameWord &&& 2 ^ 15 ≠ 0)⟩
    have hpush : builder.push platform entry.depth (some entry.name) entry.isDir entry.hidden =
        (builder', .added) := Prod.ext hbuilder hadded
    obtain ⟨hlt, tree, hgrow, htree⟩ := (push_added hskip).1 hpush
    refine ⟨entry, tree, (flagWord_of_word hdepth).symm, ?_, hlt, hgrow, htree, hslice⟩
    have hword := flagWord_of_word hname
    rw [hsize] at hword
    exact hword.symm
  · rintro ⟨entry, tree, rfl, rfl, hlt, hgrow, htree, hslice⟩
    obtain ⟨hdepthFits, hnameFits⟩ := grow_fits hgrow
    have hpush := (push_added hskip).2 ⟨hlt, tree, hgrow, htree⟩
    obtain ⟨-, -, -, -, hsize⟩ := strSlice_eq_some hslice
    rw [flagWord_low hdepthFits, flagWord_low hnameFits, flagWord_flag hdepthFits,
      flagWord_flag hnameFits, hsize]
    refine ⟨entry.name, ?_, ?_⟩
    · rw [hslice]
      rfl
    · rw [hpush]
      rfl

theorem decodeRecord_eq_read {names : List Char} {builder builder' : Builder} {offset offset' : ℕ}
    {record : List UInt8} (hlength : record.length = 4) (hskip : builder.skipBelow = none) :
    Index.decodeRecord platform names (builder, offset) record = .read (builder', offset') ↔
      ∃ entry tree, record = entry.record ∧ builder.index.nodes.length < builder.cap ∧
        builder.tree.grow platform entry = some tree ∧ builder.withTree tree = builder' ∧
        strSlice names offset offset' = some entry.name := by
  obtain ⟨depthWord, nameWord, rfl, hdepth, hname⟩ := exists_words hlength
  rw [decodeRecord_words hdepth hname, decodeWords_eq_read hskip hdepth hname]
  constructor
  · rintro ⟨entry, tree, rfl, rfl, hrest⟩
    exact ⟨entry, tree, rfl, hrest⟩
  · rintro ⟨entry, tree, hrecord, hrest⟩
    obtain ⟨hdepthFits, hnameFits⟩ := grow_fits hrest.2.1
    obtain ⟨hdepth', hname'⟩ := recordBytes_inj hdepth hname (flagWord_lt hdepthFits entry.isDir)
      (flagWord_lt hnameFits entry.hidden) hrecord
    exact ⟨entry, tree, hdepth', hname', hrest⟩

/-- The records are those of entries whose names follow each other, and which grow the tree. -/
theorem decodeRecords_eq_read {names : List Char} {records : List (List UInt8)}
    (hrecords : ∀ record ∈ records, record.length = 4) {builder builder' : Builder}
    {offset offset' : ℕ} (hskip : builder.skipBelow = none) (hoffset : Boundary names offset) :
    Index.decodeRecords platform names (builder, offset) records = .read (builder', offset') ↔
      ∃ entries tree, records = entries.map Entry.record ∧
        (entries = [] ∨ builder.index.nodes.length + entries.length ≤ builder.cap) ∧
        entries.foldlM (Tree.grow platform) builder.tree = some tree ∧
        builder.withTree tree = builder' ∧
        strSlice names offset offset' = some (entries.flatMap Entry.name) := by
  induction records generalizing builder offset with
  | nil =>
    have hread : Index.decodeRecords platform names (builder, offset) [] = .read (builder, offset) := rfl
    rw [hread, Reading.read.injEq, Prod.mk.injEq]
    constructor
    · rintro ⟨rfl, rfl⟩
      exact ⟨[], builder.tree, rfl, .inl rfl, rfl, rfl, (strSlice_self hoffset).2 rfl⟩
    · rintro ⟨entries, tree, hentries, -, hgrown, rfl, hslice⟩
      obtain rfl := List.map_eq_nil_iff.1 hentries.symm
      obtain rfl : builder.tree = tree := Option.some.inj hgrown
      exact ⟨rfl, (strSlice_self hoffset).1 hslice⟩
  | cons record records ih =>
    have hlength := hrecords record List.mem_cons_self
    have hrest : ∀ record ∈ records, record.length = 4 :=
      fun other hother => hrecords other (List.mem_cons_of_mem record hother)
    rw [Index.decodeRecords, Reading.bind_eq_read]
    constructor
    · rintro ⟨⟨next, middle⟩, hround, h⟩
      obtain ⟨entry, tree, rfl, hlt, hgrow, rfl, hslice⟩ := (decodeRecord_eq_read hlength hskip).1 hround
      have hskip' : (builder.withTree tree).skipBelow = none := hskip
      obtain ⟨entries, tree', rfl, hcap, hgrown, rfl, hslices⟩ :=
        (ih hrest hskip' (boundary_of_strSlice hslice)).1 h
      refine ⟨entry :: entries, tree', rfl, .inr ?_, ?_, rfl, ?_⟩
      · have hlength' : (builder.withTree tree).index.nodes.length = builder.index.nodes.length + 1 :=
          grow_length hgrow
        have hcap' : (builder.withTree tree).cap = builder.cap := rfl
        rw [hlength', hcap'] at hcap
        rw [List.length_cons]
        rcases hcap with rfl | hcap
        · rw [List.length_nil]
          omega
        · omega
      · rw [List.foldlM_cons, hgrow]
        exact hgrown
      · rw [List.flatMap_cons, strSlice_append_iff]
        exact ⟨middle, hslice, hslices⟩
    · rintro ⟨entries, tree, hentries, hcap, hgrown, rfl, hslices⟩
      cases entries with
      | nil => cases hentries
      | cons entry entries =>
        obtain ⟨rfl, rfl⟩ := List.cons.inj hentries
        rw [List.foldlM_cons] at hgrown
        obtain ⟨next, hgrow, hgrown⟩ := Option.bind_eq_some_iff.1 hgrown
        rw [List.flatMap_cons, strSlice_append_iff] at hslices
        obtain ⟨middle, hslice, hslices⟩ := hslices
        have hskip' : (builder.withTree next).skipBelow = none := hskip
        have hlength' : (builder.withTree next).index.nodes.length = builder.index.nodes.length + 1 :=
          grow_length hgrow
        have hcap := hcap.resolve_left (List.cons_ne_nil entry entries)
        rw [List.length_cons] at hcap
        refine ⟨(builder.withTree next, middle), ?_, ?_⟩
        · refine (decodeRecord_eq_read hlength hskip).2 ⟨entry, next, rfl, ?_, hgrow, rfl, hslice⟩
          omega
        · refine (ih hrest hskip' (boundary_of_strSlice hslice)).2
            ⟨entries, tree, rfl, .inr ?_, hgrown, rfl, hslices⟩
          rw [hlength']
          have hcap' : (builder.withTree next).cap = builder.cap := rfl
          omega

theorem length_of_mem_chunks (bytes : List UInt8) : ∀ chunk ∈ Index.chunks bytes, chunk.length = 4 := by
  induction bytes using Index.chunks.induct with
  | case1 a b c d rest ih =>
    intro chunk hchunk
    rw [Index.chunks] at hchunk
    rcases List.mem_cons.1 hchunk with rfl | hchunk
    · rfl
    · exact ih chunk hchunk
  | case2 bytes h =>
    intro chunk hchunk
    rw [Index.chunks] at hchunk
    · cases hchunk
    · exact h

theorem chunks_flatten {chunks : List (List UInt8)} (h : ∀ chunk ∈ chunks, chunk.length = 4) :
    Index.chunks chunks.flatten = chunks := by
  induction chunks with
  | nil => rfl
  | cons chunk chunks ih =>
    have hrest := ih fun other hother => h other (List.mem_cons_of_mem chunk hother)
    match chunk, h chunk List.mem_cons_self with
    | [a, b, c, d], _ =>
      have hcons : ([a, b, c, d] :: chunks).flatten = a :: b :: c :: d :: chunks.flatten := rfl
      rw [hcons, Index.chunks, hrest]

theorem flatten_chunks {bytes : List UInt8} {count : ℕ} (h : bytes.length = count * 4) :
    (Index.chunks bytes).flatten = bytes ∧ (Index.chunks bytes).length = count := by
  induction count generalizing bytes with
  | zero =>
    obtain rfl := List.length_eq_zero_iff.1 (h.trans (Nat.zero_mul 4))
    exact ⟨rfl, rfl⟩
  | succ count ih =>
    match bytes, h with
    | a :: b :: c :: d :: rest, h =>
      have hrest : rest.length = count * 4 := by
        simp only [List.length_cons] at h
        omega
      obtain ⟨hflatten, hlength⟩ := ih hrest
      rw [Index.chunks, List.flatten_cons, hflatten, List.length_cons, hlength]
      exact ⟨rfl, rfl⟩
    | [], h => simp at h
    | [a], h => simp at h; omega
    | [a, b], h => simp at h; omega
    | [a, b, c], h => simp at h; omega

/-! ### The whole encoding -/

theorem take_eq_read {input head rest : List UInt8} {len : ℕ} :
    Index.take input len = .read (head, rest) ↔ input = head ++ rest ∧ head.length = len := by
  unfold Index.take Reading.splitAt
  constructor
  · intro h
    split_ifs at h with hshort hlong
    obtain ⟨rfl, rfl⟩ := Prod.mk.inj (Reading.read.inj h)
    refine ⟨(List.take_append_drop len input).symm, ?_⟩
    rw [List.length_take]
    omega
  · rintro ⟨rfl, rfl⟩
    rw [if_neg (by simp), if_pos (by simp)]
    simp

theorem takeNumber_eq_read {width : ℕ} {input rest : List UInt8} {value : ℕ} :
    Index.takeNumber width input = .read (value, rest) ↔
      value < 256 ^ width ∧ input = toLeBytes width value ++ rest := by
  unfold Index.takeNumber
  rw [Reading.bind_eq_read]
  constructor
  · rintro ⟨⟨head, rest'⟩, htake, h⟩
    obtain ⟨rfl, rfl⟩ := take_eq_read.1 htake
    obtain ⟨rfl, rfl⟩ := Prod.mk.inj (Reading.read.inj h)
    exact ⟨fromLeBytes_lt head, by rw [toLeBytes_fromLeBytes]⟩
  · rintro ⟨hlt, rfl⟩
    refine ⟨(toLeBytes width value, rest), take_eq_read.2 ⟨rfl, length_toLeBytes width value⟩, ?_⟩
    dsimp only
    rw [fromLeBytes_toLeBytes hlt, Reading.pure_eq]

theorem take_append {head rest : List UInt8} {len : ℕ} (h : head.length = len) :
    Index.take (head ++ rest) len = .read (head, rest) := take_eq_read.2 ⟨rfl, h⟩

theorem takeNumber_append {width value : ℕ} (h : value < 256 ^ width) (rest : List UInt8) :
    Index.takeNumber width (toLeBytes width value ++ rest) = .read (value, rest) :=
  takeNumber_eq_read.2 ⟨h, rfl⟩

/-- The bytes of an encoding. -/
def layout (root : List Char) (secs : ℕ) (flag : UInt8) (count : ℕ) (records : List UInt8)
    (names : List Char) : List UInt8 :=
  toLeBytes 4 (size root) ++ bytes root ++ toLeBytes 8 secs ++ [flag] ++ toLeBytes 4 count ++
    toLeBytes 4 (size names) ++ records ++ bytes names

theorem u32Bytes_eq_some {value : ℕ} {result : List UInt8} :
    Index.u32Bytes value = some result ↔ value < 2 ^ 32 ∧ toLeBytes 4 value = result := by
  unfold Index.u32Bytes
  rw [Option.ite_none_right_eq_some, Option.some.injEq]

theorem encode_eq_some {index : Index} {result : List UInt8} :
    index.encode = some result ↔
      ∃ root secs, fromUtf8 index.root = some root ∧ index.built.sinceEpoch = some secs ∧
        size root < 2 ^ 32 ∧ index.nodes.length < 2 ^ 32 ∧ size index.names < 2 ^ 32 ∧
        layout root secs (if index.complete then 1 else 0) index.nodes.length
          (index.nodes.flatMap Node.record) index.names = result := by
  unfold Index.encode layout
  simp only [Option.bind_eq_bind, Option.bind_eq_some_iff, u32Bytes_eq_some, Option.some.injEq]
  constructor
  · rintro ⟨root, hroot, secs, hsecs, _, ⟨hrootLen, rfl⟩, _, ⟨hcount, rfl⟩, _, ⟨hnames, rfl⟩, rfl⟩
    exact ⟨root, secs, hroot, hsecs, hrootLen, hcount, hnames, rfl⟩
  · rintro ⟨root, secs, hroot, hsecs, hrootLen, hcount, hnames, rfl⟩
    exact ⟨root, hroot, secs, hsecs, _, ⟨hrootLen, rfl⟩, _, ⟨hcount, rfl⟩, _, ⟨hnames, rfl⟩, rfl⟩

theorem layout_append (root : List Char) (secs : ℕ) (flag : UInt8) (count : ℕ) (records : List UInt8)
    (names : List Char) (rest : List UInt8) :
    layout root secs flag count records names ++ rest =
      toLeBytes 4 (size root) ++ (bytes root ++ (toLeBytes 8 secs ++ ([flag] ++ (toLeBytes 4 count ++
        (toLeBytes 4 (size names) ++ (records ++ (bytes names ++ rest))))))) := by
  unfold layout
  simp only [List.append_assoc]

theorem lt_u32 {value : ℕ} : value < 256 ^ 4 ↔ value < 2 ^ 32 := by norm_num

theorem lt_u64 {value : ℕ} : value < 256 ^ 8 ↔ value < 2 ^ 64 := by norm_num

/-- The records, the names and the entries that they are read as. -/
theorem decodeBody_eq_read (root : List UInt8) (now : SystemTime) {names : List Char}
    {records : List UInt8} {count : ℕ} {builder : Builder} (hcount : count < 2 ^ 32)
    (hrecords : records.length = count * 4) :
    Index.decodeRecords platform names (.new root count now, 0) (Index.chunks records) =
        .read (builder, size names) ↔
      ∃ entries tree, entries.length = count ∧ records = entries.flatMap Entry.record ∧
        names = entries.flatMap Entry.name ∧ Grown platform entries tree ∧
        (Builder.new root count now).withTree tree = builder := by
  rw [decodeRecords_eq_read (length_of_mem_chunks records) rfl (boundary_zero names)]
  obtain ⟨hflatten, hlength⟩ := flatten_chunks hrecords
  have hcap : (Builder.new root count now).cap = count := by
    unfold Builder.new noParent
    exact min_eq_left (by omega)
  constructor
  · rintro ⟨entries, tree, hentries, -, hgrown, hbuilder, hslice⟩
    refine ⟨entries, tree, ?_, ?_, ?_, hgrown, hbuilder⟩
    · rw [← hlength, hentries, List.length_map]
    · rw [← hflatten, hentries]
      rfl
    · obtain ⟨p, q, heq, hp, hsize⟩ := strSlice_eq_some hslice
      obtain rfl := size_eq_zero.1 hp
      rw [heq] at hsize
      have hq : size q = 0 := by
        simp only [size_append] at hsize
        omega
      obtain rfl := size_eq_zero.1 hq
      simpa using heq
  · rintro ⟨entries, tree, hentries, hbytes, hnames, hgrown, hbuilder⟩
    refine ⟨entries, tree, ?_, .inr ?_, hgrown, hbuilder, ?_⟩
    · have hfits : ∀ chunk ∈ entries.map Entry.record, chunk.length = 4 := by
        intro chunk hchunk
        obtain ⟨entry, -, rfl⟩ := List.mem_map.1 hchunk
        rfl
      rw [hbytes, List.flatMap_def, chunks_flatten hfits]
    · rw [hcap, hentries]
      show 0 + count ≤ count
      omega
    · rw [← hnames]
      exact strSlice_eq_some_iff.2 ⟨[], [], by simp, rfl, by simp⟩

theorem decode_eq_read {now : SystemTime} {input rest : List UInt8} {index : Index} :
    Index.decode platform now input = .read (index, rest) ↔
      ∃ root secs built flag entries tree names, size root < 2 ^ 32 ∧ secs < 2 ^ 64 ∧
        SystemTime.fromSecs secs = some built ∧ entries.length < 2 ^ 32 ∧ size names < 2 ^ 32 ∧
        names = entries.flatMap Entry.name ∧ Grown platform entries tree ∧
        input = layout root secs flag entries.length (entries.flatMap Entry.record) names ++ rest ∧
        index = ⟨bytes root, tree.names, tree.nodes, built, decide (flag ≠ 0)⟩ := by
  unfold Index.decode Index.takeU32 Index.takeU64
  constructor
  · intro h
    obtain ⟨⟨rootLen, input₁⟩, hrootLen, h⟩ := Reading.bind_eq_read.1 h
    obtain ⟨⟨rootBytes, input₂⟩, hrootBytes, h⟩ := Reading.bind_eq_read.1 h
    obtain ⟨root, hroot, h⟩ := Reading.bind_eq_read.1 h
    obtain ⟨⟨secs, input₃⟩, hsecs, h⟩ := Reading.bind_eq_read.1 h
    obtain ⟨built, hbuilt, h⟩ := Reading.bind_eq_read.1 h
    obtain ⟨⟨flags, input₄⟩, hflags, h⟩ := Reading.bind_eq_read.1 h
    obtain ⟨flag, hflag, h⟩ := Reading.bind_eq_read.1 h
    obtain ⟨⟨count, input₅⟩, hcount, h⟩ := Reading.bind_eq_read.1 h
    obtain ⟨⟨namesLen, input₆⟩, hnamesLen, h⟩ := Reading.bind_eq_read.1 h
    obtain ⟨⟨records, input₇⟩, hrecords, h⟩ := Reading.bind_eq_read.1 h
    obtain ⟨⟨namesBytes, input₈⟩, hnamesBytes, h⟩ := Reading.bind_eq_read.1 h
    obtain ⟨names, hnames, h⟩ := Reading.bind_eq_read.1 h
    obtain ⟨⟨builder, offset⟩, hbuilder, h⟩ := Reading.bind_eq_read.1 h
    obtain ⟨_, hoffset, h⟩ := Reading.bind_eq_read.1 h
    dsimp only at *
    rw [takeNumber_eq_read, lt_u32] at hrootLen hcount hnamesLen
    rw [takeNumber_eq_read, lt_u64] at hsecs
    rw [take_eq_read] at hrootBytes hflags hrecords hnamesBytes
    rw [Reading.ofOption_eq_read] at hroot hbuilt hnames
    rw [Reading.require_eq_read, decide_eq_true_eq] at hoffset
    obtain ⟨hrootLen, rfl⟩ := hrootLen
    obtain ⟨rfl, hrootSize⟩ := hrootBytes
    obtain ⟨hsecs, rfl⟩ := hsecs
    obtain ⟨rfl, hflagLen⟩ := hflags
    obtain ⟨hcount, rfl⟩ := hcount
    obtain ⟨hnamesLen, rfl⟩ := hnamesLen
    obtain ⟨rfl, hrecordsLen⟩ := hrecords
    obtain ⟨rfl, hnamesSize⟩ := hnamesBytes
    obtain rfl := bytes_of_fromUtf8 hroot
    obtain rfl := bytes_of_fromUtf8 hnames
    obtain rfl : size root = rootLen := hrootSize
    obtain rfl : size names = namesLen := hnamesSize
    obtain rfl : flags = [flag] := by
      obtain ⟨other, rfl⟩ := List.length_eq_one_iff.1 hflagLen
      rw [Reading.index_eq_read] at hflag
      rw [Option.some.inj hflag]
    rw [hoffset, decodeBody_eq_read _ _ hcount hrecordsLen] at hbuilder
    obtain ⟨entries, tree, rfl, rfl, hentries, hgrown, rfl⟩ := hbuilder
    rw [Reading.pure_eq, Reading.read.injEq, Prod.mk.injEq] at h
    obtain ⟨rfl, rfl⟩ := h
    refine ⟨root, secs, built, flag, entries, tree, names, hrootLen, hsecs, hbuilt, hcount, hnamesLen,
      hentries, hgrown, ?_, rfl⟩
    rw [layout_append]
  · rintro ⟨root, secs, built, flag, entries, tree, names, hroot, hsecs, hbuilt, hcount, hnames, hentries,
      hgrown, rfl, rfl⟩
    rw [layout_append]
    have hrecordsLen : (entries.flatMap Entry.record).length = entries.length * 4 := by
      rw [List.length_flatMap]
      have hmap : entries.map (fun entry => entry.record.length) = List.replicate entries.length 4 :=
        List.map_eq_replicate_iff.2 fun _ _ => rfl
      rw [hmap, List.sum_replicate, smul_eq_mul]
    have hbody := (decodeBody_eq_read (bytes root) now hcount hrecordsLen).2
      ⟨entries, tree, rfl, rfl, hentries, hgrown, rfl⟩
    have hrootRead (rest : List UInt8) : Index.take (bytes root ++ rest) (size root) = .read _ :=
      take_append rfl
    have hflagRead (rest : List UInt8) : Index.take ([flag] ++ rest) 1 = .read _ := take_append rfl
    have hrecordsRead (rest : List UInt8) :
        Index.take (entries.flatMap Entry.record ++ rest) (entries.length * recordLen) = .read _ :=
      take_append hrecordsLen
    have hnamesRead (rest : List UInt8) : Index.take (bytes names ++ rest) (size names) = .read _ :=
      take_append rfl
    have hindex : Reading.index [flag] 0 = .read flag := rfl
    simp only [takeNumber_append (lt_u32.2 hroot), takeNumber_append (lt_u64.2 hsecs),
      takeNumber_append (lt_u32.2 hcount), takeNumber_append (lt_u32.2 hnames), hrootRead, hflagRead,
      hrecordsRead, hnamesRead, hindex, fromUtf8_bytes, hbuilt, Reading.ofOption_some,
      Reading.read_bind, hbody]
    rfl

/-! ### Nothing panics -/

open Reading in
theorem take_safe (input : List UInt8) (len : ℕ) : Safe (Index.take input len) := by
  unfold Index.take splitAt
  split_ifs with hshort
  · exact safe_refused
  · exact safe_read _
  · omega

open Reading in
theorem takeNumber_safe (width : ℕ) (input : List UInt8) : Safe (Index.takeNumber width input) :=
  (take_safe input width).bind fun _ _ => safe_read _

open Reading in
theorem decodeRecord_safe (names : List Char) (state : Builder × ℕ) {record : List UInt8}
    (h : record.length = 4) : Safe (Index.decodeRecord platform names state record) := by
  refine (safe_index (by omega)).bind fun _ _ => ?_
  refine (safe_index (by omega)).bind fun _ _ => ?_
  refine (safe_index (by omega)).bind fun _ _ => ?_
  refine (safe_index (by omega)).bind fun _ _ => ?_
  refine (safe_ofOption _).bind fun _ _ => ?_
  exact (safe_require _).bind fun _ _ => safe_read _

open Reading in
theorem decodeRecords_safe (names : List Char) {records : List (List UInt8)}
    (h : ∀ record ∈ records, record.length = 4) (state : Builder × ℕ) :
    Safe (Index.decodeRecords platform names state records) := by
  induction records generalizing state with
  | nil => exact safe_read _
  | cons record records ih =>
    refine (decodeRecord_safe names state (h record List.mem_cons_self)).bind fun next _ => ?_
    exact ih (fun other hother => h other (List.mem_cons_of_mem record hother)) next

open Reading in
theorem decode_safe (now : SystemTime) (input : List UInt8) :
    Safe (Index.decode platform now input) := by
  refine (takeNumber_safe 4 input).bind fun rootLen _ => ?_
  refine (take_safe rootLen.2 rootLen.1).bind fun root _ => ?_
  refine (safe_ofOption _).bind fun _ _ => ?_
  refine (takeNumber_safe 8 root.2).bind fun secs _ => ?_
  refine (safe_ofOption _).bind fun _ _ => ?_
  refine (take_safe secs.2 1).bind fun flags hflags => ?_
  have hflag : flags.1.length = 1 := (take_eq_read.1 hflags).2
  refine (safe_index (by omega)).bind fun _ _ => ?_
  refine (takeNumber_safe 4 flags.2).bind fun count _ => ?_
  refine (takeNumber_safe 4 count.2).bind fun namesLen _ => ?_
  refine (take_safe namesLen.2 (count.1 * recordLen)).bind fun records _ => ?_
  refine (take_safe records.2 namesLen.1).bind fun _ _ => ?_
  refine (safe_ofOption _).bind fun names _ => ?_
  refine (decodeRecords_safe names (length_of_mem_chunks records.1) _).bind fun _ _ => ?_
  exact (safe_require _).bind fun _ _ => safe_read _

/-! ### Round trips -/

/-- The time without its nanoseconds. -/
def SystemTime.wholeSecs (time : SystemTime) : SystemTime := { time with nanos := 0 }

theorem fromSecs_sinceEpoch {time : SystemTime} {secs : ℕ} (h : time.sinceEpoch = some secs) :
    SystemTime.fromSecs secs = some time.wholeSecs ∧ secs < 2 ^ 63 := by
  unfold SystemTime.sinceEpoch at h
  split_ifs at h with hepoch
  obtain rfl := Option.some.inj h
  have hlt : time.secs.toNat < 2 ^ 63 := by
    have hupper := time.upper
    omega
  refine ⟨?_, hlt⟩
  unfold SystemTime.fromSecs SystemTime.wholeSecs
  rw [dif_pos hlt, Option.some.injEq, SystemTime.mk.injEq]
  exact ⟨Int.toNat_of_nonneg hepoch, rfl⟩

theorem sinceEpoch_fromSecs {time : SystemTime} {secs : ℕ} (h : SystemTime.fromSecs secs = some time) :
    time.sinceEpoch = some secs := by
  unfold SystemTime.fromSecs at h
  split_ifs at h with hlt
  obtain rfl := Option.some.inj h
  exact if_pos (Int.natCast_nonneg secs)

theorem encode_isSome (index : Index) :
    (∃ encoded, index.encode = some encoded) ↔
      ∃ text, bytes text = index.root ∧ 0 ≤ index.built.secs ∧ index.root.length < 2 ^ 32 ∧
        index.nodes.length < 2 ^ 32 ∧ size index.names < 2 ^ 32 := by
  constructor
  · rintro ⟨encoded, hencoded⟩
    obtain ⟨text, secs, hroot, hsecs, hrootLen, hcount, hnames, -⟩ := encode_eq_some.1 hencoded
    have htext := bytes_of_fromUtf8 hroot
    refine ⟨text, htext, ?_, ?_, hcount, hnames⟩
    · unfold SystemTime.sinceEpoch at hsecs
      split_ifs at hsecs with hepoch
      exact hepoch
    · rw [← htext]
      exact hrootLen
  · rintro ⟨text, htext, hepoch, hrootLen, hcount, hnames⟩
    have hroot : fromUtf8 index.root = some text := by rw [← htext, fromUtf8_bytes]
    have hsize : size text < 2 ^ 32 := by
      rw [← htext] at hrootLen
      exact hrootLen
    exact ⟨_, encode_eq_some.2 ⟨text, index.built.secs.toNat, hroot, if_pos hepoch, hsize, hcount, hnames,
      rfl⟩⟩

/-- What was grown from entries is decoded from its encoding. -/
theorem decode_encode {index : Index} {entries : List Entry} {tree : Tree}
    (hgrown : Grown platform entries tree) (hnodes : tree.nodes = index.nodes)
    (hnames : tree.names = index.names) {encoded : List UInt8} (h : index.encode = some encoded)
    (now : SystemTime) (rest : List UInt8) :
    Index.decode platform now (encoded ++ rest) =
      .read ({ index with built := index.built.wholeSecs }, rest) := by
  obtain ⟨text, secs, hroot, hsecs, hrootLen, hcount, hnamesLen, rfl⟩ := encode_eq_some.1 h
  obtain ⟨htreeNames, htreeRecords, htreeLength, -⟩ := grown_spec hgrown
  have htext := bytes_of_fromUtf8 hroot
  obtain ⟨hbuilt, hlt⟩ := fromSecs_sinceEpoch hsecs
  have hlength : entries.length = index.nodes.length := by
    rw [← hnodes, htreeLength]
    exact (Nat.zero_add _).symm
  have hrecords : entries.flatMap Entry.record = index.nodes.flatMap Node.record := by
    rw [← hnodes, htreeRecords]
    rfl
  have hentries : index.names = entries.flatMap Entry.name := by
    rw [← hnames, htreeNames]
    rfl
  refine decode_eq_read.2 ⟨text, secs, _, if index.complete then 1 else 0, entries, tree, index.names,
    hrootLen, by omega, hbuilt, by omega, hnamesLen, hentries, hgrown, ?_, ?_⟩
  · rw [hlength, hrecords]
  · rw [htext, hnames, hnodes]
    cases index.complete <;> rfl

/-- What is decoded is the encoding of an index, but for the byte that tells whether it is complete. -/
theorem encode_decode {now : SystemTime} {input rest : List UInt8} {index : Index}
    (h : Index.decode platform now input = .read (index, rest)) :
    ∃ before flag after, index.encode = some (before ++ [if index.complete then 1 else 0] ++ after) ∧
      input = before ++ [flag] ++ after ++ rest ∧ (index.complete = true ↔ flag ≠ 0) := by
  obtain ⟨root, secs, built, flag, entries, tree, names, hroot, hsecs, hbuilt, hcount, hnames, hentries,
    hgrown, rfl, rfl⟩ := decode_eq_read.1 h
  obtain ⟨htreeNames, htreeRecords, htreeLength, -⟩ := grown_spec hgrown
  have hlength : tree.nodes.length = entries.length := by
    rw [htreeLength]
    exact Nat.zero_add _
  have hrecords : tree.nodes.flatMap Node.record = entries.flatMap Entry.record := by
    rw [htreeRecords]
    rfl
  have htree : tree.names = names := by
    rw [htreeNames, hentries]
    rfl
  refine ⟨toLeBytes 4 (size root) ++ bytes root ++ toLeBytes 8 secs, flag,
    toLeBytes 4 entries.length ++ toLeBytes 4 (size names) ++ entries.flatMap Entry.record ++ bytes names,
    ?_, ?_, decide_eq_true_iff⟩
  · refine encode_eq_some.2 ⟨root, secs, fromUtf8_bytes root, sinceEpoch_fromSecs hbuilt, hroot, ?_, ?_, ?_⟩
    · rwa [← hlength] at hcount
    · rwa [← htree] at hnames
    · dsimp only
      rw [hlength, hrecords, htree]
      unfold layout
      simp only [List.append_assoc]
  · unfold layout
    simp only [List.append_assoc]

/-- An index that was built by any calls is encoded, exactly if its root is UTF-8, it was built at or after the
epoch and its parts are within `u32`; what is encoded is decoded to the same index, with the time in whole
seconds, and leaves what follows it. What is decoded is an encoding, but for a `complete` byte other than one
and zero. And decoding never panics. -/
theorem index_codec (platform : Platform) :
    (∀ (root : List UInt8) (cap : ℕ) (now built : SystemTime) (calls : List Builder.Call) (index : Index),
      ((Builder.new root cap now).run platform calls).finish built = index →
        ((∃ encoded, index.encode = some encoded) ↔
          ∃ text, bytes text = root ∧ 0 ≤ built.secs ∧ root.length < 2 ^ 32 ∧
            index.nodes.length < 2 ^ 32 ∧ size index.names < 2 ^ 32) ∧
        ∀ encoded, index.encode = some encoded → ∀ (later : SystemTime) (rest : List UInt8),
          Index.decode platform later (encoded ++ rest) =
            .read ({ index with built := index.built.wholeSecs }, rest)) ∧
    (∀ (now : SystemTime) (input rest : List UInt8) (index : Index),
      Index.decode platform now input = .read (index, rest) →
        ∃ before flag after, index.encode = some (before ++ [if index.complete then 1 else 0] ++ after) ∧
          input = before ++ [flag] ++ after ++ rest ∧ (index.complete = true ↔ flag ≠ 0)) ∧
    ∀ (now : SystemTime) (input : List UInt8), Index.decode platform now input ≠ .panicked := by
  refine ⟨?_, ?_, fun now input => decode_safe now input⟩
  · rintro root cap now built calls index rfl
    have hroot : ((Builder.new root cap now).run platform calls).index.root = root := run_root ..
    obtain ⟨entries, tree, hgrown, hnodes, hnames, -⟩ := run_kept calls (new_kept root cap now)
    have hroot' : (((Builder.new root cap now).run platform calls).finish built).root = root := hroot
    have hnodes' : tree.nodes = (((Builder.new root cap now).run platform calls).finish built).nodes :=
      hnodes
    have hnames' : tree.names = (((Builder.new root cap now).run platform calls).finish built).names :=
      hnames
    refine ⟨?_, ?_⟩
    · rw [encode_isSome, hroot']
      rfl
    · intro encoded hencoded later rest
      exact decode_encode hgrown hnodes' hnames' hencoded later rest
  · intro now input rest index hdecode
    exact encode_decode hdecode

/-- A platform with the separator `/`, that leaves other letters than the ASCII ones as they are. -/
def unixPlatform : Platform :=
  ⟨fun ch => ch = '/', '/', id, Char.isAlphanum, Char.isLower, Char.isUpper⟩

def epoch : SystemTime := ⟨0, 0, by decide, by decide⟩

/-- A folder with a file, and a file that is skipped. -/
def sampleIndex : Index :=
  ((Builder.new [0x72] 8 epoch).run unixPlatform
    [⟨1, some ['a'], true, false⟩, ⟨2, some ['b'], false, false⟩, ⟨4, some ['c'], false, true⟩]).finish epoch

theorem index_codec_sample :
    ∃ encoded, sampleIndex.encode = some encoded ∧
      Index.decode unixPlatform epoch (encoded ++ [7]) =
        .read ({ sampleIndex with built := sampleIndex.built.wholeSecs }, [7]) := by
  obtain ⟨hiff, hdecode⟩ := (index_codec unixPlatform).1 [0x72] 8 epoch epoch
    [⟨1, some ['a'], true, false⟩, ⟨2, some ['b'], false, false⟩, ⟨4, some ['c'], false, true⟩]
    sampleIndex rfl
  obtain ⟨encoded, hencoded⟩ := hiff.2 ⟨['r'], by decide, by decide, by decide,
    by decide, by decide⟩
  exact ⟨encoded, hencoded, hdecode encoded hencoded epoch [7]⟩

end Paneflow.PathPicker
