import Paneflow.Checked
import Paneflow.TopK
import Paneflow.PathPicker.Paths
import Paneflow.PathPicker.Search

/-!
# A scan and its reference

`scan_reference`: whatever the chunks are that each worker gets, a scan finds the hits of `reference`. A node has the
hit of its path, though the path is only written when the mask, the name and the folders do not decide before; what a
worker forgets has enough better hits; and the chunks have the nodes that are not skipped, once each.
-/

namespace Paneflow.PathPicker

open Paneflow.Utf8

variable {platform : Platform}

/-! ### Chunks -/

theorem nodes_append {start middle stop : ℕ} (h : start ≤ middle) (h' : middle ≤ stop) :
    Range.nodes ⟨start, middle⟩ ++ Range.nodes ⟨middle, stop⟩ = Range.nodes ⟨start, stop⟩ := by
  unfold Range.nodes
  dsimp only
  have hmiddle : middle = start + 1 * (middle - start) := by omega
  have hsum : stop - start = (middle - start) + (stop - middle) := by omega
  rw [hsum, ← List.range'_append, ← hmiddle]

theorem nodes_of_le {start stop : ℕ} (h : stop ≤ start) : Range.nodes ⟨start, stop⟩ = [] := by
  unfold Range.nodes
  dsimp only
  rw [Nat.sub_eq_zero_of_le h]
  rfl

theorem contains_iff {range : Range} {node : ℕ} :
    range.contains node = true ↔ range.start ≤ node ∧ node < range.stop := by
  rw [Range.contains, Bool.and_eq_true, decide_eq_true_eq, decide_eq_true_eq]

theorem mem_nodes {start stop node : ℕ} : node ∈ Range.nodes ⟨start, stop⟩ ↔ start ≤ node ∧ node < stop := by
  unfold Range.nodes
  dsimp only
  rw [List.mem_range'_1]
  omega

theorem nodes_cut (start stop : ℕ) : (cut start stop).flatMap Range.nodes = Range.nodes ⟨start, stop⟩ := by
  induction hleft : stop - start using Nat.strong_induction_on generalizing start with
  | _ left ih =>
    unfold cut
    split_ifs with hlt
    · have hchunk : 0 < chunk := by decide
      rw [List.flatMap_cons, ih _ (by omega) _ rfl]
      exact nodes_append (by omega) (by omega)
    · rw [nodes_of_le (by omega)]
      rfl

/-- The nodes behind `start` that are in none of the ranges. -/
def unskipped (stop : ℕ) (skips : List Range) (start : ℕ) : List ℕ :=
  (Range.nodes ⟨start, stop⟩).filter fun node => !skips.any fun skip => skip.contains node

/-- The first range is skipped, whose nodes stand in front of those of the others. -/
theorem unskipped_cons {stop start : ℕ} {skip : Range} {skips : List Range} (hskip : skip.start ≤ skip.stop)
    (hsorted : ∀ other ∈ skips, skip.start ≤ other.start) :
    unskipped stop (skip :: skips) start =
      (if skip.start > start then Range.nodes ⟨start, min skip.start stop⟩ else []) ++
        unskipped stop skips (max start skip.stop) := by
  -- the nodes in front of the first range are in none
  have hfront : ∀ middle ≤ skip.start, (Range.nodes ⟨start, middle⟩).filter
      (fun node => !(skip :: skips).any fun skip => skip.contains node) = Range.nodes ⟨start, middle⟩ := by
    intro middle hmiddle
    rw [List.filter_eq_self]
    intro node hnode
    have hlt := mem_nodes.1 hnode
    rw [Bool.not_eq_true', List.any_eq_false]
    intro other hother
    have hle : skip.start ≤ other.start := by
      rcases List.mem_cons.1 hother with rfl | hother
      · exact le_rfl
      · exact hsorted other hother
    rw [contains_iff]
    omega
  -- those behind its end are in it no more
  have hback : ∀ middle, skip.stop ≤ middle → (Range.nodes ⟨middle, stop⟩).filter
      (fun node => !(skip :: skips).any fun skip => skip.contains node) = unskipped stop skips middle := by
    intro middle hmiddle
    refine List.filter_congr fun node hnode => ?_
    have hge := mem_nodes.1 hnode
    have hout : skip.contains node = false := by
      rw [← Bool.not_eq_true, contains_iff]
      omega
    rw [List.any_cons, hout, Bool.false_or]
  -- and those between are in it
  have hinside : ∀ first last, skip.start ≤ first → last ≤ skip.stop → (Range.nodes ⟨first, last⟩).filter
      (fun node => !(skip :: skips).any fun skip => skip.contains node) = [] := by
    intro first last hfirst hlast
    rw [List.filter_eq_nil_iff]
    intro node hnode
    have hin := mem_nodes.1 hnode
    have hcontains : skip.contains node = true := by
      rw [contains_iff]
      omega
    rw [List.any_cons, hcontains, Bool.true_or]
    exact Bool.false_ne_true
  have hend : ∀ middle, stop ≤ middle → unskipped stop skips middle = [] := by
    intro middle hmiddle
    unfold unskipped
    rw [nodes_of_le hmiddle]
    rfl
  -- from a place inside the range on, only what is behind its end is left
  have hfrom : ∀ first, skip.start ≤ first → first ≤ skip.stop → (Range.nodes ⟨first, stop⟩).filter
      (fun node => !(skip :: skips).any fun skip => skip.contains node) = unskipped stop skips skip.stop := by
    intro first hfirst hlast
    by_cases hstop : skip.stop ≤ stop
    · rw [← nodes_append hlast hstop, List.filter_append, hinside first skip.stop hfirst le_rfl,
        hback skip.stop le_rfl, List.nil_append]
    · rw [hend skip.stop (by omega)]
      exact hinside first stop hfirst (by omega)
  show (Range.nodes ⟨start, stop⟩).filter _ = _
  by_cases hbefore : skip.start > start
  · rw [if_pos hbefore, Nat.max_eq_right (by omega)]
    by_cases hstop : skip.start ≤ stop
    · rw [Nat.min_eq_left hstop, ← nodes_append hbefore.le hstop, List.filter_append, hfront _ le_rfl,
        hfrom skip.start le_rfl hskip]
    · rw [Nat.min_eq_right (by omega), hfront stop (by omega), hend skip.stop (by omega), List.append_nil]
  · rw [if_neg hbefore, List.nil_append]
    by_cases hstop : skip.stop ≤ start
    · rw [Nat.max_eq_left hstop]
      exact hback start hstop
    · rw [Nat.max_eq_right (by omega)]
      exact hfrom start (by omega) (by omega)

theorem nodes_pieces {stop : ℕ} {skips : List Range} (hskips : ∀ skip ∈ skips, skip.start ≤ skip.stop)
    (hsorted : skips.Pairwise fun a b => a.start ≤ b.start) (start : ℕ) :
    (pieces stop skips start).flatMap Range.nodes = unskipped stop skips start := by
  induction skips generalizing start with
  | nil =>
    unfold pieces unskipped
    have hall : (Range.nodes ⟨start, stop⟩).filter
        (fun node => !([] : List Range).any fun skip => skip.contains node) = Range.nodes ⟨start, stop⟩ :=
      List.filter_eq_self.2 fun _ _ => rfl
    rw [hall]
    split_ifs with hlt
    · exact List.append_nil _
    · rw [nodes_of_le (by omega)]
      rfl
  | cons skip skips ih =>
    obtain ⟨hfirst, hrest⟩ := List.pairwise_cons.1 hsorted
    unfold pieces
    rw [List.flatMap_append, ih (fun skip hskip => hskips skip (List.mem_cons_of_mem _ hskip)) hrest,
      unskipped_cons (hskips skip List.mem_cons_self) hfirst]
    split_ifs
    · rw [List.flatMap_singleton]
    · rfl

/-- The chunks of a source have the nodes that are not skipped, once each and in their order. -/
theorem nodes_chunks {source : Source} (hskips : ∀ skip ∈ source.skip, skip.start ≤ skip.stop) :
    source.chunks.flatMap Range.nodes =
      source.range.nodes.filter fun node => !source.skip.any fun skip => skip.contains node := by
  have hperm := List.perm_insertionSort (fun a b : Range => a.start ≤ b.start) source.skip
  have htotal : Std.Total fun a b : Range => a.start ≤ b.start := ⟨fun a b => Nat.le_total a.start b.start⟩
  have htrans : IsTrans Range fun a b => a.start ≤ b.start := ⟨fun a b c => Nat.le_trans⟩
  have hsorted := List.pairwise_insertionSort (fun a b : Range => a.start ≤ b.start) source.skip
  unfold Source.chunks
  rw [List.flatMap_assoc]
  simp only [nodes_cut]
  rw [nodes_pieces (fun skip hskip => hskips skip (hperm.subset hskip)) hsorted]
  refine List.filter_congr fun node _ => ?_
  rw [hperm.any_eq]

/-! ### Hits -/

theorem rank_transCmp : Std.TransCmp Hit.rank := by
  have horiented : Std.OrientedCmp fun a b : Hit => compare b.score a.score :=
    ⟨fun {a b} => Std.OrientedCmp.eq_swap (a := b.score) (b := a.score)⟩
  have hscore : Std.TransCmp fun a b : Hit => compare b.score a.score :=
    ⟨fun {a b c} hab hbc => Std.TransOrd.isLE_trans (a := c.score) (b := b.score) hbc hab⟩
  unfold Hit.rank
  infer_instance

theorem before_trans (a b c : Hit) (hab : a.before b) (hbc : b.before c) : a.before c :=
  have := rank_transCmp
  Std.TransCmp.isLE_trans hab hbc

theorem rank_swap (a b : Hit) : b.rank a = (a.rank b).swap :=
  have := rank_transCmp
  Std.OrientedCmp.eq_swap

theorem before_total (a b : Hit) : a.before b ∨ b.before a := by
  unfold Hit.before
  rw [rank_swap a b]
  cases a.rank b with
  | lt => exact .inl rfl
  | eq => exact .inl rfl
  | gt => exact .inr rfl

theorem before_of_score {a b : Hit} (h : b.score < a.score) : a.before b := by
  unfold Hit.before Hit.rank compareLex
  dsimp only
  rw [compare_lt_iff_lt.2 h]
  rfl

/-- Hits that are not ordered are of the same node. -/
theorem same_of_before {a b : Hit} (hab : a.before b) (hba : b.before a) :
    a.source = b.source ∧ a.node = b.node := by
  have heq : a.rank b = .eq := by
    unfold Hit.before at hab hba
    rw [rank_swap a b] at hba
    cases hrank : a.rank b with
    | eq => rfl
    | lt =>
      rw [hrank] at hba
      cases hba
    | gt =>
      rw [hrank] at hab
      cases hab
  unfold Hit.rank at heq
  simp only [compareLex_eq_eq, compareOn, compare_eq_iff_eq] at heq
  exact ⟨heq.2.2.1, heq.2.2.2⟩

/-- What `select_nth_unstable_by` is documented to do. -/
def Selects (select : ℕ → List Hit → List Hit) : Prop :=
  ∀ n hits, n < hits.length → (select n hits).Perm hits ∧ TopK.Selected Hit.before n (select n hits)

section
variable {select : ℕ → List Hit → List Hit} (hselect : Selects select) {limit : ℕ}
include hselect

theorem keepBest_covers {seen hits : List Hit} (h : TopK.Covers Hit.before limit seen hits) :
    TopK.Covers Hit.before limit seen (keepBest select hits limit) := by
  unfold keepBest
  split_ifs with hlength
  · obtain ⟨hperm, hselected⟩ := hselect limit hits hlength
    exact h.select before_trans hperm hselected
  · exact h

theorem length_keepBest (limit : ℕ) (hits : List Hit) : (keepBest select hits limit).length = min limit hits.length := by
  unfold keepBest
  split_ifs with hlength
  · rw [List.length_take, (hselect limit hits hlength).1.length_eq]
  · omega

/-- What a worker holds of the hits it has seen: enough for the best, and a floor that so many are not below. -/
structure Held (limit : ℕ) (seen : List Hit) (hits : List Hit) (floor : ℤ) : Prop where
  covers : TopK.Covers Hit.before limit seen hits
  floor : floor = -2 ^ 31 ∨ limit ≤ hits.countP fun hit => floor ≤ hit.score

omit hselect in
theorem lowest_le (hits : List Hit) (hit : Hit) (h : hit ∈ hits) : lowest hits ≤ hit.score := by
  have hmem : hit.score ∈ hits.map Hit.score := List.mem_map_of_mem h
  unfold lowest
  rcases hmin : (hits.map Hit.score).min? with _ | low
  · rw [List.min?_eq_none_iff] at hmin
    rw [hmin] at hmem
    exact absurd hmem List.not_mem_nil
  · exact (List.min?_eq_some_iff.1 hmin).2 _ hmem

omit hselect in
theorem offer_folders (worker : Worker) (limit : ℕ) (hit : Hit) :
    (worker.offer select limit hit).foldersOf = worker.foldersOf ∧
      (worker.offer select limit hit).folders = worker.folders := by
  unfold Worker.offer
  split_ifs
  · exact ⟨rfl, rfl⟩
  · dsimp only
    split_ifs <;> exact ⟨rfl, rfl⟩

theorem offer_held {seen : List Hit} {worker : Worker} (h : Held limit seen worker.hits worker.floor) {hit : Hit}
    (hscore : -2 ^ 31 ≤ hit.score) :
    Held limit (seen ++ [hit]) (worker.offer select limit hit).hits (worker.offer select limit hit).floor := by
  have hfloor : worker.floor = -2 ^ 31 ∨
      limit ≤ (worker.hits ++ [hit]).countP fun hit => worker.floor ≤ hit.score := by
    rcases h.floor with hlow | hcount
    · exact .inl hlow
    · rw [List.countP_append]
      exact .inr (hcount.trans (Nat.le_add_right _ _))
  have hcovers : TopK.Covers Hit.before limit (seen ++ [hit]) (worker.hits ++ [hit]) := h.covers.append (.refl [hit])
  unfold Worker.offer
  by_cases hbelow : hit.score < worker.floor
  · rw [if_pos hbelow]
    -- there are so many hits above the floor
    rcases h.floor with hlow | hcount
    · omega
    · refine ⟨h.covers.skip (hcount.trans ?_), h.floor⟩
      refine List.countP_mono_left fun other _ hother => ?_
      rw [decide_eq_true_eq] at hother ⊢
      exact before_of_score (by omega)
  · rw [if_neg hbelow]
    dsimp only
    split_ifs with hmany hlimit
    · -- the best are kept, and the lowest of them is the floor
      refine ⟨keepBest_covers hselect hcovers, .inr ?_⟩
      dsimp only
      rw [List.countP_eq_length.2 fun other hother => decide_eq_true (lowest_le _ other hother)]
      exact hlimit.ge
    · refine ⟨keepBest_covers hselect hcovers, ?_⟩
      -- then there were fewer than the limit, and all are kept
      have hlength := length_keepBest hselect limit (worker.hits ++ [hit])
      have hfew : (worker.hits ++ [hit]).length ≤ limit := by omega
      have hsame : keepBest select (worker.hits ++ [hit]) limit = worker.hits ++ [hit] :=
        if_neg (Nat.not_lt.2 hfew)
      rw [hsame]
      exact hfloor
    · exact ⟨hcovers, hfloor⟩

end

/-! ### The score of a node -/

section
variable {index : Index} {stop i : ℕ} {chain : List ℕ} {path name : List Char}

theorem Written.charsFrom_path (hlawful : platform.Lawful) (h : Written platform index stop i chain path)
    (hname : index.name i = some name) : charsFrom path (nameStart platform path) = name := by
  obtain ⟨node, name', -, hname', hplain, hpath⟩ := h.inv
  obtain rfl := Option.some.inj (hname.symm.trans hname')
  rcases hpath with ⟨-, rfl⟩ | ⟨_, above, -, rfl⟩
  · exact charsFrom_nameStart_self hplain
  · exact charsFrom_nameStart hlawful hplain

theorem advance_under (hlawful : platform.Lawful) {pattern : Pattern}
    (hpattern : ∀ ch ∈ pattern.folded, platform.isSeparator ch = false) (above name : List Char) :
    advance platform (above ++ [platform.mainSeparator] ++ name) pattern 0 =
      advance platform name pattern (advance platform above pattern 0) := by
  rw [advance_append, advance_append, advance_separator hlawful hpattern]

end

/-- The folders that a worker remembers are those of its source, with what they match. -/
def Cached (platform : Platform) (sources : List Source) (pattern : Pattern) (foldersOf : ℕ)
    (folders : Fin folderSlots → ℕ × ℕ) : Prop :=
  ∀ source, sources[foldersOf]? = some source → ∀ slot, (folders slot).1 ≠ noParent →
    ∃ text, source.index.writePath platform (folders slot).1 source.start = some text ∧
      (folders slot).2 = advance platform text pattern 0

section
variable {sources : List Source} {pattern : Pattern} {nth : ℕ} {source : Source} {i : ℕ} {chain : List ℕ}
  {path name : List Char}

theorem cached_reset (foldersOf : ℕ) : Cached platform sources pattern foldersOf fun _ => (noParent, 0) :=
  fun _ _ _ hne => absurd rfl hne

theorem folderOf_stop {node : Node} (hnode : source.index.nodes[i]? = some node)
    (hend : node.parent = source.start.stop ∨ node.parent = noParent) : folderOf source i = some none := by
  unfold folderOf Index.parent
  rw [hnode]
  by_cases hno : node.parent = noParent
  · simp [hno]
  · have hstop := hend.resolve_right hno
    rcases hstart : source.start with _ | ancestor
    · rw [hstart] at hstop
      exact absurd hstop hno
    · rw [hstart] at hstop
      obtain rfl : node.parent = ancestor := hstop
      simp [hno, Located.ancestor]

theorem folderOf_under {node : Node} (hnode : source.index.nodes[i]? = some node)
    (hparent : node.parent ≠ source.start.stop ∧ node.parent ≠ noParent) :
    folderOf source i = some (some node.parent) := by
  unfold folderOf Index.parent
  rw [hnode]
  rcases hstart : source.start with _ | ancestor
  · simp [hparent.2, Located.ancestor]
  · have hne : node.parent ≠ ancestor := by
      rw [hstart] at hparent
      exact hparent.1
    simp [hparent.2, Located.ancestor, hne]

theorem foldersFor_spec (nth : ℕ) {worker : Worker}
    (hcached : Cached platform sources pattern worker.foldersOf worker.folders) :
    ∃ folders, worker.foldersFor nth = { worker with foldersOf := nth, folders := folders } ∧
      Cached platform sources pattern nth folders := by
  unfold Worker.foldersFor
  by_cases hother : worker.foldersOf = nth
  · rw [if_neg (not_not.2 hother)]
    subst hother
    exact ⟨worker.folders, rfl, hcached⟩
  · rw [if_pos hother]
    exact ⟨_, rfl, cached_reset nth⟩

theorem folderProgress_spec (hlawful : platform.Lawful)
    (hpattern : ∀ ch ∈ pattern.folded, platform.isSeparator ch = false) (hsource : sources[nth]? = some source)
    {worker : Worker} (hcached : Cached platform sources pattern worker.foldersOf worker.folders)
    (h : Written platform source.index source.start.stop i chain path) (hname : source.index.name i = some name) :
    ∃ above foldersOf folders,
      folderProgress platform worker nth source i pattern =
        some (above, { worker with foldersOf := foldersOf, folders := folders }) ∧
      Cached platform sources pattern foldersOf folders ∧
      advance platform name pattern above = advance platform path pattern 0 := by
  obtain ⟨node, name', hnode, hname', -, hpath⟩ := h.inv
  obtain rfl := Option.some.inj (hname.symm.trans hname')
  unfold folderProgress
  rcases hpath with ⟨hend, rfl⟩ | ⟨chain', above, habove, rfl⟩
  · rw [folderOf_stop hnode hend]
    exact ⟨0, worker.foldersOf, worker.folders, rfl, hcached, rfl⟩
  · rw [folderOf_under hnode habove.ne]
    obtain ⟨folders, hfolders, hcached'⟩ := foldersFor_spec nth hcached
    dsimp only [Option.bind_eq_bind, Option.bind_some]
    rw [hfolders, habove.writePath]
    dsimp only
    by_cases hknown : (folders (folderSlot node.parent)).1 = node.parent
    · -- the folder is remembered
      rw [if_pos hknown]
      refine ⟨_, nth, folders, rfl, hcached', ?_⟩
      obtain ⟨text, htext, hmatched⟩ :=
        hcached' source hsource (folderSlot node.parent) (hknown.symm ▸ habove.ne.2)
      rw [hknown, habove.writePath] at htext
      obtain rfl := Option.some.inj htext
      rw [hmatched, advance_under hlawful hpattern]
    · rw [if_neg hknown]
      refine ⟨_, nth, Function.update folders (folderSlot node.parent) (node.parent, advance platform above pattern 0),
        rfl, ?_, (advance_under hlawful hpattern above name).symm⟩
      intro source' hsource' slot hne
      obtain rfl := Option.some.inj (hsource.symm.trans hsource')
      by_cases hslot : slot = folderSlot node.parent
      · subst hslot
        rw [Function.update_self]
        exact ⟨above, habove.writePath, rfl⟩
      · rw [Function.update_of_ne hslot] at hne ⊢
        exact hcached' source hsource slot hne

theorem scorePath_eq_none (h : isComplete pattern (advance platform path pattern 0) = false) :
    scorePath platform path pattern = none := by
  have hnone : ¬(align platform path pattern.folded).isSome = true := by
    rw [align_isSome, h]
    exact fun hand => Bool.false_ne_true hand.2
  unfold scorePath
  rw [Option.not_isSome_iff_eq_none.1 hnone]
  rfl

theorem nodeScore_spec (hlawful : platform.Lawful)
    (hpattern : ∀ ch ∈ pattern.folded, platform.isSeparator ch = false) (hnonempty : pattern.folded ≠ [])
    (hsource : sources[nth]? = some source) {worker : Worker}
    (hcached : Cached platform sources pattern worker.foldersOf worker.folders)
    (h : Written platform source.index source.start.stop i chain path) (hname : source.index.name i = some name) :
    ∃ foldersOf folders,
      nodeScore platform worker nth source i pattern =
        some ((matchPath platform path pattern).map fun found => (found.score, size path),
          { worker with foldersOf := foldersOf, folders := folders }) ∧
      Cached platform sources pattern foldersOf folders := by
  have hempty : ¬pattern.folded.isEmpty = true := by
    rw [List.isEmpty_iff]
    exact hnonempty
  unfold nodeScore matchPath
  rw [hname, if_neg hempty, h.charsFrom_path hlawful hname]
  dsimp only [Option.bind_eq_bind, Option.bind_some]
  rcases hscore : scoreName platform name pattern with _ | ⟨score, positions⟩
  · -- the name does not have the pattern
    obtain ⟨above, foldersOf, folders, hprogress, hcached', hadvance⟩ :=
      folderProgress_spec hlawful hpattern hsource hcached h hname
    refine ⟨foldersOf, folders, ?_, hcached'⟩
    dsimp only
    rw [hprogress]
    dsimp only [Option.bind_some]
    rw [hadvance, h.writePath]
    by_cases hcomplete : isComplete pattern (advance platform path pattern 0) = true
    · rw [hcomplete, Option.map_map]
      rfl
    · have hfalse : isComplete pattern (advance platform path pattern 0) = false := by simpa using hcomplete
      rw [hfalse, scorePath_eq_none hfalse]
      rfl
  · refine ⟨worker.foldersOf, worker.folders, ?_, hcached⟩
    dsimp only
    rw [h.pathLen hlawful]
    rfl

theorem isRecent_spec (h : Written platform source.index source.start.stop i chain path)
    (hname : source.index.name i = some name) :
    isRecent platform source i =
      some (source.recents.any fun target => target.name = name && target.relative = path) := by
  have hloop : ∀ (targets : List RecentTarget) (recent : Bool),
      targets.foldlM (fun recent target => some (recent || decide (path = target.relative))) recent =
      some (recent || targets.any fun target => target.relative = path) := by
    intro targets
    induction targets with
    | nil => exact fun recent => by rw [List.any_nil, Bool.or_false]; rfl
    | cons target targets ih =>
      intro recent
      rw [List.foldlM_cons]
      refine (ih _).trans ?_
      rw [List.any_cons, Bool.or_assoc, decide_eq_decide.2 (eq_comm (a := path))]
  unfold isRecent
  rw [hname, h.writePath]
  refine (hloop _ false).trans ?_
  rw [Bool.false_or, List.any_filter]

/-- The hit of a node by its path, unless it is skipped. -/
theorem referenceHit_spec (h : Written platform source.index source.start.stop i chain path)
    (hname : source.index.name i = some name) {node : Node} (hnode : source.index.nodes[i]? = some node) :
    referenceHit platform nth source pattern i =
      some (if source.skip.any (fun skip => skip.contains i) ||
          decide ((node.depth &&& (2 ^ 16 - 1 - dirFlag)) < source.minDepth) ||
          (!source.showHidden && decide (node.nameLen &&& hiddenFlag ≠ 0)) then none
        else (matchPath platform path pattern).map fun found => hitWith nth source i found.score (size path)
          (source.recents.any fun target => target.name = name && target.relative = path)) := by
  unfold referenceHit Index.depth Index.isHidden
  rw [hnode, hname, h.writePath]
  dsimp only [Option.bind_eq_bind, Option.bind_some, Option.map_some]
  split_ifs
  · rfl
  · rfl

/-- A path that the mask of its node excludes is not matched, nor is its name. -/
theorem matchPath_excluded (hlawful : platform.Lawful) {query : List Char} (hquery : query ≠ [])
    {index : Index} (hbuilt : Built platform index) {stop : ℕ} (h : Written platform index stop i chain path)
    (hname : index.name i = some name) {node : Node} (hnode : index.nodes[i]? = some node)
    (hexcluded : (Pattern.new platform query).excludedBy node.mask = true) :
    matchPath platform path (Pattern.new platform query) = none := by
  have hmask := hbuilt.mask_lt hnode
  have hpath := not_complete_of_excluded hmask hexcluded fun bit hbit => h.mask hlawful hnode hbit
  have hin : ∀ ch ∈ name, ch ∈ path := by
    obtain ⟨_, name', -, hname', -, hwhole⟩ := h.inv
    obtain rfl := Option.some.inj (hname.symm.trans hname')
    rcases hwhole with ⟨-, rfl⟩ | ⟨_, above, -, rfl⟩
    · exact fun ch hch => hch
    · exact fun ch hch => List.mem_append_right _ hch
  have hnamed : isComplete (Pattern.new platform query)
      (advance platform name (Pattern.new platform query) 0) = false := by
    refine not_complete_of_excluded hmask hexcluded fun bit hbit => h.mask hlawful hnode ?_
    obtain ⟨ch, hch, hchbit⟩ := (testBit_maskOf name bit).1 hbit
    exact (testBit_maskOf path bit).2 ⟨ch, hin ch hch, hchbit⟩
  have hnone : scoreName platform name (Pattern.new platform query) = none := by
    have halign : ¬(align platform name (Pattern.new platform query).folded).isSome = true := by
      rw [align_isSome, hnamed]
      exact fun hand => Bool.false_ne_true hand.2
    unfold scoreName
    rw [Option.not_isSome_iff_eq_none.1 halign]
    rfl
  have hempty : ¬(Pattern.new platform query).folded.isEmpty = true := by
    rw [List.isEmpty_iff]
    exact fun hnil => hquery (List.map_eq_nil_iff.1 hnil)
  unfold matchPath
  rw [if_neg hempty, h.charsFrom_path hlawful hname, hnone, scorePath_eq_none hpath]
  rfl

end

/-! ### Runs -/

/-- One node is above another. -/
inductive Ancestor (index : Index) : ℕ → ℕ → Prop
  | parent {i : ℕ} {node : Node} (hnode : index.nodes[i]? = some node) (hparent : node.parent ≠ noParent) :
      Ancestor index node.parent i
  | above {i ancestor : ℕ} {node : Node} (hnode : index.nodes[i]? = some node) (hparent : node.parent ≠ noParent)
      (h : Ancestor index ancestor node.parent) : Ancestor index ancestor i

theorem Ancestor.lt {index : Index} (hbuilt : Built platform index) {ancestor i : ℕ}
    (h : Ancestor index ancestor i) : ancestor < i := by
  have hstep : ∀ {i : ℕ} {node : Node}, index.nodes[i]? = some node → node.parent ≠ noParent → node.parent < i := by
    intro i node hnode hparent
    obtain ⟨name, hplaced⟩ := hbuilt.placed i node hnode
    rcases hplaced.parent with ⟨hroot, -⟩ | ⟨_, hlt, -, -⟩
    · exact absurd hroot hparent
    · exact hlt
  induction h with
  | parent hnode hparent => exact hstep hnode hparent
  | above hnode hparent h ih => exact ih.trans (hstep hnode hparent)

/-- A source over an index that was built by pushes, with a range of its nodes below the start of the paths, and ranges
to skip that do not end before they begin. -/
structure Searchable (platform : Platform) (source : Source) : Prop where
  built : ∃ root cap now built calls,
    source.index = ((Builder.new root cap now).run platform calls).finish built
  range : source.range.stop ≤ source.index.nodes.length
  skip : ∀ skip ∈ source.skip, skip.start ≤ skip.stop
  start : source.start = .root ∨
    ∃ ancestor, source.start = .node ancestor ∧ ∀ node ∈ source.range.nodes, Ancestor source.index ancestor node

/-- The node has a path. -/
theorem Searchable.written {source : Source} (h : Searchable platform source) {i : ℕ} (hi : i ∈ source.range.nodes) :
    Built platform source.index ∧ ∃ chain path, Written platform source.index source.start.stop i chain path := by
  have hbuilt : Built platform source.index := by
    obtain ⟨root, cap, now, built, calls, hindex⟩ := h.built
    rw [hindex]
    exact built_run root cap now built calls
  have hlt : i < source.index.nodes.length := by
    have hin := mem_nodes.1 hi
    exact hin.2.trans_le h.range
  refine ⟨hbuilt, hbuilt.written hlt ?_⟩
  rcases h.start with hstart | ⟨ancestor, hstart, habove⟩
  · rw [hstart]
    exact (hlt.trans_le hbuilt.length).ne
  · rw [hstart]
    exact ((habove i hi).lt hbuilt).ne'

/-- The hit of a node of a source. -/
def hitOf (platform : Platform) (sources : List Source) (pattern : Pattern) (nth node : ℕ) : Option Hit :=
  sources[nth]?.bind fun source => (referenceHit platform nth source pattern node).join

/-- A worker that has seen these hits. -/
structure Working (platform : Platform) (sources : List Source) (pattern : Pattern) (limit : ℕ) (seen : List Hit)
    (worker : Worker) : Prop where
  held : Held limit seen worker.hits worker.floor
  cached : Cached platform sources pattern worker.foldersOf worker.folders

section
variable {select : ℕ → List Hit → List Hit} {sources : List Source} {query : List Char} {limit : ℕ}

theorem scanNode_spec (hlawful : platform.Lawful) (hselect : Selects select)
    (hplain : ∀ ch ∈ query, platform.isSeparator ch = false) (hquery : query ≠ [])
    {nth i : ℕ} {source : Source} (hsource : sources[nth]? = some source) (hsearchable : Searchable platform source)
    (hi : i ∈ source.range.nodes) (hskip : source.skip.any (fun skip => skip.contains i) = false)
    (hscore : ∀ hit, hitOf platform sources (Pattern.new platform query) nth i = some hit → -2 ^ 31 ≤ hit.score)
    {seen : List Hit} {worker : Worker}
    (h : Working platform sources (Pattern.new platform query) limit seen worker) :
    ∃ worker', scanNode platform select nth source (Pattern.new platform query) limit worker i = some worker' ∧
      Working platform sources (Pattern.new platform query) limit
        (seen ++ (hitOf platform sources (Pattern.new platform query) nth i).toList) worker' := by
  obtain ⟨hbuilt, chain, path, hwritten⟩ := hsearchable.written hi
  obtain ⟨node, name, hnode, hname, -, -⟩ := hwritten.inv
  have hhit : hitOf platform sources (Pattern.new platform query) nth i =
      if decide ((node.depth &&& (2 ^ 16 - 1 - dirFlag)) < source.minDepth) ||
          (!source.showHidden && decide (node.nameLen &&& hiddenFlag ≠ 0)) then none
        else (matchPath platform path (Pattern.new platform query)).map fun found =>
          hitWith nth source i found.score (size path)
            (source.recents.any fun target => target.name = name && target.relative = path) := by
    unfold hitOf
    rw [hsource, Option.bind_some, referenceHit_spec hwritten hname hnode, hskip, Bool.false_or]
    rfl
  unfold scanNode Index.mask Index.depth Index.isHidden
  rw [hnode]
  dsimp only [Option.bind_eq_bind, Option.bind_some, Option.map_some]
  rw [Bool.or_assoc]
  generalize (decide ((node.depth &&& (2 ^ 16 - 1 - dirFlag)) < source.minDepth) ||
    (!source.showHidden && decide (node.nameLen &&& hiddenFlag ≠ 0))) = filtered at hhit ⊢
  by_cases hout : ((Pattern.new platform query).excludedBy node.mask || filtered) = true
  · -- there is no hit
    have hnone : hitOf platform sources (Pattern.new platform query) nth i = none := by
      rw [hhit]
      split_ifs with hfiltered
      · rfl
      · have hexcluded := (Bool.or_eq_true_iff.1 hout).resolve_right hfiltered
        rw [matchPath_excluded hlawful hquery hbuilt hwritten hname hnode hexcluded]
        rfl
    rw [if_pos hout, hnone]
    exact ⟨worker, rfl, by simpa using h⟩
  · rw [if_neg hout]
    rw [Bool.or_eq_true, not_or] at hout
    rw [if_neg hout.2] at hhit
    have hnonempty : (Pattern.new platform query).folded ≠ [] := fun hnil => hquery (List.map_eq_nil_iff.1 hnil)
    obtain ⟨foldersOf, folders, hscored, hcached⟩ := nodeScore_spec hlawful (Pattern.new_separators hlawful hplain)
      hnonempty hsource h.cached hwritten hname
    rw [hscored]
    rcases hfound : matchPath platform path (Pattern.new platform query) with _ | found
    · rw [hfound] at hhit
      rw [hhit]
      exact ⟨_, rfl, ⟨by simpa using h.held, hcached⟩⟩
    · rw [hfound] at hhit
      dsimp only [Option.bind_some, Option.map_some] at hhit ⊢
      rw [isRecent_spec hwritten hname, hhit]
      refine ⟨_, rfl, ?_, ?_⟩
      · refine offer_held hselect ?_ (hscore _ hhit)
        exact h.held
      · rw [(offer_folders _ _ _).1, (offer_folders _ _ _).2]
        exact hcached

theorem hitOf_eq_some {pattern : Pattern} {nth i : ℕ} {hit : Hit}
    (h : hitOf platform sources pattern nth i = some hit) :
    nth < sources.length ∧ hit.source = nth % 2 ^ 16 ∧ hit.node = i := by
  obtain ⟨source, hsource, hjoin⟩ := Option.bind_eq_some_iff.1 h
  refine ⟨(List.getElem?_eq_some_iff.1 hsource).1, ?_⟩
  have hreference := Option.join_eq_some_iff.1 hjoin
  unfold referenceHit at hreference
  obtain ⟨depth, -, hreference⟩ := Option.bind_eq_some_iff.1 hreference
  obtain ⟨hidden, -, hreference⟩ := Option.bind_eq_some_iff.1 hreference
  obtain ⟨name, -, hreference⟩ := Option.bind_eq_some_iff.1 hreference
  obtain ⟨path, -, hreference⟩ := Option.bind_eq_some_iff.1 hreference
  split_ifs at hreference
  · cases hreference
  · obtain ⟨found, -, hfound⟩ := Option.map_eq_some_iff.1 (Option.some.inj hreference)
    rw [← hfound]
    exact ⟨rfl, rfl⟩

theorem hitOf_skipped {pattern : Pattern} {nth i : ℕ} {source : Source} (hsource : sources[nth]? = some source)
    (hskip : source.skip.any (fun skip => skip.contains i) = true) :
    hitOf platform sources pattern nth i = none := by
  rw [Option.eq_none_iff_forall_ne_some]
  intro hit hhit
  unfold hitOf at hhit
  rw [hsource] at hhit
  have hreference := Option.join_eq_some_iff.1 hhit
  unfold referenceHit at hreference
  obtain ⟨depth, -, hreference⟩ := Option.bind_eq_some_iff.1 hreference
  obtain ⟨hidden, -, hreference⟩ := Option.bind_eq_some_iff.1 hreference
  obtain ⟨name, -, hreference⟩ := Option.bind_eq_some_iff.1 hreference
  obtain ⟨path, -, hreference⟩ := Option.bind_eq_some_iff.1 hreference
  rw [hskip] at hreference
  cases hreference

/-- The hits of a chunk. -/
def itemHits (platform : Platform) (sources : List Source) (pattern : Pattern) (item : ℕ × Range) : List Hit :=
  item.2.nodes.filterMap (hitOf platform sources pattern item.1)

/-- The hits of all nodes. -/
def allHits (platform : Platform) (sources : List Source) (pattern : Pattern) : List Hit :=
  sources.zipIdx.flatMap fun (source, nth) => source.range.nodes.filterMap (hitOf platform sources pattern nth)

section
variable (hsearchable : ∀ source ∈ sources, Searchable platform source)
include hsearchable

theorem mem_chunks {item : ℕ × Range} (h : item ∈ chunks sources) :
    ∃ source, sources[item.1]? = some source ∧ ∀ i ∈ item.2.nodes,
      i ∈ source.range.nodes ∧ source.skip.any (fun skip => skip.contains i) = false := by
  obtain ⟨⟨source, nth⟩, hmem, hitem⟩ := List.mem_flatMap.1 h
  obtain ⟨range, hrange, rfl⟩ := List.mem_map.1 hitem
  have hsource := List.mem_zipIdx_iff_getElem?.1 hmem
  refine ⟨source, hsource, fun i hi => ?_⟩
  have hnode : i ∈ source.chunks.flatMap Range.nodes := List.mem_flatMap.2 ⟨range, hrange, hi⟩
  rw [nodes_chunks (hsearchable source (List.mem_of_getElem? hsource)).skip, List.mem_filter] at hnode
  exact ⟨hnode.1, by simpa using hnode.2⟩

theorem hits_chunks (pattern : Pattern) :
    (chunks sources).flatMap (itemHits platform sources pattern) = allHits platform sources pattern := by
  unfold chunks allHits
  rw [List.flatMap_assoc]
  refine List.flatMap_congr fun entry hentry => ?_
  obtain ⟨source, nth⟩ := entry
  have hsource := List.mem_zipIdx_iff_getElem?.1 hentry
  dsimp only
  rw [List.flatMap_map]
  have hnodes := nodes_chunks (hsearchable source (List.mem_of_getElem? hsource)).skip
  calc (source.chunks.flatMap fun range => itemHits platform sources pattern (nth, range))
      = (source.chunks.flatMap Range.nodes).filterMap (hitOf platform sources pattern nth) := by
        rw [List.filterMap_flatMap]
        rfl
    _ = source.range.nodes.filterMap (hitOf platform sources pattern nth) := by
        rw [hnodes, List.filterMap_filter]
        refine List.filterMap_congr fun i _ => ?_
        split_ifs with hskip
        · rfl
        · exact (hitOf_skipped hsource (by simpa using hskip)).symm

theorem reference_spec (pattern : Pattern) (limit : ℕ) :
    reference platform sources pattern limit =
      some (((allHits platform sources pattern).insertionSort Hit.before).take limit) := by
  have hsource : ∀ entry ∈ sources.zipIdx, entry.1.range.nodes.mapM (referenceHit platform entry.2 entry.1 pattern) =
      some (entry.1.range.nodes.map (hitOf platform sources pattern entry.2)) := by
    rintro ⟨source, nth⟩ hentry
    have hsource := List.mem_zipIdx_iff_getElem?.1 hentry
    refine Checked.mapM_of_forall fun i hi => ?_
    obtain ⟨hbuilt, chain, path, hwritten⟩ := (hsearchable source (List.mem_of_getElem? hsource)).written hi
    obtain ⟨node, name, hnode, hname, -, -⟩ := hwritten.inv
    unfold hitOf
    dsimp only at hsource ⊢
    rw [hsource, Option.bind_some, referenceHit_spec hwritten hname hnode]
    rfl
  unfold reference
  rw [Checked.mapM_of_forall hsource]
  show some _ = some _
  congr 3
  rw [← List.flatMap_def]
  unfold List.reduceOption allHits
  rw [List.filterMap_flatMap]
  refine List.flatMap_congr fun entry _ => ?_
  rw [List.filterMap_map]
  rfl

section
variable (hlawful : platform.Lawful) (hselect : Selects select)
  (hplain : ∀ ch ∈ query, platform.isSeparator ch = false) (hquery : query ≠ [])
  (hscores : ∀ nth source i hit, sources[nth]? = some source → i ∈ source.range.nodes →
    hitOf platform sources (Pattern.new platform query) nth i = some hit → -2 ^ 31 ≤ hit.score)
include hlawful hselect hplain hquery hscores

omit hsearchable in
theorem scanNodes_spec {nth : ℕ} {source : Source} (hsource : sources[nth]? = some source)
    (hsearchable : Searchable platform source) {nodes : List ℕ}
    (hnodes : ∀ i ∈ nodes, i ∈ source.range.nodes ∧ source.skip.any (fun skip => skip.contains i) = false)
    {seen : List Hit} {worker : Worker}
    (h : Working platform sources (Pattern.new platform query) limit seen worker) :
    ∃ worker', nodes.foldlM (scanNode platform select nth source (Pattern.new platform query) limit) worker =
        some worker' ∧
      Working platform sources (Pattern.new platform query) limit
        (seen ++ nodes.filterMap (hitOf platform sources (Pattern.new platform query) nth)) worker' := by
  induction nodes generalizing seen worker with
  | nil => exact ⟨worker, rfl, by simpa using h⟩
  | cons i nodes ih =>
    obtain ⟨hi, hskip⟩ := hnodes i List.mem_cons_self
    obtain ⟨middle, hmiddle, hworking⟩ := scanNode_spec hlawful hselect hplain hquery hsource hsearchable hi hskip
      (fun hit => hscores nth source i hit hsource hi) h
    obtain ⟨last, hlast, hworking'⟩ := ih (fun j hj => hnodes j (List.mem_cons_of_mem _ hj)) hworking
    refine ⟨last, ?_, ?_⟩
    · rw [List.foldlM_cons, hmiddle]
      exact hlast
    · have hhits : (i :: nodes).filterMap (hitOf platform sources (Pattern.new platform query) nth) =
          (hitOf platform sources (Pattern.new platform query) nth i).toList ++
            nodes.filterMap (hitOf platform sources (Pattern.new platform query) nth) := by
        rw [List.filterMap_cons]
        cases hitOf platform sources (Pattern.new platform query) nth i <;> rfl
      rw [hhits, ← List.append_assoc]
      exact hworking'

/-- What a worker has seen after its items. -/
theorem scanItems_spec {items : List (ℕ × Range)} (hitems : ∀ item ∈ items, item ∈ chunks sources) {seen : List Hit}
    {worker : Worker} (h : Working platform sources (Pattern.new platform query) limit seen worker) :
    ∃ worker', items.foldlM (scanRange platform select sources (Pattern.new platform query) limit) worker =
        some worker' ∧
      Working platform sources (Pattern.new platform query) limit
        (seen ++ items.flatMap (itemHits platform sources (Pattern.new platform query))) worker' := by
  induction items generalizing seen worker with
  | nil => exact ⟨worker, rfl, by simpa using h⟩
  | cons item items ih =>
    obtain ⟨source, hsource, hnodes⟩ := mem_chunks hsearchable (hitems item List.mem_cons_self)
    obtain ⟨middle, hmiddle, hworking⟩ := scanNodes_spec hlawful hselect hplain hquery hscores hsource
      (hsearchable source (List.mem_of_getElem? hsource)) hnodes h
    obtain ⟨last, hlast, hworking'⟩ := ih (fun other hother => hitems other (List.mem_cons_of_mem _ hother)) hworking
    refine ⟨last, ?_, ?_⟩
    · have hrange : scanRange platform select sources (Pattern.new platform query) limit worker item =
          some middle := by
        unfold scanRange
        rw [hsource]
        exact hmiddle
      rw [List.foldlM_cons, hrange]
      exact hlast
    · rw [List.flatMap_cons, ← List.append_assoc]
      exact hworking'

theorem scanWorkers_spec (limit : ℕ) {parts : List (List (ℕ × Range))} (hparts : ∀ item ∈ parts.flatten, item ∈ chunks sources) :
    ∃ workers, parts.mapM (fun items =>
        items.foldlM (scanRange platform select sources (Pattern.new platform query) limit) Worker.new) =
        some workers ∧
      TopK.Covers Hit.before limit (parts.flatten.flatMap (itemHits platform sources (Pattern.new platform query)))
        (workers.flatMap Worker.hits) := by
  induction parts with
  | nil => exact ⟨[], rfl, .refl []⟩
  | cons items parts ih =>
    have hnew : Working platform sources (Pattern.new platform query) limit [] .new :=
      ⟨⟨.refl [], .inl rfl⟩, cached_reset _⟩
    obtain ⟨workers, hworkers, hcovers⟩ := ih fun item hitem => hparts item (List.mem_append_right _ hitem)
    obtain ⟨worker, hworker, hworking⟩ := scanItems_spec hsearchable hlawful hselect hplain hquery hscores
      (fun item hitem => hparts item (List.mem_append_left _ hitem)) hnew
    refine ⟨worker :: workers, ?_, ?_⟩
    · rw [List.mapM_cons, hworker, hworkers]
      rfl
    · rw [List.flatten_cons, List.flatMap_append, List.flatMap_cons]
      exact hworking.held.covers.append hcovers

end

end

end

/-- **A scan is its reference.** For sources over indexes that were built, any query that is not empty and has no
separator, any limit, and any distribution of the chunks over workers: the scan ends with the best hits of the
reference, in their order, when the scores are within 32 bits and there are fewer than 65536 sources. -/
theorem scan_reference (hlawful : platform.Lawful) {select : ℕ → List Hit → List Hit} (hselect : Selects select)
    {sources : List Source} (hlength : sources.length < 65536)
    (hsearchable : ∀ source ∈ sources, Searchable platform source) {query : List Char} (hquery : query ≠ [])
    (hplain : ∀ ch ∈ query, platform.isSeparator ch = false)
    (hscores : ∀ nth source node hit, sources[nth]? = some source → node ∈ source.range.nodes →
      referenceHit platform nth source (Pattern.new platform query) node = some (some hit) →
      -2 ^ 31 ≤ hit.score ∧ hit.score < 2 ^ 31)
    (limit : ℕ) {parts : List (List (ℕ × Range))} (hparts : parts.flatten.Perm (chunks sources)) :
    ∃ hits, reference platform sources (Pattern.new platform query) limit = some hits ∧
      scan platform select sources (Pattern.new platform query) limit parts = some hits := by
  refine ⟨_, reference_spec hsearchable _ limit, ?_⟩
  have hbounds : ∀ nth source i hit, sources[nth]? = some source → i ∈ source.range.nodes →
      hitOf platform sources (Pattern.new platform query) nth i = some hit → -2 ^ 31 ≤ hit.score := by
    intro nth source i hit hsource hi hhit
    unfold hitOf at hhit
    rw [hsource] at hhit
    exact (hscores nth source i hit hsource hi (Option.join_eq_some_iff.1 hhit)).1
  obtain ⟨workers, hworkers, hcovers⟩ := scanWorkers_spec hsearchable hlawful hselect hplain hquery hbounds limit
    fun item hitem => hparts.subset hitem
  have hall : TopK.Covers Hit.before limit (allHits platform sources (Pattern.new platform query))
      (workers.flatMap Worker.hits) := by
    rw [← hits_chunks hsearchable]
    exact hcovers.perm (hparts.flatMap_right _)
  -- hits that are not ordered are hits of one node, and so the same
  have hanti : ∀ a ∈ allHits platform sources (Pattern.new platform query),
      ∀ b ∈ allHits platform sources (Pattern.new platform query), a.before b → b.before a → a = b := by
    intro a ha b hb hab hba
    obtain ⟨⟨_, nth⟩, -, ha⟩ := List.mem_flatMap.1 ha
    obtain ⟨i, -, ha⟩ := List.mem_filterMap.1 ha
    obtain ⟨⟨_, nth'⟩, -, hb⟩ := List.mem_flatMap.1 hb
    obtain ⟨i', -, hb⟩ := List.mem_filterMap.1 hb
    obtain ⟨hnth, hsource, hnode⟩ := hitOf_eq_some ha
    obtain ⟨hnth', hsource', hnode'⟩ := hitOf_eq_some hb
    obtain ⟨hsame, hsameNode⟩ := same_of_before hab hba
    obtain rfl : nth = nth' := by omega
    obtain rfl : i = i' := by omega
    exact Option.some.inj (ha.symm.trans hb)
  have hbest := (keepBest_covers hselect hall).take_sort before_trans before_total hanti
  have hfew : ((keepBest select (workers.flatMap Worker.hits) limit).insertionSort Hit.before).length ≤ limit := by
    rw [List.length_insertionSort, length_keepBest hselect]
    exact Nat.min_le_left _ _
  unfold scan
  rw [hworkers, ← hbest, List.take_of_length_le hfew]
  rfl

/-- A selection that sorts everything. -/
def sortAll (_ : ℕ) (hits : List Hit) : List Hit := hits.insertionSort Hit.before

theorem sortAll_selects : Selects sortAll := by
  intro n hits _
  have htrans : IsTrans Hit Hit.before := ⟨before_trans⟩
  have htotal : Std.Total Hit.before := ⟨before_total⟩
  have hsorted := List.pairwise_insertionSort Hit.before hits
  rw [← List.take_append_drop n (hits.insertionSort Hit.before)] at hsorted
  exact ⟨List.perm_insertionSort Hit.before hits, (List.pairwise_append.1 hsorted).2.2⟩

/-- The two nodes of the sample, with ranges to skip. -/
def sampleSource (skip : List Range) : Source := ⟨sampleIndex, ⟨0, 2⟩, skip, .root, 1, none, true, []⟩

/-- Two workers, of which the first gets nothing, find the file in the folder. -/
theorem scan_reference_sample :
    ∃ hits, reference unixPlatform [sampleSource []] (Pattern.new unixPlatform ['b']) 5 = some hits ∧
      hits = [⟨132, 3, 0, 1, false⟩] ∧
      scan unixPlatform sortAll [sampleSource []] (Pattern.new unixPlatform ['b']) 5
        [[], chunks [sampleSource []]] = some hits := by
  have hsearchable : ∀ source ∈ [sampleSource []], Searchable unixPlatform source := by
    intro source hsource
    rw [List.mem_singleton.1 hsource]
    refine ⟨⟨[0x72], 8, epoch, epoch, _, rfl⟩, by decide, fun skip hskip => ?_, .inl rfl⟩
    exact absurd hskip List.not_mem_nil
  have hscores : ∀ nth source node hit, [sampleSource []][nth]? = some source → node ∈ source.range.nodes →
      referenceHit unixPlatform nth source (Pattern.new unixPlatform ['b']) node = some (some hit) →
      -2 ^ 31 ≤ hit.score ∧ hit.score < 2 ^ 31 := by
    intro nth source node hit hsource hnode hhit
    obtain ⟨hlt, rfl⟩ := List.getElem?_eq_some_iff.1 hsource
    obtain rfl : nth = 0 := Nat.lt_one_iff.1 hlt
    have hnode := mem_nodes.1 hnode
    -- the folder does not match, and the file does
    have hfolder : referenceHit unixPlatform 0 (sampleSource []) (Pattern.new unixPlatform ['b']) 0 =
        some none := by decide
    have hfile : referenceHit unixPlatform 0 (sampleSource []) (Pattern.new unixPlatform ['b']) 1 =
        some (some ⟨132, 3, 0, 1, false⟩) := by decide
    rcases Nat.le_one_iff_eq_zero_or_eq_one.1 (Nat.le_of_lt_succ hnode.2) with rfl | rfl
    · cases hfolder.symm.trans hhit
    · obtain rfl := Option.some.inj (Option.some.inj (hfile.symm.trans hhit))
      decide
  have hparts : ([[], chunks [sampleSource []]] : List (List (ℕ × Range))).flatten.Perm (chunks [sampleSource []]) := by
    simp
  have hplain : ∀ ch ∈ ['b'], unixPlatform.isSeparator ch = false := by
    intro ch hch
    rw [List.mem_singleton.1 hch]
    rfl
  have hlength : [sampleSource []].length < 65536 := by simp
  obtain ⟨hits, hreference, hscan⟩ := scan_reference unixPlatform_lawful sortAll_selects hlength hsearchable
    (List.cons_ne_nil 'b' []) hplain hscores 5 hparts
  have hsample : reference unixPlatform [sampleSource []] (Pattern.new unixPlatform ['b']) 5 =
      some [⟨132, 3, 0, 1, false⟩] := by decide
  exact ⟨hits, hreference, Option.some.inj (hreference.symm.trans hsample), hscan⟩

/-- A scan for nothing finds nothing, while every path matches it; and a range to skip that ends before it begins has
its nodes scanned twice. -/
theorem scan_not_reference :
    (reference unixPlatform [sampleSource []] (Pattern.new unixPlatform []) 5 =
        some [⟨0, 1, 0, 0, false⟩, ⟨0, 3, 0, 1, false⟩] ∧
      scan unixPlatform sortAll [sampleSource []] (Pattern.new unixPlatform []) 5 [chunks [sampleSource []]] =
        some []) ∧
    (reference unixPlatform [sampleSource [⟨2, 0⟩]] (Pattern.new unixPlatform ['b']) 5 =
        some [⟨132, 3, 0, 1, false⟩] ∧
      scan unixPlatform sortAll [sampleSource [⟨2, 0⟩]] (Pattern.new unixPlatform ['b']) 5
          [chunks [sampleSource [⟨2, 0⟩]]] =
        some [⟨132, 3, 0, 1, false⟩, ⟨132, 3, 0, 1, false⟩]) := by
  decide +kernel

end Paneflow.PathPicker
