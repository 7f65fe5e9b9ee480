import Paneflow.Slots
import Mathlib.Data.List.GetD
import Mathlib.Tactic.NthRewrite

/-!
# Workspaces and their spaces

`active_idx_after_removal` and `reorder_in_space` of the application's spaces.rs. The workspaces of all spaces are
one list; a space shows those that are its own.

`reorder_in_space` moves a workspace in the list of all and takes over the order of its space only (`reordered`);
`active_idx_after_removal` looks for the workspace to show behind the one that was removed and then before it
(`nearest_shown`).
-/

namespace Paneflow.App

open Paneflow.Slots

/-- What of a workspace its place depends on. -/
structure Workspace (SpaceId : Type) where
  id : ℕ
  space : Option SpaceId
  deriving DecidableEq, Repr

variable {SpaceId : Type} [DecidableEq SpaceId]

def inSpace (workspace : Workspace SpaceId) (space : Option SpaceId) : Bool := workspace.space = space

/-- `slice::iter().rposition` -/
def rposition {α : Type*} (p : α → Bool) (xs : List α) : Option ℕ :=
  (xs.reverse.findIdx? p).map fun offset => xs.length - 1 - offset

def activeIdxAfterRemoval (remaining : List (Workspace SpaceId)) (activeIdx removed : ℕ)
    (activeSpace : Option SpaceId) : ℕ :=
  if remaining.isEmpty then 0
  else if activeIdx ≠ removed then if activeIdx > removed then activeIdx - 1 else activeIdx
  else
    let split := min removed remaining.length
    let following := ((remaining.drop split).findIdx? (inSpace · activeSpace)).map (split + ·)
    (following.or (rposition (inSpace · activeSpace) (remaining.take split))).getD
      (min split (remaining.length - 1))

/-- What is taken out of the slots in the order given; `none` where the index is out of bounds. -/
def takeSlots {α : Type*} : List ℕ → List (Option α) → Option (List α)
  | [], _ => some []
  | idx :: order, slots => do
    let slot ← slots[idx]?
    let taken ← takeSlots order (slots.set idx none)
    return slot.toList ++ taken

/-- Whether the workspace at the index is in the space. -/
def memberAt (workspaces : List (Workspace SpaceId)) (space : Option SpaceId) (idx : ℕ) : Bool :=
  workspaces[idx]?.any (inSpace · space)

/-- The index of the workspace for each slot. -/
def reorderedSlots (workspaces : List (Workspace SpaceId)) (space : Option SpaceId) (source target : ℕ) : List ℕ :=
  let naive := move (List.range workspaces.length) source target
  fill (memberAt workspaces space) (List.range workspaces.length) (naive.filter (memberAt workspaces space))

/-- The workspaces and the active index after the move, and whether there was one; `none` is a panic. -/
def reorderInSpace (workspaces : List (Workspace SpaceId)) (activeIdx source target : ℕ) :
    Option (List (Workspace SpaceId) × ℕ × Bool) :=
  match workspaces[source]? with
  | none => some (workspaces, activeIdx, false)
  | some moved => do
    let order := reorderedSlots workspaces moved.space source target
    if order.zipIdx.all fun (idx, slot) => slot = idx then return (workspaces, activeIdx, false)
    let shown := workspaces[activeIdx]?.map (·.id)
    let reordered ← takeSlots order (workspaces.map some)
    let active := match shown with
      | none => activeIdx
      | some id => (reordered.findIdx? (·.id = id)).getD 0
    return (reordered, active, true)

/-! ### Indices of a list -/

theorem takeSlots_eq {α : Type*} {order : List ℕ} (hnodup : order.Nodup) {g : ℕ → α} {slots : List (Option α)}
    (hslots : ∀ idx ∈ order, slots[idx]? = some (some (g idx))) :
    takeSlots order slots = some (order.map g) := by
  induction order generalizing slots with
  | nil => rfl
  | cons idx order ih =>
    obtain ⟨hidx, hslots⟩ := List.forall_mem_cons.mp hslots
    obtain ⟨hnew, hnodup⟩ := List.nodup_cons.mp hnodup
    have hrest : takeSlots order (slots.set idx none) = some (order.map g) := ih hnodup fun other hother => by
      have hne : idx ≠ other := fun heq => hnew (heq ▸ hother)
      rw [List.getElem?_set_ne hne, hslots other hother]
    unfold takeSlots
    rw [hidx, hrest]
    rfl

theorem zipIdx_all_iff {order : List ℕ} :
    (order.zipIdx.all fun (idx, slot) => slot = idx) = true ↔ order = List.range order.length := by
  rw [List.all_eq_true]
  constructor
  · intro h
    refine List.ext_getElem (by rw [List.length_range]) fun slot hslot _ => ?_
    have hmem : (order[slot], slot) ∈ order.zipIdx := List.mk_mem_zipIdx_iff_getElem?.mpr
      (List.getElem?_eq_getElem hslot)
    have heq := of_decide_eq_true (h _ hmem)
    rw [List.getElem_range]
    exact heq.symm
  · rintro h ⟨idx, slot⟩ hmem
    have hget := List.mk_mem_zipIdx_iff_getElem?.mp hmem
    have hrange : order[slot]? = (List.range order.length)[slot]? := by rw [← h]
    rw [List.getElem?_range (List.getElem?_eq_some_iff.mp hget).1, hget] at hrange
    exact decide_eq_true (Option.some.inj hrange).symm

theorem map_getD_range {α : Type*} (xs : List α) (x : α) : (List.range xs.length).map (xs.getD · x) = xs := by
  refine List.ext_getElem (by rw [List.length_map, List.length_range]) fun i hi hlt => ?_
  rw [List.getElem_map, List.getElem_range, List.getD_eq_getElem _ _ hlt]

/-! ### The order of one space -/

/-- The order that a move gives, as indices of the list before it. -/
structure Order (workspaces : List (Workspace SpaceId)) (space : Option SpaceId) (source target : ℕ)
    (order : List ℕ) : Prop where
  perm : order.Perm (List.range workspaces.length)
  foreign : ∀ i < workspaces.length, memberAt workspaces space i = false → order[i]? = some i
  members : order.filter (memberAt workspaces space) =
    (move (List.range workspaces.length) source target).filter (memberAt workspaces space)

theorem order_reorderedSlots (workspaces : List (Workspace SpaceId)) (space : Option SpaceId) (source target : ℕ) :
    Order workspaces space source target (reorderedSlots workspaces space source target) := by
  have hperm := (perm_move (List.range workspaces.length) source target).filter (memberAt workspaces space)
  refine ⟨perm_fill hperm, fun i hi hforeign => ?_, ?_⟩
  · exact getElem?_fill (List.getElem?_range hi) hforeign
  · exact filter_fill hperm.length_eq fun i hi => List.of_mem_filter hi

/-- The order stays if and only if the move leaves the order of the members. -/
theorem reorderedSlots_eq_range (workspaces : List (Workspace SpaceId)) (space : Option SpaceId)
    (source target : ℕ) :
    reorderedSlots workspaces space source target = List.range workspaces.length ↔
      (move (List.range workspaces.length) source target).filter (memberAt workspaces space) =
        (List.range workspaces.length).filter (memberAt workspaces space) := by
  constructor
  · intro h
    rw [← (order_reorderedSlots workspaces space source target).members, h]
  · intro h
    unfold reorderedSlots
    dsimp only
    rw [h, fill_self]

/-! ### Workspaces with distinct ids -/

/-- The workspaces in the order of the indices. -/
def arranged (workspaces : List (Workspace SpaceId)) (moved : Workspace SpaceId) (order : List ℕ) :
    List (Workspace SpaceId) :=
  order.map (workspaces.getD · moved)

variable {workspaces : List (Workspace SpaceId)} {moved : Workspace SpaceId} {source target activeIdx : ℕ}

omit [DecidableEq SpaceId] in
theorem id_injective (hids : (workspaces.map (·.id)).Nodup) {i j : ℕ} {workspace other : Workspace SpaceId}
    (hi : workspaces[i]? = some workspace) (hj : workspaces[j]? = some other) (h : workspace.id = other.id) :
    i = j := by
  have hlt : i < (workspaces.map (·.id)).length := by
    rw [List.length_map]
    exact (List.getElem?_eq_some_iff.mp hi).1
  refine (List.getElem?_inj hlt hids).mp ?_
  rw [List.getElem?_map, List.getElem?_map, hi, hj, Option.map_some, Option.map_some, h]

omit [DecidableEq SpaceId] in
theorem getD_eq {i : ℕ} (hi : i < workspaces.length) : workspaces[i]? = some (workspaces.getD i moved) := by
  rw [List.getElem?_eq_getElem hi, List.getD_eq_getElem _ _ hi]

theorem memberAt_eq (space : Option SpaceId) {i : ℕ} (hi : i < workspaces.length) :
    memberAt workspaces space i = inSpace (workspaces.getD i moved) space := by
  unfold memberAt
  rw [getD_eq hi, Option.any_some]

omit [DecidableEq SpaceId] in
/-- The workspaces that pass a test, in an arranged list. -/
theorem filter_arranged {order : List ℕ} (horder : ∀ i ∈ order, i < workspaces.length)
    {p : Workspace SpaceId → Bool} {q : ℕ → Bool}
    (hpq : ∀ i < workspaces.length, q i = p (workspaces.getD i moved)) :
    (arranged workspaces moved order).filter p = arranged workspaces moved (order.filter q) := by
  unfold arranged
  rw [List.filter_map]
  congr 1
  exact List.filter_congr fun i hi => (hpq i (horder i hi)).symm

omit [DecidableEq SpaceId] in
theorem arranged_range : arranged workspaces moved (List.range workspaces.length) = workspaces :=
  map_getD_range workspaces moved

omit [DecidableEq SpaceId] in
/-- Lists of indices that give the same workspaces are the same. -/
theorem arranged_injective (hids : (workspaces.map (·.id)).Nodup) {order order' : List ℕ}
    (horder : ∀ i ∈ order, i < workspaces.length) (horder' : ∀ i ∈ order', i < workspaces.length)
    (h : arranged workspaces moved order = arranged workspaces moved order') : order = order' := by
  have hlength := congrArg List.length h
  unfold arranged at hlength
  rw [List.length_map, List.length_map] at hlength
  refine List.ext_getElem hlength fun i hi hi' => ?_
  have hget := congrArg (·[i]?) h
  unfold arranged at hget
  simp only [List.getElem?_map, List.getElem?_eq_getElem hi, List.getElem?_eq_getElem hi', Option.map_some,
    Option.some.injEq] at hget
  exact id_injective hids (getD_eq (horder _ (List.getElem_mem hi))) (getD_eq (horder' _ (List.getElem_mem hi')))
    (congrArg (·.id) hget)

/-! ### A workspace moved in its space -/

/-- What becomes of the workspaces when one is moved: those of the other spaces stay where they are, the others of
its space stay in their order, and the space is shown in the order that the move gives. -/
structure Reordered (workspaces : List (Workspace SpaceId)) (moved : Workspace SpaceId)
    (source target activeIdx : ℕ) (workspaces' : List (Workspace SpaceId)) (activeIdx' : ℕ) (changed : Bool) :
    Prop where
  perm : workspaces'.Perm workspaces
  foreign : ∀ (i : ℕ) workspace, workspaces[i]? = some workspace → inSpace workspace moved.space = false →
    workspaces'[i]? = some workspace
  others : workspaces'.filter (fun workspace => inSpace workspace moved.space && workspace.id != moved.id) =
    workspaces.filter fun workspace => inSpace workspace moved.space && workspace.id != moved.id
  members : workspaces'.filter (inSpace · moved.space) =
    (move workspaces source target).filter (inSpace · moved.space)
  active : workspaces'[activeIdx']? = workspaces[activeIdx]?
  kept : changed = false → workspaces' = workspaces ∧ activeIdx' = activeIdx
  differs : changed = true → workspaces' ≠ workspaces
  order : changed = false ↔
    (move workspaces source target).filter (inSpace · moved.space) = workspaces.filter (inSpace · moved.space)

omit [DecidableEq SpaceId] in
theorem arranged_move :
    arranged workspaces moved (move (List.range workspaces.length) source target) =
      move workspaces source target := by
  unfold arranged
  rw [map_move, map_getD_range]

/-- The members, as the move gives them. -/
theorem filter_move_arranged :
    (move workspaces source target).filter (inSpace · moved.space) = arranged workspaces moved
      ((move (List.range workspaces.length) source target).filter (memberAt workspaces moved.space)) := by
  have hlt : ∀ i ∈ move (List.range workspaces.length) source target, i < workspaces.length := fun i hi =>
    List.mem_range.mp ((perm_move _ source target).mem_iff.mp hi)
  rw [← filter_arranged (p := (inSpace · moved.space)) hlt fun i hi => memberAt_eq moved.space hi, arranged_move]

theorem filter_range_arranged :
    workspaces.filter (inSpace · moved.space) = arranged workspaces moved
      ((List.range workspaces.length).filter (memberAt workspaces moved.space)) := by
  rw [← filter_arranged (p := (inSpace · moved.space)) (fun i hi => List.mem_range.mp hi)
    fun i hi => memberAt_eq moved.space hi, arranged_range]

/-- The order of the space stays if and only if its indices do. -/
theorem filter_move_eq_iff (hids : (workspaces.map (·.id)).Nodup) (moved : Workspace SpaceId)
    (source target : ℕ) :
    (move workspaces source target).filter (inSpace · moved.space) = workspaces.filter (inSpace · moved.space) ↔
      reorderedSlots workspaces moved.space source target = List.range workspaces.length := by
  rw [reorderedSlots_eq_range, filter_move_arranged, filter_range_arranged]
  refine ⟨arranged_injective hids (fun i hi => ?_) fun i hi => ?_, congrArg _⟩
  · exact List.mem_range.mp ((perm_move _ source target).mem_iff.mp (List.mem_of_mem_filter hi))
  · exact List.mem_range.mp (List.mem_of_mem_filter hi)

/-- The others of the space are in the order that they had. -/
theorem filter_others (hids : (workspaces.map (·.id)).Nodup) (hmoved : workspaces[source]? = some moved)
    {order : List ℕ} (h : Order workspaces moved.space source target order) :
    (arranged workspaces moved order).filter
        (fun workspace => inSpace workspace moved.space && workspace.id != moved.id) =
      workspaces.filter fun workspace => inSpace workspace moved.space && workspace.id != moved.id := by
  have hsource : (List.range workspaces.length)[source]? = some source :=
    List.getElem?_range (List.getElem?_eq_some_iff.mp hmoved).1
  have htest : ∀ i < workspaces.length, (i != source && memberAt workspaces moved.space i) =
      (inSpace (workspaces.getD i moved) moved.space && (workspaces.getD i moved).id != moved.id) := by
    intro i hi
    have hid : i = source ↔ (workspaces.getD i moved).id = moved.id := by
      refine ⟨?_, id_injective hids (getD_eq hi) hmoved⟩
      rintro rfl
      rw [List.getD_eq_getElem?_getD, hmoved, Option.getD_some]
    rw [memberAt_eq moved.space hi, Bool.and_comm, bne, bne, beq_eq_decide, beq_eq_decide, decide_eq_decide.mpr hid]
  have hlt : ∀ i ∈ order, i < workspaces.length := fun i hi => List.mem_range.mp (h.perm.mem_iff.mp hi)
  nth_rewrite 2 [← @arranged_range _ workspaces moved]
  rw [filter_arranged hlt htest, filter_arranged (fun i hi => List.mem_range.mp hi) htest]
  congr 1
  have hout : (source != source && memberAt workspaces moved.space source) = false := by
    rw [bne_self_eq_false, Bool.false_and]
  rw [← List.filter_filter, h.members, List.filter_filter,
    filter_move (p := fun i => i != source && memberAt workspaces moved.space i) hsource hout]

omit [DecidableEq SpaceId] in
/-- A workspace that is shown is found by its id wherever it is now. -/
theorem shown_eq (hids : (workspaces.map (·.id)).Nodup) {workspaces' : List (Workspace SpaceId)}
    (hperm : workspaces'.Perm workspaces) {shown : Workspace SpaceId} (hshown : workspaces[activeIdx]? = some shown) :
    workspaces'[(workspaces'.findIdx? (·.id = shown.id)).getD 0]? = some shown := by
  have hmem : shown ∈ workspaces' := hperm.mem_iff.mpr (List.mem_of_getElem? hshown)
  cases hfind : workspaces'.findIdx? (·.id = shown.id) with
  | none => exact absurd (List.findIdx?_eq_none_iff.mp hfind shown hmem) (by simp)
  | some i =>
    obtain ⟨hlt, hid, -⟩ := List.findIdx?_eq_some_iff_getElem.mp hfind
    have hids' : (workspaces'.map (·.id)).Nodup := (hperm.map (·.id)).nodup_iff.mpr hids
    have heq := List.inj_on_of_nodup_map hids' (List.getElem_mem hlt) hmem (of_decide_eq_true hid)
    rw [Option.getD_some, List.getElem?_eq_getElem hlt, heq]

/-- A move in a space. -/
theorem reordered (hids : (workspaces.map (·.id)).Nodup) (hmoved : workspaces[source]? = some moved)
    (hactive : activeIdx < workspaces.length) (target : ℕ) :
    ∃ workspaces' activeIdx' changed, reorderInSpace workspaces activeIdx source target =
        some (workspaces', activeIdx', changed) ∧
      Reordered workspaces moved source target activeIdx workspaces' activeIdx' changed := by
  have horder := order_reorderedSlots workspaces moved.space source target
  have hiff := filter_move_eq_iff hids moved source target
  have hlength : (reorderedSlots workspaces moved.space source target).length = workspaces.length := by
    rw [horder.perm.length_eq, List.length_range]
  unfold reorderInSpace
  rw [hmoved]
  dsimp only
  generalize reorderedSlots workspaces moved.space source target = order at *
  have hcheck := @zipIdx_all_iff order
  rw [hlength] at hcheck
  by_cases hsame : order = List.range workspaces.length
  · rw [if_pos (hcheck.mpr hsame)]
    refine ⟨workspaces, activeIdx, false, rfl, ?_⟩
    exact {
      perm := .refl _
      foreign := fun _ _ h _ => h
      others := rfl
      members := (hiff.mpr hsame).symm
      active := rfl
      kept := fun _ => ⟨rfl, rfl⟩
      differs := nofun
      order := iff_of_true rfl (hiff.mpr hsame) }
  · rw [if_neg fun h => hsame (hcheck.mp h)]
    have hlt : ∀ i ∈ order, i < workspaces.length := fun i hi => List.mem_range.mp (horder.perm.mem_iff.mp hi)
    have htaken : takeSlots order (workspaces.map some) = some (arranged workspaces moved order) :=
      takeSlots_eq (horder.perm.nodup_iff.mpr List.nodup_range) fun i hi => by
        rw [List.getElem?_map, getD_eq (hlt i hi), Option.map_some]
    have hperm : (arranged workspaces moved order).Perm workspaces := by
      have hmap := horder.perm.map (workspaces.getD · moved)
      rwa [map_getD_range] at hmap
    obtain ⟨shown, hshown⟩ : ∃ shown, workspaces[activeIdx]? = some shown :=
      ⟨_, List.getElem?_eq_getElem hactive⟩
    rw [htaken, hshown]
    refine ⟨arranged workspaces moved order, _, true, rfl, ?_⟩
    exact {
      perm := hperm
      foreign := fun i workspace hi hforeign => by
        have hi' := (List.getElem?_eq_some_iff.mp hi).1
        have hmember : memberAt workspaces moved.space i = false := by
          unfold memberAt
          rw [hi, Option.any_some, hforeign]
        rw [arranged, List.getElem?_map, horder.foreign i hi' hmember, Option.map_some, ← getD_eq hi', hi]
      others := filter_others hids hmoved horder
      members := by
        rw [filter_arranged (p := (inSpace · moved.space)) hlt fun i hi => memberAt_eq moved.space hi,
          horder.members, filter_move_arranged]
      active := by
        rw [hshown]
        exact shown_eq hids hperm hshown
      kept := nofun
      differs := fun _ heq => hsame (arranged_injective hids hlt (fun i hi => List.mem_range.mp hi)
        (heq.trans arranged_range.symm))
      order := iff_of_false nofun fun h => hsame (hiff.mp h) }

/-! ### A workspace removed -/

/-- Whether the workspace at the index is there, and in the space. -/
def ShownAt (remaining : List (Workspace SpaceId)) (space : Option SpaceId) (idx : ℕ) : Prop :=
  ∃ workspace, remaining[idx]? = some workspace ∧ inSpace workspace space = true

/-- The nearest workspace of the space to where one was removed: the next one, or else the previous one. -/
structure Nearest (remaining : List (Workspace SpaceId)) (space : Option SpaceId) (removed idx : ℕ) : Prop where
  next : (∃ i, removed ≤ i ∧ ShownAt remaining space i) →
    removed ≤ idx ∧ ShownAt remaining space idx ∧ ∀ i, removed ≤ i → i < idx → ¬ShownAt remaining space i
  previous : (¬∃ i, removed ≤ i ∧ ShownAt remaining space i) → (∃ i, ShownAt remaining space i) →
    idx < removed ∧ ShownAt remaining space idx ∧ ∀ i, idx < i → ¬ShownAt remaining space i
  foreign : ¬ShownAt remaining space idx → ∀ workspace ∈ remaining, inSpace workspace space = false

theorem shownAt_iff {remaining : List (Workspace SpaceId)} {space : Option SpaceId} {idx : ℕ}
    (hlt : idx < remaining.length) :
    ShownAt remaining space idx ↔ inSpace remaining[idx] space = true := by
  unfold ShownAt
  rw [List.getElem?_eq_getElem hlt]
  simp

theorem ShownAt.lt {remaining : List (Workspace SpaceId)} {space : Option SpaceId} {idx : ℕ}
    (h : ShownAt remaining space idx) : idx < remaining.length := by
  obtain ⟨workspace, hget, -⟩ := h
  exact (List.getElem?_eq_some_iff.mp hget).1

theorem exists_shownAt {remaining : List (Workspace SpaceId)} {space : Option SpaceId}
    {workspace : Workspace SpaceId} (hmem : workspace ∈ remaining) (hin : inSpace workspace space = true) :
    ∃ i, ShownAt remaining space i := by
  obtain ⟨i, hi⟩ := List.mem_iff_getElem?.mp hmem
  exact ⟨i, workspace, hi, hin⟩

/-- The first index from `split` on that is shown. -/
theorem findIdx?_drop (remaining : List (Workspace SpaceId)) (space : Option SpaceId) (split : ℕ) :
    match (remaining.drop split).findIdx? (inSpace · space) with
    | some offset => ShownAt remaining space (split + offset) ∧
        ∀ i, split ≤ i → i < split + offset → ¬ShownAt remaining space i
    | none => ∀ i, split ≤ i → ¬ShownAt remaining space i := by
  cases hfind : (remaining.drop split).findIdx? (inSpace · space) with
  | some offset =>
    obtain ⟨hlt, hin, hbefore⟩ := List.findIdx?_eq_some_iff_getElem.mp hfind
    rw [List.length_drop] at hlt
    rw [List.getElem_drop] at hin
    refine ⟨(shownAt_iff (by omega)).mpr hin, fun i hi hlt' hshown => ?_⟩
    have hnot := hbefore (i - split) (by omega)
    rw [List.getElem_drop] at hnot
    simp only [Nat.add_sub_cancel' hi] at hnot
    exact hnot ((shownAt_iff hshown.lt).mp hshown)
  | none =>
    rintro i hi ⟨workspace, hget, hin⟩
    have hmem : workspace ∈ remaining.drop split := List.mem_iff_getElem?.mpr ⟨i - split, by
      rw [List.getElem?_drop, Nat.add_sub_cancel' hi, hget]⟩
    rw [List.findIdx?_eq_none_iff.mp hfind workspace hmem] at hin
    exact nomatch hin

theorem rposition_take {remaining : List (Workspace SpaceId)} {split : ℕ} (hsplit : split ≤ remaining.length)
    (space : Option SpaceId) :
    match rposition (inSpace · space) (remaining.take split) with
    | some idx => idx < split ∧ ShownAt remaining space idx ∧
        ∀ i, idx < i → i < split → ¬ShownAt remaining space i
    | none => ∀ i, i < split → ¬ShownAt remaining space i := by
  unfold rposition
  have hlength : (remaining.take split).length = split := List.length_take_of_le hsplit
  cases hfind : (remaining.take split).reverse.findIdx? (inSpace · space) with
  | some offset =>
    obtain ⟨hlt, hin, hafter⟩ := List.findIdx?_eq_some_iff_getElem.mp hfind
    rw [List.length_reverse, hlength] at hlt
    rw [List.getElem_reverse, List.getElem_take] at hin
    rw [Option.map_some, hlength]
    simp only [hlength] at hin
    refine ⟨by omega, (shownAt_iff (by omega)).mpr hin, fun i hi hlt' hshown => ?_⟩
    have hnot := hafter (split - 1 - i) (by omega)
    rw [List.getElem_reverse, List.getElem_take] at hnot
    simp only [hlength, show split - 1 - (split - 1 - i) = i by omega] at hnot
    exact hnot ((shownAt_iff hshown.lt).mp hshown)
  | none =>
    rintro i hi ⟨workspace, hget, hin⟩
    have hmem : workspace ∈ (remaining.take split).reverse := by
      rw [List.mem_reverse]
      exact List.mem_iff_getElem?.mpr ⟨i, by rw [List.getElem?_take_of_lt hi, hget]⟩
    rw [List.findIdx?_eq_none_iff.mp hfind workspace hmem] at hin
    exact nomatch hin

theorem nearest_shown {remaining : List (Workspace SpaceId)} (hne : remaining ≠ []) {removed : ℕ}
    (hremoved : removed ≤ remaining.length) (space : Option SpaceId) :
    activeIdxAfterRemoval remaining removed removed space < remaining.length ∧
      Nearest remaining space removed (activeIdxAfterRemoval remaining removed removed space) := by
  have hpos := List.length_pos_of_ne_nil hne
  have hnext := findIdx?_drop remaining space removed
  have hprevious := rposition_take hremoved space
  unfold activeIdxAfterRemoval
  rw [if_neg (by simpa using hne), if_neg (not_not.mpr rfl), Nat.min_eq_left hremoved]
  dsimp only
  cases hfollowing : (remaining.drop removed).findIdx? (inSpace · space) with
  | some offset =>
    rw [hfollowing] at hnext
    obtain ⟨hshown, hbefore⟩ := hnext
    rw [Option.map_some, Option.some_or, Option.getD_some]
    refine ⟨hshown.lt, fun _ => ⟨Nat.le_add_right _ _, hshown, hbefore⟩, fun hnone => ?_, fun h => ?_⟩
    · exact absurd ⟨_, Nat.le_add_right _ _, hshown⟩ hnone
    · exact absurd hshown h
  | none =>
    rw [hfollowing] at hnext
    have hnone : ¬∃ i, removed ≤ i ∧ ShownAt remaining space i := fun ⟨i, hi, hshown⟩ => hnext i hi hshown
    rw [Option.map_none, Option.none_or]
    cases hbefore : rposition (inSpace · space) (remaining.take removed) with
    | some idx =>
      rw [hbefore] at hprevious
      obtain ⟨hlt, hshown, hafter⟩ := hprevious
      rw [Option.getD_some]
      refine ⟨hshown.lt, fun h => absurd h hnone, fun _ _ => ⟨hlt, hshown, fun i hi => ?_⟩, fun h => ?_⟩
      · rcases Nat.lt_or_ge i removed with hi' | hi'
        · exact hafter i hi hi'
        · exact hnext i hi'
      · exact absurd hshown h
    | none =>
      rw [hbefore] at hprevious
      have hempty : ¬∃ i, ShownAt remaining space i := fun ⟨i, hshown⟩ => by
        rcases Nat.lt_or_ge i removed with hi | hi
        · exact hprevious i hi hshown
        · exact hnext i hi hshown
      rw [Option.getD_none]
      refine ⟨by omega, fun h => absurd h hnone, fun _ h => absurd h hempty, fun _ workspace hmem => ?_⟩
      rw [Bool.eq_false_iff]
      exact fun hin => hempty (exists_shownAt hmem hin)

/-- Behind the workspace that was removed the indices are one less. -/
theorem activeIdxAfterRemoval_other {removed : ℕ} (hremoved : removed < workspaces.length)
    (hactive : activeIdx < workspaces.length) (hne : activeIdx ≠ removed) (space : Option SpaceId) :
    (workspaces.eraseIdx removed)[activeIdxAfterRemoval (workspaces.eraseIdx removed) activeIdx removed space]? =
      workspaces[activeIdx]? := by
  have hlength := List.length_eraseIdx_of_lt hremoved
  have hnil : workspaces.eraseIdx removed ≠ [] := fun h => by
    rw [h, List.length_nil] at hlength
    omega
  unfold activeIdxAfterRemoval
  rw [if_neg (by simpa using hnil), if_pos hne, List.getElem?_eraseIdx]
  split_ifs with hgt hlt hlt
  · omega
  · rw [Nat.sub_add_cancel (by omega)]
  · rfl
  · omega

/-- Workspaces with distinct ids, of any spaces: what a move does to them and what is shown, and what is shown after
one of them is removed. The index is in bounds unless no workspace is left. -/
theorem spaces_kept (hids : (workspaces.map (·.id)).Nodup) (hactive : activeIdx < workspaces.length) :
    (∀ source target, source < workspaces.length → target < workspaces.length →
      ∃ moved workspaces' activeIdx' changed, workspaces[source]? = some moved ∧
        reorderInSpace workspaces activeIdx source target = some (workspaces', activeIdx', changed) ∧
        Reordered workspaces moved source target activeIdx workspaces' activeIdx' changed) ∧
    ∀ removed (activeSpace : Option SpaceId), removed < workspaces.length →
      let remaining := workspaces.eraseIdx removed
      let idx := activeIdxAfterRemoval remaining activeIdx removed activeSpace
      (remaining = [] → idx = 0) ∧ (remaining ≠ [] → idx < remaining.length) ∧
        (activeIdx ≠ removed → remaining[idx]? = workspaces[activeIdx]?) ∧
        (activeIdx = removed → remaining ≠ [] → Nearest remaining activeSpace removed idx) := by
  refine ⟨fun source target hsource _ => ?_, fun removed activeSpace hremoved => ?_⟩
  · have hmoved := List.getElem?_eq_getElem hsource
    obtain ⟨workspaces', activeIdx', changed, heq, hreordered⟩ := reordered hids hmoved hactive target
    exact ⟨_, workspaces', activeIdx', changed, hmoved, heq, hreordered⟩
  · have hlength := List.length_eraseIdx_of_lt hremoved
    have hle : removed ≤ (workspaces.eraseIdx removed).length := by omega
    refine ⟨fun hnil => ?_, fun hne => ?_, fun hother => ?_, ?_⟩
    · unfold activeIdxAfterRemoval
      rw [hnil]
      rfl
    · by_cases heq : activeIdx = removed
      · subst heq
        exact (nearest_shown hne hle activeSpace).1
      · have hget := activeIdxAfterRemoval_other hremoved hactive heq activeSpace
        rw [List.getElem?_eq_getElem hactive] at hget
        exact (List.getElem?_eq_some_iff.mp hget).1
    · exact activeIdxAfterRemoval_other hremoved hactive hother activeSpace
    · rintro rfl hne
      exact (nearest_shown hne hle activeSpace).2

/-- Five workspaces of three spaces. -/
def mixed : List (Workspace ℕ) := [⟨10, some 1⟩, ⟨11, none⟩, ⟨12, some 1⟩, ⟨13, some 2⟩, ⟨14, none⟩]

theorem spaces_kept_mixed :
    (∃ moved workspaces' activeIdx' changed, mixed[0]? = some moved ∧
      reorderInSpace mixed 3 0 2 = some (workspaces', activeIdx', changed) ∧
      Reordered mixed moved 0 2 3 workspaces' activeIdx' changed) ∧
    Nearest (mixed.eraseIdx 3) none 3 (activeIdxAfterRemoval (mixed.eraseIdx 3) 3 3 none) := by
  obtain ⟨hmove, hremove⟩ := @spaces_kept _ _ mixed 3 (by decide) (by decide)
  exact ⟨hmove 0 2 (by decide) (by decide), (hremove 3 none (by decide)).2.2.2 rfl (by decide)⟩

/-- No index is in bounds when the last workspace is removed. -/
theorem not_spaces_kept :
    ¬activeIdxAfterRemoval (([⟨10, none⟩] : List (Workspace ℕ)).eraseIdx 0) 0 0 none <
      (([⟨10, none⟩] : List (Workspace ℕ)).eraseIdx 0).length := by decide

end Paneflow.App
