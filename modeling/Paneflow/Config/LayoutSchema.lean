import Paneflow.Config.Ratios

/-!
# Layouts of the configuration

`LayoutNode` of schema/layout.rs with `resolved_ratios` and `validate_layout`. Validation caps leaves,
children and surfaces, drops splits that lose all children and collapses those that keep one. What it
returns is `Sound`, and it returns a sound node unchanged except for ratios whose sum is not near one
(`sanitizeLayoutNode_of_sound`), which a node can have after validation because of the floor.
-/

namespace Paneflow.Config.LayoutSchema

open Paneflow.Config.Ratios

/-- A surface of a pane. Validation reads only its focus, and carries the other fields along. -/
structure SurfaceDefinition (Fields : Type) where
  fields : Fields
  focus : Option Bool
  deriving DecidableEq

instance {Fields : Type} [Inhabited Fields] : Inhabited (SurfaceDefinition Fields) :=
  ⟨⟨default, none⟩⟩

inductive LayoutNode (Fields : Type) where
  | pane (surfaces : List (SurfaceDefinition Fields))
  | split (direction : String) (ratio : Option ℚ) (ratios : Option (List ℚ))
    (children : List (LayoutNode Fields))

variable {Fields : Type}

/-- Induction on a layout node, with the hypothesis for every child of a split. -/
@[elab_as_elim]
theorem LayoutNode.induction {motive : LayoutNode Fields → Prop}
    (pane : ∀ surfaces, motive (.pane surfaces))
    (split : ∀ direction ratio ratios children, (∀ c ∈ children, motive c) →
      motive (.split direction ratio ratios children)) (node : LayoutNode Fields) : motive node := by
  refine @LayoutNode.rec Fields motive (fun cs => ∀ c ∈ cs, motive c) pane split ?_ ?_ node
  · simp
  · intro c cs hc hcs
    simpa using ⟨hc, hcs⟩

mutual

/-- The surfaces of the leaves, in order. -/
def LayoutNode.leaves : LayoutNode Fields → List (List (SurfaceDefinition Fields))
  | .pane surfaces => [surfaces]
  | .split _ _ _ children => leavesOf children

def leavesOf : List (LayoutNode Fields) → List (List (SurfaceDefinition Fields))
  | [] => []
  | child :: children => child.leaves ++ leavesOf children

end

def LayoutNode.leafCount (node : LayoutNode Fields) : ℕ := node.leaves.length

def LayoutNode.resolvedRatios : LayoutNode Fields → List ℚ
  | .pane _ => [1]
  | .split _ ratio ratios children =>
    let n := max children.length 1
    match ratios, ratio with
    | some rs, _ => sanitizeRatios rs n
    | none, some r =>
      if children.length = 2 then sanitizeRatios (legacyRatios r) n else equalRatios n
    | none, none => equalRatios n

/-! ### Validation -/

def maxLayoutLeaves : ℕ := 32

def maxSplitChildren : ℕ := 32

def maxPaneSurfaces : ℕ := 64

/-- The loop that drops the focus of every focused surface but the first. -/
def dropExtraFocus : Bool → List (SurfaceDefinition Fields) → List (SurfaceDefinition Fields)
  | _, [] => []
  | focusSeen, surface :: surfaces =>
    if surface.focus = some true then
      if focusSeen then { surface with focus := none } :: dropExtraFocus true surfaces
      else surface :: dropExtraFocus true surfaces
    else surface :: dropExtraFocus focusSeen surfaces

/-- What `sanitize_layout_node` makes of a split whose surviving children are `kept`. -/
def rebuild (direction : String) (ratio : Option ℚ) (ratios : Option (List ℚ))
    (kept : List (LayoutNode Fields)) : Option (LayoutNode Fields) :=
  match kept with
  | [] => none
  | [child] => some child
  | _ :: _ :: _ =>
    let n := kept.length
    let legacy := ratio.map legacyRatio
    let normalized := match ratios with
      | some values => some (sanitizeRatios values n)
      | none => if n = 2 then legacy.map legacyRatios else none
    some (.split direction (if n = 2 then legacy else none) normalized kept)

section
variable [Inhabited Fields]

def sanitizeSurfaces (surfaces : List (SurfaceDefinition Fields)) :
    List (SurfaceDefinition Fields) :=
  let surfaces := if surfaces.length > maxPaneSurfaces then surfaces.take maxPaneSurfaces else surfaces
  let surfaces := if surfaces.isEmpty then [default] else surfaces
  dropExtraFocus false surfaces

mutual

/-- The sanitized node, if anything is left of it, and the rest of the leaf budget. -/
def sanitizeLayoutNode : LayoutNode Fields → ℕ → Option (LayoutNode Fields) × ℕ
  | .pane surfaces, budget =>
    if budget = 0 then (none, budget) else (some (.pane (sanitizeSurfaces surfaces)), budget - 1)
  | .split direction ratio ratios children, budget =>
    let direction :=
      if direction ≠ "horizontal" ∧ direction ≠ "vertical" then "horizontal" else direction
    let (kept, budget) := sanitizeChildren children maxSplitChildren budget
    (rebuild direction ratio ratios kept, budget)

/-- The loop over the first `room` children. -/
def sanitizeChildren : List (LayoutNode Fields) → ℕ → ℕ → List (LayoutNode Fields) × ℕ
  | [], _, budget => ([], budget)
  | _ :: _, 0, budget => ([], budget)
  | child :: children, room + 1, budget =>
    if budget = 0 then ([], budget)
    else
      let (sanitized, budget) := sanitizeLayoutNode child budget
      let (kept, budget) := sanitizeChildren children room budget
      (sanitized.toList ++ kept, budget)

end

def defaultLayoutPane : LayoutNode Fields := .pane [default]

def validateLayout (node : LayoutNode Fields) : LayoutNode Fields :=
  (sanitizeLayoutNode node maxLayoutLeaves).1.getD defaultLayoutPane

end

/-! ### Properties of every pane and split of a node -/

/-- The panes of a node have `pane` and its splits `split`, of the fields and the number of children. -/
inductive Everywhere (pane : List (SurfaceDefinition Fields) → Prop)
    (split : String → Option ℚ → Option (List ℚ) → ℕ → Prop) : LayoutNode Fields → Prop
  | pane {surfaces : List (SurfaceDefinition Fields)} : pane surfaces →
    Everywhere pane split (.pane surfaces)
  | split {direction : String} {ratio : Option ℚ} {ratios : Option (List ℚ)}
    {children : List (LayoutNode Fields)} : split direction ratio ratios children.length →
    (∀ c ∈ children, Everywhere pane split c) →
    Everywhere pane split (.split direction ratio ratios children)

section
variable {pane : List (SurfaceDefinition Fields) → Prop}
  {split : String → Option ℚ → Option (List ℚ) → ℕ → Prop}

theorem everywhere_pane {surfaces : List (SurfaceDefinition Fields)} :
    Everywhere pane split (.pane surfaces) ↔ pane surfaces :=
  ⟨fun h => by cases h; assumption, .pane⟩

theorem everywhere_split {direction : String} {ratio : Option ℚ} {ratios : Option (List ℚ)}
    {children : List (LayoutNode Fields)} :
    Everywhere pane split (.split direction ratio ratios children) ↔
      split direction ratio ratios children.length ∧ ∀ c ∈ children, Everywhere pane split c :=
  ⟨fun h => by cases h; constructor <;> assumption, fun h => .split h.1 h.2⟩

end

/-- A pane has 1 to 64 surfaces, and at most one of them is focused. -/
structure SoundPane (surfaces : List (SurfaceDefinition Fields)) : Prop where
  pos : 1 ≤ surfaces.length
  le : surfaces.length ≤ maxPaneSurfaces
  focus : (surfaces.filter fun s => s.focus = some true).length ≤ 1

/-- A split has 2 to 32 children and one of the two directions. -/
structure SoundSplit (direction : String) (n : ℕ) : Prop where
  direction : direction = "horizontal" ∨ direction = "vertical"
  two_le : 2 ≤ n
  le : n ≤ maxSplitChildren

def Sound : LayoutNode Fields → Prop :=
  Everywhere SoundPane fun direction _ _ n => SoundSplit direction n

/-- The ratio fields of a split of `n` children are in their ranges, and a legacy ratio stands only
beside the ratios that it gave. -/
structure FieldsInRange (ratio : Option ℚ) (ratios : Option (List ℚ)) (n : ℕ) : Prop where
  ratio : ∀ r, ratio = some r →
    n = 2 ∧ minLegacyRatio ≤ r ∧ r ≤ 1 - minLegacyRatio ∧ ratios ≠ none
  ratios : ∀ rs, ratios = some rs → InRange n rs

def RatiosInRange : LayoutNode Fields → Prop :=
  Everywhere (fun _ => True) fun _ ratio ratios n => FieldsInRange ratio ratios n

/-- In every split that has ratios, they sum to one within the tolerance. -/
def SumsNear : LayoutNode Fields → Prop :=
  Everywhere (fun _ => True) fun _ _ ratios _ => ∀ rs, ratios = some rs → |rs.sum - 1| ≤ tolerance

/-! ### Leaves -/

theorem leavesOf_append (as bs : List (LayoutNode Fields)) :
    leavesOf (as ++ bs) = leavesOf as ++ leavesOf bs := by
  induction as with
  | nil => simp [leavesOf]
  | cons a as ih => simp [leavesOf, ih]

theorem leavesOf_rebuild (direction : String) (ratio : Option ℚ) (ratios : Option (List ℚ))
    (kept : List (LayoutNode Fields)) :
    leavesOf (rebuild direction ratio ratios kept).toList = leavesOf kept := by
  match kept with
  | [] => rfl
  | [c] => rfl
  | c :: c' :: rest => simp [rebuild, leavesOf, LayoutNode.leaves]

/-! ### Splits -/

theorem fieldsInRange_rebuild (ratio : Option ℚ) (ratios : Option (List ℚ)) {n : ℕ} (h2 : 2 ≤ n)
    (hn : n ≤ maxSplitChildren) :
    FieldsInRange (if n = 2 then ratio.map legacyRatio else none)
      (match ratios with
        | some values => some (sanitizeRatios values n)
        | none => if n = 2 then (ratio.map legacyRatio).map legacyRatios else none) n := by
  constructor
  · intro r hr
    split_ifs at hr with hn2
    obtain ⟨r, rfl, rfl⟩ := Option.map_eq_some_iff.1 hr
    refine ⟨hn2, (legacyRatio_bounds r).1, (legacyRatio_bounds r).2, ?_⟩
    cases ratios with
    | some values => simp
    | none => simp [hn2]
  · intro rs hrs
    cases ratios with
    | some values =>
      obtain rfl := Option.some.inj hrs
      exact inRange_sanitizeRatios values (by omega) (hn.trans (by decide))
    | none =>
      dsimp only at hrs
      split_ifs at hrs with hn2
      subst hn2
      obtain ⟨r, -, rfl⟩ := Option.map_eq_some_iff.1 hrs
      exact inRange_legacyRatios r

theorem sound_rebuild {direction : String} (hdir : direction = "horizontal" ∨ direction = "vertical")
    (ratio : Option ℚ) (ratios : Option (List ℚ)) {kept : List (LayoutNode Fields)}
    (hlen : kept.length ≤ maxSplitChildren) (hkept : ∀ c ∈ kept, Sound c ∧ RatiosInRange c) :
    ∀ c ∈ (rebuild direction ratio ratios kept).toList, Sound c ∧ RatiosInRange c := by
  match kept with
  | [] => simp [rebuild]
  | [c] => simpa [rebuild] using hkept
  | c :: c' :: rest =>
    intro node hnode
    simp only [rebuild, Option.toList_some, List.mem_singleton] at hnode
    subst hnode
    exact ⟨.split ⟨hdir, by simp, hlen⟩ fun c hc => (hkept c hc).1,
      .split (fieldsInRange_rebuild ratio ratios (by simp) hlen) fun c hc => (hkept c hc).2⟩

/-! ### Panes -/

theorem focused_dropExtraFocus (focusSeen : Bool) (surfaces : List (SurfaceDefinition Fields)) :
    ((dropExtraFocus focusSeen surfaces).filter fun s => s.focus = some true).length ≤
      if focusSeen then 0 else 1 := by
  induction surfaces generalizing focusSeen with
  | nil => simp [dropExtraFocus]
  | cons surface surfaces ih =>
    unfold dropExtraFocus
    by_cases hfocus : surface.focus = some true
    · rw [if_pos hfocus]
      have hseen := ih true
      cases focusSeen with
      | true => simpa using hseen
      | false =>
        rw [if_neg (by decide), List.filter_cons_of_pos (by simpa using hfocus), List.length_cons]
        simpa using hseen
    · rw [if_neg hfocus, List.filter_cons_of_neg (by simpa using hfocus)]
      exact ih focusSeen

theorem dropExtraFocus_eq_self {focusSeen : Bool} {surfaces : List (SurfaceDefinition Fields)}
    (h : (surfaces.filter fun s => s.focus = some true).length ≤ if focusSeen then 0 else 1) :
    dropExtraFocus focusSeen surfaces = surfaces := by
  induction surfaces generalizing focusSeen with
  | nil => rfl
  | cons surface surfaces ih =>
    unfold dropExtraFocus
    by_cases hfocus : surface.focus = some true
    · rw [List.filter_cons_of_pos (by simpa using hfocus), List.length_cons] at h
      cases focusSeen with
      | true => simp at h
      | false =>
        rw [if_pos hfocus, if_neg (by decide), ih (by simpa using h)]
    · rw [List.filter_cons_of_neg (by simpa using hfocus)] at h
      rw [if_neg hfocus, ih h]

@[simp]
theorem length_dropExtraFocus (focusSeen : Bool) (surfaces : List (SurfaceDefinition Fields)) :
    (dropExtraFocus focusSeen surfaces).length = surfaces.length := by
  induction surfaces generalizing focusSeen with
  | nil => rfl
  | cons surface surfaces ih =>
    unfold dropExtraFocus
    split_ifs
    · simp [ih]
    · simp [ih]
    · simp [ih]

section
variable [Inhabited Fields]

theorem soundPane_sanitizeSurfaces (surfaces : List (SurfaceDefinition Fields)) :
    SoundPane (sanitizeSurfaces surfaces) := by
  unfold sanitizeSurfaces
  dsimp only
  constructor
  · rw [length_dropExtraFocus]
    split_ifs with _ hempty
    · simp
    · exact List.length_pos_of_ne_nil (by simpa using hempty)
    · simp
    · rename_i hempty
      exact List.length_pos_of_ne_nil (by simpa using hempty)
  · rw [length_dropExtraFocus]
    split_ifs with hlen
    · simp [maxPaneSurfaces]
    · exact List.length_take_le _ _
    · simp [maxPaneSurfaces]
    · exact not_lt.1 hlen
  · exact focused_dropExtraFocus false _

theorem sanitizeSurfaces_of_sound {surfaces : List (SurfaceDefinition Fields)}
    (h : SoundPane surfaces) : sanitizeSurfaces surfaces = surfaces := by
  have hne : surfaces.isEmpty = false := by
    have := List.ne_nil_of_length_pos h.pos
    simpa using this
  unfold sanitizeSurfaces
  rw [if_neg h.le.not_gt]
  dsimp only
  rw [hne, if_neg (by decide)]
  exact dropExtraFocus_eq_self h.focus

/-! ### What is kept -/

/-- What sanitizing nodes with the given leaves keeps: each leaf that is kept takes one from the
budget. -/
structure Kept (leaves : List (List (SurfaceDefinition Fields))) (budget : ℕ)
    (kept : List (LayoutNode Fields)) (rest : ℕ) : Prop where
  spent : (leavesOf kept).length + rest = budget
  sublist : (leavesOf kept).Sublist (leaves.map sanitizeSurfaces)
  sound : ∀ c ∈ kept, Sound c ∧ RatiosInRange c

theorem kept_sanitizeChildren {children : List (LayoutNode Fields)}
    (ih : ∀ c ∈ children, ∀ budget, Kept c.leaves budget (sanitizeLayoutNode c budget).1.toList
      (sanitizeLayoutNode c budget).2) (room budget : ℕ) :
    Kept (leavesOf children) budget (sanitizeChildren children room budget).1
        (sanitizeChildren children room budget).2 ∧
      (sanitizeChildren children room budget).1.length ≤ room := by
  induction children generalizing room budget with
  | nil =>
    unfold sanitizeChildren
    exact ⟨⟨by simp [leavesOf], by simp [leavesOf], by simp⟩, by simp⟩
  | cons child children ihc =>
    cases room with
    | zero =>
      unfold sanitizeChildren
      exact ⟨⟨by simp [leavesOf], by simp [leavesOf], by simp⟩, by simp⟩
    | succ room =>
      unfold sanitizeChildren
      split_ifs with hb
      · exact ⟨⟨by simp [leavesOf], by simp [leavesOf], by simp⟩, by simp⟩
      · have hchild := ih child List.mem_cons_self budget
        obtain ⟨hrest, hlen⟩ := ihc (fun c hc => ih c (List.mem_cons_of_mem _ hc)) room
          (sanitizeLayoutNode child budget).2
        dsimp only
        refine ⟨⟨?_, ?_, ?_⟩, ?_⟩
        · have h1 := hchild.spent
          have h2 := hrest.spent
          rw [leavesOf_append, List.length_append]
          omega
        · rw [leavesOf_append, leavesOf, List.map_append]
          exact hchild.sublist.append hrest.sublist
        · intro c hc
          rcases List.mem_append.1 hc with hc | hc
          · exact hchild.sound c hc
          · exact hrest.sound c hc
        · rw [List.length_append]
          have : (sanitizeLayoutNode child budget).1.toList.length ≤ 1 := Option.length_toList_le
          omega

theorem kept_sanitizeLayoutNode (node : LayoutNode Fields) (budget : ℕ) :
    Kept node.leaves budget (sanitizeLayoutNode node budget).1.toList
      (sanitizeLayoutNode node budget).2 := by
  induction node using LayoutNode.induction generalizing budget with
  | pane surfaces =>
    unfold sanitizeLayoutNode
    split_ifs with hb
    · exact ⟨by simp [leavesOf], by simp [leavesOf], by simp⟩
    · refine ⟨?_, ?_, ?_⟩
      · simp only [Option.toList_some, leavesOf, LayoutNode.leaves, List.append_nil,
          List.length_singleton]
        omega
      · simp [leavesOf, LayoutNode.leaves]
      · simp only [Option.toList_some, List.mem_singleton, forall_eq]
        exact ⟨.pane (soundPane_sanitizeSurfaces surfaces), .pane trivial⟩
  | split direction ratio ratios children ih =>
    obtain ⟨hkept, hlen⟩ := kept_sanitizeChildren ih maxSplitChildren budget
    unfold sanitizeLayoutNode
    dsimp only
    refine ⟨?_, ?_, ?_⟩
    · rw [leavesOf_rebuild]
      exact hkept.spent
    · rw [leavesOf_rebuild]
      exact hkept.sublist
    · refine sound_rebuild ?_ ratio ratios hlen hkept.sound
      split_ifs with hdir
      · exact .inl rfl
      · rw [not_and_or, not_not, not_not] at hdir
        exact hdir

end

/-! ### Sound nodes -/

theorem Sound.leafCount_pos {node : LayoutNode Fields} (h : Sound node) : 1 ≤ node.leafCount := by
  induction node using LayoutNode.induction with
  | pane surfaces => simp [LayoutNode.leafCount, LayoutNode.leaves]
  | split direction ratio ratios children ih =>
    obtain ⟨hsplit, hc⟩ := everywhere_split.1 h
    cases children with
    | nil => simpa using hsplit.two_le
    | cons c children =>
      have := ih c (by simp) (hc c (by simp))
      simp only [LayoutNode.leafCount, LayoutNode.leaves, leavesOf, List.length_append] at this ⊢
      omega

mutual

/-- What validation does to a sound node: only the ratios of its splits change. -/
def refit : LayoutNode Fields → LayoutNode Fields
  | .pane surfaces => .pane surfaces
  | .split direction ratio ratios children =>
    .split direction ratio (ratios.map fun values => sanitizeRatios values children.length)
      (refitAll children)

def refitAll : List (LayoutNode Fields) → List (LayoutNode Fields)
  | [] => []
  | child :: children => refit child :: refitAll children

end

theorem refitAll_eq_map (children : List (LayoutNode Fields)) :
    refitAll children = children.map refit := by
  induction children with
  | nil => simp [refitAll]
  | cons c children ih => simp [refitAll, ih]

/-- A split whose fields are in range is rebuilt with the same legacy ratio. -/
theorem rebuild_of_inRange {direction : String} {ratio : Option ℚ} {ratios : Option (List ℚ)}
    {kept : List (LayoutNode Fields)} (h2 : 2 ≤ kept.length)
    (h : FieldsInRange ratio ratios kept.length) :
    rebuild direction ratio ratios kept = some (.split direction ratio
      (ratios.map fun values => sanitizeRatios values kept.length) kept) := by
  match kept, h2 with
  | c :: c' :: rest, _ =>
    unfold rebuild
    dsimp only
    cases ratio with
    | none =>
      cases ratios with
      | none => simp
      | some values => simp
    | some r =>
      obtain ⟨hn, hlo, hhi, hne⟩ := h.ratio r rfl
      obtain ⟨values, rfl⟩ := Option.ne_none_iff_exists'.1 hne
      rw [if_pos hn, Option.map_some, legacyRatio_of_bounds hlo hhi]
      rfl

theorem refit_eq_self {node : LayoutNode Fields} (hs : Sound node) (hr : RatiosInRange node) :
    refit node = node ↔ SumsNear node := by
  induction node using LayoutNode.induction with
  | pane surfaces =>
    unfold refit
    exact ⟨fun _ => .pane trivial, fun _ => rfl⟩
  | split direction ratio ratios children ih =>
    obtain ⟨hsplit, hsc⟩ := everywhere_split.1 hs
    obtain ⟨hfields, hrc⟩ := everywhere_split.1 hr
    have h1 : 1 ≤ children.length := by have := hsplit.two_le; omega
    have h100 : children.length ≤ 100 := hsplit.le.trans (by decide)
    have hratios : (ratios.map fun values => sanitizeRatios values children.length) = ratios ↔
        ∀ rs, ratios = some rs → |rs.sum - 1| ≤ tolerance := by
      cases ratios with
      | none => simp
      | some rs =>
        have hin := hfields.ratios rs rfl
        simp only [Option.map_some, Option.some.injEq, sanitizeRatios_eq_self h1 h100, hin, true_and,
          forall_eq']
    have hall : refitAll children = children ↔ ∀ c ∈ children, SumsNear c := by
      have hmap : children.map refit = children ↔ children.map refit = children.map id := by
        rw [List.map_id]
      rw [refitAll_eq_map, hmap, List.map_inj_left]
      exact forall₂_congr fun c hc => ih c hc (hsc c hc) (hrc c hc)
    unfold refit SumsNear
    rw [everywhere_split]
    simp only [LayoutNode.split.injEq, true_and, hratios, hall]
    rfl

section
variable [Inhabited Fields]

theorem sanitizeChildren_of_sound {children : List (LayoutNode Fields)}
    (hs : ∀ c ∈ children, Sound c)
    (ih : ∀ c ∈ children, ∀ budget, c.leafCount ≤ budget →
      sanitizeLayoutNode c budget = (some (refit c), budget - c.leafCount)) {room budget : ℕ}
    (hroom : children.length ≤ room) (hb : (leavesOf children).length ≤ budget) :
    sanitizeChildren children room budget =
      (refitAll children, budget - (leavesOf children).length) := by
  induction children generalizing room budget with
  | nil => simp [sanitizeChildren, refitAll, leavesOf]
  | cons c children ihc =>
    obtain ⟨room, rfl⟩ : ∃ r, room = r + 1 := ⟨room - 1, by simp at hroom; omega⟩
    have hc : 1 ≤ c.leafCount := (hs c List.mem_cons_self).leafCount_pos
    have hlen : (leavesOf (c :: children)).length = c.leafCount + (leavesOf children).length := by
      simp [leavesOf, LayoutNode.leafCount]
    rw [hlen] at hb ⊢
    unfold sanitizeChildren
    rw [if_neg (by omega), ih c List.mem_cons_self budget (by omega)]
    dsimp only
    rw [ihc (fun c hc => hs c (List.mem_cons_of_mem _ hc))
      (fun c hc => ih c (List.mem_cons_of_mem _ hc)) (by simpa using hroom) (by omega)]
    simp only [refitAll, Option.toList_some, List.singleton_append, Nat.sub_sub]

/-- Sanitizing a sound node within the budget. -/
theorem sanitizeLayoutNode_of_sound {node : LayoutNode Fields} (hs : Sound node)
    (hr : RatiosInRange node) {budget : ℕ} (hb : node.leafCount ≤ budget) :
    sanitizeLayoutNode node budget = (some (refit node), budget - node.leafCount) := by
  induction node using LayoutNode.induction generalizing budget with
  | pane surfaces =>
    have hpos : 1 ≤ budget := hb
    unfold sanitizeLayoutNode refit
    rw [if_neg (by omega), sanitizeSurfaces_of_sound (everywhere_pane.1 hs)]
    rfl
  | split direction ratio ratios children ih =>
    obtain ⟨hsplit, hsc⟩ := everywhere_split.1 hs
    obtain ⟨hfields, hrc⟩ := everywhere_split.1 hr
    have hchildren := sanitizeChildren_of_sound hsc
      (fun c hc budget hb => ih c hc (hsc c hc) (hrc c hc) hb) hsplit.le hb
    have hdir : ¬(direction ≠ "horizontal" ∧ direction ≠ "vertical") := by
      rintro ⟨hh, hv⟩
      exact hsplit.direction.elim hh hv
    have hlen : (refitAll children).length = children.length := by
      rw [refitAll_eq_map, List.length_map]
    unfold sanitizeLayoutNode refit
    rw [hchildren]
    dsimp only
    rw [if_neg hdir, rebuild_of_inRange (by rw [hlen]; exact hsplit.two_le) (by rwa [hlen]), hlen]
    rfl

/-! ### Validated nodes -/

/-- The result of a validation, as one node. -/
theorem validateLayout_cases (node : LayoutNode Fields) :
    ((sanitizeLayoutNode node maxLayoutLeaves).1 = none ∧ validateLayout node = defaultLayoutPane) ∨
      (sanitizeLayoutNode node maxLayoutLeaves).1 = some (validateLayout node) := by
  unfold validateLayout
  cases (sanitizeLayoutNode node maxLayoutLeaves).1 with
  | none => exact .inl ⟨rfl, rfl⟩
  | some node' => exact .inr rfl

theorem soundPane_default : SoundPane [(default : SurfaceDefinition Fields)] := by
  refine ⟨le_rfl, ?_, List.length_filter_le _ _⟩
  simp [maxPaneSurfaces]

/-- What validation returns satisfies every limit, and the ratio fields are in range. -/
structure Validated (node : LayoutNode Fields) : Prop where
  sound : Sound node
  inRange : RatiosInRange node
  leaves_pos : 1 ≤ node.leafCount
  leaves_le : node.leafCount ≤ maxLayoutLeaves

theorem validated_validateLayout (node : LayoutNode Fields) : Validated (validateLayout node) := by
  rcases validateLayout_cases node with ⟨-, heq⟩ | heq
  · rw [heq]
    refine ⟨.pane soundPane_default, .pane trivial, le_rfl, ?_⟩
    simp [defaultLayoutPane, LayoutNode.leafCount, LayoutNode.leaves, maxLayoutLeaves]
  · have hkept := kept_sanitizeLayoutNode node maxLayoutLeaves
    rw [heq] at hkept
    obtain ⟨hs, hr⟩ := hkept.sound (validateLayout node) (by simp)
    refine ⟨hs, hr, hs.leafCount_pos, ?_⟩
    have hspent := hkept.spent
    simp only [Option.toList_some, leavesOf, List.append_nil] at hspent
    unfold LayoutNode.leafCount
    omega

/-- The leaves that validation keeps are some of the node's, in their order. -/
theorem leaves_validateLayout (node : LayoutNode Fields) :
    ((sanitizeLayoutNode node maxLayoutLeaves).1 = none ∧ validateLayout node = defaultLayoutPane) ∨
      (validateLayout node).leaves.Sublist (node.leaves.map sanitizeSurfaces) := by
  refine (validateLayout_cases node).imp_right fun heq => ?_
  have hkept := kept_sanitizeLayoutNode node maxLayoutLeaves
  rw [heq] at hkept
  simpa [leavesOf] using hkept.sublist

theorem validateLayout_of_validated {node : LayoutNode Fields} (h : Validated node) :
    validateLayout node = refit node := by
  unfold validateLayout
  rw [sanitizeLayoutNode_of_sound h.sound h.inRange h.leaves_le]
  rfl

/-- Validation keeps the limits for every node; it leaves a node as it is exactly if the node meets
them and the ratios of its splits sum to one within the tolerance, and so a second validation changes
a validated node exactly if the floor has left some ratios with another sum. -/
theorem validateLayout_settles (node : LayoutNode Fields) :
    Validated (validateLayout node) ∧
      (((sanitizeLayoutNode node maxLayoutLeaves).1 = none ∧
          validateLayout node = defaultLayoutPane) ∨
        (validateLayout node).leaves.Sublist (node.leaves.map sanitizeSurfaces)) ∧
      (validateLayout node = node ↔ Validated node ∧ SumsNear node) ∧
      (validateLayout (validateLayout node) = validateLayout node ↔ SumsNear (validateLayout node)) := by
  have hvalid := validated_validateLayout node
  refine ⟨hvalid, leaves_validateLayout node, ?_, ?_⟩
  · constructor
    · intro heq
      rw [heq] at hvalid
      refine ⟨hvalid, ?_⟩
      rwa [validateLayout_of_validated hvalid, refit_eq_self hvalid.sound hvalid.inRange] at heq
    · rintro ⟨hnode, hnear⟩
      rwa [validateLayout_of_validated hnode, refit_eq_self hnode.sound hnode.inRange]
  · rw [validateLayout_of_validated hvalid, refit_eq_self hvalid.sound hvalid.inRange]

/-- Two panes with very uneven ratios. -/
def lopsided : LayoutNode Unit :=
  .split "vertical" none (some [100, 1 / 1000]) [.pane [default], .pane [default]]

theorem lopsided_not_settled :
    validateLayout (validateLayout lopsided) ≠ validateLayout lopsided := by
  have hval : validateLayout lopsided =
      .split "vertical" none (some [100 / 101, 1 / 100]) [.pane [default], .pane [default]] := by
    have hratios : sanitizeRatios [100, 1 / 1000] 2 = [100 / 101, 1 / 100] := by decide +kernel
    have hpane : sanitizeSurfaces [(default : SurfaceDefinition Unit)] = [default] :=
      sanitizeSurfaces_of_sound soundPane_default
    simpa [validateLayout, lopsided, sanitizeLayoutNode, sanitizeChildren, maxLayoutLeaves,
      maxSplitChildren, rebuild, hpane] using hratios
  rw [Ne, validateLayout_of_validated (validated_validateLayout lopsided),
    refit_eq_self (validated_validateLayout lopsided).sound (validated_validateLayout lopsided).inRange,
    hval]
  intro hnear
  have := (everywhere_split.1 hnear).1 _ rfl
  norm_num [tolerance] at this

end

/-! ### Resolved ratios -/

/-- The ratios of a split of 1 to 32 children: one for each child and in range. Their sum is one
unless the split names one ratio for each child; then it is that of the clamped entries, if it is near
one, and otherwise at least one, with equality exactly if the division leaves no entry below the
floor. -/
theorem resolvedRatios_spec (direction : String) (ratio : Option ℚ) (ratios : Option (List ℚ))
    {children : List (LayoutNode Fields)} (h1 : 1 ≤ children.length)
    (h32 : children.length ≤ maxSplitChildren) :
    InRange children.length (LayoutNode.split direction ratio ratios children).resolvedRatios ∧
      ((∀ raw, ratios = some raw → raw.length ≠ children.length) →
        (LayoutNode.split direction ratio ratios children).resolvedRatios.sum = 1) ∧
      ∀ raw, ratios = some raw →
        (LayoutNode.split direction ratio ratios children).resolvedRatios =
          sanitizeRatios raw children.length ∧
        (raw.length = children.length →
          (|(clamped raw).sum - 1| ≤ tolerance →
            (sanitizeRatios raw children.length).sum = (clamped raw).sum) ∧
          (tolerance < |(clamped raw).sum - 1| →
            1 ≤ (sanitizeRatios raw children.length).sum ∧
            (sanitizeRatios raw children.length).sum < 1 + children.length * minRatio ∧
            ((sanitizeRatios raw children.length).sum = 1 ↔
              ∀ r ∈ clamped raw, minRatio * (clamped raw).sum ≤ r))) := by
  have hmax : max children.length 1 = children.length := max_eq_left h1
  have h100 : children.length ≤ 100 := h32.trans (by decide)
  refine ⟨?_, fun hother => ?_, ?_⟩
  · unfold LayoutNode.resolvedRatios
    dsimp only
    rw [hmax]
    cases ratios with
    | some raw => exact inRange_sanitizeRatios raw h1 h100
    | none =>
      cases ratio with
      | none => exact inRange_equalRatios h1 h100
      | some r =>
        dsimp only
        split_ifs
        · exact inRange_sanitizeRatios _ h1 h100
        · exact inRange_equalRatios h1 h100
  · unfold LayoutNode.resolvedRatios
    dsimp only
    rw [hmax]
    cases ratios with
    | some raw =>
      dsimp only
      unfold sanitizeRatios
      rw [if_pos (hother raw rfl)]
      exact sum_equalRatios h1
    | none =>
      cases ratio with
      | none => exact sum_equalRatios h1
      | some r =>
        dsimp only
        split_ifs with h2
        · have hfixed : sanitizeRatios (legacyRatios r) 2 = legacyRatios r := by
            rw [sanitizeRatios_eq_self (by decide) (by decide)]
            exact ⟨inRange_legacyRatios r, by norm_num [sum_legacyRatios, tolerance]⟩
          rw [h2, hfixed, sum_legacyRatios]
        · exact sum_equalRatios h1
  · rintro raw rfl
    refine ⟨by simp only [LayoutNode.resolvedRatios, hmax], fun hlen => ⟨fun hnear => ?_, ?_⟩⟩
    · rw [sanitizeRatios_near hlen hnear]
    · exact sum_sanitizeRatios_far hlen h1

/-- The ratios of the very uneven split. -/
theorem resolvedRatios_spec_lopsided :
    InRange 2 lopsided.resolvedRatios ∧
      ((∀ raw : List ℚ, some [100, 1 / 1000] = some raw → raw.length ≠ 2) →
        lopsided.resolvedRatios.sum = 1) ∧
      ∀ raw, some [100, 1 / 1000] = some raw →
        lopsided.resolvedRatios = sanitizeRatios raw 2 ∧
        (raw.length = 2 →
          (|(clamped raw).sum - 1| ≤ tolerance → (sanitizeRatios raw 2).sum = (clamped raw).sum) ∧
          (tolerance < |(clamped raw).sum - 1| →
            1 ≤ (sanitizeRatios raw 2).sum ∧ (sanitizeRatios raw 2).sum < 1 + (2 : ℕ) * minRatio ∧
            ((sanitizeRatios raw 2).sum = 1 ↔
              ∀ r ∈ clamped raw, minRatio * (clamped raw).sum ≤ r))) :=
  @resolvedRatios_spec Unit "vertical" none (some [100, 1 / 1000])
    [.pane [default], .pane [default]] (by decide) (by decide)

theorem lopsided_sum : lopsided.resolvedRatios.sum ≠ 1 := by
  decide +kernel

end Paneflow.Config.LayoutSchema
