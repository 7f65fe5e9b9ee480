import Paneflow.Config.LayoutSchema
import Paneflow.Traversal

/-!
# Migrated sessions

`migrate_session_v1` and `repair_durable_identities` of schema/session.rs. In version 1 a workspace had one layout whose
panes held several surfaces; each pane keeps its focused surface, and every other surface becomes a tab of its own.
From version 3 on, workspaces and terminals have identities that last.

New identities come from `newSession` and `newWorkspace`, which count their calls. The set of the identities that were
seen is a list.

* `Moved`: what becomes of the layout of a workspace of version 1;
* `Identified`: what the pass over the surfaces does, in one list of all of them (`assigned_list`);
* `session_migrates`: both, for the migration and for a repair.
-/

namespace Paneflow.Config.SessionSchema

open Paneflow.Config.LayoutSchema Paneflow.Traversal

/-- The fields of a surface apart from its focus; `ρ` is what the migration does not look at. -/
structure SurfaceFields (ι ρ : Type) where
  surfaceType : Option String
  name : Option String
  customName : Option String
  session : Option ι
  rest : ρ
  deriving DecidableEq

variable {ι κ ρ ω τ : Type}

instance [Inhabited ρ] : Inhabited (SurfaceFields ι ρ) := ⟨⟨some "terminal", none, none, none, default⟩⟩

abbrev Surface (ι ρ : Type) := SurfaceDefinition (SurfaceFields ι ρ)

abbrev Layout (ι ρ : Type) := LayoutNode (SurfaceFields ι ρ)

namespace Surface

def isTerminal (surface : Surface ι ρ) : Bool :=
  match surface.fields.surfaceType with
  | none => true
  | some kind => kind = "terminal"

def session (surface : Surface ι ρ) : Option ι := surface.fields.session

def withSession (surface : Surface ι ρ) (session : Option ι) : Surface ι ρ :=
  { surface with fields := { surface.fields with session := session } }

def title (surface : Surface ι ρ) : String :=
  (surface.fields.customName.or surface.fields.name).getD ""

end Surface

inductive TabTitleSource where
  | preset
  | prompt
  | generated
  | process
  | summarized
  | user
  deriving DecidableEq, Repr

structure PullRequestSession where
  branch : String
  number : ℕ
  state : String
  deriving DecidableEq, Repr

structure TabSession (ι ρ : Type) where
  title : String
  titleSource : Option TabTitleSource
  layout : Option (Layout ι ρ)
  worktree : Option String
  worktreeRaw : Option (List UInt8)
  unread : Bool
  pullRequest : Option PullRequestSession

def TabSession.withLayout (layout : Layout ι ρ) : TabSession ι ρ where
  title := ""
  titleSource := some .preset
  layout := some layout
  worktree := none
  worktreeRaw := none
  unread := false
  pullRequest := none

structure WorkspaceSession (ι κ ρ ω : Type) where
  id : Option κ
  title : String
  cwd : String
  tabs : List (TabSession ι ρ)
  activeTab : ℕ
  legacyLayout : Option (Layout ι ρ)
  rest : ω

structure SessionState (ι κ ρ ω τ : Type) where
  version : ℕ
  activeWorkspace : ℕ
  workspaces : List (WorkspaceSession ι κ ρ ω)
  rest : τ

def sessionSchemaVersion : ℕ := 3

def sessionSchemaVersionV2 : ℕ := 2

def maxSessionTabs : ℕ := 32

/-! ### From version 1 -/

/-- The tab of a surface that a pane does not keep. -/
def promotedTab (surface : Surface ι ρ) : TabSession ι ρ where
  title := surface.title
  titleSource := none
  layout := some (.pane [surface])
  worktree := none
  worktreeRaw := none
  unread := false
  pullRequest := none

section
variable [Inhabited ρ]

mutual

/-- The layout that is left, and the tabs with those of its other surfaces. -/
def demotePanesToFocusedSurface : Layout ι ρ → List (TabSession ι ρ) → Layout ι ρ × List (TabSession ι ρ)
  | .pane [], promoted => (.pane [default], promoted)
  | .pane (first :: rest), promoted =>
    let focused := ((first :: rest).findIdx? fun surface => surface.focus = some true).getD 0
    (.pane [(first :: rest).getD focused first], promoted ++ ((first :: rest).eraseIdx focused).map promotedTab)
  | .split direction ratio ratios children, promoted =>
    let (children, promoted) := demoteChildren children promoted
    (.split direction ratio ratios children, promoted)

/-- The loop over the children of a split. -/
def demoteChildren : List (Layout ι ρ) → List (TabSession ι ρ) → List (Layout ι ρ) × List (TabSession ι ρ)
  | [], promoted => ([], promoted)
  | child :: children, promoted =>
    let (child, promoted) := demotePanesToFocusedSurface child promoted
    let (children, promoted) := demoteChildren children promoted
    (child :: children, promoted)

end

def migrateWorkspaceV1 (ws : WorkspaceSession ι κ ρ ω) : WorkspaceSession ι κ ρ ω :=
  let legacyLayout := ws.legacyLayout
  let ws := { ws with legacyLayout := none }
  if !ws.tabs.isEmpty then ws
  else
    match legacyLayout with
    | none => { ws with tabs := ws.tabs ++ [.withLayout defaultLayoutPane] }
    | some root =>
      let (root, promoted) := demotePanesToFocusedSurface root []
      let tabs := ws.tabs ++ [.withLayout root] ++ promoted
      { ws with
        tabs := if tabs.length > maxSessionTabs then tabs.take maxSessionTabs else tabs
        activeTab := 0 }

end

/-! ### Identities -/

structure DurableIdentityAssignment where
  workspaces : ℕ
  sessions : ℕ
  deriving DecidableEq, Repr

/-- The identities of terminals that were seen, and how many were assigned. -/
structure Progress (ι : Type) where
  seen : List ι
  sessions : ℕ
  deriving DecidableEq, Repr

section
variable [DecidableEq ι] (newSession : ℕ → ι) (newWorkspace : ℕ → κ) (assignMissing : Bool)

/-- The round for a surface. -/
def assignSurface (surface : Surface ι ρ) (progress : Progress ι) : Surface ι ρ × Progress ι :=
  if !surface.isTerminal then (surface.withSession none, progress)
  else
    let (fresh, seen) :=
      match surface.session with
      | some existing => if existing ∈ progress.seen then (true, progress.seen) else (false, existing :: progress.seen)
      | none => (assignMissing, progress.seen)
    if fresh then
      let id := newSession progress.sessions
      (surface.withSession (some id), ⟨id :: seen, progress.sessions + 1⟩)
    else (surface, ⟨seen, progress.sessions⟩)

mutual

def assignSurfaceSessions : Layout ι ρ → Progress ι → Layout ι ρ × Progress ι
  | .pane surfaces, progress =>
    let (surfaces, progress) := visitList (assignSurface newSession assignMissing) surfaces progress
    (.pane surfaces, progress)
  | .split direction ratio ratios children, progress =>
    let (children, progress) := assignChildren children progress
    (.split direction ratio ratios children, progress)

/-- The loop over the children of a split. -/
def assignChildren : List (Layout ι ρ) → Progress ι → List (Layout ι ρ) × Progress ι
  | [], progress => ([], progress)
  | child :: children, progress =>
    let (child, progress) := assignSurfaceSessions child progress
    let (children, progress) := assignChildren children progress
    (child :: children, progress)

end

def assignTab (tab : TabSession ι ρ) (progress : Progress ι) : TabSession ι ρ × Progress ι :=
  match tab.layout with
  | none => (tab, progress)
  | some layout =>
    let (layout, progress) := assignSurfaceSessions newSession assignMissing layout progress
    ({ tab with layout := some layout }, progress)

/-- The layouts of the tabs, and then the legacy one. -/
def assignWorkspace (ws : WorkspaceSession ι κ ρ ω) (progress : Progress ι) : WorkspaceSession ι κ ρ ω × Progress ι :=
  let (tabs, progress) := visitList (assignTab newSession assignMissing) ws.tabs progress
  match ws.legacyLayout with
  | none => ({ ws with tabs := tabs }, progress)
  | some layout =>
    let (layout, progress) := assignSurfaceSessions newSession assignMissing layout progress
    ({ ws with tabs := tabs, legacyLayout := some layout }, progress)

/-- The round for a workspace, with the number of workspaces that were given an identity. -/
def identifyWorkspace (ws : WorkspaceSession ι κ ρ ω) (progress : ℕ × Progress ι) :
    WorkspaceSession ι κ ρ ω × ℕ × Progress ι :=
  let (ws, workspaces) :=
    if ws.id.isNone then ({ ws with id := some (newWorkspace progress.1) }, progress.1 + 1) else (ws, progress.1)
  let (ws, progress) := assignWorkspace newSession assignMissing ws progress.2
  (ws, workspaces, progress)

def durableIdentities (state : SessionState ι κ ρ ω τ) : SessionState ι κ ρ ω τ × DurableIdentityAssignment :=
  let (workspaces, workspacesAssigned, progress) :=
    visitList (identifyWorkspace newSession newWorkspace assignMissing) state.workspaces (0, ⟨[], 0⟩)
  ({ state with workspaces := workspaces }, ⟨workspacesAssigned, progress.sessions⟩)

def assignDurableIdentities (state : SessionState ι κ ρ ω τ) :
    SessionState ι κ ρ ω τ × DurableIdentityAssignment :=
  durableIdentities newSession newWorkspace true state

def repairDurableIdentities (state : SessionState ι κ ρ ω τ) :
    SessionState ι κ ρ ω τ × DurableIdentityAssignment :=
  durableIdentities newSession newWorkspace false state

def migrateSessionV2 (state : SessionState ι κ ρ ω τ) : SessionState ι κ ρ ω τ :=
  { (assignDurableIdentities newSession newWorkspace state).1 with version := sessionSchemaVersion }

def migrateSessionV1 [Inhabited ρ] (state : SessionState ι κ ρ ω τ) : SessionState ι κ ρ ω τ :=
  migrateSessionV2 newSession newWorkspace
    { state with workspaces := state.workspaces.map migrateWorkspaceV1, version := sessionSchemaVersionV2 }

end

/-! ### Layouts as lists of surfaces -/

mutual

/-- The layout with other surfaces in each pane. -/
def mapPanes (g : List (Surface ι ρ) → List (Surface ι ρ)) : Layout ι ρ → Layout ι ρ
  | .pane surfaces => .pane (g surfaces)
  | .split direction ratio ratios children => .split direction ratio ratios (mapPanesOf g children)

def mapPanesOf (g : List (Surface ι ρ) → List (Surface ι ρ)) : List (Layout ι ρ) → List (Layout ι ρ)
  | [] => []
  | child :: children => mapPanes g child :: mapPanesOf g children

end

/-- What is left of a layout without its surfaces: the splits. -/
def splits (layout : Layout ι ρ) : Layout ι ρ := mapPanes (fun _ => []) layout

def layoutSurfaces (layout : Layout ι ρ) : List (Surface ι ρ) := layout.leaves.flatten

def TabSession.surfaces (tab : TabSession ι ρ) : List (Surface ι ρ) := tab.layout.toList.flatMap layoutSurfaces

/-- The surfaces of a workspace, in the order in which they are visited. -/
def WorkspaceSession.surfaces (ws : WorkspaceSession ι κ ρ ω) : List (Surface ι ρ) :=
  ws.tabs.flatMap TabSession.surfaces ++ ws.legacyLayout.toList.flatMap layoutSurfaces

def SessionState.surfaces (state : SessionState ι κ ρ ω τ) : List (Surface ι ρ) :=
  state.workspaces.flatMap WorkspaceSession.surfaces

/-- Everything but the identities. -/
def Surface.bare (surface : Surface ι ρ) : Surface ι ρ := surface.withSession none

def layoutBare (layout : Layout ι ρ) : Layout ι ρ := mapPanes (List.map Surface.bare) layout

def TabSession.bare (tab : TabSession ι ρ) : TabSession ι ρ := { tab with layout := tab.layout.map layoutBare }

def WorkspaceSession.bareLayouts (ws : WorkspaceSession ι κ ρ ω) : WorkspaceSession ι κ ρ ω :=
  { ws with tabs := ws.tabs.map TabSession.bare, legacyLayout := ws.legacyLayout.map layoutBare }

def WorkspaceSession.bare (ws : WorkspaceSession ι κ ρ ω) : WorkspaceSession ι κ ρ ω :=
  { ws.bareLayouts with id := none }

def SessionState.bare (state : SessionState ι κ ρ ω τ) : SessionState ι κ ρ ω τ :=
  { state with workspaces := state.workspaces.map WorkspaceSession.bare }

theorem mapPanesOf_eq (g : List (Surface ι ρ) → List (Surface ι ρ)) (children : List (Layout ι ρ)) :
    mapPanesOf g children = children.map (mapPanes g) := by
  induction children with
  | nil => rfl
  | cons child children ih =>
    rw [mapPanesOf, ih]
    rfl

theorem leavesOf_eq (children : List (Layout ι ρ)) : leavesOf children = children.flatMap LayoutNode.leaves := by
  induction children with
  | nil => rfl
  | cons child children ih =>
    rw [leavesOf, ih]
    rfl

theorem layoutSurfaces_split (direction : String) (ratio : Option ℚ) (ratios : Option (List ℚ))
    (children : List (Layout ι ρ)) :
    layoutSurfaces (.split direction ratio ratios children) = children.flatMap layoutSurfaces := by
  unfold layoutSurfaces
  rw [LayoutNode.leaves, leavesOf_eq, List.flatMap_def, List.flatten_flatten, List.map_map, List.flatMap_def]
  rfl

/-- The identity that a surface has, if it is a terminal. -/
def Surface.held (surface : Surface ι ρ) : Option ι := if surface.isTerminal then surface.session else none

theorem held_withSession {surface : Surface ι ρ} (h : surface.isTerminal = true) (session : Option ι) :
    (surface.withSession session).held = session := by
  unfold Surface.held
  rw [show (surface.withSession session).isTerminal = surface.isTerminal from rfl, h]
  rfl

theorem held_of_terminal {surface : Surface ι ρ} (h : surface.isTerminal = true) : surface.held = surface.session := by
  unfold Surface.held
  rw [h]
  rfl

theorem held_of_other {surface : Surface ι ρ} (h : surface.isTerminal = false) : surface.held = none := by
  unfold Surface.held
  rw [h]
  rfl

/-! ### The pass over the surfaces -/

section
variable [DecidableEq ι] {newSession : ℕ → ι} {newWorkspace : ℕ → κ} {assignMissing : Bool}

theorem assignSurface_bare (surface : Surface ι ρ) (progress : Progress ι) :
    (assignSurface newSession assignMissing surface progress).1.bare = surface.bare := by
  unfold assignSurface
  dsimp only
  split_ifs <;> rfl

theorem visitList_bare (surfaces : List (Surface ι ρ)) (progress : Progress ι) :
    (visitList (assignSurface newSession assignMissing) surfaces progress).1.map Surface.bare =
      surfaces.map Surface.bare := by
  induction surfaces generalizing progress with
  | nil => rfl
  | cons surface surfaces ih =>
    rw [visitList]
    dsimp only
    rw [List.map_cons, List.map_cons, assignSurface_bare, ih]

theorem assignChildren_eq (children : List (Layout ι ρ)) :
    ∀ progress, assignChildren newSession assignMissing children progress =
      visitList (assignSurfaceSessions newSession assignMissing) children progress := by
  induction children with
  | nil => exact fun _ => rfl
  | cons child children ih =>
    intro progress
    rw [assignChildren, visitList]
    dsimp only
    rw [ih]

theorem visits_layout (newSession : ℕ → ι) (assignMissing : Bool) (layout : Layout ι ρ) :
    Visits (assignSurface newSession assignMissing) layoutSurfaces layoutBare
      (assignSurfaceSessions newSession assignMissing) layout := by
  induction layout using LayoutNode.induction with
  | pane surfaces =>
    have hself : ∀ surfaces : List (Surface ι ρ), layoutSurfaces (.pane surfaces) = surfaces := fun surfaces =>
      List.append_nil surfaces
    refine ⟨fun p => ?_, fun p => ?_, fun p => ?_, fun p heq => ?_⟩
    · rw [assignSurfaceSessions, hself, hself]
    · rw [assignSurfaceSessions, hself]
    · rw [assignSurfaceSessions, layoutBare, layoutBare, mapPanes, mapPanes, visitList_bare]
    · rw [assignSurfaceSessions, hself, hself] at heq
      rw [assignSurfaceSessions]
      exact congrArg LayoutNode.pane heq
  | split direction ratio ratios children ih =>
    have hchildren := Visits.list ih
    refine ⟨fun p => ?_, fun p => ?_, fun p => ?_, fun p heq => ?_⟩
    · rw [assignSurfaceSessions]
      dsimp only
      rw [layoutSurfaces_split, layoutSurfaces_split, assignChildren_eq]
      exact hchildren.visited p
    · rw [assignSurfaceSessions]
      dsimp only
      rw [layoutSurfaces_split, assignChildren_eq]
      exact hchildren.state p
    · rw [assignSurfaceSessions]
      dsimp only
      rw [layoutBare, layoutBare, mapPanes, mapPanes, mapPanesOf_eq, mapPanesOf_eq, assignChildren_eq]
      exact congrArg (LayoutNode.split direction ratio ratios) (hchildren.kept p)
    · rw [assignSurfaceSessions] at heq ⊢
      dsimp only at heq ⊢
      rw [layoutSurfaces_split, layoutSurfaces_split, assignChildren_eq] at heq
      rw [assignChildren_eq, hchildren.fixed p heq]

theorem visits_tab (newSession : ℕ → ι) (assignMissing : Bool) (tab : TabSession ι ρ) :
    Visits (assignSurface newSession assignMissing) TabSession.surfaces TabSession.bare
      (assignTab newSession assignMissing) tab := by
  obtain ⟨title, titleSource, layout, worktree, worktreeRaw, unread, pullRequest⟩ := tab
  cases layout with
  | none => exact ⟨fun p => rfl, fun p => rfl, fun p => rfl, fun p _ => rfl⟩
  | some layout =>
    have hlayout := visits_layout newSession assignMissing layout
    have hself : ∀ (title : String) (titleSource : Option TabTitleSource) (layout : Layout ι ρ)
        (worktree : Option String) (worktreeRaw : Option (List UInt8)) (unread : Bool)
        (pullRequest : Option PullRequestSession),
        TabSession.surfaces ⟨title, titleSource, some layout, worktree, worktreeRaw, unread, pullRequest⟩ =
          layoutSurfaces layout := fun _ _ layout _ _ _ _ => List.append_nil (layoutSurfaces layout)
    refine ⟨fun p => ?_, fun p => ?_, fun p => ?_, fun p heq => ?_⟩
    · rw [hself]
      exact (hself ..).trans (hlayout.visited p)
    · rw [hself]
      exact hlayout.state p
    · exact congrArg (fun layout => (⟨title, titleSource, some layout, worktree, worktreeRaw, unread, pullRequest⟩ :
        TabSession ι ρ)) (hlayout.kept p)
    · rw [hself] at heq
      have hfixed := hlayout.fixed p ((hself ..).symm.trans heq)
      exact congrArg (fun layout => (⟨title, titleSource, some layout, worktree, worktreeRaw, unread, pullRequest⟩ :
        TabSession ι ρ)) hfixed

theorem visits_workspace (newSession : ℕ → ι) (assignMissing : Bool) (ws : WorkspaceSession ι κ ρ ω) :
    Visits (assignSurface newSession assignMissing) WorkspaceSession.surfaces WorkspaceSession.bareLayouts
      (assignWorkspace newSession assignMissing) ws := by
  obtain ⟨id, title, cwd, tabs, activeTab, legacyLayout, rest⟩ := ws
  have htabs := Visits.list fun tab (_ : tab ∈ tabs) => visits_tab newSession assignMissing tab
  cases legacyLayout with
  | none =>
    have hself : ∀ tabs : List (TabSession ι ρ),
        WorkspaceSession.surfaces ⟨id, title, cwd, tabs, activeTab, none, rest⟩ = tabs.flatMap TabSession.surfaces :=
      fun tabs => List.append_nil _
    refine ⟨fun p => ?_, fun p => ?_, fun p => ?_, fun p heq => ?_⟩
    · rw [hself]
      exact (hself _).trans (htabs.visited p)
    · rw [hself]
      exact htabs.state p
    · exact congrArg (fun tabs => (⟨id, title, cwd, tabs, activeTab, none, rest⟩ : WorkspaceSession ι κ ρ ω))
        (htabs.kept p)
    · rw [hself] at heq
      have hfixed := htabs.fixed p ((hself _).symm.trans heq)
      exact congrArg (fun tabs => (⟨id, title, cwd, tabs, activeTab, none, rest⟩ : WorkspaceSession ι κ ρ ω)) hfixed
  | some layout =>
    have hlayout := visits_layout newSession assignMissing layout
    have hself : ∀ (tabs : List (TabSession ι ρ)) (layout : Layout ι ρ),
        WorkspaceSession.surfaces ⟨id, title, cwd, tabs, activeTab, some layout, rest⟩ =
          tabs.flatMap TabSession.surfaces ++ layoutSurfaces layout :=
      fun tabs layout => congrArg (tabs.flatMap TabSession.surfaces ++ ·) (List.append_nil (layoutSurfaces layout))
    refine ⟨fun p => ?_, fun p => ?_, fun p => ?_, fun p heq => ?_⟩
    · rw [hself, visitList_append]
      refine (hself _ _).trans ?_
      rw [htabs.visited, hlayout.visited, htabs.state]
    · rw [hself, visitList_append]
      change (assignSurfaceSessions newSession assignMissing layout
        (visitList (assignTab newSession assignMissing) tabs p).2).2 = _
      rw [hlayout.state, htabs.state]
    · have hbare : ∀ (tabs : List (TabSession ι ρ)) (layout : Layout ι ρ),
          WorkspaceSession.bareLayouts
            (⟨id, title, cwd, tabs, activeTab, some layout, rest⟩ : WorkspaceSession ι κ ρ ω) =
            ⟨id, title, cwd, tabs.map TabSession.bare, activeTab, some (layoutBare layout), rest⟩ := fun _ _ => rfl
      rw [hbare]
      refine (hbare _ _).trans ?_
      rw [htabs.kept, hlayout.kept]
    · rw [hself] at heq
      have hparts := List.append_inj ((hself _ _).symm.trans heq) (htabs.length p)
      have hfirst := htabs.fixed p hparts.1
      have hsecond := hlayout.fixed _ hparts.2
      change (⟨id, title, cwd, _, activeTab, some _, rest⟩ : WorkspaceSession ι κ ρ ω) = _
      rw [hfirst, hsecond]

/-- The pass over the workspaces goes through their surfaces, and gives those an identity that have none. -/
theorem visitList_identify (newSession : ℕ → ι) (newWorkspace : ℕ → κ) (assignMissing : Bool)
    (workspaces : List (WorkspaceSession ι κ ρ ω)) (n : ℕ) (p : Progress ι) :
    ((visitList (identifyWorkspace newSession newWorkspace assignMissing) workspaces (n, p)).1.flatMap
        WorkspaceSession.surfaces =
      (visitList (assignSurface newSession assignMissing) (workspaces.flatMap WorkspaceSession.surfaces) p).1) ∧
    ((visitList (identifyWorkspace newSession newWorkspace assignMissing) workspaces (n, p)).1.map
      WorkspaceSession.bare = workspaces.map WorkspaceSession.bare) ∧
    List.Forall₂ (fun ws after => after.id.isSome = true ∧ (ws.id.isSome = true → after.id = ws.id)) workspaces
      (visitList (identifyWorkspace newSession newWorkspace assignMissing) workspaces (n, p)).1 := by
  induction workspaces generalizing n p with
  | nil => exact ⟨rfl, rfl, .nil⟩
  | cons ws workspaces ih =>
    -- the identity of the workspace changes nothing about its surfaces
    obtain ⟨named, m, hnamed, hid, hsame, hsurfaces, hbare⟩ : ∃ (named : WorkspaceSession ι κ ρ ω) (m : ℕ),
        identifyWorkspace newSession newWorkspace assignMissing ws (n, p) =
          ((assignWorkspace newSession assignMissing named p).1, m,
            (assignWorkspace newSession assignMissing named p).2) ∧
        named.id.isSome = true ∧ (ws.id.isSome = true → named.id = ws.id) ∧
        named.surfaces = ws.surfaces ∧ named.bare = ws.bare := by
      cases hid : ws.id with
      | none =>
        refine ⟨{ ws with id := some (newWorkspace n) }, n + 1, ?_, rfl, nofun, rfl, rfl⟩
        unfold identifyWorkspace
        rw [hid]
        rfl
      | some id =>
        refine ⟨ws, n, ?_, by rw [hid]; rfl, fun _ => hid, rfl, rfl⟩
        unfold identifyWorkspace
        rw [hid]
        rfl
    have hvisits := visits_workspace newSession assignMissing named
    have hkept : (assignWorkspace newSession assignMissing named p).1.id = named.id := by
      have hid := congrArg WorkspaceSession.id (hvisits.kept p)
      exact hid
    obtain ⟨hlist, hlistBare, hlistIds⟩ := ih m (assignWorkspace newSession assignMissing named p).2
    rw [visitList, hnamed]
    dsimp only
    refine ⟨?_, ?_, .cons ⟨?_, fun h => ?_⟩ hlistIds⟩
    · rw [List.flatMap_cons, List.flatMap_cons, visitList_append, hlist, hvisits.visited, hvisits.state, hsurfaces]
    · rw [List.map_cons, List.map_cons, hlistBare, ← hbare]
      congr 1
      exact congrArg (fun ws : WorkspaceSession ι κ ρ ω => { ws with id := none }) (hvisits.kept p)
    · rw [hkept]
      exact hid
    · rw [hkept]
      exact hsame h

/-- Where every workspace has its identity, only the surfaces are visited. -/
theorem identify_identified (newSession : ℕ → ι) (newWorkspace : ℕ → κ) (assignMissing : Bool)
    (workspaces : List (WorkspaceSession ι κ ρ ω)) (h : ∀ ws ∈ workspaces, ws.id.isSome = true) (n : ℕ)
    (p : Progress ι) :
    visitList (identifyWorkspace newSession newWorkspace assignMissing) workspaces (n, p) =
      ((visitList (assignWorkspace newSession assignMissing) workspaces p).1, n,
        (visitList (assignWorkspace newSession assignMissing) workspaces p).2) := by
  induction workspaces generalizing n p with
  | nil => rfl
  | cons ws workspaces ih =>
    obtain ⟨hfirst, hrest⟩ := List.forall_mem_cons.mp h
    have hws : identifyWorkspace newSession newWorkspace assignMissing ws (n, p) =
        ((assignWorkspace newSession assignMissing ws p).1, n, (assignWorkspace newSession assignMissing ws p).2) := by
      unfold identifyWorkspace
      obtain ⟨id, hid⟩ := Option.isSome_iff_exists.mp hfirst
      rw [hid]
      rfl
    rw [visitList, visitList, hws]
    dsimp only
    rw [ih hrest]

end

/-! ### Identities of terminals -/

section
variable {newSession : ℕ → ι} {assignMissing : Bool}

/-- New identities are all different, and none of them is one of these surfaces'. -/
structure Fresh (newSession : ℕ → ι) (surfaces : List (Surface ι ρ)) : Prop where
  injective : ∀ m n, newSession m = newSession n → m = n
  unused : ∀ surface ∈ surfaces, ∀ n, surface.session ≠ some (newSession n)

/-- The identities that are still to come have not been seen. -/
def Unseen (newSession : ℕ → ι) (p : Progress ι) : Prop := ∀ n, p.sessions ≤ n → newSession n ∉ p.seen

/-- What a round does to the surface and to what was seen. -/
structure Round (newSession : ℕ → ι) (surface : Surface ι ρ) (p : Progress ι) (after : Surface ι ρ)
    (p' : Progress ι) : Prop where
  terminal : after.isTerminal = surface.isTerminal
  other : surface.isTerminal = false → after.session = none
  new : ∀ id, after.held = some id → id ∉ p.seen
  seen : ∀ id, id ∈ p'.seen ↔ id ∈ p.seen ∨ after.held = some id
  origin : ∀ id, after.held = some id → surface.held = some id ∨ ∃ n, id = newSession n
  sessions : p.sessions ≤ p'.sessions
  unseen : Unseen newSession p'
  first : ∀ id, surface.held = some id → id ∉ p.seen → after = surface
  later : ∀ id, surface.held = some id → id ∈ p.seen → ∃ n, after = surface.withSession (some (newSession n))

/-- A round that gives a new identity. -/
theorem round_fresh {surface : Surface ι ρ} {p : Progress ι} (hterminal : surface.isTerminal = true)
    (hinjective : ∀ m n, newSession m = newSession n → m = n) (hunseen : Unseen newSession p)
    (hsurface : surface.held = none ∨ ∃ id ∈ p.seen, surface.held = some id) :
    Round newSession surface p (surface.withSession (some (newSession p.sessions)))
      ⟨newSession p.sessions :: p.seen, p.sessions + 1⟩ := by
  have hheld := held_withSession hterminal (some (newSession p.sessions))
  refine ⟨rfl, fun hother => ?_, fun id hid => ?_, fun id => ?_, fun id hid => ?_, Nat.le_succ _, fun n hn => ?_,
    fun id hid hnew => ?_, fun id _ _ => ⟨_, rfl⟩⟩
  · rw [hother] at hterminal
    exact nomatch hterminal
  · rw [hheld] at hid
    obtain rfl := Option.some.inj hid
    exact hunseen _ (Nat.le_refl _)
  · rw [hheld, List.mem_cons, Option.some.injEq]
    constructor
    · rintro (rfl | hseen)
      · exact .inr rfl
      · exact .inl hseen
    · rintro (hseen | rfl)
      · exact .inr hseen
      · exact .inl rfl
  · rw [hheld] at hid
    exact .inr ⟨_, (Option.some.inj hid).symm⟩
  · intro hmem
    rcases List.mem_cons.mp hmem with heq | hseen
    · have hsame := hinjective _ _ heq
      dsimp only at hn
      omega
    · exact hunseen n (Nat.le_of_succ_le hn) hseen
  · rcases hsurface with hnone | ⟨other, hother, hsome⟩
    · rw [hnone] at hid
      exact nomatch hid
    · rw [hsome] at hid
      exact absurd (Option.some.inj hid ▸ hother) hnew

/-- A round that leaves the surface as it is. -/
theorem round_kept {surface : Surface ι ρ} {p : Progress ι} {seen : List ι} (hterminal : surface.isTerminal = true)
    (hunseen : Unseen newSession p) (hunused : ∀ n, surface.session ≠ some (newSession n))
    (hnew : ∀ id, surface.held = some id → id ∉ p.seen)
    (hseen : ∀ id, id ∈ seen ↔ id ∈ p.seen ∨ surface.held = some id) :
    Round newSession surface p surface ⟨seen, p.sessions⟩ := by
  refine ⟨rfl, fun hother => ?_, hnew, hseen, fun id hid => .inl hid, Nat.le_refl _, fun n hn hmem => ?_,
    fun _ _ _ => rfl, fun id hid hin => absurd hin (hnew id hid)⟩
  · rw [hother] at hterminal
    exact nomatch hterminal
  · rcases (hseen _).mp hmem with hold | hself
    · exact hunseen n hn hold
    · rw [held_of_terminal hterminal] at hself
      exact hunused n hself

section
variable [DecidableEq ι]

theorem round_assign (assignMissing : Bool) (surface : Surface ι ρ) {p : Progress ι}
    (hinjective : ∀ m n, newSession m = newSession n → m = n)
    (hunseen : Unseen newSession p) (hunused : ∀ n, surface.session ≠ some (newSession n)) :
    Round newSession surface p (assignSurface newSession assignMissing surface p).1
      (assignSurface newSession assignMissing surface p).2 := by
  unfold assignSurface
  dsimp only
  cases hterminal : surface.isTerminal with
  | false =>
    have hheld : (surface.withSession none).held = none := held_of_other hterminal
    rw [Bool.not_false, if_pos rfl]
    refine ⟨rfl, fun _ => rfl, fun id hid => ?_, fun id => ?_, fun id hid => ?_, Nat.le_refl _, hunseen,
      fun id hid _ => ?_, fun id hid _ => ?_⟩
    · rw [hheld] at hid
      exact nomatch hid
    · rw [hheld]
      exact ⟨.inl, fun h => h.elim (fun hin => hin) nofun⟩
    · rw [hheld] at hid
      exact nomatch hid
    · rw [held_of_other hterminal] at hid
      exact nomatch hid
    · rw [held_of_other hterminal] at hid
      exact nomatch hid
  | true =>
    rw [Bool.not_true, if_neg Bool.false_ne_true]
    have hheld := held_of_terminal hterminal
    cases hsession : surface.session with
    | none =>
      rw [hsession] at hheld
      cases assignMissing with
      | true => exact round_fresh hterminal hinjective hunseen (.inl hheld)
      | false =>
        refine round_kept hterminal hunseen hunused (fun id hid => ?_) fun id => ?_
        · rw [hheld] at hid
          exact nomatch hid
        · rw [hheld]
          exact ⟨.inl, fun h => h.elim (fun hin => hin) nofun⟩
    | some existing =>
      rw [hsession] at hheld
      by_cases hseen : existing ∈ p.seen
      · simp only [if_pos hseen, if_true]
        exact round_fresh hterminal hinjective hunseen (.inr ⟨existing, hseen, hheld⟩)
      · simp only [if_neg hseen, Bool.false_eq_true, if_false]
        refine round_kept hterminal hunseen hunused (fun id hid => ?_) fun id => ?_
        · rw [hheld] at hid
          exact Option.some.inj hid ▸ hseen
        · rw [hheld, List.mem_cons, Option.some.injEq]
          constructor
          · rintro (rfl | hold)
            · exact .inr rfl
            · exact .inl hold
          · rintro (hold | rfl)
            · exact .inr hold
            · exact .inl rfl

/-- What the rounds for some surfaces do, from the beginning. -/
structure Assigned (newSession : ℕ → ι) (surfaces after : List (Surface ι ρ)) (p p' : Progress ι) : Prop where
  unseen : Unseen newSession p'
  others : ∀ surface ∈ after, surface.isTerminal = false → surface.session = none
  nodup : (after.filterMap Surface.held).Nodup
  new : ∀ id ∈ after.filterMap Surface.held, id ∉ p.seen
  seen : ∀ id, id ∈ p'.seen ↔ id ∈ p.seen ∨ id ∈ after.filterMap Surface.held
  origin : ∀ id ∈ after.filterMap Surface.held, id ∈ surfaces.filterMap Surface.held ∨ ∃ n, id = newSession n
  holds : ∀ id ∈ surfaces.filterMap Surface.held, id ∈ p'.seen

theorem assigned_list (assignMissing : Bool) {surfaces : List (Surface ι ρ)} (hfresh : Fresh newSession surfaces)
    {p : Progress ι} (hunseen : Unseen newSession p) :
    Assigned newSession surfaces (visitList (assignSurface newSession assignMissing) surfaces p).1 p
      (visitList (assignSurface newSession assignMissing) surfaces p).2 := by
  induction surfaces generalizing p with
  | nil =>
    exact ⟨hunseen, (fun _ h => nomatch h), .nil, (fun _ h => nomatch h),
      fun id => ⟨.inl, fun h => h.elim (fun hin => hin) nofun⟩, (fun _ h => nomatch h), (fun _ h => nomatch h)⟩
  | cons surface surfaces ih =>
    have hround := round_assign assignMissing surface hfresh.injective hunseen
      (hfresh.unused surface List.mem_cons_self)
    have hlist := ih ⟨hfresh.injective, fun other hother => hfresh.unused other (List.mem_cons_of_mem _ hother)⟩
      hround.unseen
    rw [visitList]
    dsimp only
    generalize assignSurface newSession assignMissing surface p = round at hround hlist ⊢
    obtain ⟨first, p1⟩ := round
    generalize visitList (assignSurface newSession assignMissing) surfaces p1 = rest at hlist ⊢
    obtain ⟨after, p'⟩ := rest
    dsimp only at hround hlist ⊢
    have hmem : ∀ id, id ∈ (first :: after).filterMap Surface.held ↔
        first.held = some id ∨ id ∈ after.filterMap Surface.held := by
      intro id
      rw [List.mem_filterMap, List.mem_filterMap]
      simp only [List.exists_mem_cons_iff]
    refine ⟨hlist.unseen, fun other hother hterminal => ?_, ?_, fun id hid => ?_, fun id => ?_, fun id hid => ?_,
      fun id hid => ?_⟩
    · rcases List.mem_cons.mp hother with rfl | hother
      · exact hround.other (hround.terminal.symm.trans hterminal)
      · exact hlist.others other hother hterminal
    · rw [List.filterMap_cons]
      cases hfirst : first.held with
      | none => exact hlist.nodup
      | some id =>
        refine List.nodup_cons.mpr ⟨fun hid => ?_, hlist.nodup⟩
        exact hlist.new id hid ((hround.seen id).mpr (.inr hfirst))
    · rcases (hmem id).mp hid with hself | hin
      · exact hround.new id hself
      · exact fun hseen => hlist.new id hin ((hround.seen id).mpr (.inl hseen))
    · rw [hlist.seen, hround.seen, hmem, or_assoc]
    · rcases (hmem id).mp hid with hself | hin
      · rcases hround.origin id hself with hheld | hnew
        · exact .inl (List.mem_filterMap.mpr ⟨surface, List.mem_cons_self, hheld⟩)
        · exact .inr hnew
      · rcases hlist.origin id hin with hheld | hnew
        · obtain ⟨other, hother, hheld⟩ := List.mem_filterMap.mp hheld
          exact .inl (List.mem_filterMap.mpr ⟨other, List.mem_cons_of_mem _ hother, hheld⟩)
        · exact .inr hnew
    · obtain ⟨other, hother, hheld⟩ := List.mem_filterMap.mp hid
      rcases List.mem_cons.mp hother with rfl | hother
      · -- a terminal that had an identity leaves it among those that were seen
        refine (hlist.seen id).mpr (.inl ((hround.seen id).mpr ?_))
        by_cases hseen : id ∈ p.seen
        · exact .inl hseen
        · rw [hround.first id hheld hseen]
          exact .inr hheld
      · exact hlist.holds id (List.mem_filterMap.mpr ⟨other, hother, hheld⟩)

/-- Where the identities are different, a repair changes nothing. -/
theorem repair_nodup (newSession : ℕ → ι) {surfaces : List (Surface ι ρ)} {p : Progress ι}
    (hothers : ∀ surface ∈ surfaces, surface.isTerminal = false → surface.session = none)
    (hnodup : (surfaces.filterMap Surface.held).Nodup) (hnew : ∀ id ∈ surfaces.filterMap Surface.held, id ∉ p.seen) :
    (visitList (assignSurface newSession false) surfaces p).1 = surfaces ∧
      (visitList (assignSurface newSession false) surfaces p).2.sessions = p.sessions := by
  induction surfaces generalizing p with
  | nil => exact ⟨rfl, rfl⟩
  | cons surface surfaces ih =>
    obtain ⟨hother, hrest⟩ := List.forall_mem_cons.mp hothers
    obtain ⟨p1, hround, hsessions, hseen⟩ : ∃ p1, assignSurface newSession false surface p = (surface, p1) ∧
        p1.sessions = p.sessions ∧ ∀ id, id ∈ p1.seen → id ∈ p.seen ∨ surface.held = some id := by
      unfold assignSurface
      dsimp only
      cases hterminal : surface.isTerminal with
      | false =>
        have hnone := hother hterminal
        refine ⟨p, ?_, rfl, fun id => .inl⟩
        rw [Bool.not_false, if_pos rfl, ← hnone]
        rfl
      | true =>
        rw [Bool.not_true, if_neg Bool.false_ne_true]
        have hheld := held_of_terminal hterminal
        cases hsession : surface.session with
        | none => exact ⟨p, rfl, rfl, fun id => .inl⟩
        | some existing =>
          rw [hsession] at hheld
          have hunseen : existing ∉ p.seen := by
            refine hnew existing (List.mem_filterMap.mpr ⟨surface, List.mem_cons_self, hheld⟩)
          refine ⟨⟨existing :: p.seen, p.sessions⟩, ?_, rfl, fun id hid => ?_⟩
          · simp only [if_neg hunseen, Bool.false_eq_true, if_false]
          · rcases List.mem_cons.mp hid with rfl | hold
            · exact .inr hheld
            · exact .inl hold
    have hlater : (surfaces.filterMap Surface.held).Nodup ∧
        ∀ id ∈ surfaces.filterMap Surface.held, id ∉ p.seen ∧ surface.held ≠ some id := by
      rw [List.filterMap_cons] at hnodup hnew
      cases hheld : surface.held with
      | none =>
        rw [hheld] at hnodup hnew
        exact ⟨hnodup, fun id hid => ⟨hnew id hid, nofun⟩⟩
      | some own =>
        rw [hheld] at hnodup hnew
        obtain ⟨hown, hnodup⟩ := List.nodup_cons.mp hnodup
        refine ⟨hnodup, fun id hid => ⟨hnew id (List.mem_cons_of_mem _ hid), fun heq => hown ?_⟩⟩
        exact Option.some.inj heq ▸ hid
    obtain ⟨hlist, hcount⟩ := ih (p := p1) hrest hlater.1 fun id hid hin => by
      rcases hseen id hin with hold | hself
      · exact (hlater.2 id hid).1 hold
      · exact (hlater.2 id hid).2 hself
    rw [visitList, hround]
    dsimp only
    exact ⟨congrArg (surface :: ·) hlist, hcount.trans hsessions⟩

/-- What the pass over a state's surfaces does, when missing identities of terminals are assigned and when not. -/
structure Identified (newSession : ℕ → ι) (assignMissing : Bool) (before after : SessionState ι κ ρ ω τ) : Prop where
  distinct : (after.surfaces.filterMap Surface.held).Nodup
  first : ∀ front surface rest, before.surfaces = front ++ surface :: rest → ∀ id, surface.held = some id →
    (∀ earlier ∈ front, earlier.held ≠ some id) → after.surfaces[front.length]? = some surface
  later : ∀ front surface rest, before.surfaces = front ++ surface :: rest → ∀ id, surface.held = some id →
    (∃ earlier ∈ front, earlier.held = some id) →
      ∃ n, after.surfaces[front.length]? = some (surface.withSession (some (newSession n)))
  missing : ∀ front surface rest, before.surfaces = front ++ surface :: rest → surface.isTerminal = true →
    surface.session = none → ∃ assigned, after.surfaces[front.length]? = some assigned ∧
      assigned.session.isSome = assignMissing
  others : ∀ surface ∈ after.surfaces, surface.isTerminal = false → surface.session = none
  workspaces : List.Forall₂ (fun ws after => after.id.isSome = true ∧ (ws.id.isSome = true → after.id = ws.id))
    before.workspaces after.workspaces
  unchanged : after.bare = before.bare
  again : ∀ (newSession' : ℕ → ι) (newWorkspace' : ℕ → κ),
    repairDurableIdentities newSession' newWorkspace' after = (after, ⟨0, 0⟩)

theorem identified_durable (newWorkspace : ℕ → κ) (assignMissing : Bool) {state : SessionState ι κ ρ ω τ}
    (hfresh : Fresh newSession state.surfaces) :
    Identified newSession assignMissing state (durableIdentities newSession newWorkspace assignMissing state).1 := by
  obtain ⟨hsurfaces, hbare, hids⟩ :=
    visitList_identify newSession newWorkspace assignMissing state.workspaces 0 ⟨[], 0⟩
  have hassigned := assigned_list assignMissing hfresh (p := ⟨[], 0⟩) fun n _ hmem => nomatch hmem
  have hafter : (durableIdentities newSession newWorkspace assignMissing state).1.surfaces =
      (visitList (assignSurface newSession assignMissing) state.surfaces ⟨[], 0⟩).1 := hsurfaces
  -- the round of one surface, after those in front of it
  have hround : ∀ front surface rest, state.surfaces = front ++ surface :: rest →
      ∃ after p',
        (durableIdentities newSession newWorkspace assignMissing state).1.surfaces[front.length]? = some after ∧
        after = (assignSurface newSession assignMissing surface p').1 ∧
        Round newSession surface p' after (assignSurface newSession assignMissing surface p').2 ∧
        (∀ id, id ∈ p'.seen → id ∈ front.filterMap Surface.held ∨ ∃ n, id = newSession n) ∧
        ∀ id ∈ front.filterMap Surface.held, id ∈ p'.seen := by
    intro front surface rest hsplit
    have hfront : Fresh newSession front := ⟨hfresh.injective, fun other hother =>
      hfresh.unused other (hsplit ▸ List.mem_append_left _ hother)⟩
    have hbefore := assigned_list assignMissing hfront (p := ⟨[], 0⟩) fun n _ hmem => nomatch hmem
    have hunused := hfresh.unused surface (hsplit ▸ List.mem_append_right _ List.mem_cons_self)
    refine ⟨_, _, ?_, rfl, round_assign assignMissing surface hfresh.injective hbefore.unseen hunused, fun id hid => ?_,
      hbefore.holds⟩
    · rw [hafter, hsplit]
      exact getElem?_visitList front surface rest (⟨[], 0⟩ : Progress ι)
    · exact hbefore.origin id (((hbefore.seen id).mp hid).resolve_left nofun)
  refine ⟨?_, fun front surface rest hsplit id hid hnone => ?_, fun front surface rest hsplit id hid hsome => ?_,
    fun front surface rest hsplit hterminal hnone => ?_, ?_, hids, ?_, fun newSession' newWorkspace' => ?_⟩
  · rw [hafter]
    exact hassigned.nodup
  · obtain ⟨after, p', hget, -, hround, hseen, -⟩ := hround front surface rest hsplit
    rw [hget, hround.first id hid fun hin => ?_]
    rcases hseen id hin with hheld | ⟨n, hn⟩
    · obtain ⟨earlier, hearlier, hheld⟩ := List.mem_filterMap.mp hheld
      exact hnone earlier hearlier hheld
    · -- a new identity is none that a surface had
      have hsession : surface.session = some (newSession n) := by
        unfold Surface.held at hid
        split_ifs at hid with hterminal
        rw [hid, hn]
      exact hfresh.unused surface (hsplit ▸ List.mem_append_right _ List.mem_cons_self) n hsession
  · obtain ⟨after, p', hget, -, hround, -, hholds⟩ := hround front surface rest hsplit
    obtain ⟨earlier, hearlier, hheld⟩ := hsome
    obtain ⟨n, hn⟩ := hround.later id hid (hholds id (List.mem_filterMap.mpr ⟨earlier, hearlier, hheld⟩))
    exact ⟨n, hn ▸ hget⟩
  · obtain ⟨after, p', hget, heq, -, -, -⟩ := hround front surface rest hsplit
    refine ⟨after, hget, ?_⟩
    rw [heq]
    unfold assignSurface
    dsimp only
    rw [hterminal, hnone]
    cases assignMissing with
    | true => rfl
    | false =>
      change surface.session.isSome = false
      rw [hnone]
      rfl
  · rw [hafter]
    exact hassigned.others
  · unfold SessionState.bare
    exact congrArg (fun workspaces => ({ state with workspaces := workspaces } : SessionState ι κ ρ ω τ)) hbare
  · have hevery : ∀ ws ∈ (durableIdentities newSession newWorkspace assignMissing state).1.workspaces,
        ws.id.isSome = true := by
      intro ws hws
      obtain ⟨i, hi, rfl⟩ := List.getElem_of_mem hws
      have hlength := hids.length_eq
      exact (List.forall₂_iff_get.mp hids).2 i (hlength.symm ▸ hi) hi |>.1
    have hvisits := Visits.list fun ws
      (_ : ws ∈ (durableIdentities newSession newWorkspace assignMissing state).1.workspaces) =>
      visits_workspace newSession' false ws
    have hothers : ∀ surface ∈ (durableIdentities newSession newWorkspace assignMissing state).1.surfaces,
        surface.isTerminal = false → surface.session = none := by
      rw [hafter]
      exact hassigned.others
    have hnodup : ((durableIdentities newSession newWorkspace assignMissing state).1.surfaces.filterMap
        Surface.held).Nodup := by
      rw [hafter]
      exact hassigned.nodup
    obtain ⟨hsame, hcount⟩ := repair_nodup newSession' (p := ⟨[], 0⟩) hothers hnodup
      fun id _ hin => nomatch hin
    unfold repairDurableIdentities
    generalize (durableIdentities newSession newWorkspace assignMissing state).1 = after at *
    unfold durableIdentities
    rw [identify_identified newSession' newWorkspace' false after.workspaces hevery 0 ⟨[], 0⟩]
    dsimp only
    rw [hvisits.fixed ⟨[], 0⟩ ((hvisits.visited _).trans hsame), hvisits.state]
    exact congrArg (fun count => (after, (⟨0, count⟩ : DurableIdentityAssignment))) hcount

end

end

/-! ### Tabs of single surfaces -/

section
variable [Inhabited ρ]

/-- What a pane keeps, and its other surfaces in their order. -/
inductive Keeps : List (Surface ι ρ) → Surface ι ρ → List (Surface ι ρ) → Prop where
  | empty : Keeps [] default []
  | focused {before after : List (Surface ι ρ)} {kept : Surface ι ρ} (hfocus : kept.focus = some true)
      (hbefore : ∀ surface ∈ before, surface.focus ≠ some true) :
      Keeps (before ++ kept :: after) kept (before ++ after)
  | first {after : List (Surface ι ρ)} {kept : Surface ι ρ}
      (hnone : ∀ surface ∈ kept :: after, surface.focus ≠ some true) : Keeps (kept :: after) kept after

/-- The surfaces of a pane, or the default one if it has none. -/
def filledPane : List (Surface ι ρ) → List (Surface ι ρ)
  | [] => [default]
  | surface :: surfaces => surface :: surfaces

/-- The layout that is left of `root`, and what each pane keeps and what not. -/
structure Demoted (root layout : Layout ι ρ) (picks : List (Surface ι ρ × List (Surface ι ρ))) : Prop where
  splits : splits layout = splits root
  panes : List.Forall₂ (fun pane pick => Keeps pane pick.1 pick.2) root.leaves picks
  kept : layout.leaves = picks.map fun pick => [pick.1]

theorem keeps_pane (first : Surface ι ρ) (rest : List (Surface ι ρ)) :
    ∃ kept others, Keeps (first :: rest) kept others ∧ ∀ promoted,
      demotePanesToFocusedSurface (.pane (first :: rest)) promoted =
        (.pane [kept], promoted ++ others.map promotedTab) := by
  cases hfocused : (first :: rest).findIdx? fun surface => surface.focus = some true with
  | none =>
    have hnone := List.findIdx?_eq_none_iff.mp hfocused
    refine ⟨first, rest, .first fun surface hmem hfocus => ?_, fun promoted => ?_⟩
    · have := hnone surface hmem
      rw [hfocus] at this
      exact nomatch this
    · rw [demotePanesToFocusedSurface, hfocused]
      rfl
  | some i =>
    obtain ⟨hi, hfocus, hbefore⟩ := List.findIdx?_eq_some_iff_getElem.mp hfocused
    refine ⟨(first :: rest)[i], (first :: rest).take i ++ (first :: rest).drop (i + 1), ?_, fun promoted => ?_⟩
    · have hsplit : (first :: rest).take i ++ (first :: rest)[i] :: (first :: rest).drop (i + 1) = first :: rest := by
        rw [List.getElem_cons_drop, List.take_append_drop]
      have hbefore' : ∀ surface ∈ (first :: rest).take i, surface.focus ≠ some true := by
        intro surface hmem
        obtain ⟨j, hj, rfl⟩ := List.mem_take_iff_getElem.mp hmem
        exact of_decide_eq_false (Bool.not_eq_true _ ▸ hbefore j (lt_of_lt_of_le hj (Nat.min_le_left _ _)))
      have hkeeps : Keeps ((first :: rest).take i ++ (first :: rest)[i] :: (first :: rest).drop (i + 1)) _ _ :=
        .focused (of_decide_eq_true hfocus) hbefore'
      rw [hsplit] at hkeeps
      exact hkeeps
    · rw [demotePanesToFocusedSurface, hfocused]
      dsimp only [Option.getD_some]
      rw [List.getD_eq_getElem?_getD, List.getElem?_eq_getElem hi, List.eraseIdx_eq_take_drop_succ]
      rfl

theorem demote_spec (layout : Layout ι ρ) :
    ∃ picks, ∀ promoted, Demoted layout (demotePanesToFocusedSurface layout promoted).1 picks ∧
      (demotePanesToFocusedSurface layout promoted).2 = promoted ++ (picks.flatMap Prod.snd).map promotedTab := by
  induction layout using LayoutNode.induction with
  | pane surfaces =>
    cases surfaces with
    | nil => exact ⟨[(default, [])], fun promoted => ⟨⟨rfl, .cons .empty .nil, rfl⟩, (List.append_nil promoted).symm⟩⟩
    | cons first rest =>
      obtain ⟨kept, others, hkeeps, heq⟩ := keeps_pane first rest
      refine ⟨[(kept, others)], fun promoted => ?_⟩
      rw [heq, List.flatMap_singleton]
      exact ⟨⟨rfl, .cons hkeeps .nil, rfl⟩, rfl⟩
  | split direction ratio ratios children ih =>
    -- the children one after the other, with the tabs of those in front
    have hchildren : ∃ picks : List (Surface ι ρ × List (Surface ι ρ)), ∀ promoted,
        (demoteChildren children promoted).1.map splits = children.map splits ∧
        List.Forall₂ (fun pane pick => Keeps pane pick.1 pick.2) (leavesOf children) picks ∧
        leavesOf (demoteChildren children promoted).1 = (picks.map fun pick => [pick.1]) ∧
        (demoteChildren children promoted).2 = promoted ++ (picks.flatMap Prod.snd).map promotedTab := by
      induction children with
      | nil => exact ⟨[], fun promoted => ⟨rfl, .nil, rfl, (List.append_nil promoted).symm⟩⟩
      | cons child children ihlist =>
        obtain ⟨hfirst, hrest⟩ := List.forall_mem_cons.mp ih
        obtain ⟨picks, hpicks⟩ := hfirst
        obtain ⟨morePicks, hmore⟩ := ihlist hrest
        refine ⟨picks ++ morePicks, fun promoted => ?_⟩
        obtain ⟨hdemoted, htabs⟩ := hpicks promoted
        obtain ⟨hsplits, hpanes, hkept, hmoreTabs⟩ := hmore (demotePanesToFocusedSurface child promoted).2
        rw [demoteChildren]
        dsimp only
        refine ⟨?_, List.rel_append hdemoted.panes hpanes, ?_, ?_⟩
        · rw [List.map_cons, List.map_cons, hsplits, hdemoted.splits]
        · rw [leavesOf, hdemoted.kept, hkept, List.map_append]
        · rw [hmoreTabs, htabs, List.flatMap_append, List.map_append, List.append_assoc]
    obtain ⟨picks, hpicks⟩ := hchildren
    refine ⟨picks, fun promoted => ?_⟩
    obtain ⟨hsplits, hpanes, hkept, htabs⟩ := hpicks promoted
    rw [demotePanesToFocusedSurface]
    refine ⟨⟨?_, hpanes, hkept⟩, htabs⟩
    rw [splits, splits, mapPanes, mapPanes, mapPanesOf_eq, mapPanesOf_eq]
    exact congrArg (LayoutNode.split direction ratio ratios) hsplits

theorem Keeps.perm {surfaces others : List (Surface ι ρ)} {kept : Surface ι ρ} (h : Keeps surfaces kept others) :
    (kept :: others).Perm (filledPane surfaces) := by
  cases h with
  | empty => exact .refl _
  | first hnone => exact .refl _
  | @focused before after kept hfocus hbefore =>
    have hfilled : filledPane (before ++ kept :: after) = before ++ kept :: after := by
      cases before <;> rfl
    rw [hfilled]
    exact List.perm_middle.symm

omit [Inhabited ρ] in
theorem surfaces_promotedTab (surfaces : List (Surface ι ρ)) :
    (surfaces.map promotedTab).flatMap TabSession.surfaces = surfaces := by
  rw [List.flatMap_map]
  exact List.flatMap_singleton' surfaces

/-- What becomes of the layout of a workspace without tabs. -/
structure Moved (root : Layout ι ρ) (tabs : List (TabSession ι ρ)) (layout : Layout ι ρ)
    (picks : List (Surface ι ρ × List (Surface ι ρ))) : Prop where
  demoted : Demoted root layout picks
  tabs : tabs = (TabSession.withLayout layout :: (picks.flatMap Prod.snd).map promotedTab).take maxSessionTabs
  once : ((TabSession.withLayout layout :: (picks.flatMap Prod.snd).map promotedTab).flatMap
    TabSession.surfaces).Perm (root.leaves.flatMap filledPane)

theorem Demoted.once {root layout : Layout ι ρ} {picks : List (Surface ι ρ × List (Surface ι ρ))}
    (h : Demoted root layout picks) :
    ((TabSession.withLayout layout :: (picks.flatMap Prod.snd).map promotedTab).flatMap
      TabSession.surfaces).Perm (root.leaves.flatMap filledPane) := by
  have hfirst : (TabSession.withLayout layout).surfaces = picks.map Prod.fst := by
    change layoutSurfaces layout ++ [] = _
    rw [List.append_nil, layoutSurfaces, h.kept, ← List.flatMap_def]
    exact List.flatMap_pure_eq_map Prod.fst picks
  rw [List.flatMap_cons, hfirst, surfaces_promotedTab]
  have hpanes := h.panes
  clear hfirst h
  generalize root.leaves = panes at hpanes
  induction hpanes with
  | nil => exact .nil
  | @cons pane pick panes picks hkeeps _ ih =>
    rw [List.map_cons, List.flatMap_cons, List.flatMap_cons, List.cons_append]
    calc pick.1 :: (picks.map Prod.fst ++ (pick.2 ++ picks.flatMap Prod.snd))
        |>.Perm (pick.1 :: (pick.2 ++ (picks.map Prod.fst ++ picks.flatMap Prod.snd))) :=
          (List.perm_append_comm_assoc _ _ _).cons _
      _ |>.Perm (filledPane pane ++ panes.flatMap filledPane) := hkeeps.perm.append ih

theorem migrateWorkspaceV1_layout (ws : WorkspaceSession ι κ ρ ω) {root : Layout ι ρ} (htabs : ws.tabs = [])
    (hlayout : ws.legacyLayout = some root) :
    ∃ tabs layout picks, Moved root tabs layout picks ∧
      migrateWorkspaceV1 ws = { ws with legacyLayout := none, tabs := tabs, activeTab := 0 } := by
  obtain ⟨picks, hpicks⟩ := demote_spec root
  obtain ⟨hdemoted, hpromoted⟩ := hpicks []
  refine ⟨_, _, picks, ⟨hdemoted, rfl, hdemoted.once⟩, ?_⟩
  unfold migrateWorkspaceV1
  rw [hlayout, htabs]
  dsimp only
  rw [List.isEmpty_nil, Bool.not_true, if_neg Bool.false_ne_true, hpromoted, List.nil_append, List.nil_append,
    List.singleton_append]
  generalize TabSession.withLayout _ :: _ = tabs
  split_ifs with hcap
  · rfl
  · rw [List.take_of_length_le (Nat.le_of_not_lt hcap)]

theorem migrateWorkspaceV1_tabs (ws : WorkspaceSession ι κ ρ ω) (htabs : ws.tabs ≠ []) :
    migrateWorkspaceV1 ws = { ws with legacyLayout := none } := by
  have hnonempty : ws.tabs.isEmpty = false := List.isEmpty_eq_false_iff.mpr htabs
  exact if_pos (congrArg not hnonempty)

/-- A migrated workspace has surfaces that it had, and new ones without an identity. -/
theorem surfaces_migrated (ws : WorkspaceSession ι κ ρ ω) {surface : Surface ι ρ}
    (h : surface ∈ (migrateWorkspaceV1 ws).surfaces) : surface ∈ ws.surfaces ∨ surface.session = none := by
  by_cases htabs : ws.tabs = []
  · cases hlayout : ws.legacyLayout with
    | none =>
      refine .inr ?_
      unfold migrateWorkspaceV1 at h
      rw [hlayout, htabs] at h
      have hsurface : surface = default := List.mem_singleton.mp h
      rw [hsurface]
      rfl
    | some root =>
      obtain ⟨tabs, layout, picks, hmoved, heq⟩ := migrateWorkspaceV1_layout ws htabs hlayout
      rw [heq] at h
      have hmem : surface ∈ tabs.flatMap TabSession.surfaces := by
        rcases List.mem_append.mp h with hin | hin
        · exact hin
        · exact nomatch hin
      obtain ⟨tab, htab, hin⟩ := List.mem_flatMap.mp hmem
      rw [hmoved.tabs] at htab
      have hfilled := hmoved.once.mem_iff.mp (List.mem_flatMap.mpr ⟨tab, List.mem_of_mem_take htab, hin⟩)
      obtain ⟨pane, hpane, hin⟩ := List.mem_flatMap.mp hfilled
      cases pane with
      | nil =>
        rw [List.mem_singleton.mp hin]
        exact .inr rfl
      | cons first rest =>
        refine .inl (List.mem_append_right _ ?_)
        rw [hlayout]
        exact List.mem_append_left _ (List.mem_flatten.mpr ⟨_, hpane, hin⟩)
  · left
    rw [migrateWorkspaceV1_tabs ws htabs] at h
    rcases List.mem_append.mp h with hin | hin
    · exact List.mem_append_left _ hin
    · exact nomatch hin

theorem fresh_migrated {newSession : ℕ → ι} {state : SessionState ι κ ρ ω τ} (h : Fresh newSession state.surfaces)
    (version : ℕ) :
    Fresh newSession
      ({ state with workspaces := state.workspaces.map migrateWorkspaceV1, version := version } :
        SessionState ι κ ρ ω τ).surfaces := by
  refine ⟨h.injective, fun surface hmem n => ?_⟩
  obtain ⟨ws, hws, hin⟩ := List.mem_flatMap.mp hmem
  obtain ⟨old, hold, rfl⟩ := List.mem_map.mp hws
  rcases surfaces_migrated old hin with hsurface | hnone
  · exact h.unused surface (List.mem_flatMap.mpr ⟨old, hold, hsurface⟩) n
  · rw [hnone]
    exact nofun

/-- The migration of a session, and a repair. -/
theorem session_migrates [DecidableEq ι] (newSession : ℕ → ι) (newWorkspace : ℕ → κ) (state : SessionState ι κ ρ ω τ)
    (hfresh : Fresh newSession state.surfaces) :
    (∀ ws ∈ state.workspaces, ∀ root, ws.tabs = [] → ws.legacyLayout = some root → ∃ tabs layout picks,
      Moved root tabs layout picks ∧
        migrateWorkspaceV1 ws = { ws with legacyLayout := none, tabs := tabs, activeTab := 0 }) ∧
    (∀ ws ∈ state.workspaces, ws.tabs = [] → ws.legacyLayout = none →
      migrateWorkspaceV1 ws = { ws with tabs := [.withLayout defaultLayoutPane] }) ∧
    (∀ ws ∈ state.workspaces, ws.tabs ≠ [] → migrateWorkspaceV1 ws = { ws with legacyLayout := none }) ∧
    Identified newSession true
      { state with workspaces := state.workspaces.map migrateWorkspaceV1, version := sessionSchemaVersion }
      (migrateSessionV1 newSession newWorkspace state) ∧
    Identified newSession false state (repairDurableIdentities newSession newWorkspace state).1 := by
  refine ⟨fun ws _ root htabs hlayout => migrateWorkspaceV1_layout ws htabs hlayout, fun ws _ htabs hlayout => ?_,
    fun ws _ => migrateWorkspaceV1_tabs ws, ?_, identified_durable newWorkspace false hfresh⟩
  · unfold migrateWorkspaceV1
    rw [hlayout, htabs]
    rfl
  · -- the version is written after the identities, which do not look at it
    exact identified_durable newWorkspace true (fresh_migrated hfresh sessionSchemaVersion)

/-! ### One workspace with two panes -/

def sampleSurface (name : String) (session : Option ℕ) (focus : Option Bool) : Surface ℕ Unit :=
  ⟨⟨some "terminal", some name, none, session, ()⟩, focus⟩

/-- Two terminals with one identity, and an empty pane. -/
def sampleState : SessionState ℕ ℕ Unit Unit Unit where
  version := 1
  activeWorkspace := 0
  workspaces := [{
    id := none
    title := "api"
    cwd := "/srv/api"
    tabs := []
    activeTab := 0
    legacyLayout := some (.split "vertical" none none [
      .pane [sampleSurface "build" (some 1) none, sampleSurface "test" (some 1) (some true)],
      .pane []])
    rest := () }]
  rest := ()

theorem fresh_sample : Fresh (100 + ·) sampleState.surfaces := by
  refine ⟨fun m n h => Nat.add_left_cancel h, fun surface hmem n => ?_⟩
  have hheld : ∀ surface ∈ sampleState.surfaces, surface.session = some 1 := by decide
  rw [hheld surface hmem]
  intro h
  have := Option.some.inj h
  omega

theorem session_migrates_sample :
    Identified (100 + ·) true
      { sampleState with
        workspaces := sampleState.workspaces.map migrateWorkspaceV1, version := sessionSchemaVersion }
      (migrateSessionV1 (100 + ·) (100 + ·) sampleState) :=
  (session_migrates (100 + ·) (100 + ·) sampleState fresh_sample).2.2.2.1

/-- An empty pane gets a surface that the session did not have. -/
theorem not_only_old_surfaces :
    ¬ ∀ state : SessionState ℕ ℕ Unit Unit Unit, Fresh (100 + ·) state.surfaces →
      ∀ surface ∈ (migrateSessionV1 (100 + ·) (100 + ·) state).surfaces,
        ∃ old ∈ state.surfaces, surface.bare = old.bare := by
  intro h
  have hall := h sampleState fresh_sample
  exact absurd hall (by decide)

end

end Paneflow.Config.SessionSchema
