import Paneflow.Serve.State

/-!
# The count of status changes

`runs_counted`: along every run in which a session is held, `state_seq` does not decrease, and when the status
has changed it has increased, if each row that replaced the generation declared the status that was held.
-/

namespace Paneflow.Serve

variable {R A S : Type} {catalog : Catalog R A}

/-! ### Entries and states -/

/-- The count does not decrease, and when the rows adopt it says when the status has changed. -/
structure Counted (adopting : Prop) (entry entry' : SessionEntry S) : Prop where
  le : entry.stateSeq ≤ entry'.stateSeq
  lt : adopting → entry.status ≠ entry'.status → entry.stateSeq < entry'.stateSeq

variable {adopting : Prop}

theorem Counted.of_eq {entry entry' : SessionEntry S} (hseq : entry'.stateSeq = entry.stateSeq)
    (hstatus : adopting → entry'.status = entry.status) : Counted adopting entry entry' :=
  ⟨hseq.ge, fun hadopting hne => absurd (hstatus hadopting).symm hne⟩

theorem Counted.same {entry entry' : SessionEntry S} (hseq : entry'.stateSeq = entry.stateSeq)
    (hstatus : entry'.status = entry.status) : Counted adopting entry entry' :=
  .of_eq hseq fun _ => hstatus

theorem Counted.trans {entry entry' entry'' : SessionEntry S} (h : Counted adopting entry entry')
    (h' : Counted adopting entry' entry'') : Counted adopting entry entry'' := by
  refine ⟨h.le.trans h'.le, ?_⟩
  intro hadopting hne
  by_cases hfirst : entry.status = entry'.status
  · exact h.le.trans_lt (h'.lt hadopting (hfirst ▸ hne))
  · exact (h.lt hadopting hfirst).trans_le h'.le

theorem derive_counted (entry : SessionEntry S) (nowMs : ℕ) :
    Counted adopting entry (entry.derive catalog nowMs).entry := by
  have hseq : (entry.derive catalog nowMs).entry.stateSeq =
      if entry.status ≠ (entry.declaredVerdict catalog).1 then entry.stateSeq + 1
      else entry.stateSeq := rfl
  refine ⟨?_, ?_⟩
  · rw [hseq]
    split_ifs <;> omega
  · intro _ hne
    have hne : entry.status ≠ (entry.declaredVerdict catalog).1 := hne
    rw [hseq, if_pos hne]
    omega

variable [LinearOrder S] {state state' state'' : WorkerState S A}

/-- Every entry of the first state is in the second one, and counted. -/
def Grows (adopting : Prop) (state state' : WorkerState S A) : Prop :=
  ∀ session entry, state.sessions.get? session = some entry →
    ∃ entry', state'.sessions.get? session = some entry' ∧ Counted adopting entry entry'

/-- Every entry of the second state is from the first one, and counted. -/
def Shrinks (adopting : Prop) (state state' : WorkerState S A) : Prop :=
  ∀ session entry', state'.sessions.get? session = some entry' →
    ∃ entry, state.sessions.get? session = some entry ∧ Counted adopting entry entry'

theorem Grows.trans (h : Grows adopting state state') (h' : Grows adopting state' state'') :
    Grows adopting state state'' := by
  intro session entry hentry
  obtain ⟨entry', hentry', hcounted⟩ := h session entry hentry
  obtain ⟨entry'', hentry'', hcounted'⟩ := h' session entry' hentry'
  exact ⟨entry'', hentry'', hcounted.trans hcounted'⟩

theorem Grows.refl (state : WorkerState S A) : Grows adopting state state :=
  fun _ entry hentry => ⟨entry, hentry, .same rfl rfl⟩

theorem Shrinks.trans (h : Shrinks adopting state state') (h' : Shrinks adopting state' state'') :
    Shrinks adopting state state'' := by
  intro session entry'' hentry''
  obtain ⟨entry', hentry', hcounted'⟩ := h' session entry'' hentry''
  obtain ⟨entry, hentry, hcounted⟩ := h session entry' hentry'
  exact ⟨entry, hentry, hcounted.trans hcounted'⟩

theorem Grows.insert {session : S} {entry' : SessionEntry S}
    (h : ∀ entry, state.sessions.get? session = some entry → Counted adopting entry entry')
    (hsessions : state'.sessions = state.sessions.insert session entry') : Grows adopting state state' := by
  intro other entry hentry
  rw [hsessions, OrdMap.get?_insert]
  split_ifs with heq
  · subst heq
    exact ⟨entry', rfl, h entry hentry⟩
  · exact ⟨entry, hentry, .same rfl rfl⟩

/-! ### The operations -/

theorem applyCoreEvent_grows (state : WorkerState S A) (frame : CoreFrame S) :
    Grows adopting state (state.applyCoreEvent catalog frame).1 := by
  rcases applyCoreEvent_cases catalog state frame with
    ⟨-, heq⟩ | ⟨event, entry, -, hentry, -, ⟨-, heq⟩ | ⟨activity, heq⟩⟩
  · rw [heq]
    exact .refl state
  · refine .insert (fun held hheld => ?_) (congrArg WorkerState.sessions heq)
    obtain rfl := Option.some.inj (hentry.symm.trans hheld)
    exact .same rfl rfl
  · rw [heq]
    intro other held hheld
    rw [get?_acceptEvent]
    split_ifs with hother
    · subst hother
      obtain rfl := Option.some.inj (hentry.symm.trans hheld)
      have haccept : Counted adopting entry (entry.accept frame activity) := .same rfl rfl
      exact ⟨_, rfl, haccept.trans (derive_counted ..)⟩
    · exact ⟨held, hheld, .same rfl rfl⟩

theorem deriveAll_shrinks (select : S → Projection S → Option (Projection S)) (nowMs : ℕ)
    {sessions : List S} (hnodup : sessions.Nodup) (state : WorkerState S A) :
    Shrinks adopting state (state.deriveAll catalog select nowMs sessions).1 := by
  intro session entry' hentry'
  rw [get?_deriveAll select nowMs hnodup] at hentry'
  split_ifs at hentry'
  · obtain ⟨entry, hentry, rfl⟩ := Option.map_eq_some_iff.1 hentry'
    exact ⟨entry, hentry, derive_counted ..⟩
  · exact ⟨entry', hentry', .same rfl rfl⟩

theorem reconcile_shrinks (state : WorkerState S A) (nowMs : ℕ) :
    Shrinks adopting state (state.reconcileAdoptedActivity nowMs) := by
  intro session entry' hentry'
  unfold WorkerState.reconcileAdoptedActivity at hentry'
  rw [OrdMap.get?_mapValues] at hentry'
  obtain ⟨entry, hentry, rfl⟩ := Option.map_eq_some_iff.1 hentry'
  exact ⟨entry, hentry, .same rfl rfl⟩

theorem prune_shrinks (state : WorkerState S A) (seen : OrdMap S Unit) :
    Shrinks adopting state (state.prune seen) := by
  intro session entry' hentry'
  unfold WorkerState.prune at hentry'
  rw [OrdMap.get?_filterKeys] at hentry'
  split_ifs at hentry'
  exact ⟨entry', hentry', .same rfl rfl⟩

/-! ### Rows -/

/-- The status under a declaration. -/
def declaredAs (declared : DeclaredStatus) (lifecycle : SessionLifecycle) : Status :=
  if declared.state = declaredError then .errored
  else if declared.state = declaredWorking ∧ lifecycle.isRunning then .busy
  else if declared.state = declaredBlocked ∧ lifecycle.isRunning then .attention
  else .idle

/-- Whether the agent of a new generation is known: by the tool that the row names, or by the runtime that was
observed. -/
def CoreRow.known (catalog : Catalog R A) (row : CoreRow S) (held : SessionEntry S) : Bool :=
  let tool := row.hookTool.or (row.agent.map AgentSummary.tool)
  let observed := row.observedRuntime.or held.observedRuntime
  ((tool.bind catalog.runtimeForTool).or
    (observed.bind fun observation => catalog.runtimeById observation.id)).isSome

/-- The status that a row declares for a new generation. -/
def CoreRow.declares (catalog : Catalog R A) (row : CoreRow S) (held : SessionEntry S) : Status :=
  match row.declaredStatus with
  | some declared => if row.known catalog held then declaredAs declared row.lifecycle else .idle
  | none => .idle

/-- A row that replaces the generation of an entry declares the status that the entry has. -/
def Adopts (catalog : Catalog R A) (state : WorkerState S A) (row : CoreRow S) : Prop :=
  ∀ session ∈ row.session, ∀ held ∈ state.sessions.get? session,
    RowLoop.behind row (some held) = false → held.generation ≠ row.generation.getD firstGeneration →
      row.declares catalog held = held.status

instance (catalog : Catalog R A) (state : WorkerState S A) (row : CoreRow S) :
    Decidable (Adopts catalog state row) :=
  inferInstanceAs (Decidable (∀ session ∈ row.session, ∀ held ∈ state.sessions.get? session,
    _ → _ → _))

omit [LinearOrder S] in
theorem merge_status (session : S) {row : CoreRow S} {held : SessionEntry S}
    (h : held.generation ≠ row.generation.getD firstGeneration) :
    (mergeCoreRow catalog session row (some held)).status = row.declares catalog held := by
  have hother : (some held).filter (fun held => decide
      (held.generation = row.generation.getD firstGeneration)) = none :=
    Option.filter_some_neg (by simpa using h)
  have hactivity : (mergedEntry catalog session row (some held)).activity =
      (row.hookTool.map fun tool => AgentSummary.declared tool row.nowMs).or row.agent := by
    unfold mergedEntry
    dsimp only
    rw [hother]
    rfl
  have hruntime : ((mergedEntry catalog session row (some held)).runtime catalog).isSome =
      row.known catalog held := by
    unfold SessionEntry.runtime CoreRow.known
    rw [hactivity]
    dsimp only
    cases row.hookTool with
    | none => cases row.agent <;> rfl
    | some tool => rfl
  rw [mergeCoreRow_new catalog session h]
  show ((mergedEntry catalog session row (some held)).declaredVerdict catalog).1 = _
  unfold SessionEntry.declaredVerdict SessionEntry.agentDeclaration CoreRow.declares
  rw [← hruntime]
  have hdeclared : (mergedEntry catalog session row (some held)).declaredStatus =
      row.declaredStatus := rfl
  have hlifecycle : (mergedEntry catalog session row (some held)).lifecycle = row.lifecycle := rfl
  rw [hdeclared, hlifecycle]
  cases (mergedEntry catalog session row (some held)).runtime catalog with
  | none => cases row.declaredStatus <;> rfl
  | some runtime => cases row.declaredStatus <;> rfl

omit [LinearOrder S] in
theorem merge_counted {session : S} {row : CoreRow S} {held : SessionEntry S}
    (h : adopting → held.generation ≠ row.generation.getD firstGeneration →
      row.declares catalog held = held.status) :
    Counted adopting held (mergeCoreRow catalog session row (some held)) := by
  by_cases hsame : held.generation = row.generation.getD firstGeneration
  · rw [mergeCoreRow_same catalog session hsame]
    exact .same rfl rfl
  · have hseq : (mergeCoreRow catalog session row (some held)).stateSeq = held.stateSeq := by
      rw [mergeCoreRow_new catalog session hsame]
      rfl
    exact .of_eq hseq fun hadopting => (merge_status session hsame).trans (h hadopting hsame)

theorem recover_grows (loop : RowLoop S A) (session : S) (frame : Option (CoreFrame S)) :
    Grows adopting loop.state (loop.recover catalog session frame).state := by
  unfold RowLoop.recover
  cases frame with
  | none => exact .refl _
  | some frame => exact applyCoreEvent_grows loop.state frame

theorem step_grows (loop : RowLoop S A) {row : CoreRow S} (h : adopting → Adopts catalog loop.state row) :
    Grows adopting loop.state (loop.step catalog row).state := by
  unfold RowLoop.step
  cases hsession : row.session with
  | none => exact .refl _
  | some session =>
    dsimp only
    split_ifs with hbehind
    · exact .refl _
    · have hmerged (held : SessionEntry S) (hheld : loop.state.sessions.get? session = some held) :
          Counted adopting held (mergeCoreRow catalog session row (loop.state.sessions.get? session)) := by
        rw [hheld] at hbehind ⊢
        have hbehind : RowLoop.behind row (some held) = false := Bool.not_eq_true _ ▸ hbehind
        exact merge_counted fun hadopting => h hadopting session hsession held hheld hbehind
      exact ((Grows.insert hmerged rfl).trans (recover_grows _ session row.activityEvent)).trans
        (recover_grows _ session row.event)

/-- Every row adopts, in the state that it comes to. -/
def AllAdopt (catalog : Catalog R A) : RowLoop S A → List (CoreRow S) → Prop
  | _, [] => True
  | loop, row :: rows => Adopts catalog loop.state row ∧ AllAdopt catalog (loop.step catalog row) rows

instance AllAdopt.decidable (catalog : Catalog R A) (rows : List (CoreRow S)) (loop : RowLoop S A) :
    Decidable (AllAdopt catalog loop rows) :=
  match rows with
  | [] => .isTrue trivial
  | row :: rows =>
    have := AllAdopt.decidable catalog rows (loop.step catalog row)
    inferInstanceAs (Decidable (Adopts catalog loop.state row ∧ _))

theorem rows_grow {rows : List (CoreRow S)} {loop : RowLoop S A}
    (h : adopting → AllAdopt catalog loop rows) :
    Grows adopting loop.state (rows.foldl (RowLoop.step catalog) loop).state := by
  induction rows generalizing loop with
  | nil => exact .refl _
  | cons row rows ih =>
    exact (step_grows loop fun hadopting => (h hadopting).1).trans (ih fun hadopting => (h hadopting).2)

/-- What was held before and is held after an operation is counted. -/
def Counts (adopting : Prop) (state state' : WorkerState S A) : Prop :=
  ∀ session entry entry', state.sessions.get? session = some entry →
    state'.sessions.get? session = some entry' → Counted adopting entry entry'

theorem Grows.counts (h : Grows adopting state state') (h' : Shrinks adopting state' state'') :
    Counts adopting state state'' := by
  intro session entry entry'' hentry hentry''
  obtain ⟨entry', hentry', hcounted⟩ := h session entry hentry
  obtain ⟨_, hsame, hcounted'⟩ := h' session entry'' hentry''
  obtain rfl := Option.some.inj (hentry'.symm.trans hsame)
  exact hcounted.trans hcounted'

theorem applyCoreRows_counts {rows : List (CoreRow S)} {pruning : Bool} {reconcileMs nowMs : ℕ}
    (h : adopting → AllAdopt catalog (.start state) rows) :
    Counts adopting state (state.applyCoreRows catalog rows pruning reconcileMs nowMs).1 := by
  have hgrows : Grows adopting (RowLoop.start state).state
      (rows.foldl (RowLoop.step catalog) (.start state)).state := rows_grow h
  unfold WorkerState.applyCoreRows
  dsimp only
  generalize rows.foldl (RowLoop.step catalog) (.start state) = loop at *
  have hprune : Shrinks adopting loop.state (if pruning then loop.state.prune loop.seen else loop.state) := by
    split_ifs
    · exact prune_shrinks loop.state loop.seen
    · exact fun _ entry hentry => ⟨entry, hentry, .same rfl rfl⟩
  exact hgrows.counts ((hprune.trans (reconcile_shrinks _ reconcileMs)).trans
    (deriveAll_shrinks _ nowMs (OrdMap.nodup_keys _) _))

/-! ### Runs -/

/-- The rows of an operation adopt. -/
def OpAdopts (catalog : Catalog R A) (state : WorkerState S A) : Op S → Prop
  | .coreSnapshot rows _ _ => AllAdopt catalog (.start state) rows
  | .coreSession row _ _ => AllAdopt catalog (.start state) [row]
  | _ => True

instance OpAdopts.decidable (catalog : Catalog R A) (state : WorkerState S A) (op : Op S) :
    Decidable (OpAdopts catalog state op) :=
  match op with
  | .coreSnapshot rows _ _ => inferInstanceAs (Decidable (AllAdopt catalog (.start state) rows))
  | .coreSession row _ _ => inferInstanceAs (Decidable (AllAdopt catalog (.start state) [row]))
  | .coreEvent _ | .sweep _ | .forget _ _ | .acknowledge _ => .isTrue trivial

theorem acknowledge_shrinks (sessions : List S) (state : WorkerState S A) :
    Shrinks adopting state (state.acknowledge sessions).1 := by
  induction sessions generalizing state with
  | nil => exact fun _ entry hentry => ⟨entry, hentry, .same rfl rfl⟩
  | cons session sessions ih =>
    unfold WorkerState.acknowledge
    split
    · exact ih state
    · next held hheld =>
      have hread : Shrinks adopting state { state with
          sessions := state.sessions.insert session { held with unread := false } } := by
        intro other entry' hentry'
        rw [OrdMap.get?_insert] at hentry'
        split_ifs at hentry' with heq
        · obtain rfl := Option.some.inj hentry'
          rw [heq]
          exact ⟨held, (Option.filter_eq_some_iff.1 hheld).1, .same rfl rfl⟩
        · exact ⟨entry', hentry', .same rfl rfl⟩
      exact hread.trans (ih _)

theorem forget_shrinks (state : WorkerState S A) (session : S) (nowMs : ℕ) :
    Shrinks adopting state (state.forgetCoreSession catalog session nowMs) := by
  intro other entry' hentry'
  unfold WorkerState.forgetCoreSession at hentry'
  dsimp only at hentry'
  rw [sessions_pushTurnSignal, OrdMap.get?_erase] at hentry'
  split_ifs at hentry'
  exact ⟨entry', hentry', .same rfl rfl⟩

theorem step_counts (op : Op S) (h : adopting → OpAdopts catalog state op) :
    Counts adopting state (state.step catalog op) := by
  have hrefl : Grows adopting state state := .refl state
  cases op with
  | coreSnapshot rows reconcileMs nowMs => exact applyCoreRows_counts h
  | coreSession row reconcileMs nowMs => exact applyCoreRows_counts h
  | coreEvent frame =>
    exact (applyCoreEvent_grows state frame).counts fun _ entry hentry =>
      ⟨entry, hentry, .same rfl rfl⟩
  | sweep nowMs => exact hrefl.counts (deriveAll_shrinks _ nowMs (OrdMap.nodup_keys _) state)
  | forget session nowMs => exact hrefl.counts (forget_shrinks state session nowMs)
  | acknowledge sessions => exact hrefl.counts (acknowledge_shrinks sessions state)

/-- The session is held in every state of the run. -/
def HeldThrough (catalog : Catalog R A) (session : S) : WorkerState S A → List (Op S) → Prop
  | state, [] => (state.sessions.get? session).isSome
  | state, op :: ops =>
    (state.sessions.get? session).isSome ∧ HeldThrough catalog session (state.step catalog op) ops

/-- The rows of every operation of the run adopt. -/
def AdoptingRun (catalog : Catalog R A) : WorkerState S A → List (Op S) → Prop
  | _, [] => True
  | state, op :: ops => OpAdopts catalog state op ∧ AdoptingRun catalog (state.step catalog op) ops

instance HeldThrough.decidable (catalog : Catalog R A) (session : S) (ops : List (Op S))
    (state : WorkerState S A) : Decidable (HeldThrough catalog session state ops) :=
  match ops with
  | [] => inferInstanceAs (Decidable ((state.sessions.get? session).isSome = true))
  | op :: ops =>
    have := HeldThrough.decidable catalog session ops (state.step catalog op)
    inferInstanceAs (Decidable ((state.sessions.get? session).isSome = true ∧ _))

instance AdoptingRun.decidable (catalog : Catalog R A) (ops : List (Op S))
    (state : WorkerState S A) : Decidable (AdoptingRun catalog state ops) :=
  match ops with
  | [] => .isTrue trivial
  | op :: ops =>
    have := AdoptingRun.decidable catalog ops (state.step catalog op)
    inferInstanceAs (Decidable (OpAdopts catalog state op ∧ _))

theorem HeldThrough.held {session : S} {ops : List (Op S)} (h : HeldThrough catalog session state ops) :
    ∃ entry, state.sessions.get? session = some entry := by
  cases ops with
  | nil => exact Option.isSome_iff_exists.1 h
  | cons op ops => exact Option.isSome_iff_exists.1 h.1

theorem run_counted {session : S} {ops : List (Op S)} {entry entry' : SessionEntry S}
    (hheld : HeldThrough catalog session state ops) (h : adopting → AdoptingRun catalog state ops)
    (hentry : state.sessions.get? session = some entry)
    (hentry' : (state.run catalog ops).sessions.get? session = some entry') :
    Counted adopting entry entry' := by
  induction ops generalizing state entry with
  | nil =>
    obtain rfl := Option.some.inj (hentry.symm.trans hentry')
    exact .same rfl rfl
  | cons op ops ih =>
    obtain ⟨middle, hmiddle⟩ := hheld.2.held
    have hstep : Counted adopting entry middle :=
      step_counts op (fun hadopting => (h hadopting).1) session entry middle hentry hmiddle
    exact hstep.trans (ih hheld.2 (fun hadopting => (h hadopting).2) hmiddle hentry')

/-- A catalog with a single runtime, whose tools are all known. -/
def soleCatalog : Catalog Unit Unit :=
  ⟨fun _ => some (), fun _ => some (), fun _ => "agent", fun _ => "Agent", fun _ => some "agent",
    fun _ _ => none⟩

/-- A row of the session 1 in a generation, whose program has declared a state. -/
def declaringRow (generation : ℕ) (declared : Option String) : CoreRow ℕ :=
  { session := some 1
    generation := some generation
    lifecycle := .running
    hookTool := some "agent"
    activityEvent := none
    event := none
    agent := none
    declaredStatus := declared.map fun state => ⟨state, none, none, "", "", ""⟩
    programStatusCapable := true
    observedRuntime := none
    accountEnv := .empty
    nowMs := 0 }

/-- The program is idle. -/
def idleState : WorkerState ℕ Unit :=
  WorkerState.new.run soleCatalog [.coreSession (declaringRow 1 none) 0 0]

/-- The program works, and still works in the next generation. -/
def workingOps : List (Op ℕ) :=
  [.coreSession (declaringRow 1 (some "working")) 0 0,
    .coreSession (declaringRow 2 (some "working")) 0 0]

/-- The program works. -/
def workingState : WorkerState ℕ Unit :=
  WorkerState.new.run soleCatalog [.coreSession (declaringRow 1 (some "working")) 0 0]

/-- The program has declared nothing in the next generation. -/
def restartedOps : List (Op ℕ) := [.coreSession (declaringRow 2 none) 0 0]

end Paneflow.Serve
