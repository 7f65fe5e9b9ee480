import Paneflow.Serve.State

/-!
# What is stale moves nothing

`stale_unmoved`: in every state that the worker reaches, a row of a generation that is over, a hook event that
is not newer than what is known, and a row that is applied again move no session and notify nobody.

In every such state an entry shows what it declares already (`Settled`), so to derive it once more moves nothing.
-/

namespace Paneflow.Serve

variable {R A S : Type} {catalog : Catalog R A}

/-! ### Entries that show what they declare -/

namespace SessionEntry

/-- What is told of an entry: the status with its count, the outcome, whether it is unread, and the tool. -/
def view (entry : SessionEntry S) : Status × ℕ × Option String × Bool × Option String :=
  (entry.status, entry.stateSeq, entry.outcome, entry.unread, entry.activity.map AgentSummary.tool)

/-- The tool of the runtime that was observed. -/
def observedTool (catalog : Catalog R A) (entry : SessionEntry S) : Option String :=
  entry.observedRuntime.bind fun observation =>
    (catalog.runtimeById observation.id).bind catalog.firstAlias

/-- There is no activity to make up, or to take back. -/
def Reconciled (catalog : Catalog R A) (entry : SessionEntry S) (source : ActivitySource) : Prop :=
  if source = .declared then
    entry.activity.isSome = true ∨ entry.observedTool catalog = none
  else (entry.declaredActivity && entry.activity.isSome) = false

/-- The entry shows what it declares. -/
structure Settled (catalog : Catalog R A) (entry : SessionEntry S) : Prop where
  verdict : entry.declaredVerdict catalog = (entry.status, entry.activitySource)
  outcome : entry.nextOutcome catalog = entry.outcome
  reconciled : entry.Reconciled catalog entry.activitySource

variable {entry entry' : SessionEntry S}

theorem runtime_congr (htool : entry'.activity.map AgentSummary.tool =
      entry.activity.map AgentSummary.tool)
    (hobserved : entry'.observedRuntime = entry.observedRuntime) :
    entry'.runtime catalog = entry.runtime catalog := by
  have hbind (activity : Option AgentSummary) :
      (activity.bind fun summary => catalog.runtimeForTool summary.tool) =
        (activity.map AgentSummary.tool).bind catalog.runtimeForTool := by
    cases activity <;> rfl
  unfold runtime
  rw [hbind, hbind, htool, hobserved]

theorem declaredVerdict_congr
    (hdeclared : entry'.agentDeclaration catalog = entry.agentDeclaration catalog)
    (hlifecycle : entry'.lifecycle = entry.lifecycle) :
    entry'.declaredVerdict catalog = entry.declaredVerdict catalog := by
  unfold declaredVerdict
  rw [hdeclared, hlifecycle]

theorem source_none (h : (entry.declaredVerdict catalog).2 ≠ .declared) :
    entry.agentDeclaration catalog = none := by
  unfold declaredVerdict at h
  cases hdeclared : entry.agentDeclaration catalog with
  | none => rfl
  | some declared =>
    rw [hdeclared] at h
    exact absurd rfl h

/-- Entries that differ in nothing that `derive` reads are settled together. -/
theorem Settled.congr (h : entry.Settled catalog) (hstatus : entry'.status = entry.status)
    (hsource : entry'.activitySource = entry.activitySource)
    (houtcome : entry'.outcome = entry.outcome)
    (hdeclared : entry'.declaredStatus = entry.declaredStatus)
    (hlifecycle : entry'.lifecycle = entry.lifecycle)
    (hobserved : entry'.observedRuntime = entry.observedRuntime)
    (htool : entry'.activity.map AgentSummary.tool = entry.activity.map AgentSummary.tool)
    (hmade : (entry'.declaredActivity && entry'.activity.isSome) =
      (entry.declaredActivity && entry.activity.isSome)) : entry'.Settled catalog := by
  have hdeclaration : entry'.agentDeclaration catalog = entry.agentDeclaration catalog := by
    unfold agentDeclaration
    rw [runtime_congr htool hobserved, hdeclared]
  have hsome : entry'.activity.isSome = entry.activity.isSome := by
    rw [← Option.isSome_map, htool, Option.isSome_map]
  refine ⟨?_, ?_, ?_⟩
  · rw [declaredVerdict_congr hdeclaration hlifecycle, h.verdict, hstatus, hsource]
  · have houtcome' := h.outcome
    unfold nextOutcome at houtcome' ⊢
    rw [hdeclaration, houtcome, houtcome']
  · have hreconciled := h.reconciled
    unfold Reconciled observedTool at hreconciled ⊢
    rwa [hsource, hobserved, hmade, hsome]

theorem reconcileDeclaredActivity_of (source : ActivitySource) (nowMs : ℕ)
    (h : entry.Reconciled catalog source) :
    entry.reconcileDeclaredActivity catalog source nowMs = (entry, false) := by
  unfold Reconciled observedTool at h
  unfold reconcileDeclaredActivity
  split_ifs at h ⊢ with hsource hsome hmade
  · rfl
  · have hnone := h.resolve_left hsome
    cases hobserved : entry.observedRuntime with
    | none => rfl
    | some observation =>
      rw [hobserved, Option.bind_some] at hnone
      dsimp only
      rw [hnone]
  · rw [hmade.1, hmade.2] at h
    exact absurd h (by decide)
  · rfl

theorem noticeBetween_self (status : Status) (declared : Option DeclaredStatus) :
    noticeBetween status status declared = none := by
  cases status <;> rfl

/-- To derive an entry that is settled moves nothing. -/
theorem Settled.derive (h : entry.Settled catalog) (nowMs : ℕ) :
    (entry.derive catalog nowMs).entry.view = entry.view ∧
      (entry.derive catalog nowMs).notification = none ∧
      (entry.derive catalog nowMs).turnInput = none := by
  have hstatus : (entry.declaredVerdict catalog).1 = entry.status := congrArg Prod.fst h.verdict
  have hsource : (entry.declaredVerdict catalog).2 = entry.activitySource :=
    congrArg Prod.snd h.verdict
  have hreconciled := reconcileDeclaredActivity_of entry.activitySource nowMs h.reconciled
  have hnotification : entry.notification catalog nowMs = none := by
    unfold notification
    dsimp only
    rw [hstatus, noticeBetween_self, Option.map_none]
  refine ⟨?_, hnotification, ?_⟩
  · unfold SessionEntry.derive shown
    dsimp only
    rw [hnotification, hstatus, hsource, hreconciled, h.outcome]
    unfold view
    dsimp only
    rw [if_neg (not_not_intro rfl), Option.map_map]
    simp only [Option.any_none, Bool.or_false]
    rfl
  · unfold SessionEntry.derive
    dsimp only
    rw [hstatus, if_neg (not_not_intro rfl)]

/-- To make up an activity, or to take it back, leaves the declaration as it is. -/
theorem reconcile_agentDeclaration (catalog : Catalog R A) (entry : SessionEntry S) (nowMs : ℕ) :
    (entry.reconcileDeclaredActivity catalog (entry.declaredVerdict catalog).2 nowMs).1.agentDeclaration
      catalog = entry.agentDeclaration catalog := by
  unfold reconcileDeclaredActivity
  split_ifs with hsource hsome hmade
  · rfl
  · split
    · rfl
    · next observation hobserved =>
      split
      · rfl
      · next tool htool =>
        -- the runtime was observed, so it is known with the activity and without it
        obtain ⟨runtime, hruntime, -⟩ := Option.bind_eq_some_iff.1 htool
        have hnone : entry.activity = none := Option.not_isSome_iff_eq_none.1 hsome
        unfold agentDeclaration SessionEntry.runtime
        dsimp only
        rw [hobserved, hnone, Option.bind_some, Option.bind_some, hruntime, Option.bind_none,
          Option.none_or]
        cases catalog.runtimeForTool (AgentSummary.declared tool nowMs).tool <;> rfl
  · have hnone := source_none hsource
    rw [hnone]
    unfold agentDeclaration SessionEntry.runtime at hnone ⊢
    dsimp only at hnone ⊢
    rw [Option.bind_none, Option.none_or]
    cases hobserved : (entry.observedRuntime.bind fun observation =>
        catalog.runtimeById observation.id) with
    | none => rfl
    | some runtime =>
      rw [hobserved, Option.bind_eq_none_iff] at hnone
      cases htool : (entry.activity.bind fun summary => catalog.runtimeForTool summary.tool) with
      | none => exact hnone runtime (by rw [htool, Option.none_or])
      | some known => exact hnone known (by rw [htool, Option.some_or])
  · rfl

theorem reconcile_reconciled (catalog : Catalog R A) (entry : SessionEntry S)
    (source : ActivitySource) (nowMs : ℕ) :
    (entry.reconcileDeclaredActivity catalog source nowMs).1.Reconciled catalog source := by
  unfold reconcileDeclaredActivity Reconciled observedTool
  split_ifs with hsource hsome hmade
  · exact .inl hsome
  · split
    · next hobserved => exact .inr (by rw [hobserved, Option.bind_none])
    · next observation hobserved =>
      split
      · next htool => exact .inr (by rw [hobserved, Option.bind_some, htool])
      · exact .inl rfl
  · rfl
  · simpa using hmade

theorem declaredOutcome_declaredOutcome (declared : DeclaredStatus) (held : Option String) :
    declaredOutcome declared (declaredOutcome declared held) = declaredOutcome declared held := by
  unfold declaredOutcome
  split_ifs <;> rfl

/-- An entry of the same row, with no less known of its hooks. -/
structure Follows (entry entry' : SessionEntry S) : Prop where
  generation : entry'.generation = entry.generation
  lifecycle : entry'.lifecycle = entry.lifecycle
  declared : entry'.declaredStatus = entry.declaredStatus
  observed : entry'.observedRuntime = entry.observedRuntime
  revision : entry.hookRevision ≤ entry'.hookRevision

theorem Follows.refl (entry : SessionEntry S) : Follows entry entry := ⟨rfl, rfl, rfl, rfl, le_rfl⟩

theorem Follows.trans {entry'' : SessionEntry S} (h : Follows entry entry')
    (h' : Follows entry' entry'') : Follows entry entry'' :=
  ⟨h'.generation.trans h.generation, h'.lifecycle.trans h.lifecycle, h'.declared.trans h.declared,
    h'.observed.trans h.observed, h.revision.trans h'.revision⟩

theorem reconcile_follows (catalog : Catalog R A) (entry : SessionEntry S) (source : ActivitySource)
    (nowMs : ℕ) : Follows entry (entry.reconcileDeclaredActivity catalog source nowMs).1 := by
  unfold reconcileDeclaredActivity
  split_ifs
  · exact .refl entry
  · split
    · exact .refl entry
    · split
      · exact .refl entry
      · exact ⟨rfl, rfl, rfl, rfl, le_rfl⟩
  · exact ⟨rfl, rfl, rfl, rfl, le_rfl⟩
  · exact .refl entry

theorem derive_follows (catalog : Catalog R A) (entry : SessionEntry S) (nowMs : ℕ) :
    Follows entry (entry.derive catalog nowMs).entry := by
  have h := reconcile_follows catalog entry (entry.declaredVerdict catalog).2 nowMs
  exact ⟨h.generation, h.lifecycle, h.declared, h.observed, h.revision⟩

/-- An entry that was derived is settled. -/
theorem derive_settled (catalog : Catalog R A) (entry : SessionEntry S) (nowMs : ℕ) :
    (entry.derive catalog nowMs).entry.Settled catalog := by
  let source := (entry.declaredVerdict catalog).2
  let reconciled := (entry.reconcileDeclaredActivity catalog source nowMs).1
  let derived := (entry.derive catalog nowMs).entry
  have htool : derived.activity.map AgentSummary.tool =
      reconciled.activity.map AgentSummary.tool := Option.map_map ..
  have hsome : derived.activity.isSome = reconciled.activity.isSome := Option.isSome_map ..
  have hdeclaration : derived.agentDeclaration catalog = entry.agentDeclaration catalog := by
    rw [← reconcile_agentDeclaration catalog entry nowMs]
    unfold agentDeclaration
    rw [runtime_congr htool rfl]
    rfl
  have hlifecycle : derived.lifecycle = entry.lifecycle :=
    (derive_follows catalog entry nowMs).lifecycle
  refine ⟨declaredVerdict_congr hdeclaration hlifecycle, ?_, ?_⟩
  · have houtcome : derived.outcome = entry.nextOutcome catalog := rfl
    show derived.nextOutcome catalog = derived.outcome
    rw [nextOutcome, hdeclaration, houtcome]
    unfold nextOutcome
    cases entry.agentDeclaration catalog with
    | none => rfl
    | some declared => exact declaredOutcome_declaredOutcome declared entry.outcome
  · have hreconciled : reconciled.Reconciled catalog source :=
      reconcile_reconciled catalog entry source nowMs
    unfold Reconciled at hreconciled ⊢
    rw [← hsome] at hreconciled
    exact hreconciled

end SessionEntry

open SessionEntry

/-! ### States whose entries are settled -/

variable [LinearOrder S] {state state' : WorkerState S A}

/-- The entries of the state are settled, but for some sessions. -/
def SettledBut (catalog : Catalog R A) (but : S → Prop) (state : WorkerState S A) : Prop :=
  ∀ session entry, state.sessions.get? session = some entry → but session ∨ entry.Settled catalog

theorem applyCoreEvent_settled {but : S → Prop} (frame : CoreFrame S)
    (h : SettledBut catalog but state) :
    SettledBut catalog but (state.applyCoreEvent catalog frame).1 := by
  rcases applyCoreEvent_cases catalog state frame with
    ⟨-, heq⟩ | ⟨event, held, -, hheld, -, ⟨-, heq⟩ | ⟨activity, heq⟩⟩
  · rwa [heq]
  · rw [heq]
    intro session entry hentry
    rw [OrdMap.get?_insert] at hentry
    split_ifs at hentry with hsession
    · obtain rfl := Option.some.inj hentry
      rw [hsession]
      exact (h _ held hheld).imp_right fun hsettled =>
        hsettled.congr rfl rfl rfl rfl rfl rfl rfl rfl
    · exact h session entry hentry
  · rw [heq]
    intro session entry hentry
    rw [get?_acceptEvent] at hentry
    split_ifs at hentry
    · obtain rfl := Option.some.inj hentry
      exact .inr (derive_settled catalog _ _)
    · exact h session entry hentry

theorem step_settled {loop : RowLoop S A} (row : CoreRow S)
    (h : SettledBut catalog (fun session => (loop.seen.get? session).isSome = true) loop.state) :
    SettledBut catalog (fun session => ((loop.step catalog row).seen.get? session).isSome = true)
      (loop.step catalog row).state := by
  have hrecover (loop : RowLoop S A) (session : S) (frame : Option (CoreFrame S))
      (h : SettledBut catalog (fun session => (loop.seen.get? session).isSome = true) loop.state) :
      SettledBut catalog
        (fun other => ((loop.recover catalog session frame).seen.get? other).isSome = true)
        (loop.recover catalog session frame).state := by
    unfold RowLoop.recover
    cases frame with
    | none => exact h
    | some frame => exact applyCoreEvent_settled frame h
  unfold RowLoop.step
  cases hsession : row.session with
  | none => exact h
  | some session =>
    have hseen (other : S) (hother : (loop.seen.get? other).isSome = true) :
        ((loop.seen.insert session ()).get? other).isSome = true := by
      rw [OrdMap.get?_insert]
      split_ifs
      · rfl
      · exact hother
    dsimp only
    split_ifs with hbehind
    · intro other entry hentry
      exact (h other entry hentry).imp_left (hseen other)
    · refine hrecover _ session row.event (hrecover _ session row.activityEvent ?_)
      intro other entry hentry
      dsimp only at hentry ⊢
      rw [OrdMap.get?_insert] at hentry
      split_ifs at hentry with heq
      · refine .inl ?_
        rw [OrdMap.get?_insert, if_pos heq]
        rfl
      · exact (h other entry hentry).imp_left (hseen other)

theorem rows_settled (rows : List (CoreRow S)) {loop : RowLoop S A}
    (h : SettledBut catalog (fun session => (loop.seen.get? session).isSome = true) loop.state) :
    SettledBut catalog
      (fun session => ((rows.foldl (RowLoop.step catalog) loop).seen.get? session).isSome = true)
      (rows.foldl (RowLoop.step catalog) loop).state := by
  induction rows generalizing loop with
  | nil => exact h
  | cons row rows ih => exact ih (step_settled row h)

theorem reconcileAdopted_tool (summary : AgentSummary) (lifecycle : SessionLifecycle) (nowMs : ℕ) :
    (if summary.stale then summary else reconcileAdopted summary lifecycle nowMs).tool =
      summary.tool := by
  unfold reconcileAdopted
  split_ifs <;> rfl

/-- A state after some sessions were dropped, and their activity adopted. -/
def adopted (state : WorkerState S A) (pruning : Bool) (seen : OrdMap S Unit) (nowMs : ℕ) :
    WorkerState S A :=
  (if pruning then state.prune seen else state).reconcileAdoptedActivity nowMs

/-- An entry whose activity was adopted. -/
def SessionEntry.adopt (entry : SessionEntry S) (nowMs : ℕ) : SessionEntry S :=
  { entry with
    activity := entry.activity.map fun activity =>
      if activity.stale then activity else reconcileAdopted activity entry.lifecycle nowMs }

omit [LinearOrder S] in
theorem SessionEntry.adopt_tool (entry : SessionEntry S) (nowMs : ℕ) :
    (entry.adopt nowMs).activity.map AgentSummary.tool = entry.activity.map AgentSummary.tool := by
  unfold SessionEntry.adopt
  dsimp only
  rw [Option.map_map]
  congr 1
  funext summary
  exact reconcileAdopted_tool summary entry.lifecycle nowMs

theorem get?_adopted (state : WorkerState S A) (pruning : Bool) (seen : OrdMap S Unit) (nowMs : ℕ)
    (session : S) :
    (adopted state pruning seen nowMs).sessions.get? session =
      if pruning = true ∧ (seen.get? session).isSome = false then none
      else (state.sessions.get? session).map fun entry => entry.adopt nowMs := by
  unfold adopted WorkerState.reconcileAdoptedActivity
  dsimp only
  rw [OrdMap.get?_mapValues]
  cases pruning with
  | false =>
    rw [if_neg Bool.false_ne_true, if_neg fun hpruning => Bool.false_ne_true hpruning.1]
    rfl
  | true =>
    rw [if_pos rfl]
    unfold WorkerState.prune
    dsimp only
    rw [OrdMap.get?_filterKeys]
    cases (seen.get? session).isSome <;> rfl

/-- The settled entries of the state are settled after that. -/
theorem adopted_settled {but : S → Prop} (pruning : Bool) (seen : OrdMap S Unit) (nowMs : ℕ)
    (h : SettledBut catalog but state) :
    SettledBut catalog but (adopted state pruning seen nowMs) := by
  intro session entry' hentry'
  rw [get?_adopted] at hentry'
  split_ifs at hentry'
  obtain ⟨entry, hentry, rfl⟩ := Option.map_eq_some_iff.1 hentry'
  refine (h session entry hentry).imp_right fun hsettled => ?_
  have htool := entry.adopt_tool nowMs
  have hsome : (entry.adopt nowMs).activity.isSome = entry.activity.isSome := Option.isSome_map ..
  refine hsettled.congr rfl rfl rfl rfl rfl rfl htool ?_
  rw [hsome]
  rfl

theorem deriveAll_settled {but : S → Prop} (select : S → Projection S → Option (Projection S))
    (nowMs : ℕ) {sessions : List S} (hnodup : sessions.Nodup) (h : SettledBut catalog but state)
    (hbut : ∀ session, but session → session ∈ sessions) :
    SettledBut catalog (fun _ => False) (state.deriveAll catalog select nowMs sessions).1 := by
  intro session entry' hentry'
  rw [get?_deriveAll select nowMs hnodup] at hentry'
  split_ifs at hentry' with hmem
  · obtain ⟨entry, hentry, rfl⟩ := Option.map_eq_some_iff.1 hentry'
    exact .inr (derive_settled catalog entry nowMs)
  · exact (h session entry' hentry').imp_left fun hsession => hmem (hbut session hsession)

theorem applyCoreRows_settled (rows : List (CoreRow S)) (pruning : Bool) (reconcileMs nowMs : ℕ)
    (h : SettledBut catalog (fun _ => False) state) :
    SettledBut catalog (fun _ => False)
      (state.applyCoreRows catalog rows pruning reconcileMs nowMs).1 := by
  have hstart : SettledBut catalog
      (fun session => ((RowLoop.start state).seen.get? session).isSome = true)
      (RowLoop.start state).state :=
    fun session entry hentry => (h session entry hentry).imp_left False.elim
  have hrows := rows_settled rows hstart
  exact deriveAll_settled _ nowMs (OrdMap.nodup_keys _)
    (adopted_settled pruning _ reconcileMs hrows) fun session hsession => OrdMap.mem_keys.2 hsession

theorem acknowledge_settled (sessions : List S) (h : SettledBut catalog (fun _ => False) state) :
    SettledBut catalog (fun _ => False) (state.acknowledge sessions).1 := by
  induction sessions generalizing state with
  | nil => exact h
  | cons session sessions ih =>
    unfold WorkerState.acknowledge
    split
    · exact ih h
    · next held hheld =>
      have hread : SettledBut catalog (fun _ => False) { state with
          sessions := state.sessions.insert session { held with unread := false } } := by
        intro other entry hentry
        rw [OrdMap.get?_insert] at hentry
        split_ifs at hentry
        · obtain rfl := Option.some.inj hentry
          exact (h session held (Option.filter_eq_some_iff.1 hheld).1).imp_right fun hsettled =>
            hsettled.congr rfl rfl rfl rfl rfl rfl rfl rfl
        · exact h other entry hentry
      exact ih hread

theorem settled_step (op : Op S) (h : SettledBut catalog (fun _ => False) state) :
    SettledBut catalog (fun _ => False) (state.step catalog op) := by
  cases op with
  | coreSnapshot rows reconcileMs nowMs => exact applyCoreRows_settled rows true reconcileMs nowMs h
  | coreSession row reconcileMs nowMs => exact applyCoreRows_settled [row] false reconcileMs nowMs h
  | coreEvent frame => exact applyCoreEvent_settled frame h
  | sweep nowMs => exact deriveAll_settled _ nowMs (OrdMap.nodup_keys _) h fun _ => False.elim
  | forget session nowMs =>
    intro other entry hentry
    unfold WorkerState.step WorkerState.forgetCoreSession at hentry
    dsimp only at hentry
    rw [sessions_pushTurnSignal, OrdMap.get?_erase] at hentry
    split_ifs at hentry
    exact h other entry hentry
  | acknowledge sessions => exact acknowledge_settled sessions h

/-- Every entry of a state that the worker reaches is settled. -/
theorem run_settled (catalog : Catalog R A) (ops : List (Op S)) {state : WorkerState S A}
    (h : SettledBut catalog (fun _ => False) state) :
    SettledBut catalog (fun _ => False) (state.run catalog ops) := by
  induction ops generalizing state with
  | nil => exact h
  | cons op ops ih => exact ih (settled_step op h)

/-! ### Nothing is moved -/

/-- What was applied has moved nothing: the sessions that are kept are as they were, the other ones are gone,
there is no turn signal, and no notification. -/
structure Unmoved (kept : S → Prop) (state : WorkerState S A)
    (applied : WorkerState S A × List (Projection S)) : Prop where
  view : ∀ session, kept session →
    (applied.1.sessions.get? session).map view = (state.sessions.get? session).map view
  dropped : ∀ session, ¬ kept session → applied.1.sessions.get? session = none
  signals : applied.1.turnSignals = state.turnSignals
  quiet : ∀ projection ∈ applied.2, projection.notification = none

theorem derive_quiet (session : S) (nowMs : ℕ) (h : SettledBut catalog (fun _ => False) state) :
    (state.derive catalog session nowMs).1.turnSignals = state.turnSignals ∧
      ∀ projection ∈ (state.derive catalog session nowMs).2, projection.notification = none := by
  unfold WorkerState.derive
  cases hentry : state.sessions.get? session with
  | none => exact ⟨rfl, fun _ hmem => nomatch hmem⟩
  | some entry =>
    obtain ⟨-, hnotification, hinput⟩ := ((h session entry hentry).resolve_left id).derive nowMs
    dsimp only
    rw [hinput]
    refine ⟨rfl, ?_⟩
    rintro projection hmem
    obtain rfl := Option.some.inj hmem
    exact hnotification

theorem deriveAll_quiet {select : S → Projection S → Option (Projection S)}
    (hselect : ∀ session projection, projection.notification = none →
      ∀ selected ∈ select session projection, selected.notification = none)
    (nowMs : ℕ) (sessions : List S) (h : SettledBut catalog (fun _ => False) state) :
    (state.deriveAll catalog select nowMs sessions).1.turnSignals = state.turnSignals ∧
      ∀ projection ∈ (state.deriveAll catalog select nowMs sessions).2,
        projection.notification = none := by
  induction sessions generalizing state with
  | nil => exact ⟨rfl, fun _ hmem => nomatch hmem⟩
  | cons session sessions ih =>
    obtain ⟨hsignals, hquiet⟩ := derive_quiet session nowMs h
    have hderived : SettledBut catalog (fun _ => False) (state.derive catalog session nowMs).1 := by
      intro other entry' hentry'
      rw [get?_derive] at hentry'
      split_ifs at hentry'
      · obtain ⟨entry, -, rfl⟩ := Option.map_eq_some_iff.1 hentry'
        exact .inr (derive_settled catalog entry nowMs)
      · exact h other entry' hentry'
    obtain ⟨hsignals', hquiet'⟩ := ih hderived
    refine ⟨hsignals'.trans hsignals, ?_⟩
    intro projection hmem
    rcases List.mem_append.1 hmem with hmem | hmem
    · obtain ⟨derived, hderived, hselected⟩ := Option.bind_eq_some_iff.1 (Option.mem_toList.1 hmem)
      exact hselect session derived (hquiet derived hderived) projection hselected
    · exact hquiet' projection hmem

theorem deriveAll_view (select : S → Projection S → Option (Projection S)) (nowMs : ℕ)
    {sessions : List S} (hnodup : sessions.Nodup) (h : SettledBut catalog (fun _ => False) state)
    (session : S) :
    ((state.deriveAll catalog select nowMs sessions).1.sessions.get? session).map view =
      (state.sessions.get? session).map view := by
  rw [get?_deriveAll select nowMs hnodup]
  split_ifs
  · cases hentry : state.sessions.get? session with
    | none => rfl
    | some entry =>
      have hsettled : entry.Settled catalog := (h session entry hentry).resolve_left id
      exact congrArg some (hsettled.derive nowMs).1
  · rfl

/-- What comes after the rows moves nothing, when the entries are settled and no event was recovered. -/
theorem finish_unmoved (loop : RowLoop S A) (pruning : Bool) (reconcileMs nowMs : ℕ)
    (h : SettledBut catalog (fun _ => False) loop.state) (hrecovered : loop.recovered = .empty) :
    Unmoved (fun session => pruning = true → (loop.seen.get? session).isSome = true) loop.state
      ((adopted loop.state pruning loop.seen reconcileMs).deriveAll catalog loop.announce nowMs
        (loop.seen.entries.map Prod.fst)) := by
  have hadopted := adopted_settled pruning loop.seen reconcileMs h
  have hselect (session : S) (projection : Projection S) (hnone : projection.notification = none) :
      ∀ selected ∈ loop.announce session projection, selected.notification = none := by
    intro selected hselected
    unfold RowLoop.announce at hselected
    rw [hrecovered] at hselected
    dsimp only at hselected
    split_ifs at hselected
    · obtain rfl := Option.some.inj hselected
      show projection.notification.or _ = none
      rw [hnone]
      rfl
    · cases hselected
  obtain ⟨hsignals, hquiet⟩ :=
    deriveAll_quiet hselect nowMs (loop.seen.entries.map Prod.fst) hadopted
  have hview := deriveAll_view loop.announce nowMs (OrdMap.nodup_keys loop.seen) hadopted
  refine ⟨?_, ?_, ?_, hquiet⟩
  · intro session hkept
    have hseen : ¬ (pruning = true ∧ (loop.seen.get? session).isSome = false) := by
      rintro ⟨hpruning, hnone⟩
      rw [hkept hpruning] at hnone
      cases hnone
    rw [hview, get?_adopted, if_neg hseen, Option.map_map]
    cases loop.state.sessions.get? session with
    | none => rfl
    | some entry =>
      have htool := entry.adopt_tool reconcileMs
      show some (entry.adopt reconcileMs).view = some entry.view
      unfold view
      rw [htool]
      rfl
  · intro session hdropped
    rw [Classical.not_imp, Bool.not_eq_true] at hdropped
    have hnone := hview session
    rw [get?_adopted, if_pos hdropped, Option.map_none] at hnone
    exact Option.map_eq_none_iff.1 hnone
  · refine hsignals.trans ?_
    unfold adopted WorkerState.reconcileAdoptedActivity
    cases pruning <;> rfl

/-! ### Rows that are behind -/

/-- The row is of a generation before the one that is held. -/
def Behind (state : WorkerState S A) (row : CoreRow S) : Prop :=
  ∃ session ∈ row.session, ∃ held ∈ state.sessions.get? session, ∃ generation ∈ row.generation,
    generation < held.generation

omit [LinearOrder S] in
theorem behind_iff {row : CoreRow S} {known : Option (SessionEntry S)} :
    RowLoop.behind row known = true ↔
      ∃ held ∈ known, ∃ generation ∈ row.generation, generation < held.generation := by
  simp only [RowLoop.behind, Option.any_eq_true, decide_eq_true_eq, Option.mem_def]

/-- The round of the loop for such a row does nothing but see the session. -/
theorem step_behind (catalog : Catalog R A) {loop : RowLoop S A} {row : CoreRow S}
    (h : Behind loop.state row) :
    ∃ session ∈ row.session, loop.step catalog row =
      { loop with seen := loop.seen.insert session () } := by
  obtain ⟨session, hsession, hheld⟩ := h
  refine ⟨session, hsession, ?_⟩
  rw [Option.mem_def] at hsession
  have hbehind : RowLoop.behind row (loop.state.sessions.get? session) = true :=
    behind_iff.2 hheld
  unfold RowLoop.step
  rw [hsession]
  dsimp only
  rw [if_pos hbehind]

theorem rows_behind (catalog : Catalog R A) {rows : List (CoreRow S)} {loop : RowLoop S A}
    (h : ∀ row ∈ rows, Behind loop.state row) :
    ∃ seen, rows.foldl (RowLoop.step catalog) loop = { loop with seen := seen } ∧
      ∀ session, (seen.get? session).isSome = true ↔
        (loop.seen.get? session).isSome = true ∨ ∃ row ∈ rows, row.session = some session := by
  induction rows generalizing loop with
  | nil =>
    refine ⟨loop.seen, rfl, fun session => ?_⟩
    simp
  | cons row rows ih =>
    obtain ⟨session, hsession, heq⟩ := step_behind catalog (h row List.mem_cons_self)
    have hrest : ∀ other ∈ rows, Behind (loop.step catalog row).state other := by
      intro other hother
      rw [heq]
      exact h other (List.mem_cons_of_mem row hother)
    obtain ⟨seen, hseen, hiff⟩ := ih hrest
    refine ⟨seen, ?_, ?_⟩
    · rw [List.foldl_cons, hseen, heq]
    · intro other
      have hinsert : ((loop.seen.insert session ()).get? other).isSome = true ↔
          (loop.seen.get? other).isSome = true ∨ row.session = some other := by
        rw [OrdMap.get?_insert, Option.mem_def.1 hsession, Option.some.injEq]
        split_ifs with hother
        · simp [hother]
        · simp [Ne.symm hother]
      rw [hiff, heq, hinsert, List.exists_mem_cons_iff, or_assoc]

theorem Unmoved.congr {kept kept' : S → Prop} {applied : WorkerState S A × List (Projection S)}
    (h : Unmoved kept state applied) (hkept : ∀ session, kept' session ↔ kept session) :
    Unmoved kept' state applied :=
  ⟨fun session hsession => h.view session ((hkept session).1 hsession),
    fun session hsession => h.dropped session fun hother => hsession ((hkept session).2 hother),
    h.signals, h.quiet⟩

theorem applyCoreRows_eq (state : WorkerState S A) (rows : List (CoreRow S)) (pruning : Bool)
    (reconcileMs nowMs : ℕ) {loop : RowLoop S A}
    (h : rows.foldl (RowLoop.step catalog) (.start state) = loop) :
    state.applyCoreRows catalog rows pruning reconcileMs nowMs =
      (adopted loop.state pruning loop.seen reconcileMs).deriveAll catalog loop.announce nowMs
        (loop.seen.entries.map Prod.fst) := by
  rw [← h]
  rfl

theorem behind_unmoved {rows : List (CoreRow S)} (pruning : Bool) (reconcileMs nowMs : ℕ)
    (hsettled : SettledBut catalog (fun _ => False) state)
    (hrows : ∀ row ∈ rows, Behind state row) :
    Unmoved (fun session => pruning = true → ∃ row ∈ rows, row.session = some session) state
      (state.applyCoreRows catalog rows pruning reconcileMs nowMs) := by
  have hstart : ∀ row ∈ rows, Behind (RowLoop.start state).state row := hrows
  obtain ⟨seen, heq, hseen⟩ := rows_behind catalog hstart
  rw [applyCoreRows_eq state rows pruning reconcileMs nowMs heq]
  have hfinish := finish_unmoved { RowLoop.start state with seen := seen } pruning reconcileMs nowMs
    hsettled rfl
  refine hfinish.congr fun session => ?_
  have hnone : ¬ ((RowLoop.start state).seen.get? session).isSome = true := Bool.false_ne_true
  dsimp only
  rw [hseen session, or_iff_right hnone]

/-! ### Events that are spent -/

/-- The entries of the second state are those of the first one, later. -/
def Later (state state' : WorkerState S A) : Prop :=
  ∀ session entry', state'.sessions.get? session = some entry' →
    ∃ entry, state.sessions.get? session = some entry ∧ Follows entry entry'

theorem Later.trans {state'' : WorkerState S A} (h : Later state state') (h' : Later state' state'') :
    Later state state'' := by
  intro session entry'' hentry''
  obtain ⟨entry', hentry', hfollows'⟩ := h' session entry'' hentry''
  obtain ⟨entry, hentry, hfollows⟩ := h session entry' hentry'
  exact ⟨entry, hentry, hfollows.trans hfollows'⟩

theorem Later.refl (state : WorkerState S A) : Later state state :=
  fun _ entry hentry => ⟨entry, hentry, .refl entry⟩

theorem Spent.applyCoreEvent {frame : CoreFrame S} (h : Spent frame state) (catalog : Catalog R A) :
    state.applyCoreEvent catalog frame = (state, none) := by
  rcases applyCoreEvent_cases catalog state frame with
    ⟨-, heq⟩ | ⟨event, entry, hevent, hentry, hrefuses, -⟩
  · exact heq
  · have hrefused := h event entry hevent hentry
    rw [hrefuses] at hrefused
    cases hrefused

theorem Spent.later {frame : CoreFrame S} (h : Spent frame state) (hnumbered : 0 < frame.revision)
    (hlater : Later state state') : Spent frame state' := by
  intro event entry' hevent hentry'
  obtain ⟨entry, hentry, hfollows⟩ := hlater event.session entry' hentry'
  have hrefuses := h event entry hevent hentry
  have hle := hfollows.revision
  unfold WorkerState.refuses at hrefuses ⊢
  rw [hfollows.generation]
  simp only [Bool.or_eq_true, Bool.and_eq_true, decide_eq_true_eq] at hrefuses ⊢
  rcases hrefuses with (hrefuses | hrefuses) | hrefuses
  · exact .inl (.inl ⟨hnumbered, hrefuses.2.trans hle⟩)
  · omega
  · exact .inr hrefuses

omit [LinearOrder S] in
theorem revision_lt_of_not_refuses {entry : SessionEntry S} {frame : CoreFrame S}
    {event : AgentEvent S} (h : WorkerState.refuses entry frame event = false)
    (hnumbered : 0 < frame.revision) : entry.hookRevision < frame.revision := by
  unfold WorkerState.refuses at h
  simp only [Bool.or_eq_false_iff, Bool.and_eq_false_iff, decide_eq_false_iff_not] at h
  omega

/-- After a frame was noted in an entry it is spent. -/
theorem noted_later {frame : CoreFrame S} {event : AgentEvent S} {held noted : SessionEntry S}
    (hevent : frame.event = some event) (hheld : state.sessions.get? event.session = some held)
    (hnoted : ∀ other, state'.sessions.get? other =
      if other = event.session then some noted else state.sessions.get? other)
    (hfollows : Follows held noted) (hrevision : frame.revision ≤ noted.hookRevision)
    (hnumbered : 0 < frame.revision) :
    Later state state' ∧ Spent frame state' ∧
      ∀ session, (state.sessions.get? session).isSome = true →
        (state'.sessions.get? session).isSome = true := by
  refine ⟨?_, ?_, ?_⟩
  · intro session entry' hentry'
    rw [hnoted] at hentry'
    split_ifs at hentry' with hsession
    · obtain rfl := Option.some.inj hentry'
      rw [hsession]
      exact ⟨held, hheld, hfollows⟩
    · exact ⟨entry', hentry', .refl entry'⟩
  · intro event' entry' hevent' hentry'
    obtain rfl := Option.some.inj (hevent.symm.trans hevent')
    rw [hnoted, if_pos rfl] at hentry'
    obtain rfl := Option.some.inj hentry'
    unfold WorkerState.refuses
    simp only [Bool.or_eq_true, Bool.and_eq_true, decide_eq_true_eq]
    exact .inl (.inl ⟨hnumbered, hrevision⟩)
  · intro session hsome
    rw [hnoted]
    split_ifs
    · rfl
    · exact hsome

/-- What a numbered event leaves of the sessions. -/
theorem applyCoreEvent_later (catalog : Catalog R A) (state : WorkerState S A) (frame : CoreFrame S)
    (hnumbered : 0 < frame.revision) :
    Later state (state.applyCoreEvent catalog frame).1 ∧
      Spent frame (state.applyCoreEvent catalog frame).1 ∧
      ∀ session, (state.sessions.get? session).isSome = true →
        ((state.applyCoreEvent catalog frame).1.sessions.get? session).isSome = true := by
  rcases applyCoreEvent_cases catalog state frame with
    ⟨hspent, heq⟩ | ⟨event, held, hevent, hheld, hrefuses, ⟨-, heq⟩ | ⟨activity, heq⟩⟩
  · rw [heq]
    exact ⟨.refl state, hspent, fun _ h => h⟩
  · rw [heq]
    have hle := (revision_lt_of_not_refuses hrefuses hnumbered).le
    have hfollows : Follows held { held with hookRevision := frame.revision } :=
      ⟨rfl, rfl, rfl, rfl, hle⟩
    exact noted_later hevent hheld (fun other => OrdMap.get?_insert) hfollows le_rfl hnumbered
  · rw [heq]
    have hle := (revision_lt_of_not_refuses hrefuses hnumbered).le
    have haccept : Follows held (held.accept frame activity) := ⟨rfl, rfl, rfl, rfl, hle⟩
    have hderive := derive_follows catalog (held.accept frame activity) frame.receivedAtMs
    exact noted_later hevent hheld (get?_acceptEvent state held frame event activity)
      (haccept.trans hderive) hderive.revision hnumbered

/-! ### Rows that are applied again -/

/-- The entry has what the row says. -/
structure OfRow (row : CoreRow S) (entry : SessionEntry S) : Prop where
  generation : entry.generation = row.generation.getD firstGeneration
  lifecycle : entry.lifecycle = row.lifecycle
  declared : entry.declaredStatus = row.declaredStatus
  observed : row.observedRuntime.or entry.observedRuntime = entry.observedRuntime

omit [LinearOrder S] in
theorem OfRow.follows {row : CoreRow S} {entry entry' : SessionEntry S} (h : OfRow row entry)
    (hfollows : Follows entry entry') : OfRow row entry' := by
  refine ⟨hfollows.generation.trans h.generation, hfollows.lifecycle.trans h.lifecycle,
    hfollows.declared.trans h.declared, ?_⟩
  rw [hfollows.observed, h.observed]

omit [LinearOrder S] in
theorem mergeCoreRow_ofRow (catalog : Catalog R A) (session : S) (row : CoreRow S)
    (held : Option (SessionEntry S)) : OfRow row (mergeCoreRow catalog session row held) := by
  have hobserved (observed : Option RuntimeObservation) :
      row.observedRuntime.or (row.observedRuntime.or observed) = row.observedRuntime.or observed := by
    cases row.observedRuntime <;> rfl
  unfold mergeCoreRow
  dsimp only
  split
  · exact ⟨rfl, rfl, rfl, hobserved _⟩
  · exact ⟨rfl, rfl, rfl, hobserved _⟩

/-- The events of the row are numbered. -/
def CoreRow.Numbered (row : CoreRow S) : Prop :=
  (∀ frame ∈ row.activityEvent, 0 < frame.revision) ∧ ∀ frame ∈ row.event, 0 < frame.revision

theorem recover_later (catalog : Catalog R A) (loop : RowLoop S A) (session : S)
    (last : Option (CoreFrame S)) (hnumbered : ∀ frame ∈ last, 0 < frame.revision) :
    Later loop.state (loop.recover catalog session last).state ∧
      (∀ frame ∈ last, Spent frame (loop.recover catalog session last).state) ∧
      ∀ other, (loop.state.sessions.get? other).isSome = true →
        ((loop.recover catalog session last).state.sessions.get? other).isSome = true := by
  cases last with
  | none =>
    refine ⟨.refl loop.state, ?_, fun _ hsome => hsome⟩
    intro frame hframe
    cases hframe
  | some frame =>
    obtain ⟨hlater, hspent, hkeeps⟩ :=
      applyCoreEvent_later catalog loop.state frame (hnumbered frame rfl)
    refine ⟨hlater, ?_, hkeeps⟩
    rintro other hother
    obtain rfl := Option.some.inj hother
    exact hspent

/-- A row was applied: it was behind, or the entry has what it says and its events are spent. -/
def Applied (row : CoreRow S) (session : S) (state : WorkerState S A) : Prop :=
  Behind state row ∨
    (∃ entry, state.sessions.get? session = some entry ∧ OfRow row entry) ∧
      (∀ frame ∈ row.activityEvent, Spent frame state) ∧ ∀ frame ∈ row.event, Spent frame state

theorem Applied.later {row : CoreRow S} {session : S} (h : Applied row session state)
    (hnumbered : row.Numbered) (hsession : row.session = some session) (hlater : Later state state')
    (hkeeps : (state.sessions.get? session).isSome = true →
      (state'.sessions.get? session).isSome = true) : Applied row session state' := by
  rcases h with ⟨session', hsession', held, hheld, hbehind⟩ | ⟨⟨entry, hentry, hrow⟩, hspent, hspent'⟩
  · obtain rfl := Option.some.inj (hsession.symm.trans hsession')
    rw [Option.mem_def] at hheld
    rw [hheld] at hkeeps
    obtain ⟨held', hheld'⟩ := Option.isSome_iff_exists.1 (hkeeps rfl)
    obtain ⟨held₀, hheld₀, hfollows⟩ := hlater session held' hheld'
    obtain rfl := Option.some.inj (hheld.symm.trans hheld₀)
    rw [← hfollows.generation] at hbehind
    exact .inl ⟨session, hsession, held', hheld', hbehind⟩
  · rw [hentry] at hkeeps
    obtain ⟨entry', hentry'⟩ := Option.isSome_iff_exists.1 (hkeeps rfl)
    obtain ⟨entry₀, hentry₀, hfollows⟩ := hlater session entry' hentry'
    obtain rfl := Option.some.inj (hentry.symm.trans hentry₀)
    exact .inr ⟨⟨entry', hentry', hrow.follows hfollows⟩,
      fun frame hframe => (hspent frame hframe).later (hnumbered.1 frame hframe) hlater,
      fun frame hframe => (hspent' frame hframe).later (hnumbered.2 frame hframe) hlater⟩

theorem recover_seen (loop : RowLoop S A) (session : S) (last : Option (CoreFrame S)) :
    (loop.recover catalog session last).seen = loop.seen := by
  cases last <;> rfl

theorem step_seen (catalog : Catalog R A) (loop : RowLoop S A) {row : CoreRow S} {session : S}
    (hsession : row.session = some session) :
    (loop.step catalog row).seen = loop.seen.insert session () := by
  unfold RowLoop.step
  rw [hsession]
  dsimp only
  split_ifs
  · rfl
  · rw [recover_seen, recover_seen]

theorem step_applied (catalog : Catalog R A) (loop : RowLoop S A) {row : CoreRow S} {session : S}
    (hsession : row.session = some session) (hnumbered : row.Numbered) :
    Applied row session (loop.step catalog row).state := by
  unfold RowLoop.step
  rw [hsession]
  dsimp only
  split_ifs with hbehind
  · exact .inl ⟨session, hsession, behind_iff.1 hbehind⟩
  · have hrow := mergeCoreRow_ofRow catalog session row (loop.state.sessions.get? session)
    generalize mergeCoreRow catalog session row (loop.state.sessions.get? session) = merged at *
    generalize hmerged : RowLoop.mk { loop.state with
      sessions := loop.state.sessions.insert session merged } _ _ _ _ _ = start
    have hinserted : start.state.sessions.get? session = some merged := by
      rw [← hmerged, OrdMap.get?_insert, if_pos rfl]
    obtain ⟨hlater, hspent, hkeeps⟩ :=
      recover_later catalog start session row.activityEvent hnumbered.1
    obtain ⟨hlater', hspent', hkeeps'⟩ := recover_later catalog
      (start.recover catalog session row.activityEvent) session row.event hnumbered.2
    have hsome : (start.state.sessions.get? session).isSome = true := hinserted ▸ rfl
    obtain ⟨entry, hentry⟩ := Option.isSome_iff_exists.1 (hkeeps' session (hkeeps session hsome))
    obtain ⟨entry₀, hentry₀, hfollows⟩ := (hlater.trans hlater') session entry hentry
    obtain rfl := Option.some.inj (hinserted.symm.trans hentry₀)
    exact .inr ⟨⟨entry, hentry, hrow.follows hfollows⟩,
      fun frame hframe => (hspent frame hframe).later (hnumbered.1 frame hframe) hlater', hspent'⟩

theorem adopted_later (state : WorkerState S A) (pruning : Bool) (seen : OrdMap S Unit) (nowMs : ℕ) :
    Later state (adopted state pruning seen nowMs) := by
  intro session entry' hentry'
  rw [get?_adopted] at hentry'
  split_ifs at hentry'
  obtain ⟨entry, hentry, rfl⟩ := Option.map_eq_some_iff.1 hentry'
  exact ⟨entry, hentry, ⟨rfl, rfl, rfl, rfl, le_rfl⟩⟩

theorem deriveAll_later (select : S → Projection S → Option (Projection S)) (nowMs : ℕ)
    {sessions : List S} (hnodup : sessions.Nodup) (state : WorkerState S A) :
    Later state (state.deriveAll catalog select nowMs sessions).1 := by
  intro session entry' hentry'
  rw [get?_deriveAll select nowMs hnodup] at hentry'
  split_ifs at hentry'
  · obtain ⟨entry, hentry, rfl⟩ := Option.map_eq_some_iff.1 hentry'
    exact ⟨entry, hentry, derive_follows catalog entry nowMs⟩
  · exact ⟨entry', hentry', .refl entry'⟩

theorem applyCoreRows_applied (catalog : Catalog R A) (state : WorkerState S A) {row : CoreRow S}
    {session : S} (pruning : Bool) (reconcileMs nowMs : ℕ) (hsession : row.session = some session)
    (hnumbered : row.Numbered) :
    Applied row session (state.applyCoreRows catalog [row] pruning reconcileMs nowMs).1 := by
  have happlied := step_applied catalog (.start state) hsession hnumbered
  have hseen : ((RowLoop.step catalog (.start state) row).seen.get? session).isSome = true := by
    rw [step_seen catalog (.start state) hsession, OrdMap.get?_insert, if_pos rfl]
    rfl
  generalize hloop : RowLoop.step catalog (.start state) row = loop at happlied hseen
  have hrows : [row].foldl (RowLoop.step catalog) (.start state) = loop := hloop
  rw [applyCoreRows_eq state [row] pruning reconcileMs nowMs hrows]
  have hadopted := adopted_later loop.state pruning loop.seen reconcileMs
  refine happlied.later hnumbered hsession
    (hadopted.trans (deriveAll_later _ nowMs (OrdMap.nodup_keys _) _)) ?_
  intro hsome
  have hpruned : ¬ (pruning = true ∧ (loop.seen.get? session).isSome = false) :=
    fun hpruned => Bool.false_ne_true (hpruned.2.symm.trans hseen)
  rw [get?_deriveAll _ nowMs (OrdMap.nodup_keys _), get?_adopted, if_neg hpruned]
  split_ifs
  · simpa using hsome
  · simpa using hsome

/-- The row brings back an activity that is gone. -/
def Brings (row : CoreRow S) (entry : SessionEntry S) : Prop :=
  entry.activity = none ∧ (row.hookTool.isSome = true ∨ row.agent.isSome = true)

omit [LinearOrder S] in
/-- To merge a row into the entry that has what it says leaves the entry as it is. -/
theorem merge_again (session : S) {row : CoreRow S} {entry : SessionEntry S} (hrow : OfRow row entry)
    (hsettled : entry.Settled catalog) (hbrings : ¬ Brings row entry) :
    (mergeCoreRow catalog session row (some entry)).view = entry.view ∧
      (mergeCoreRow catalog session row (some entry)).Settled catalog ∧
      Follows entry (mergeCoreRow catalog session row (some entry)) := by
  have hsame : (some entry).filter (fun held => decide
      (held.generation = row.generation.getD firstGeneration)) = some entry :=
    Option.filter_some_pos (decide_eq_true hrow.generation)
  have hactivity : (mergedEntry catalog session row (some entry)).activity = entry.activity := by
    unfold mergedEntry
    dsimp only
    rw [hsame, Option.bind_some]
    cases hactivity : entry.activity with
    | some summary => rfl
    | none =>
      have hnone : row.hookTool = none ∧ row.agent = none := by
        simpa [Brings, hactivity] using hbrings
      rw [hnone.1, hnone.2]
      rfl
  have hmade : (mergedEntry catalog session row (some entry)).declaredActivity =
      (entry.activity.isSome && entry.declaredActivity) := by
    unfold mergedEntry
    dsimp only
    rw [hsame]
    rfl
  have hrevision : (mergedEntry catalog session row (some entry)).hookRevision =
      entry.hookRevision := by
    unfold mergedEntry
    dsimp only
    rw [hsame]
    rfl
  rw [mergeCoreRow_same catalog session hrow.generation]
  generalize hmerged : mergedEntry catalog session row (some entry) = merged at *
  have hseq : merged.stateSeq = entry.stateSeq := hmerged ▸ rfl
  have hdeclared : merged.declaredStatus = entry.declaredStatus := hmerged ▸ hrow.declared.symm
  have hlifecycle : merged.lifecycle = entry.lifecycle := hmerged ▸ hrow.lifecycle.symm
  have hobserved : merged.observedRuntime = entry.observedRuntime := hmerged ▸ hrow.observed
  have hgeneration : merged.generation = entry.generation := hmerged ▸ hrow.generation.symm
  refine ⟨?_, ?_, ?_⟩
  · unfold view
    dsimp only
    rw [hseq, hactivity]
  · refine hsettled.congr rfl rfl rfl hdeclared hlifecycle hobserved ?_ ?_
    · dsimp only
      rw [hactivity]
    · dsimp only
      rw [hactivity, hmade]
      cases entry.activity.isSome <;> cases entry.declaredActivity <;> rfl
  · exact ⟨hgeneration, hlifecycle, hdeclared, hobserved, hrevision.ge⟩

/-- A frame that is spent recovers nothing. -/
theorem recover_spent (catalog : Catalog R A) (loop : RowLoop S A) (session : S)
    {last : Option (CoreFrame S)} (h : ∀ frame ∈ last, Spent frame loop.state) :
    loop.recover catalog session last = loop := by
  cases last with
  | none => rfl
  | some frame =>
    have heq := (h frame rfl).applyCoreEvent catalog
    unfold RowLoop.recover
    dsimp only
    rw [heq]

/-- The state with another entry of a session. -/
def putEntry (state : WorkerState S A) (session : S) (entry : SessionEntry S) : WorkerState S A :=
  { state with sessions := state.sessions.insert session entry }

theorem get?_putEntry (session : S) (entry : SessionEntry S) (other : S) :
    (putEntry state session entry).sessions.get? other =
      if other = session then some entry else state.sessions.get? other := OrdMap.get?_insert

theorem step_spent (catalog : Catalog R A) (loop : RowLoop S A) {row : CoreRow S} {session : S}
    {held merged : SessionEntry S} (hsession : row.session = some session)
    (hheld : loop.state.sessions.get? session = some held)
    (hbehind : ¬ RowLoop.behind row (some held) = true)
    (hmerged : mergeCoreRow catalog session row (some held) = merged)
    (hspent : ∀ frame ∈ row.activityEvent, Spent frame (putEntry loop.state session merged))
    (hspent' : ∀ frame ∈ row.event, Spent frame (putEntry loop.state session merged)) :
    (loop.step catalog row).state = putEntry loop.state session merged ∧
      (loop.step catalog row).recovered = loop.recovered := by
  unfold RowLoop.step
  rw [hsession]
  dsimp only
  rw [hheld, if_neg hbehind, hmerged]
  generalize hstart : RowLoop.mk { loop.state with
    sessions := loop.state.sessions.insert session merged } _ _ _ _ _ = start
  have hstate : start.state = putEntry loop.state session merged := hstart ▸ rfl
  have hrecovered : start.recovered = loop.recovered := hstart ▸ rfl
  rw [← hstate] at hspent hspent'
  rw [recover_spent catalog start session hspent, recover_spent catalog start session hspent']
  exact ⟨hstate, hrecovered⟩

theorem putEntry_later {session : S} {held merged : SessionEntry S}
    (hheld : state.sessions.get? session = some held) (hfollows : Follows held merged) :
    Later state (putEntry state session merged) := by
  intro other entry' hentry'
  rw [get?_putEntry] at hentry'
  split_ifs at hentry' with heq
  · obtain rfl := Option.some.inj hentry'
    rw [heq]
    exact ⟨held, hheld, hfollows⟩
  · exact ⟨entry', hentry', .refl entry'⟩

theorem putEntry_settled {session : S} {merged : SessionEntry S}
    (h : SettledBut catalog (fun _ => False) state) (hmerged : merged.Settled catalog) :
    SettledBut catalog (fun _ => False) (putEntry state session merged) := by
  intro other entry' hentry'
  rw [get?_putEntry] at hentry'
  split_ifs at hentry'
  · obtain rfl := Option.some.inj hentry'
    exact .inr hmerged
  · exact h other entry' hentry'

theorem putEntry_view {session : S} {held merged : SessionEntry S}
    (hheld : state.sessions.get? session = some held) (hview : merged.view = held.view) (other : S) :
    ((putEntry state session merged).sessions.get? other).map view =
      (state.sessions.get? other).map view := by
  rw [get?_putEntry]
  split_ifs with heq
  · rw [heq, hheld]
    exact congrArg some hview
  · rfl

/-- A row moves nothing when the round of the loop has only put an entry that is told the same. -/
theorem put_unmoved {row : CoreRow S} {session : S} {held merged : SessionEntry S} (pruning : Bool)
    (reconcileMs nowMs : ℕ) (hsession : row.session = some session)
    (hheld : state.sessions.get? session = some held) (hview : merged.view = held.view)
    (hsettled : SettledBut catalog (fun _ => False) (putEntry state session merged))
    (hstate : (RowLoop.step catalog (.start state) row).state = putEntry state session merged)
    (hrecovered : (RowLoop.step catalog (.start state) row).recovered = .empty) :
    Unmoved (fun other => pruning = true → row.session = some other) state
      (state.applyCoreRows catalog [row] pruning reconcileMs nowMs) := by
  have hseen := step_seen catalog (.start state) hsession
  generalize hloop : RowLoop.step catalog (.start state) row = loop at *
  have hrows : [row].foldl (RowLoop.step catalog) (.start state) = loop := hloop
  rw [applyCoreRows_eq state [row] pruning reconcileMs nowMs hrows]
  rw [← hstate] at hsettled
  have hfinish := finish_unmoved loop pruning reconcileMs nowMs hsettled hrecovered
  have hkept (other : S) : (pruning = true → row.session = some other) ↔
      (pruning = true → (loop.seen.get? other).isSome = true) := by
    rw [hseen, OrdMap.get?_insert, hsession, Option.some.injEq]
    refine imp_congr_right fun _ => ?_
    split_ifs with heq
    · simp [heq]
    · exact ⟨fun h => absurd h.symm heq, fun h => nomatch h⟩
  have hfinish := hfinish.congr hkept
  rw [hstate] at hfinish ⊢
  exact ⟨fun other hother => (hfinish.view other hother).trans (putEntry_view hheld hview other),
    hfinish.dropped, hfinish.signals, hfinish.quiet⟩

/-- A row that was applied moves nothing, unless it brings an activity back. -/
theorem again_unmoved {row : CoreRow S} {session : S} (pruning : Bool) (reconcileMs nowMs : ℕ)
    (hsettled : SettledBut catalog (fun _ => False) state) (hnumbered : row.Numbered)
    (hsession : row.session = some session) (happlied : Applied row session state)
    (hbrings : ∀ entry ∈ state.sessions.get? session,
      RowLoop.behind row (some entry) = true ∨ ¬ Brings row entry) :
    Unmoved (fun other => pruning = true → row.session = some other) state
      (state.applyCoreRows catalog [row] pruning reconcileMs nowMs) := by
  by_cases hbehind : Behind state row
  · have hrows : ∀ other ∈ [row], Behind state other := by simpa using hbehind
    refine (behind_unmoved pruning reconcileMs nowMs hsettled hrows).congr fun other => ?_
    simp
  · obtain ⟨⟨entry, hentry, hrow⟩, hspent, hspent'⟩ := happlied.resolve_left hbehind
    have hnot : ¬ RowLoop.behind row (some entry) = true := by
      intro h
      exact hbehind ⟨session, hsession, behind_iff.1 (hentry ▸ h)⟩
    obtain ⟨hview, hmerged, hfollows⟩ := merge_again session hrow
      ((hsettled session entry hentry).resolve_left id) ((hbrings entry hentry).resolve_left hnot)
    have hlater := putEntry_later hentry hfollows
    obtain ⟨hstate, hrecovered⟩ := step_spent catalog (.start state) hsession hentry hnot rfl
      (fun frame hframe => (hspent frame hframe).later (hnumbered.1 frame hframe) hlater)
      (fun frame hframe => (hspent' frame hframe).later (hnumbered.2 frame hframe) hlater)
    exact put_unmoved pruning reconcileMs nowMs hsession hentry hview
      (putEntry_settled hsettled hmerged) hstate hrecovered

/-! ### States that are reached -/

/-- What a frame is read as, but for the time. -/
def CoreFrame.timeless (frame : CoreFrame S) : Option (AgentEvent S) × ℕ :=
  (frame.event, frame.revision)

/-- The same row, read at another time. -/
structure SameRow (row row' : CoreRow S) : Prop where
  session : row'.session = row.session
  generation : row'.generation = row.generation
  lifecycle : row'.lifecycle = row.lifecycle
  hookTool : row'.hookTool = row.hookTool
  activityEvent : row'.activityEvent.map CoreFrame.timeless =
    row.activityEvent.map CoreFrame.timeless
  event : row'.event.map CoreFrame.timeless = row.event.map CoreFrame.timeless
  agent : row'.agent = row.agent
  declared : row'.declaredStatus = row.declaredStatus
  capable : row'.programStatusCapable = row.programStatusCapable
  observed : row'.observedRuntime = row.observedRuntime
  accountEnv : row'.accountEnv = row.accountEnv

omit [LinearOrder S] in
theorem numbered_of_timeless {last last' : Option (CoreFrame S)}
    (h : last'.map CoreFrame.timeless = last.map CoreFrame.timeless) {frame' : CoreFrame S}
    (hframe' : frame' ∈ last') :
    ∃ frame ∈ last, frame.event = frame'.event ∧ frame.revision = frame'.revision := by
  rw [Option.mem_def.1 hframe', Option.map_some] at h
  obtain ⟨frame, hframe, heq⟩ := Option.map_eq_some_iff.1 h.symm
  exact ⟨frame, hframe, Prod.mk.inj heq⟩

theorem Spent.timeless {last last' : Option (CoreFrame S)}
    (h : last'.map CoreFrame.timeless = last.map CoreFrame.timeless)
    (hspent : ∀ frame ∈ last, Spent frame state) : ∀ frame ∈ last', Spent frame state := by
  intro frame' hframe' event entry hevent' hentry
  obtain ⟨frame, hframe, hevent, hrevision⟩ := numbered_of_timeless h hframe'
  have hrefuses := hspent frame hframe event entry (hevent.trans hevent') hentry
  unfold WorkerState.refuses at hrefuses ⊢
  rwa [← hrevision]

theorem Applied.sameRow {row row' : CoreRow S} {session : S} (h : Applied row session state)
    (hsame : SameRow row row') : Applied row' session state := by
  rcases h with hbehind | ⟨⟨entry, hentry, hrow⟩, hspent, hspent'⟩
  · left
    unfold Behind at hbehind ⊢
    rwa [hsame.session, hsame.generation]
  · right
    refine ⟨⟨entry, hentry, ?_⟩, Spent.timeless hsame.activityEvent hspent,
      Spent.timeless hsame.event hspent'⟩
    refine ⟨?_, ?_, ?_, ?_⟩
    · rw [hsame.generation, hrow.generation]
    · rw [hsame.lifecycle, hrow.lifecycle]
    · rw [hsame.declared, hrow.declared]
    · rw [hsame.observed, hrow.observed]

omit [LinearOrder S] in
theorem CoreRow.Numbered.sameRow {row row' : CoreRow S} (h : row.Numbered) (hsame : SameRow row row') :
    row'.Numbered := by
  constructor
  · intro frame' hframe'
    obtain ⟨frame, hframe, -, hrevision⟩ := numbered_of_timeless hsame.activityEvent hframe'
    rw [← hrevision]
    exact h.1 frame hframe
  · intro frame' hframe'
    obtain ⟨frame, hframe, -, hrevision⟩ := numbered_of_timeless hsame.event hframe'
    rw [← hrevision]
    exact h.2 frame hframe

/-- The states that the worker reaches. -/
def Reached (catalog : Catalog R A) (state : WorkerState S A) : Prop :=
  ∃ ops : List (Op S), WorkerState.new.run catalog ops = state

theorem Reached.settled (h : Reached catalog state) : SettledBut catalog (fun _ => False) state := by
  obtain ⟨ops, rfl⟩ := h
  refine run_settled catalog ops ?_
  intro session entry hentry
  cases hentry

/-- A row without a session is passed over. -/
theorem sessionless_unmoved {row : CoreRow S} (pruning : Bool) (reconcileMs nowMs : ℕ)
    (hsettled : SettledBut catalog (fun _ => False) state) (hsession : row.session = none) :
    Unmoved (fun session => pruning = true → row.session = some session) state
      (state.applyCoreRows catalog [row] pruning reconcileMs nowMs) := by
  have hrows : [row].foldl (RowLoop.step catalog) (.start state) = .start state := by
    rw [List.foldl_cons, List.foldl_nil]
    unfold RowLoop.step
    rw [hsession]
  rw [applyCoreRows_eq state [row] pruning reconcileMs nowMs hrows]
  refine (finish_unmoved (.start state) pruning reconcileMs nowMs hsettled rfl).congr fun session => ?_
  refine imp_congr_right fun _ => ?_
  rw [hsession]
  constructor
  · intro hsome
    cases hsome
  · intro hsome
    cases hsome

omit [LinearOrder S] in
theorem refuses_of_stale {frame : CoreFrame S} {event : AgentEvent S} {entry : SessionEntry S}
    (h : (∃ generation ∈ event.generation, generation ≠ entry.generation) ∨
      0 < entry.hookRevision ∧ frame.revision ≤ entry.hookRevision) :
    WorkerState.refuses entry frame event = true := by
  unfold WorkerState.refuses
  simp only [Bool.or_eq_true, Bool.and_eq_true, decide_eq_true_eq, Option.any_eq_true]
  rcases h with ⟨generation, hgeneration, hne⟩ | ⟨hheld, hle⟩
  · exact .inr ⟨generation, hgeneration, hne⟩
  · left
    omega

/-- In a state that the worker has reached, nothing is moved by rows of generations that are over, whether they
come alone or as a snapshot, and among other rows the round for such a row only sees its session; nor by an
event that names another generation or is not above the revision that is held; nor by a row with numbered events
that has just been applied, if it does not bring back an activity. -/
theorem stale_unmoved (catalog : Catalog R A) (state : WorkerState S A) (h : Reached catalog state) :
    (∀ (loop : RowLoop S A) (row : CoreRow S), Behind loop.state row →
      ∃ session ∈ row.session, loop.step catalog row =
        { loop with seen := loop.seen.insert session () }) ∧
    (∀ (rows : List (CoreRow S)) (pruning : Bool) (reconcileMs nowMs : ℕ),
      (∀ row ∈ rows, Behind state row) →
        Unmoved (fun session => pruning = true → ∃ row ∈ rows, row.session = some session) state
          (state.applyCoreRows catalog rows pruning reconcileMs nowMs)) ∧
    (∀ (frame : CoreFrame S) (event : AgentEvent S) (entry : SessionEntry S),
      frame.event = some event → state.sessions.get? event.session = some entry →
        ((∃ generation ∈ event.generation, generation ≠ entry.generation) ∨
          0 < entry.hookRevision ∧ frame.revision ≤ entry.hookRevision) →
          state.applyCoreEvent catalog frame = (state, none)) ∧
    ∀ (row row' : CoreRow S) (pruning pruning' : Bool) (reconcileMs nowMs reconcileMs' nowMs' : ℕ)
      (applied : WorkerState S A), row.Numbered → SameRow row row' →
        (state.applyCoreRows catalog [row] pruning reconcileMs nowMs).1 = applied →
          (∀ session ∈ row.session, ∀ entry ∈ applied.sessions.get? session,
            RowLoop.behind row (some entry) = true ∨ ¬ Brings row entry) →
            Unmoved (fun session => pruning' = true → row.session = some session) applied
              (applied.applyCoreRows catalog [row'] pruning' reconcileMs' nowMs') := by
  have hsettled := h.settled
  refine ⟨fun loop row hbehind => step_behind catalog hbehind, ?_, ?_, ?_⟩
  · intro rows pruning reconcileMs nowMs hrows
    exact behind_unmoved pruning reconcileMs nowMs hsettled hrows
  · intro frame event entry hevent hentry hstale
    have hspent : Spent frame state := by
      intro event' entry' hevent' hentry'
      obtain rfl := Option.some.inj (hevent.symm.trans hevent')
      obtain rfl := Option.some.inj (hentry.symm.trans hentry')
      exact refuses_of_stale hstale
    exact hspent.applyCoreEvent catalog
  · intro row row' pruning pruning' reconcileMs nowMs reconcileMs' nowMs' applied hnumbered hsame
      happlied hbrings
    have hsettled' : SettledBut catalog (fun _ => False) applied := by
      rw [← happlied]
      exact applyCoreRows_settled [row] pruning reconcileMs nowMs hsettled
    rw [← hsame.session]
    cases hsession : row.session with
    | none =>
      exact sessionless_unmoved pruning' reconcileMs' nowMs' hsettled' (hsame.session.trans hsession)
    | some session =>
      have hrow : Applied row session applied := by
        rw [← happlied]
        exact applyCoreRows_applied catalog state pruning reconcileMs nowMs hsession hnumbered
      refine again_unmoved pruning' reconcileMs' nowMs' hsettled' (hnumbered.sameRow hsame)
        (hsame.session.trans hsession) (hrow.sameRow hsame) ?_
      intro entry hentry
      have hcase := hbrings session hsession entry hentry
      unfold RowLoop.behind Brings at hcase ⊢
      rwa [hsame.generation, hsame.hookTool, hsame.agent]

/-- A catalog with a single runtime, whose tools are all known. -/
def knownCatalog : Catalog Unit Unit :=
  ⟨fun _ => some (), fun _ => some (), fun _ => "agent", fun _ => "Agent", fun _ => some "agent",
    fun _ _ => some ()⟩

/-- An event of the session 1. -/
def agentFrame (kind : AgentEventKind) (generation : Option ℕ) (revision : ℕ) : CoreFrame ℕ :=
  { event := some
      { session := 1
        generation := generation
        kind := kind
        tool := "agent"
        pid := none
        toolName := none
        message := none
        summary := none
        exitCode := none
        emittedAtMs := none
        isInterrupt := false
        providerSessionId := none
        transcriptPath := none }
    revision := revision
    receivedAtMs := 0 }

/-- A row of the session 1, whose agent works and had an event. -/
def hookRow (generation : ℕ) (frame : Option (CoreFrame ℕ)) : CoreRow ℕ :=
  { session := some 1
    generation := some generation
    lifecycle := .running
    hookTool := some "agent"
    activityEvent := none
    event := frame
    agent := none
    declaredStatus := some ⟨"working", none, none, "", "", ""⟩
    programStatusCapable := true
    observedRuntime := none
    accountEnv := .empty
    nowMs := 0 }

/-- The agent was prompted in the second generation. -/
def promptedRow : CoreRow ℕ := hookRow 2 (some (agentFrame .promptSubmit (some 2) 1))

def promptedState : WorkerState ℕ Unit :=
  WorkerState.new.run knownCatalog [.coreSession promptedRow 0 0]

theorem stale_unmoved_prompted :
    Unmoved (fun session => false = true → ∃ row ∈ [hookRow 1 none], row.session = some session)
        promptedState (promptedState.applyCoreRows knownCatalog [hookRow 1 none] false 0 0) ∧
      promptedState.applyCoreEvent knownCatalog (agentFrame .sessionEnd (some 2) 1) =
        (promptedState, none) ∧
      Unmoved (fun session => true = true → promptedRow.session = some session)
        (promptedState.applyCoreRows knownCatalog [promptedRow] false 0 0).1
        ((promptedState.applyCoreRows knownCatalog [promptedRow] false 0 0).1.applyCoreRows
          knownCatalog [promptedRow] true 5 5) := by
  obtain ⟨-, hbehind, hevent, hagain⟩ := stale_unmoved knownCatalog promptedState ⟨_, rfl⟩
  have hheld : (promptedState.sessions.get? 1).map (fun entry => entry.hookRevision) = some 1 := by
    decide
  obtain ⟨entry, hentry, hrevision⟩ := Option.map_eq_some_iff.1 hheld
  refine ⟨hbehind [hookRow 1 none] false 0 0 ?_, ?_, ?_⟩
  · unfold Behind
    decide
  · exact hevent _ _ entry rfl hentry (.inr ⟨hrevision ▸ Nat.one_pos, hrevision ▸ le_rfl⟩)
  · refine hagain promptedRow promptedRow false true 0 0 5 5 _ ?_
      ⟨rfl, rfl, rfl, rfl, rfl, rfl, rfl, rfl, rfl, rfl, rfl⟩ rfl ?_
    · unfold CoreRow.Numbered
      decide
    · unfold Brings
      decide

/-- The agent has ended. -/
def endedRow : CoreRow ℕ := hookRow 1 (some (agentFrame .sessionEnd (some 1) 1))

def endedState : WorkerState ℕ Unit := WorkerState.new.run knownCatalog [.coreSession endedRow 0 0]

/-- There was no event yet. -/
def quietState : WorkerState ℕ Unit :=
  WorkerState.new.run knownCatalog [.coreSession (hookRow 1 none) 0 0]

/-- The row of an agent that has ended, applied once more, brings the agent back. And an event without a number
is heard as long as no number is known. -/
theorem not_stale_unmoved :
    ((endedState.sessions.get? 1).map view = some (.idle, 1, none, false, none) ∧
      ((endedState.applyCoreSession knownCatalog endedRow 0 0).1.sessions.get? 1).map view =
        some (.busy, 2, none, false, some "agent")) ∧
    (quietState.sessions.get? 1).map (fun entry => (entry.hookRevision, entry.status)) =
        some (0, .busy) ∧
      (agentFrame .sessionEnd (some 1) 0).revision ≤ 0 ∧
      ((quietState.applyCoreEvent knownCatalog (agentFrame .sessionEnd (some 1) 0)).1.sessions.get?
        1).map (fun entry => entry.status) = some .idle := by
  refine ⟨⟨?_, ?_⟩, ?_, ?_, ?_⟩
  all_goals decide

end Paneflow.Serve
