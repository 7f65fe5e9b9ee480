import Paneflow.Host.Effects

/-!
# What the calls have to do with shutdowns

Of where a call stands, only its `duty` matters for the shutdowns: whether it may still ask for one, is a stop
that one has started, or is one. `Move` lists what a step can do to the flag, to what the shutdowns exchange
with their stops, and to the runtimes; `advance_move` says that there is nothing else. The steps are those of
timely runs: a shutdown whose caller has given up ends only while no other one holds the flag (`Timely`).
-/

namespace Paneflow.Host.ShutdownMoves

open Paneflow.Host.Persistence Paneflow.Host.Sessions Paneflow.Host.Calls Paneflow.Host.Machine
open Paneflow.Host.Effects

variable {S : Type}

/-- What a call has to do with the shutdowns: `fresh` may still ask for one, `stop`, `stopping` and
`confirmed` are stops that the shutdown `w` has started, `collecting` is a shutdown that waits for the
sessions that are left. -/
inductive Duty (S : Type) where
  | plain
  | fresh
  | stop (w : ℕ)
  | stopping (w : ℕ) (session : S) (name : ℕ)
  | confirmed (w : ℕ) (session : S)
  | collecting (left : List S)
  | cleared
  | clearing

/-- The shutdown has set the flag. -/
def Duty.active : Duty S → Prop
  | .collecting _ | .cleared | .clearing => True
  | _ => False

/-- A stop that is over, when it did not fail. -/
def stopDuty (session : S) (failed : Bool) : Option ℕ → Duty S
  | none => .plain
  | some w => if failed then .stop w else .confirmed w session

def Then.duty : Then S → Duty S
  | .inspect session failure reply => stopDuty session failure.isSome reply
  | _ => .plain

def duty : Call S → Duty S
  | .idle | .shutdown _ (.requested _) => .fresh
  | .stopCalled _ _ (some w) => .stop w
  | .stopping session _ name (some w) => .stopping w session name
  | .stopped session _ _ report reply => stopDuty session report.unverified.isSome reply
  | .inspecting session failure reply => stopDuty session failure.isSome reply
  | .numbering _ _ next | .submitting _ next | .waiting _ _ next => Then.duty next
  | .shutdown _ (.collecting unspawned pending unresolved) =>
    .collecting (unspawned.map Prod.fst ++ pending ++ unresolved)
  | .shutdown _ .checking | .shutdown _ .completing | .shutdown _ (.draining _)
  | .shutdown _ (.finished true) | .returned .shutDown => .cleared
  | .shutdown _ .clearing => .clearing
  | _ => .plain

theorem duty_resume (id : ℕ) (ok : Bool) (next : Then S) :
    duty (next.resume id ok) = Then.duty next := by
  cases next with
  | launch session operation => cases ok <;> rfl
  | relaunch restart ledger => cases ok <;> rfl
  | _ => rfl

theorem role_admitting {session : S} {fresh : SessionManifest S} {operation : ℕ}
    {call : Call S} (h : role call = .admitting session fresh operation) :
    ∃ attempts, call = .admitting session fresh operation attempts := by
  cases call with
  | admitting => cases h; exact ⟨_, rfl⟩
  | numbering id cls next => cases next <;> cases h
  | submitting record next => cases next <;> cases h
  | waiting ticket id next => cases next <;> cases h
  | _ => cases h

theorem role_readmitting {restart : Restart S} {ledger : ℕ}
    {call : Call S} (h : role call = .readmitting restart ledger) :
    ∃ attempts, call = .readmitting restart ledger attempts := by
  cases call with
  | readmitting => cases h; exact ⟨_, rfl⟩
  | numbering id cls next => cases next <;> cases h
  | submitting record next => cases next <;> cases h
  | waiting ticket id next => cases next <;> cases h
  | _ => cases h

theorem role_launching {session : S} {id generation operation : ℕ}
    {call : Call S} (h : role call = .launching session id generation operation) :
    call = .launching session id generation operation := by
  cases call with
  | launching => cases h; rfl
  | numbering id cls next => cases next <;> cases h
  | submitting record next => cases next <;> cases h
  | waiting ticket id next => cases next <;> cases h
  | _ => cases h

/-- A shutdown that has set the flag and has not ended. -/
def running : Call S → Bool
  | .shutdown _ (.requested _) | .shutdown _ (.finished false) => false
  | .shutdown _ _ => true
  | _ => false

theorem running_of_active {call : Call S} (h : (duty call).active) :
    running call = true ∨ call = .returned .shutDown := by
  have hstop : ∀ {session : S} {failed : Bool} {reply : Option ℕ},
      ¬ (stopDuty session failed reply).active := by
    intro session failed reply
    cases reply <;> cases failed <;> exact id
  have hthen : ∀ {next : Then S}, ¬ (Then.duty next).active := by
    intro next
    cases next with
    | inspect session failure reply => exact hstop
    | _ => exact id
  cases call with
  | shutdown waiting stage =>
    cases stage with
    | requested force => exact h.elim
    | finished ok =>
      cases ok with
      | true => exact .inl rfl
      | false => exact h.elim
    | _ => exact .inl rfl
  | returned outcome =>
    cases outcome with
    | shutDown => exact .inr rfl
    | _ => exact h.elim
  | stopCalled session generation reply => cases reply <;> exact h.elim
  | stopping session id runtime reply => cases reply <;> exact h.elim
  | stopped => exact absurd h hstop
  | inspecting => exact absurd h hstop
  | numbering => exact absurd h hthen
  | submitting => exact absurd h hthen
  | waiting => exact absurd h hthen
  | _ => exact h.elim

variable [LinearOrder S]

/-- The part of the shared state that the shutdowns look at, the records apart. -/
structure Flags (S : Type) where
  shuttingDown : Bool
  holder : Option ℕ
  flagged : List ℕ
  spawned : List (S × ℕ × ℕ)
  results : List (ℕ × S × Bool)
  runtimes : ℕ → Option Runtime

def flags (sh : Shared S) : Flags S :=
  ⟨sh.shuttingDown, sh.holder, sh.flagged, sh.spawned, sh.results, sh.runtimes⟩

/-- The session has no pending launch, and its runtime is one of the given ones. -/
def Unlaunched (names : ℕ → Prop) (v : Records S) (session : S) : Prop :=
  ∀ record, v.table.get? session = some record → record.launch = none ∧
    ∀ name, record.runtime = some name → names name

theorem Unlaunched.mono {names names' : ℕ → Prop} {v : Records S} {s : S}
    (h : ∀ name, names name → names' name)
    (hu : Unlaunched names v s) : Unlaunched names' v s := by
  intro record hget
  exact ⟨(hu record hget).1, fun name hname => h name ((hu record hget).2 name hname)⟩

/-- Nothing is left of the process. -/
def Released (runtimes : ℕ → Option Runtime) (name : ℕ) : Prop :=
  (runtimes name).any Runtime.released

/-- The session has no pending launch and owns no process. -/
def Clear (runtimes : ℕ → Option Runtime) (v : Records S) (session : S) : Prop :=
  Unlaunched (Released runtimes) v session

/-- What a step of the call `me` can do about the shutdowns. -/
inductive Move (host : Identity S) (me : ℕ) (sh : Shared S) (v' : Records S) :
    Duty S → Flags S → Duty S → Prop
  | same (old : Duty S) : Move host me sh v' old (flags sh) old
  | leave {old : Duty S} : ¬ old.active → Move host me sh v' old (flags sh) .plain
  | become (name : ℕ) (state : Runtime) : (sh.runtimes name).any (Runtime.mayBecome · state) →
    Move host me sh v' .fresh
      { flags sh with runtimes := Function.update sh.runtimes name (some state) } .fresh
  | started (name : ℕ) (state : Runtime) : sh.runtimes name = none →
    Move host me sh v' .plain
      { flags sh with runtimes := Function.update sh.runtimes name (some state) } .plain
  | spawned (session : S) (generation w : ℕ) : (session, generation, w) ∈ sh.spawned →
    Move host me sh v' .fresh
      { flags sh with spawned := sh.spawned.erase (session, generation, w) } (.stop w)
  | stopping (w : ℕ) (session : S) (name : ℕ) : Unlaunched (· = name) sh.toRecords session →
    Move host me sh v' (.stop w) (flags sh) (.stopping w session name)
  | found (w : ℕ) (session : S) : Clear sh.runtimes sh.toRecords session →
    Move host me sh v' (.stop w) (flags sh) (.confirmed w session)
  | confirmed (w : ℕ) (session : S) (name : ℕ) : Released sh.runtimes name →
    Move host me sh v' (.stopping w session name) (flags sh) (.confirmed w session)
  | unconfirmed (w : ℕ) (session : S) (name : ℕ) :
    Move host me sh v' (.stopping w session name) (flags sh) (.stop w)
  | failed (w : ℕ) (session : S) : Move host me sh v' (.stop w)
      { flags sh with results := sh.results ++ [(w, session, false)] } .plain
  | ended (w : ℕ) (session : S) (ok : Bool) : Move host me sh v' (.confirmed w session)
      { flags sh with results := sh.results ++ [(w, session, ok)] } .plain
  | request : sh.shuttingDown = false → v' = sh.toRecords → Move host me sh v' .fresh
      { flags sh with
        shuttingDown := true
        holder := some me
        flagged := me :: sh.flagged }
      (.collecting ((sh.ownedSessions host).map Prod.fst))
  | spawn (left left' : List S) (session : S) (generation : ℕ) : (∀ s ∈ left, s ∈ left') →
    Move host me sh v' (.collecting left)
      { flags sh with spawned := (session, generation, me) :: sh.spawned } (.collecting left')
  | unspawned (left left' : List S) : (∀ s ∈ left, s ∈ left') →
    Move host me sh v' (.collecting left) (flags sh) (.collecting left')
  | collect (left left' : List S) (session : S) (ok : Bool) : (me, session, ok) ∈ sh.results →
    (∀ s ∈ left, s ∈ left' ∨ s = session ∧ ok) →
    Move host me sh v' (.collecting left)
      { flags sh with results := sh.results.erase (me, session, ok) } (.collecting left')
  | cleared : Move host me sh v' (.collecting []) (flags sh) .cleared
  | fail {old : Duty S} : old.active → Move host me sh v' old (flags sh) .clearing
  | clear (old : Duty S) : old = .clearing ∨ sh.holder = none ∨ sh.holder = some me →
    Move host me sh v' old { flags sh with shuttingDown := false, holder := none } .plain

/-! ### Steps -/

/-- A shutdown whose caller has given up ends only while no other one holds the flag. -/
def Timely (me : ℕ) (_ : Input S) (sh : Shared S) : Call S → Prop
  | .shutdown false (.finished _) => sh.holder = none ∨ sh.holder = some me
  | _ => True

instance (me : ℕ) (input : Input S) (sh : Shared S) (call : Call S) :
    Decidable (Timely me input sh call) := by
  apply @Call.casesOn S (fun call => Decidable (Timely me input sh call)) call
  case shutdown =>
    intro waiting stage
    apply @Bool.casesOn (fun waiting => Decidable (Timely me input sh (.shutdown waiting stage))) waiting
    · apply @Stage.casesOn S (fun stage => Decidable (Timely me input sh (.shutdown false stage))) stage
      all_goals
        intros
        dsimp only [Timely]
        infer_instance
    · exact inferInstanceAs (Decidable True)
  all_goals
    intros
    dsimp only [Timely]
    infer_instance

section
variable {host : Identity S} {me : ℕ} {input : Input S} {answers : Answers} {sh sh' : Shared S}
  {call call' : Call S}

theorem start_move (h : sh.start host me input = some (sh', call')) :
    Move host me sh sh'.toRecords .fresh (flags sh') (duty call') := by
  have hplain : ∀ {f}, f = flags sh → Move host me sh sh'.toRecords .fresh f .plain := by
    rintro f rfl
    exact .leave id
  cases input with
  | writer op =>
    simp only [Shared.start] at h
    split_ifs at h
    obtain ⟨sh1, h1, heq⟩ := Option.map_eq_some_iff.1 h
    obtain ⟨y, -, rfl⟩ := persistence_eq_some h1
    cases heq
    exact .same _
  | runtime id state =>
    simp only [Shared.start] at h
    split_ifs at h with hbecome
    cases h
    exact .become id state hbecome
  | create request now =>
    simp only [Shared.start, Shared.create] at h
    split_ifs at h <;> cases h <;> exact hplain rfl
  | restart session generation =>
    simp only [Shared.start, Shared.restart] at h
    split_ifs at h <;> cases h <;> exact hplain rfl
  | spawned session generation worker =>
    simp only [Shared.start] at h
    split_ifs at h with hmem
    cases h
    exact .spawned session generation worker hmem
  | remove session =>
    simp only [Shared.start, Shared.remove] at h
    split at h
    · cases h
      exact hplain rfl
    · split_ifs at h <;> cases h <;> exact hplain rfl
  | update id generation update now =>
    simp only [Shared.start, Shared.update] at h
    split at h <;> cases h <;> exact hplain rfl
  | complete session id generation output =>
    simp only [Shared.start, Shared.completeSession] at h
    split_ifs at h <;> cases h <;> exact hplain rfl
  | ingest event =>
    simp only [Shared.start, Shared.ingestAgentEvent] at h
    split at h <;> cases h <;> exact hplain rfl
  | shutdown force =>
    cases h
    exact .same _
  | giveUp => cases h
  | proceed answers => cases h
  | _ =>
    cases h
    exact hplain rfl

theorem stopUntil_move {session : S} {generation : Option ℕ} {w : ℕ}
    (h : sh.stopUntil session generation (some w) = some (sh', call')) :
    Move host me sh sh'.toRecords (.stop w) (flags sh') (duty call') := by
  simp only [Shared.stopUntil] at h
  split at h
  · cases h
    exact .same _
  · rename_i record hrecord
    have hgiven : ∀ {names : ℕ → Prop}, record.launch = none →
        (∀ name, record.runtime = some name → names name) →
        Unlaunched names sh.toRecords session := by
      intro names hlaunch hnames record' hrecord'
      cases hrecord.symm.trans hrecord'
      exact ⟨hlaunch, hnames⟩
    split at h
    · cases h
      exact .same _
    · cases h
      exact .same _
    · rename_i hlaunch hruntime
      split_ifs at h <;> cases h
      · exact .same _
      · refine .found w session (hgiven hlaunch fun name hname => ?_)
        cases hruntime.symm.trans hname
    · rename_i runtime _ hlaunch hruntime
      split_ifs at h with hreleased <;> cases h
      · refine .found w session (hgiven hlaunch fun name hname => ?_)
        cases hruntime.symm.trans hname
        exact hreleased
      · refine .stopping w session runtime (hgiven hlaunch fun name hname => ?_)
        cases hruntime.symm.trans hname
        rfl

theorem shutdownCollect_move {waiting : Bool} {unspawned : List (S × ℕ)} {pending unresolved : List S}
    (h : sh.shutdownCollect me waiting unspawned pending unresolved answers = some (sh', call')) :
    Move host me sh sh'.toRecords (.collecting (unspawned.map Prod.fst ++ pending ++ unresolved)) (flags sh')
      (duty call') := by
  unfold Shared.shutdownCollect at h
  split at h
  · rename_i session generation rest
    split_ifs at h <;> cases h
    · refine .spawn _ _ session generation fun s hs => ?_
      simp only [List.map_cons, List.cons_append, List.mem_cons, List.mem_append] at hs ⊢
      tauto
    · refine .unspawned _ _ fun s hs => ?_
      simp only [List.map_cons, List.cons_append, List.mem_cons, List.mem_append] at hs ⊢
      tauto
  · cases h
    cases unresolved with
    | nil => exact .cleared
    | cons s unresolved => exact .fail trivial
  · split_ifs at h
    · cases h
      refine .unspawned _ _ fun s hs => ?_
      simp only [List.map_nil, List.nil_append, List.mem_append] at hs ⊢
      tauto
    · split at h
      · cases h
      · rename_i worker session ok hfind
        cases h
        have hworker : worker = me := by simpa using List.find?_some hfind
        subst hworker
        refine .collect _ _ session ok (List.mem_of_find?_eq_some hfind) fun s hs => ?_
        simp only [List.map_nil, List.nil_append, List.mem_append, List.mem_filter,
          decide_eq_true_eq] at hs ⊢
        by_cases hsession : s = session
        · subst hsession
          cases ok with
          | true => exact .inr ⟨rfl, rfl⟩
          | false => exact .inl (.inr (List.mem_cons_self ..))
        · refine .inl (hs.imp (fun hs => ⟨hs, hsession⟩) fun hs => ?_)
          cases ok with
          | true => exact hs
          | false => exact List.mem_cons_of_mem _ hs

theorem shutdown_move {waiting : Bool} {stage : Stage S}
    (hc : Timely me input sh (.shutdown waiting stage))
    (h : sh.shutdown host me waiting stage answers = some (sh', call')) :
    Move host me sh sh'.toRecords (duty (.shutdown waiting stage)) (flags sh') (duty call') := by
  unfold Shared.shutdown at h
  split at h
  · simp only [Shared.shutdownUntil] at h
    split_ifs at h with hrefused <;> cases h
    · exact .leave id
    · have hflag : sh.shuttingDown = false := by
        simp only [Bool.or_eq_true, not_or, Bool.not_eq_true] at hrefused
        exact hrefused.1
      have hduty : duty (.shutdown waiting (.collecting (sh.ownedSessions host) [] [])) =
          .collecting ((sh.ownedSessions host).map Prod.fst) := by simp [duty]
      rw [hduty]
      exact .request hflag rfl
  · exact shutdownCollect_move h
  · simp only [Shared.shutdownCheck] at h
    split_ifs at h <;> cases h
    · exact .same _
    · exact .fail trivial
  · unfold Shared.shutdownComplete at h
    split_ifs at h
    · obtain ⟨sh1, h1, heq⟩ := Option.bind_eq_some_iff.1 h
      obtain ⟨y, -, rfl⟩ := persistence_eq_some h1
      cases heq
      exact .same _
    · cases h
      exact .fail trivial
  · unfold Shared.shutdownDrain at h
    split at h
    · cases h
      exact .same _
    · cases h
      exact .fail trivial
    · split_ifs at h
      cases h
      exact .fail trivial
  · cases h
    exact .clear _ (.inl rfl)
  · rename_i ok
    cases waiting with
    | true => cases ok <;> cases h <;> exact .same _
    | false =>
      cases h
      exact .clear _ (.inr hc)

theorem inspect_move {session : S} {failure : Option HostError} {reply : Option ℕ}
    (h : sh.inspect session failure reply = some (sh', call')) :
    Move host me sh sh'.toRecords (stopDuty session failure.isSome reply) (flags sh') (duty call') := by
  have houtcome : ∀ {outcome : Outcome}, outcome ≠ .shutDown →
      duty (.returned outcome : Call S) = .plain := by
    intro outcome hne
    cases outcome with
    | shutDown => exact absurd rfl hne
    | _ => rfl
  simp only [Shared.inspect] at h
  cases reply with
  | none =>
    cases h
    rw [houtcome]
    · exact .same _
    · split <;> simp
  | some w =>
    cases failure with
    | some error =>
      cases h
      exact .failed w session
    | none =>
      cases h
      rw [houtcome]
      · exact .ended w session _
      · split <;> simp

/-- A call that goes on. -/
theorem proceed_move (hc : Timely me input sh call)
    (h : sh.proceed host me answers call = some (sh', call')) :
    Move host me sh sh'.toRecords (duty call) (flags sh') (duty call') := by
  cases call with
  | idle => cases h
  | admitting session fresh operation attempts =>
    simp only [Shared.proceed, Shared.admitCreate] at h
    split at h
    · cases h
      exact .same _
    · split at h
      · cases h
        exact .same _
      · split_ifs at h <;> cases h <;> exact .same _
      · split_ifs at h
        cases h
        exact .same _
  | preparing session id operation =>
    simp only [Shared.proceed, Shared.prepareCreate] at h
    split_ifs at h <;> cases h <;> exact .same _
  | replacing session generation =>
    simp only [Shared.proceed, Shared.restartClone] at h
    split at h
    · cases h
      exact .same _
    · split at h <;> cases h <;> exact .same _
  | cloned restart =>
    simp only [Shared.proceed, Shared.restartSeed] at h
    split at h <;> cases h <;> exact .same _
  | seeded restart ledger =>
    simp only [Shared.proceed, Shared.restartLock] at h
    split_ifs at h <;> cases h <;> exact .same _
  | locked restart ledger =>
    simp only [Shared.proceed, Shared.restartPrepare] at h
    split_ifs at h <;> cases h <;> exact .same _
  | readmitting restart ledger attempts =>
    simp only [Shared.proceed, Shared.restartAdmit] at h
    split at h
    · cases h
      exact .same _
    · split at h
      · cases h
        exact .same _
      · split at h
        · cases h
          exact .same _
        · cases h
          exact .same _
        · split_ifs at h <;> cases h <;> exact .same _
        · cases h
          exact .same _
  | rollingBack restart ledger id =>
    simp only [Shared.proceed, Shared.restartRollBack] at h
    split at h <;> cases h <;> exact .same _
  | persisting session =>
    simp only [Shared.proceed, Shared.persistRecord] at h
    split at h <;> cases h <;> exact .same _
  | numbering id cls next =>
    simp only [Shared.proceed, Shared.persistRevision] at h
    split at h <;> cases h
    · exact .same _
    · rw [duty_resume]
      exact .same _
  | submitting record next =>
    simp only [Shared.proceed, Shared.submit] at h
    split_ifs at h
    all_goals
      obtain ⟨sh1, h1, h⟩ := Option.bind_eq_some_iff.1 h
      obtain ⟨y, -, rfl⟩ := persistence_eq_some h1
      split at h <;> cases h
    · exact .same _
    all_goals
      rw [duty_resume]
      exact .same _
  | waiting ticket id next =>
    have hsame : ∀ ok, Move host me sh sh'.toRecords (Then.duty next) (flags sh) (duty (next.resume id ok)) := by
      intro ok
      rw [duty_resume]
      exact .same _
    simp only [Shared.proceed, Shared.wait] at h
    split_ifs at h
    · cases h
      exact hsame _
    · split at h <;> cases h <;> exact hsame _
  | launching session id generation operation =>
    simp only [Shared.proceed, Shared.launch] at h
    split at h
    · simp only [Shared.commitLaunch] at h
      split_ifs at h with hfresh
      have hnone := Option.isNone_iff_eq_none.1 hfresh.1
      split at h
      · cases h
        exact .started _ _ hnone
      · cases h
        split_ifs <;> exact .started _ _ hnone
    · simp only [Shared.failLaunch] at h
      split at h
      · cases h
        exact .same _
      · cases h
        split_ifs <;> exact .same _
  | stopCalled session generation reply =>
    cases reply with
    | some w => exact stopUntil_move h
    | none =>
      simp only [Shared.proceed, Shared.stopUntil] at h
      split at h
      · cases h
        exact .same _
      · split at h
        · cases h
          exact .same _
        · cases h
          exact .same _
        · split_ifs at h <;> cases h <;> exact .same _
        · split_ifs at h <;> cases h <;> exact .same _
  | stopping session id runtime reply =>
    simp only [Shared.proceed, Shared.stopRuntime] at h
    split_ifs at h with hreports
    cases h
    cases reply with
    | none => exact .same _
    | some w =>
      cases hreport : answers.report.unverified with
      | some reason =>
        simp only [duty, stopDuty, hreport, Option.isSome_some, if_true]
        exact .unconfirmed w session runtime
      | none =>
        simp only [duty, stopDuty, hreport, Option.isSome_none]
        refine .confirmed w session runtime ?_
        simp only [Shared.reports, hreport, Option.isSome_none, Bool.false_or] at hreports
        obtain ⟨r, hr, hreleased⟩ := (Option.any_eq_true _ _).1 hreports
        refine (Option.any_eq_true _ _).2 ⟨r, hr, ?_⟩
        simp only [Bool.and_eq_true] at hreleased
        exact hreleased.1
  | stopped session id generation report reply =>
    simp only [Shared.proceed, Shared.stopCommit] at h
    have hfailure : (report.unverified.map HostError.ownershipUnresolved).isSome =
        report.unverified.isSome := Option.isSome_map
    split_ifs at h <;> cases h
    all_goals
      simp only [duty, Then.duty, hfailure]
      exact .same _
  | inspecting session failure reply => exact inspect_move h
  | removing dropped =>
    cases dropped with
    | nil =>
      cases h
      exact .same _
    | cons entry dropped =>
      simp only [Shared.proceed, Shared.removeNext] at h
      split_ifs at h
      cases h
      exact .same _
  | enqueuing session id wait dropped =>
    simp only [Shared.proceed, Shared.enqueueRemove] at h
    obtain ⟨sh1, h1, h⟩ := Option.bind_eq_some_iff.1 h
    obtain ⟨y, -, rfl⟩ := persistence_eq_some h1
    cases h
    cases wait <;> exact .same _
  | awaitingRemoval ticket dropped =>
    simp only [Shared.proceed, Shared.awaitRemoval] at h
    split_ifs at h
    cases h
    exact .same _
  | completing session id generation output =>
    simp only [Shared.proceed, Shared.completeCommit] at h
    split at h <;> cases h <;> exact .same _
  | recording session id generation offset =>
    simp only [Shared.proceed, Shared.completeRecord] at h
    split at h <;> cases h <;> exact .same _
  | releasing session generation =>
    simp only [Shared.proceed, Shared.releaseRetired] at h
    split at h <;> cases h <;> exact .same _
  | ingesting event id =>
    simp only [Shared.proceed, Shared.ingestLocked] at h
    split_ifs at h
    cases h
    split <;> exact .same _
  | awaiting id hookRevision retry =>
    simp only [Shared.proceed, Shared.awaitCriticalDurability] at h
    split_ifs at h <;> cases h <;> exact .same _
  | shutdown waiting stage => exact shutdown_move hc h
  | returned outcome => cases h
  | _ =>
    cases h
    exact .same _

/-- **What a step can do** about the shutdowns. -/
theorem advance_move (hc : Timely me input sh call)
    (h : advance host me input sh call = some (sh', call')) :
    Move host me sh sh'.toRecords (duty call) (flags sh') (duty call') := by
  rcases advance_cases h with ⟨rfl, h⟩ | ⟨answers, h⟩ | ⟨stage, rfl, rfl, rfl⟩
  · exact start_move h
  · exact proceed_move hc h
  · have hduty : duty (.shutdown true stage : Call S) = duty (.shutdown false stage) := by
      cases stage with
      | finished ok => cases ok <;> rfl
      | _ => rfl
    rw [hduty]
    exact .same _

theorem released_mono {f : Flags S} {old new : Duty S} {v' : Records S}
    (h : Move host me sh v' old f new) {name : ℕ} (hr : Released sh.runtimes name) : Released f.runtimes name := by
  obtain ⟨runtime, hruntime, hreleased⟩ := (Option.any_eq_true _ _).1 hr
  cases h with
  | become name' state hbecome =>
    refine (Option.any_eq_true _ _).2 ?_
    dsimp only
    rw [Function.update_apply]
    split_ifs with hname
    · subst hname
      refine ⟨state, rfl, ?_⟩
      rw [hruntime] at hbecome
      simp only [Option.any_some, Runtime.mayBecome, Bool.and_eq_true, hreleased, Bool.not_true,
        Bool.false_or] at hbecome
      exact hbecome.2
    · exact ⟨runtime, hruntime, hreleased⟩
  | started name' state hnone =>
    refine (Option.any_eq_true _ _).2 ⟨runtime, ?_, hreleased⟩
    dsimp only
    rw [Function.update_of_ne, hruntime]
    rintro rfl
    cases hnone.symm.trans hruntime
  | _ => exact hr

theorem isSome_mono {f : Flags S} {old new : Duty S} {v' : Records S}
    (h : Move host me sh v' old f new) {name : ℕ} (hr : (sh.runtimes name).isSome) : (f.runtimes name).isSome := by
  cases h with
  | become name' state =>
    dsimp only
    rw [Function.update_apply]
    split_ifs
    · rfl
    · exact hr
  | started name' state =>
    dsimp only
    rw [Function.update_apply]
    split_ifs
    · rfl
    · exact hr
  | _ => exact hr

end

end Paneflow.Host.ShutdownMoves
