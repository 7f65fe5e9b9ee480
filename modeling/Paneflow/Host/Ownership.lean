import Paneflow.Host.HookEvents
import Paneflow.Host.ShutdownMoves

/-!
# Who owns a process

While the flag of the shutdowns is set, no launch is admitted, so a session without a process stays without
one (`unlaunched_effect`). A record with a pending launch or with a process was written by this host
(`Ours`), so that the shutdown that looks at the records of this host misses none.
-/

namespace Paneflow.Host.Ownership

open Paneflow.Host.Persistence Paneflow.Host.Sessions Paneflow.Host.Calls Paneflow.Host.Machine
open Paneflow.Host.Effects Paneflow.Host.Launches Paneflow.Host.ShutdownMoves

variable {S : Type} [LinearOrder S]

section
variable {host : Identity S} {me : ℕ} {input : Input S} {sh sh' : Shared S} {call call' : Call S}

/-! ### Admission -/

/-- No launch is admitted in the step. -/
structure Unadmitted (old new : Role S) : Prop where
  create : ∀ session fresh operation, old = .admitting session fresh operation → new = .plain
  restart : ∀ restart ledger, old = .readmitting restart ledger → new = .unlocking ledger

/-- While the flag is set, no launch is admitted. -/
theorem unadmitted (hflag : sh.shuttingDown = true)
    (h : advance host me input sh call = some (sh', call')) :
    Unadmitted (role call) (role call') := by
  have hrefused : ∀ attempts, sh.admitLaunch attempts = .refused := by
    intro attempts
    simp [Shared.admitLaunch, hflag]
  constructor
  · intro session fresh operation hrole
    obtain ⟨attempts, rfl⟩ := role_admitting hrole
    rcases advance_cases h with ⟨hidle, -⟩ | ⟨answers, h⟩ | ⟨stage, hstage, -⟩
    · cases hidle
    · simp only [Shared.proceed, Shared.admitCreate, hrefused] at h
      split_ifs at h <;> cases h <;> rfl
    · cases hstage
  · intro restart ledger hrole
    obtain ⟨attempts, rfl⟩ := role_readmitting hrole
    rcases advance_cases h with ⟨hidle, -⟩ | ⟨answers, h⟩ | ⟨stage, hstage, -⟩
    · cases hidle
    · simp only [Shared.proceed, Shared.restartAdmit, hrefused] at h
      split at h
      · cases h
        rfl
      · split at h
        · cases h
          rfl
        · rename_i record _ _
          cases hreplace : sh.refuseReplacement host record <;> simp only [hreplace] at h <;>
            cases h <;> rfl
    · cases hstage

end

/-! ### Stopped sessions -/

section
variable {host : Identity S} {me : ℕ} {v v' : Records S} {old new : Role S} {names : ℕ → Prop} {s : S}

/-- A session without a pending launch stays without one, and gets no other runtime. -/
theorem unlaunched_effect (hadmitted : Unadmitted old new) (h : Effect host me v old v' new)
    (hu : Unlaunched names v s) : Unlaunched names v' s := by
  -- a step that writes the record of one session
  have hset : ∀ {session record' v'}, v'.table = v.table.insert session record' →
      (∀ record, s = session → v.table.get? session = some record → record.launch = none →
        record'.launch = none ∧ (record'.runtime = none ∨ record'.runtime = record.runtime)) →
      (∃ record, v.table.get? session = some record) → Unlaunched names v' s := by
    rintro session record' v' htable hnew ⟨record, hrecord⟩ record'' hget
    rw [htable, OrdMap.get?_insert] at hget
    split_ifs at hget with hs
    · cases hget
      subst hs
      obtain ⟨hnone, hnames⟩ := hu record hrecord
      obtain ⟨hlaunch, hruntime⟩ := hnew record rfl hrecord hnone
      refine ⟨hlaunch, fun name hname => ?_⟩
      rcases hruntime with hruntime | hruntime
      · cases hruntime.symm.trans hname
      · exact hnames name (hruntime.symm.trans hname)
    · exact hu record'' hget
  -- a launch that is settled was pending
  have hsettled : ∀ {session operation record launch record' v'},
      v.launchOf session operation = some (record, launch) →
      v'.table = v.table.insert session record' → Unlaunched names v' s := by
    intro session operation record launch record' v' hlaunch htable
    obtain ⟨hget, hpending, -⟩ := launchOf_eq_some hlaunch
    refine hset htable (fun r hs hr hnone => ?_) ⟨record, hget⟩
    cases hget.symm.trans hr
    cases hnone.symm.trans hpending
  cases h with
  | admitCreate session fresh operation id => cases hadmitted.create _ _ _ rfl
  | admitRestart restart ledger now record => cases hadmitted.restart _ _ rfl
  | undoCreate session id operation =>
    unfold Records.eraseCreated
    split_ifs
    · intro record hget
      dsimp only at hget
      rw [OrdMap.get?_erase] at hget
      split_ifs at hget
      exact hu record hget
    · exact hu
  | rollBack restart ledger id record launch hlaunch => exact hsettled hlaunch rfl
  | commitLaunch session id generation operation record launch runtime name now hlaunch =>
    exact hsettled hlaunch rfl
  | failLaunch session id generation operation record launch reason now hlaunch =>
    have htable : (v.failLaunch session record launch reason now).table =
        v.table.insert session { record with launch := none } := by
      unfold Records.failLaunch
      dsimp only
      split_ifs <;> rfl
    exact hsettled hlaunch htable
  | annotate session record record' hrecord hannotates =>
    refine hset rfl (fun r _ hr hnone => ?_) ⟨record, hrecord⟩
    cases hrecord.symm.trans hr
    refine ⟨?_, hannotates.runtime⟩
    have := hannotates.launch
    rw [hnone] at this
    simpa using this
  | drop dropped =>
    intro record hget
    rw [get?_drop] at hget
    split_ifs at hget
    exact hu record hget
  | commit id expected update now v' hcommit =>
    unfold Records.commit at hcommit
    split_ifs at hcommit
    cases hcommit
    exact hu
  | _ => exact hu

end

/-! ### The records of this host -/

section
variable {host : Identity S} {me : ℕ} {v v' : Records S} {old new : Role S} {s : S}

/-- Where a record comes from. -/
inductive RecordStep (host : Identity S) (v v' : Records S) (old new : Role S) (s : S)
    (record' : SessionRecord) : Prop
  | kept (record : SessionRecord) : v.table.get? s = some record → record'.id = record.id →
    record'.runtime = none ∨ record'.runtime = record.runtime →
    (record'.launch.isSome → record.launch.isSome) →
    (∀ restart ledger k, old = .rollingBack restart ledger k → v' = v ∨ restart.session ≠ s) →
    RecordStep host v v' old new s record'
  | created (fresh : SessionManifest S) (operation : ℕ) : old = .admitting s fresh operation →
    record'.runtime = none → v'.manifest record'.id = fresh →
    RecordStep host v v' old new s record'
  | admitted (restart : Restart S) (ledger : ℕ) (record : SessionRecord) :
    old = .readmitting restart ledger → new = .relaunching restart ledger record.id →
    restart.session = s → v.table.get? s = some record → record'.runtime = record.runtime →
    (v'.manifest record'.id).hostInstance = host.hostInstance →
    RecordStep host v v' old new s record'
  | settled (operation : ℕ) (record : SessionRecord) (launch : PendingLaunch) :
    v.launchOf s operation = some (record, launch) → record'.launch = none →
    record'.runtime = record.runtime → RecordStep host v v' old new s record'
  | launched (id generation operation : ℕ) (record : SessionRecord) (launch : PendingLaunch) :
    old = .launching s id generation operation → v.launchOf s operation = some (record, launch) →
    record'.launch = none → record'.id = record.id → RecordStep host v v' old new s record'

theorem recordStep (h : Effect host me v old v' new) {record' : SessionRecord}
    (hget : v'.table.get? s = some record') : RecordStep host v v' old new s record' := by
  have hkept : v.table.get? s = some record' →
      (∀ restart ledger k, old = .rollingBack restart ledger k → v' = v ∨ restart.session ≠ s) →
      RecordStep host v v' old new s record' :=
    fun hold hrole => .kept record' hold rfl (.inr rfl) (fun h => h) hrole
  -- a step that writes the record of one session
  have hset : ∀ {session record}, v'.table = v.table.insert session record →
      s = session ∧ record = record' ∨ s ≠ session ∧ v.table.get? s = some record' := by
    intro session record htable
    rw [htable, OrdMap.get?_insert] at hget
    split_ifs at hget with hs
    · exact .inl ⟨hs, Option.some.inj hget⟩
    · exact .inr ⟨hs, hget⟩
  cases h with
  | admitCreate session fresh operation id =>
    rcases hset rfl with ⟨rfl, rfl⟩ | ⟨-, hold⟩
    · refine .created fresh operation rfl rfl ?_
      rw [manifest_update (v := v) rfl]
      exact if_pos rfl
    · exact hkept hold (by rintro _ _ _ ⟨⟩)
  | undoCreate session id operation =>
    refine hkept ?_ (by rintro _ _ _ ⟨⟩)
    unfold Records.eraseCreated at hget
    split_ifs at hget
    · dsimp only at hget
      rw [OrdMap.get?_erase] at hget
      split_ifs at hget
      exact hget
    · exact hget
  | admitRestart restart ledger now record hrecord =>
    rcases hset rfl with ⟨rfl, rfl⟩ | ⟨-, hold⟩
    · refine .admitted restart ledger record rfl rfl rfl hrecord rfl ?_
      rw [manifest_update (v := v) rfl]
      exact congrArg SessionManifest.hostInstance (if_pos rfl)
    · exact hkept hold (by rintro _ _ _ ⟨⟩)
  | rollBack restart ledger id record launch hlaunch =>
    rcases hset rfl with ⟨rfl, rfl⟩ | ⟨hne, hold⟩
    · exact .settled restart.operation record launch hlaunch rfl rfl
    · refine hkept hold ?_
      rintro _ _ _ ⟨⟩
      exact .inr (Ne.symm hne)
  | commitLaunch session id generation operation record launch runtime name now hlaunch =>
    rcases hset rfl with ⟨rfl, rfl⟩ | ⟨-, hold⟩
    · exact .launched id generation operation record launch rfl hlaunch rfl rfl
    · exact hkept hold (by rintro _ _ _ ⟨⟩)
  | failLaunch session id generation operation record launch reason now hlaunch =>
    have htable : (v.failLaunch session record launch reason now).table =
        v.table.insert session { record with launch := none } := by
      unfold Records.failLaunch
      dsimp only
      split_ifs <;> rfl
    rcases hset htable with ⟨rfl, rfl⟩ | ⟨-, hold⟩
    · exact .settled operation record launch hlaunch rfl rfl
    · exact hkept hold (by rintro _ _ _ ⟨⟩)
  | annotate session record new hrecord hannotates =>
    rcases hset rfl with ⟨rfl, rfl⟩ | ⟨-, hold⟩
    · refine .kept record hrecord hannotates.id hannotates.runtime ?_ (by rintro _ _ _ ⟨⟩)
      have := congrArg Option.isSome hannotates.launch
      rw [Option.isSome_map, Option.isSome_map] at this
      exact fun hsome => this ▸ hsome
    · exact hkept hold (by rintro _ _ _ ⟨⟩)
  | drop dropped =>
    rw [get?_drop] at hget
    split_ifs at hget
    exact hkept hget (by rintro _ _ _ ⟨⟩)
  | commit id expected update now v' hcommit =>
    unfold Records.commit at hcommit
    split_ifs at hcommit
    cases hcommit
    exact hkept hget (by rintro _ _ _ ⟨⟩)
  | quiet => exact hkept hget fun _ _ _ _ => .inl rfl
  | _ => exact hkept hget (by rintro _ _ _ ⟨⟩)

theorem hostInstance_step (h : Effect host me v old v' new) {j : ℕ} (hj : j ∈ v.allocated) :
    (v'.manifest j).hostInstance = (v.manifest j).hostInstance ∨
      (v'.manifest j).hostInstance = host.hostInstance ∨
      ∃ restart ledger k record launch, old = .rollingBack restart ledger k ∧
        v.launchOf restart.session restart.operation = some (record, launch) ∧ record.id = j := by
  have hstep := HookEvents.bookStep h hj
  have hbook : (v'.manifest j).hostInstance = (HookEvents.book v' j).hostInstance := rfl
  rw [hbook]
  generalize HookEvents.book v' j = b' at hstep
  cases hstep with
  | admitted => exact .inr (.inl rfl)
  | rollBack restart ledger k record launch hold _ hlaunch hid =>
    exact .inr (.inr ⟨restart, ledger, k, record, launch, hold, hlaunch, hid⟩)
  | _ => exact .inl rfl

end

section
variable {host : Identity S} {me : ℕ} {input : Input S} {sh sh' : Shared S} {call call' : Call S}
  {s : S}

/-- Nothing is left of the process of the record. -/
def Idle (runtimes : ℕ → Option Runtime) (record : SessionRecord) : Prop :=
  ∀ name, record.runtime = some name → Released runtimes name

/-- A record with a pending launch has no process, and one with either is of this host. -/
structure OursAt (host : Identity S) (sh : Shared S) (record : SessionRecord) : Prop where
  named : ∀ name, record.runtime = some name → (sh.runtimes name).isSome
  idle : record.launch.isSome → Idle sh.runtimes record
  owned : record.launch.isSome ∨ ¬ Idle sh.runtimes record →
    (sh.manifest record.id).hostInstance = host.hostInstance

def Ours (host : Identity S) (sh : Shared S) : Prop :=
  ∀ s record, sh.table.get? s = some record → OursAt host sh record

/-- The manifest that a `create` inserts is of this host. -/
def Native (host : Identity S) : Role S → Prop
  | .admitting _ fresh _ => fresh.hostInstance = host.hostInstance
  | _ => True

theorem native {v v' : Records S} {old new : Role S} (hn : Native host old)
    (h : Effect host me v old v' new) : Native host new := by
  cases h with
  | quiet hfollows =>
    cases hfollows with
    | same => exact hn
    | _ => trivial
  | create => rfl
  | _ => trivial

/-- A restart is only admitted when nothing is left of the process. -/
theorem refuseReplacement_idle {record : SessionRecord} (ho : OursAt host sh record)
    (h : sh.refuseReplacement host record = none) : Idle sh.runtimes record := by
  intro name hname
  obtain ⟨runtime, hruntime⟩ := Option.isSome_iff_exists.1 (ho.named name hname)
  have hof : sh.runtimeOf record = some runtime := by simp [Shared.runtimeOf, hname, hruntime]
  refine (Option.any_eq_true _ _).2 ⟨runtime, hruntime, ?_⟩
  unfold Shared.refuseReplacement at h
  simp only [Shared.isLive, hof, Option.any_some, Option.bind_some, Option.map_some,
    Option.getD_some] at h
  split at h
  · cases h
  · split at h
    · cases h
    · rename_i hlive
      split at h
      · cases h
      · rename_i hunverified
        split at h
        · cases h
        · rename_i hdescendants
          have hexit : runtime.exit.isNone = false := by
            simp only [Bool.or_eq_true, not_or, Bool.not_eq_true, Runtime.isLive, hunverified,
              Option.isNone_none, Bool.and_true] at hlive
            exact hlive.1
          simpa [Runtime.released, Runtime.ownsProcess, hexit, hunverified] using hdescendants

theorem readmitting_idle (ho : Ours host sh) {restart : Restart S} {ledger id : ℕ}
    {record : SessionRecord} (hold : role call = .readmitting restart ledger)
    (hnew : role call' = .relaunching restart ledger id)
    (hget : sh.table.get? restart.session = some record)
    (h : advance host me input sh call = some (sh', call')) : Idle sh.runtimes record := by
  obtain ⟨attempts, rfl⟩ := role_readmitting hold
  rcases advance_cases h with ⟨hidle, -⟩ | ⟨answers, h⟩ | ⟨stage, hstage, -⟩
  · cases hidle
  · refine refuseReplacement_idle (ho _ record hget) ?_
    simp only [Shared.proceed, Shared.restartAdmit, hget] at h
    cases hreplace : sh.refuseReplacement host record with
    | none => rfl
    | some error =>
      simp only [hreplace] at h
      split_ifs at h <;> cases h <;> cases hnew
  · cases hstage

theorem launched_named {id generation operation : ℕ} {record record' : SessionRecord}
    {launch : PendingLaunch} (ho : OursAt host sh record)
    (hold : role call = .launching s id generation operation)
    (hlaunch : sh.launchOf s operation = some (record, launch))
    (hget : sh'.table.get? s = some record')
    (h : advance host me input sh call = some (sh', call')) {name : ℕ}
    (hname : record'.runtime = some name) : (sh'.runtimes name).isSome := by
  cases role_launching hold
  rcases advance_cases h with ⟨hidle, -⟩ | ⟨answers, h⟩ | ⟨stage, hstage, -⟩
  · cases hidle
  · simp only [Shared.proceed, Shared.launch, Shared.commitLaunch, Shared.failLaunch, hlaunch] at h
    split at h
    · split at h
      · cases h
        change (sh.table.insert s _).get? s = some record' at hget
        rw [OrdMap.get?_insert, if_pos rfl] at hget
        cases hget
        cases hname
        change (Function.update sh.runtimes _ _ _).isSome
        rw [Function.update_self]
        rfl
      · cases h
    · cases h
      have htable : (sh.toRecords.failLaunch s record launch answers.reason answers.now).table =
          sh.table.insert s { record with launch := none } := by
        unfold Records.failLaunch
        dsimp only
        split_ifs <;> rfl
      change (Records.failLaunch _ _ _ _ _ _).table.get? s = some record' at hget
      rw [htable, OrdMap.get?_insert, if_pos rfl] at hget
      cases hget
      exact ho.named name hname
  · cases hstage

/-- A step keeps the records those of this host. -/
theorem ours_step {d d' : Duty S} (hl : Lawful host sh.toRecords) (ho : Ours host sh)
    (hn : Native host (role call)) (hm : Move host me sh sh'.toRecords d (flags sh') d')
    (h : advance host me input sh call = some (sh', call')) : Ours host sh' := by
  intro s record' hget'
  have heffect := advance_effect h
  have hidle : ∀ {record}, record'.runtime = none ∨ record'.runtime = record.runtime →
      Idle sh.runtimes record → Idle sh'.runtimes record' := by
    rintro record (hnone | hsame) hi name hname
    · cases hnone.symm.trans hname
    · exact released_mono hm (hi name (hsame.symm.trans hname))
  have hnamed : ∀ {record}, OursAt host sh record →
      record'.runtime = none ∨ record'.runtime = record.runtime →
      ∀ name, record'.runtime = some name → (sh'.runtimes name).isSome := by
    rintro record hr (hnone | hsame) name hname
    · cases hnone.symm.trans hname
    · exact isSome_mono hm (hr.named name (hsame.symm.trans hname))
  cases recordStep heffect hget' with
  | kept record hget hid hruntime hlaunch hrole =>
    have hold := ho s record hget
    refine ⟨hnamed hold hruntime, fun hsome => hidle hruntime (hold.idle (hlaunch hsome)), ?_⟩
    intro hor
    have hours := hold.owned (hor.imp hlaunch (mt (hidle hruntime)))
    rw [hid]
    rcases hostInstance_step heffect (hl.ids s record hget).1 with hsame | hnew |
      ⟨restart, ledger, k, r, launch, hold, hlaunchOf, hrid⟩
    · exact hsame.trans hours
    · exact hnew
    · rcases hrole restart ledger k hold with hsame | hne
      · rw [hsame]
        exact hours
      · have hsession := (hl.ids _ r (launchOf_eq_some hlaunchOf).1).2
        rw [hrid, (hl.ids s record hget).2] at hsession
        exact absurd hsession.symm hne
  | created fresh operation hold hnone hmanifest =>
    refine ⟨fun name hname => ?_, fun _ name hname => ?_, fun _ => ?_⟩
    · cases hnone.symm.trans hname
    · cases hnone.symm.trans hname
    · rw [hold] at hn
      rw [hmanifest]
      exact hn
  | admitted restart ledger record hold hnew hs hget hruntime hinst =>
    subst hs
    refine ⟨hnamed (ho _ record hget) (.inr hruntime), fun _ => ?_, fun _ => hinst⟩
    exact hidle (.inr hruntime) (readmitting_idle ho hold hnew hget h)
  | settled operation record launch hlaunch hnone hruntime =>
    obtain ⟨hget, hsome, -⟩ := launchOf_eq_some hlaunch
    have hold := ho s record hget
    have hi := hidle (.inr hruntime) (hold.idle (by simp [hsome]))
    refine ⟨hnamed hold (.inr hruntime), fun _ => hi, ?_⟩
    rintro (hlaunched | hbusy)
    · simp [hnone] at hlaunched
    · exact absurd hi hbusy
  | launched id generation operation record launch hold hlaunch hnone hid =>
    obtain ⟨hget, hsome, -⟩ := launchOf_eq_some hlaunch
    have hrecord := ho s record hget
    refine ⟨fun name => launched_named hrecord hold hlaunch hget' h, ?_, fun _ => ?_⟩
    · simp [hnone]
    · rw [hid]
      rcases hostInstance_step heffect (hl.ids s record hget).1 with hsame | hnew |
        ⟨restart, ledger, k, r, launch, hold', -⟩
      · exact hsame.trans (hrecord.owned (.inl (by simp [hsome])))
      · exact hnew
      · cases hold.symm.trans hold'

end

end Paneflow.Host.Ownership
