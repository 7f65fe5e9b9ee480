import Paneflow.Host.Persistence

/-!
# What one step of the persistence service can do

`Core` is what the proofs look at of a `Service`, and `Move` lists what a locked block or a step of the
writer can do to it, with its guards. Every function of the service is a move (the lemmas at the end),
so that an invariant is proved once by cases on `Move` and holds whoever drives the service.
-/

namespace Paneflow.Host.PersistMoves

open Paneflow.Host.Persistence

variable {S : Type} [LinearOrder S]

structure Core (S : Type) [LinearOrder S] where
  ordered : List (Job S)
  metadata : OrdMap S (ManifestRevision S)
  metadataOrder : List S
  pendingFinal : OrdMap S (ManifestRevision S)
  queuedBytes : ℕ
  revision : ℕ → ℕ
  written : ℕ → ℕ
  removed : ℕ → Bool
  files : S → Option (ManifestRevision S)
  phase : Phase S
  replies : ℕ → Option (Except PersistError Unit)
  numbered : List (ManifestRevision S)
  held : List (ManifestRevision S)
  log : List (ManifestRevision S)

def core (v : Service S) : Core S where
  ordered := v.queue.ordered
  metadata := v.queue.metadata
  metadataOrder := v.queue.metadataOrder
  pendingFinal := v.queue.pendingFinal
  queuedBytes := v.queue.queuedBytes
  revision := fun state => (v.states state).revision
  written := fun state => (v.states state).written
  removed := fun state => (v.states state).removed
  files := v.files
  phase := v.phase
  replies := v.replies
  numbered := v.numbered
  held := v.held
  log := v.log

def answered (replies : ℕ → Option (Except PersistError Unit)) (done : Option ℕ)
    (result : Except PersistError Unit) : ℕ → Option (Except PersistError Unit) :=
  match done with
  | some ticket => Function.update replies ticket (some result)
  | none => replies

/-- The pending finals after one more was retained. -/
def retained (pending : OrdMap S (ManifestRevision S)) (record : ManifestRevision S) :
    OrdMap S (ManifestRevision S) :=
  if newerPending pending record then pending else pending.insert record.session record

/-- What may happen in a run: `number` and `oversized` for handing out numbers, `refuse` and `replace`
for a submission, `remove` for the removal of a state, and what the file system does with a revision. -/
structure Guard (S : Type) [LinearOrder S] where
  number : ManifestRevision S → Prop
  oversized : ℕ → Prop
  refuse : ManifestRevision S → Prop
  replace : ManifestRevision S → ManifestRevision S → Prop
  remove : ℕ → Prop
  write : Core S → ManifestRevision S → Prop
  fail : Core S → ManifestRevision S → Prop
  failSeed : Core S → ManifestRevision S → Prop

/-- Everything may happen. -/
def Guard.any : Guard S where
  number _ := True
  oversized _ := True
  refuse _ := True
  replace _ _ := True
  remove _ := True
  write _ _ := True
  fail _ _ := True
  failSeed _ _ := True

/-- What a step that respects the guard can do, where the revisions of a state carry the session
`sessionOf state`. -/
inductive Move (sessionOf : ℕ → S) (guard : Guard S) : Core S → Core S → Prop
  | quiet (c : Core S) : Move sessionOf guard c c
  | number (c : Core S) (record : ManifestRevision S)
    (hsession : record.session = sessionOf record.state)
    (hrev : record.revision = c.revision record.state + 1) (hok : guard.number record) :
    Move sessionOf guard c { c with
      revision := Function.update c.revision record.state record.revision
      numbered := record :: c.numbered
      held := record :: c.held }
  | oversized (c : Core S) (state : ℕ) (hok : guard.oversized state) :
    Move sessionOf guard c { c with revision := Function.update c.revision state (c.revision state + 1) }
  | push (c : Core S) (record : ManifestRevision S) (done : Option ℕ) (hheld : record ∈ c.held) :
    Move sessionOf guard c { c with
      held := c.held.erase record
      queuedBytes := c.queuedBytes + record.bytes
      ordered := c.ordered ++ [.manifest record done] }
  | replace (c : Core S) (record previous : ManifestRevision S) (hheld : record ∈ c.held)
    (hcls : record.cls = .metadata) (hprev : c.metadata.get? record.session = some previous)
    (hok : guard.replace record previous) :
    Move sessionOf guard c { c with
      held := c.held.erase record
      queuedBytes := c.queuedBytes - previous.bytes + record.bytes
      metadata := (c.metadata.erase record.session).insert record.session record }
  | add (c : Core S) (record : ManifestRevision S) (hheld : record ∈ c.held)
    (hcls : record.cls = .metadata) (hnone : c.metadata.get? record.session = none) :
    Move sessionOf guard c { c with
      held := c.held.erase record
      queuedBytes := c.queuedBytes + record.bytes
      metadataOrder := c.metadataOrder ++ [record.session]
      metadata := c.metadata.insert record.session record }
  | refuse (c : Core S) (record : ManifestRevision S) (hok : guard.refuse record) :
    Move sessionOf guard c { c with held := c.held.erase record }
  | pend (c : Core S) (record : ManifestRevision S) (hheld : record ∈ c.held)
    (hcls : record.cls = .final) :
    Move sessionOf guard c { c with
      held := c.held.erase record
      pendingFinal := retained c.pendingFinal record }
  | markRemoved (c : Core S) (state : ℕ) (hok : guard.remove state) :
    Move sessionOf guard c { c with removed := Function.update c.removed state true }
  | enqueueRemove (c : Core S) (session : S) (state : ℕ) (done : Option ℕ)
    (hsession : session = sessionOf state) (hremoved : c.removed state = true)
    (hok : guard.remove state) :
    Move sessionOf guard c { c with
      queuedBytes := c.queuedBytes - ((c.metadata.get? session).map ManifestRevision.bytes).getD 0
      metadata := c.metadata.erase session
      pendingFinal := c.pendingFinal.erase session
      ordered := c.ordered ++ [.remove session state done] }
  | exclusive (c : Core S) (done : Option ℕ) :
    Move sessionOf guard c { c with ordered := c.ordered ++ [.exclusive done] }
  | barrier (c : Core S) (ticket : ℕ) :
    Move sessionOf guard c { c with ordered := c.ordered ++ [.barrier ticket] }
  | requeue (c : Core S) :
    Move sessionOf guard c { c with
      pendingFinal := .empty
      queuedBytes := c.queuedBytes + (c.pendingFinal.values.map ManifestRevision.bytes).sum
      ordered := c.ordered ++ c.pendingFinal.values.map fun record => .manifest record none }
  | takeMetadata (c : Core S) (skipped order : List S) (session : S) (record : ManifestRevision S)
    (hphase : c.phase = .idle) (horder : c.metadataOrder = skipped ++ session :: order)
    (hskip : ∀ s ∈ skipped, c.metadata.get? s = none)
    (hrecord : c.metadata.get? session = some record) :
    Move sessionOf guard c { c with
      metadataOrder := order
      metadata := c.metadata.erase session
      phase := .taken (.manifest record none) }
  | takeOrdered (c : Core S) (order : List S) (job : Job S) (ordered : List (Job S))
    (hphase : c.phase = .idle) (hordered : c.ordered = job :: ordered)
    (horder : order = c.metadataOrder ∨ order = [] ∧ ∀ s ∈ c.metadataOrder, c.metadata.get? s = none)
    (hbarrier : ∀ ticket, job = .barrier ticket → ∀ s ∈ c.metadataOrder, c.metadata.get? s = none) :
    Move sessionOf guard c { c with metadataOrder := order, ordered := ordered, phase := .taken job }
  | rest (c : Core S) (hphase : c.phase = .idle) (hempty : ∀ s ∈ c.metadataOrder, c.metadata.get? s = none) :
    Move sessionOf guard c { c with metadataOrder := [] }
  | skip (c : Core S) (record : ManifestRevision S) (done : Option ℕ)
    (hphase : c.phase = .taken (.manifest record done))
    (hskip : c.removed record.state = true ∨ record.revision < c.written record.state) :
    Move sessionOf guard c { c with
      replies := answered c.replies done (.ok ())
      phase := .ended record.bytes none }
  | start (c : Core S) (record : ManifestRevision S) (done : Option ℕ)
    (hphase : c.phase = .taken (.manifest record done)) (hlive : c.removed record.state = false)
    (hnew : c.written record.state ≤ record.revision) :
    Move sessionOf guard c { c with phase := .writing record done }
  | write (c : Core S) (record : ManifestRevision S) (done : Option ℕ)
    (hphase : c.phase = .writing record done) (hseed : record.seed ≠ none)
    (hok : guard.write c record) :
    Move sessionOf guard c { c with
      files := Function.update c.files record.session (some record)
      log := record :: c.log
      phase := .seeding record done }
  | wrote (c : Core S) (record : ManifestRevision S) (done : Option ℕ)
    (hphase : c.phase = .writing record done) (hseed : record.seed = none)
    (hok : guard.write c record) :
    Move sessionOf guard c { c with
      files := Function.update c.files record.session (some record)
      log := record :: c.log
      written := Function.update c.written record.state (max (c.written record.state) record.revision)
      replies := answered c.replies done (.ok ())
      phase := .ended record.bytes none }
  | seeded (c : Core S) (record : ManifestRevision S) (done : Option ℕ)
    (hphase : c.phase = .seeding record done) :
    Move sessionOf guard c { c with
      written := Function.update c.written record.state (max (c.written record.state) record.revision)
      replies := answered c.replies done (.ok ())
      phase := .ended record.bytes none }
  | failManifest (c : Core S) (record : ManifestRevision S) (done : Option ℕ) (error : PersistError)
    (hphase : c.phase = .writing record done) (hok : guard.fail c record) :
    Move sessionOf guard c { c with
      replies := answered c.replies done (.error error)
      phase := .ended record.bytes (if record.cls = .final then some record else none) }
  | failSeed (c : Core S) (record : ManifestRevision S) (done : Option ℕ) (error : PersistError)
    (hphase : c.phase = .seeding record done) (hok : guard.failSeed c record) :
    Move sessionOf guard c { c with
      replies := answered c.replies done (.error error)
      phase := .ended record.bytes (if record.cls = .final then some record else none) }
  | removeFile (c : Core S) (session : S) (state : ℕ) (done : Option ℕ)
    (hphase : c.phase = .taken (.remove session state done)) :
    Move sessionOf guard c { c with
      files := Function.update c.files session none
      phase := .clearing session state done (.ok ()) }
  | keepFile (c : Core S) (session : S) (state : ℕ) (done : Option ℕ) (error : PersistError)
    (hphase : c.phase = .taken (.remove session state done)) :
    Move sessionOf guard c { c with phase := .clearing session state done (.error error) }
  | clear (c : Core S) (session : S) (state : ℕ) (done : Option ℕ) (result : Except PersistError Unit)
    (hphase : c.phase = .clearing session state done result) :
    Move sessionOf guard c { c with replies := answered c.replies done result, phase := .ended 0 none }
  | ranExclusive (c : Core S) (done : Option ℕ) (hphase : c.phase = .taken (.exclusive done)) :
    Move sessionOf guard c { c with replies := answered c.replies done (.ok ()), phase := .ended 0 none }
  | passed (c : Core S) (ticket : ℕ) (hphase : c.phase = .taken (.barrier ticket)) :
    Move sessionOf guard c { c with replies := answered c.replies (some ticket) (.ok ()), phase := .ended 0 none }
  | finish (c : Core S) (bytes : ℕ) (kept : Option (ManifestRevision S))
    (hphase : c.phase = .ended bytes kept) :
    Move sessionOf guard c { c with
      queuedBytes := c.queuedBytes - bytes
      pendingFinal := match kept with
        | some record => retained c.pendingFinal record
        | none => c.pendingFinal
      phase := .idle }

/-! ### Every function of the service is a move -/

section
variable {v : Service S} {sessionOf : ℕ → S} {guard : Guard S}

theorem core_setState (state : ℕ) (f : SessionPersistence → SessionPersistence) :
    core (v.setState state f) = { core v with
      revision := Function.update (core v).revision state (f (v.states state)).revision
      written := Function.update (core v).written state (f (v.states state)).written
      removed := Function.update (core v).removed state (f (v.states state)).removed } := by
  unfold Service.setState core
  congr 1 <;> funext s <;> by_cases h : s = state <;> simp [Function.update, h]

/-- A change of a session that keeps its counters. -/
theorem core_setState_same {state : ℕ} {f : SessionPersistence → SessionPersistence}
    (h1 : (f (v.states state)).revision = (v.states state).revision)
    (h2 : (f (v.states state)).written = (v.states state).written)
    (h3 : (f (v.states state)).removed = (v.states state).removed) :
    core (v.setState state f) = core v := by
  rw [core_setState, h1, h2, h3]
  have hu : ∀ {β : Type} (g : ℕ → β), Function.update g state (g state) = g := fun g =>
    Function.update_eq_self state g
  show { core v with
      revision := Function.update (core v).revision state ((core v).revision state)
      written := Function.update (core v).written state ((core v).written state)
      removed := Function.update (core v).removed state ((core v).removed state) } = core v
  rw [hu, hu, hu]

@[simp] theorem core_setError (state : ℕ) (error : Option SessionError) :
    core (v.setError state error) = core v := core_setState_same rfl rfl rfl

theorem retainPendingFinal_eq (queue : Queue S) (record : ManifestRevision S) :
    retainPendingFinal queue record =
      { queue with pendingFinal := retained queue.pendingFinal record } := by
  unfold retainPendingFinal retained
  split_ifs
  · rfl
  · rfl

theorem core_setRevision (state revision : ℕ) :
    core (v.setState state fun s => { s with revision := revision }) =
      { core v with revision := Function.update (core v).revision state revision } := by
  have hsame : ∀ {β : Type} (g : ℕ → β), Function.update g state (g state) = g := fun g =>
    Function.update_eq_self state g
  rw [core_setState]
  show { core v with
      revision := Function.update (core v).revision state revision
      written := Function.update (core v).written state ((core v).written state)
      removed := Function.update (core v).removed state ((core v).removed state) } = _
  rw [hsame, hsame]

theorem core_setWritten (state written : ℕ) :
    core (v.setState state fun s => { s with written := max s.written written }) =
      { core v with
        written := Function.update (core v).written state (max ((core v).written state) written) } := by
  have hsame : ∀ {β : Type} (g : ℕ → β), Function.update g state (g state) = g := fun g =>
    Function.update_eq_self state g
  rw [core_setState]
  show { core v with
      revision := Function.update (core v).revision state ((core v).revision state)
      written := Function.update (core v).written state (max ((core v).written state) written)
      removed := Function.update (core v).removed state ((core v).removed state) } = _
  rw [hsame, hsame]

theorem core_markRemoved (state : ℕ) :
    core (v.markRemoved state) =
      { core v with removed := Function.update (core v).removed state true } := by
  have hsame : ∀ {β : Type} (g : ℕ → β), Function.update g state (g state) = g := fun g =>
    Function.update_eq_self state g
  unfold Service.markRemoved
  rw [core_setState]
  show { core v with
      revision := Function.update (core v).revision state ((core v).revision state)
      written := Function.update (core v).written state ((core v).written state)
      removed := Function.update (core v).removed state true } = _
  rw [hsame, hsame]

/-- Numbering: the record is held from now on, or it is too large. -/
theorem number_spec {session : S} {state generation : ℕ} {manifest : List UInt8}
    {seed : Option (List UInt8)} {cls : WriteClass} {w : Service S}
    {result : Except PersistError (ManifestRevision S)}
    (h : v.number session state generation manifest seed cls = (w, result)) :
    (∃ error, result = .error error ∧ core w = { core v with
      revision := Function.update (core v).revision state ((core v).revision state + 1) }) ∨
    ∃ record, result = .ok record ∧
      record = ⟨session, generation, (core v).revision state + 1, manifest, seed, state, cls⟩ ∧
      core w = { core v with
        revision := Function.update (core v).revision state record.revision
        numbered := record :: v.numbered
        held := record :: v.held } := by
  unfold Service.number ManifestRevision.encode at h
  dsimp only at h
  split_ifs at h with hsize
  · cases h
    exact .inl ⟨_, rfl, core_setRevision _ _⟩
  · cases h
    refine .inr ⟨_, rfl, rfl, ?_⟩
    have hcore := core_setRevision (v := v) state ((v.states state).revision + 1)
    exact congrArg (fun c : Core S => { c with
      numbered := ⟨session, generation, (core v).revision state + 1, manifest, seed, state, cls⟩ ::
        c.numbered
      held := ⟨session, generation, (core v).revision state + 1, manifest, seed, state, cls⟩ ::
        c.held }) hcore

/-- Submitting: the revision is refused, or it is put into one of the two lanes, or it is retained. -/
theorem submit_spec {record : ManifestRevision S} {w : Service S} {result : Except PersistError Unit}
    (h : v.submit record = (w, result)) :
    (∃ error, result = .error error ∧ core w = { core v with held := v.held.erase record }) ∨
    result = .ok () ∧
      ((record.cls ≠ .metadata ∧ core w = { core v with
          held := v.held.erase record
          queuedBytes := v.queue.queuedBytes + record.bytes
          ordered := v.queue.ordered ++ [.manifest record none] }) ∨
        (∃ previous, record.cls = .metadata ∧
          v.queue.metadata.get? record.session = some previous ∧ core w = { core v with
            held := v.held.erase record
            queuedBytes := v.queue.queuedBytes - previous.bytes + record.bytes
            metadata := (v.queue.metadata.erase record.session).insert record.session record }) ∨
        (record.cls = .metadata ∧ v.queue.metadata.get? record.session = none ∧
          core w = { core v with
            held := v.held.erase record
            queuedBytes := v.queue.queuedBytes + record.bytes
            metadataOrder := v.queue.metadataOrder ++ [record.session]
            metadata := v.queue.metadata.insert record.session record }) ∨
        (record.cls = .final ∧ core w = { core v with
          held := v.held.erase record
          pendingFinal := retained v.queue.pendingFinal record })) := by
  unfold Service.submit at h
  dsimp only at h
  by_cases hstopped : v.queue.stopped = true
  · rw [if_pos hstopped] at h
    cases h
    exact .inl ⟨_, rfl, rfl⟩
  rw [if_neg hstopped] at h
  have hrefuse : ∀ (u : Service S) (e : PersistError) (x : Option SessionError),
      core u = { core v with held := v.held.erase record } →
      (u.setError record.state x, Except.error e) = (w, result) →
      ∃ error, result = .error error ∧ core w = { core v with held := v.held.erase record } := by
    rintro u e x hu ⟨⟩
    exact ⟨e, rfl, (core_setError _ _).trans hu⟩
  rcases hcls : record.cls
  · rw [hcls] at h
    dsimp only at h
    unfold Service.submitMetadata at h
    rcases hprev : v.queue.metadata.get? record.session with _ | previous
    · simp only [hprev] at h
      split_ifs at h
      · cases h
        exact .inr ⟨rfl, .inr (.inr (.inl ⟨rfl, rfl, rfl⟩))⟩
      · exact .inl (hrefuse _ _ _ rfl h)
    · simp only [hprev] at h
      cases h
      exact .inr ⟨rfl, .inr (.inl ⟨previous, rfl, rfl, rfl⟩)⟩
  · rw [hcls] at h
    dsimp only at h
    split_ifs at h
    · cases h
      exact .inr ⟨rfl, .inl ⟨by simp, rfl⟩⟩
    · exact .inl (hrefuse _ _ _ rfl h)
  · rw [hcls] at h
    dsimp only at h
    unfold Service.submitFinal at h
    dsimp only at h
    split_ifs at h
    · cases h
      exact .inr ⟨rfl, .inl ⟨by simp, rfl⟩⟩
    · cases h
      refine .inr ⟨rfl, .inr (.inr (.inr ⟨rfl, ?_⟩))⟩
      rw [retainPendingFinal_eq]
      let u : Service S := { v with held := v.held.erase record }
      exact congrArg (fun c : Core S => { c with
        pendingFinal := retained v.queue.pendingFinal record })
        (core_setError (v := u) record.state (some .finalQueued))

theorem submitAndWait_spec {record : ManifestRevision S} {ticket : ℕ} {w : Service S}
    {result : Except PersistError Unit} (h : v.submitAndWait record ticket = (w, result)) :
    (∃ error, result = .error error ∧ core w = { core v with held := v.held.erase record }) ∨
    result = .ok () ∧ core w = { core v with
      held := v.held.erase record
      queuedBytes := v.queue.queuedBytes + record.bytes
      ordered := v.queue.ordered ++ [.manifest record (some ticket)] } := by
  unfold Service.submitAndWait at h
  dsimp only at h
  split_ifs at h
  · cases h
    exact .inl ⟨_, rfl, rfl⟩
  · cases h
    exact .inr ⟨rfl, rfl⟩
  · cases h
    let u : Service S := { v with held := v.held.erase record }
    have hcore : core u = { core v with held := v.held.erase record } := rfl
    exact .inl ⟨_, rfl, (core_setError (v := u) _ _).trans hcore⟩

theorem core_reserved (bytes : ℕ) :
    core { v with queue := { v.queue with reservedBytes := bytes } } = core v := rfl

theorem core_reserveFinal (state : ℕ) : core (v.reserveFinal state) = core v := by
  unfold Service.reserveFinal
  split_ifs
  · rfl
  · have hsame : core (v.setState state fun s => { s with reserved := true }) = core v :=
      core_setState_same rfl rfl rfl
    exact (core_reserved _).trans hsame

theorem core_releaseFinal (state : ℕ) : core (v.releaseFinal state) = core v := by
  unfold Service.releaseFinal
  split_ifs
  · have hsame : core (v.setState state fun s => { s with reserved := false }) = core v :=
      core_setState_same rfl rfl rfl
    exact (core_reserved _).trans hsame
  · rfl

theorem enqueueRemove_spec {session : S} {state : ℕ} {done : Option ℕ} {w : Service S}
    {result : Except PersistError Unit} (h : v.enqueueRemove session state done = (w, result)) :
    (∃ error, result = .error error ∧ core w = core v) ∨
    result = .ok () ∧ core w = { core v with
      queuedBytes := v.queue.queuedBytes -
        ((v.queue.metadata.get? session).map ManifestRevision.bytes).getD 0
      metadata := v.queue.metadata.erase session
      pendingFinal := v.queue.pendingFinal.erase session
      ordered := v.queue.ordered ++ [.remove session state done] } := by
  unfold Service.enqueueRemove at h
  split_ifs at h
  · cases h
    exact .inl ⟨_, rfl, rfl⟩
  · cases h
    refine .inr ⟨rfl, ?_⟩
    rcases v.queue.metadata.get? session with _ | previous
    · rfl
    · rfl

theorem takeMetadataFrom_spec (metadata : OrdMap S (ManifestRevision S)) (order : List S) :
    (∃ skipped session order' record, Service.takeMetadataFrom metadata order =
        (order', some (session, record)) ∧ order = skipped ++ session :: order' ∧
        (∀ s ∈ skipped, metadata.get? s = none) ∧ metadata.get? session = some record) ∨
    Service.takeMetadataFrom metadata order = ([], none) ∧ ∀ s ∈ order, metadata.get? s = none := by
  induction order with
  | nil => exact .inr ⟨rfl, by simp⟩
  | cons s order ih =>
    unfold Service.takeMetadataFrom
    rcases hs : metadata.get? s with _ | record
    · rcases ih with ⟨skipped, session, order', record, heq, rfl, hskip, hrecord⟩ | ⟨heq, hnone⟩
      · refine .inl ⟨s :: skipped, session, order', record, heq, rfl, ?_, hrecord⟩
        simpa [hs] using hskip
      · exact .inr ⟨heq, by simpa [hs] using hnone⟩
    · exact .inl ⟨[], s, order, record, rfl, rfl, by simp, hs⟩

/-- What the writer finds under the queue lock: a queued metadata revision, the first ordered job, or
nothing. A barrier is only taken when no metadata revision is left. -/
theorem takeNext_spec (queue : Queue S) (prefer : Bool) :
    (∃ skipped session order record, queue.metadataOrder = skipped ++ session :: order ∧
      (∀ s ∈ skipped, queue.metadata.get? s = none) ∧ queue.metadata.get? session = some record ∧
      Service.takeNext queue prefer =
        ({ queue with metadataOrder := order, metadata := queue.metadata.erase session },
          some (.manifest record none))) ∨
    (∃ order job ordered, queue.ordered = job :: ordered ∧
      (order = queue.metadataOrder ∨
        order = [] ∧ ∀ s ∈ queue.metadataOrder, queue.metadata.get? s = none) ∧
      (∀ ticket, job = .barrier ticket → ∀ s ∈ queue.metadataOrder, queue.metadata.get? s = none) ∧
      Service.takeNext queue prefer =
        ({ queue with metadataOrder := order, ordered := ordered }, some job)) ∨
    (∀ s ∈ queue.metadataOrder, queue.metadata.get? s = none) ∧
      Service.takeNext queue prefer = ({ queue with metadataOrder := [] }, none) := by
  unfold Service.takeNext Service.takeMetadata Service.takeOrdered
  rcases takeMetadataFrom_spec queue.metadata queue.metadataOrder with
    ⟨skipped, session, order, record, heq, horder, hskip, hrecord⟩ | ⟨heq, hnone⟩
  · rcases hordered : queue.ordered with _ | ⟨job, ordered⟩
    · refine .inl ⟨skipped, session, order, record, horder, hskip, hrecord, ?_⟩
      split_ifs
      · simp only [heq]
      · simp only [heq, hordered]
    · split_ifs with hlane
      · exact .inl ⟨skipped, session, order, record, horder, hskip, hrecord, by simp only [heq]⟩
      · refine .inr (.inl ⟨queue.metadataOrder, job, ordered, rfl, .inl rfl, ?_, rfl⟩)
        rintro ticket rfl
        simp [Service.barrierNext, hordered] at hlane
  · rcases hordered : queue.ordered with _ | ⟨job, ordered⟩
    · refine .inr (.inr ⟨hnone, ?_⟩)
      split_ifs
      · simp only [heq]
      · simp only [heq, hordered]
    · split_ifs with hlane
      · refine .inr (.inl ⟨[], job, ordered, rfl, .inr ⟨rfl, hnone⟩, fun _ _ => hnone, ?_⟩)
        simp only [heq]
      · exact .inr (.inl ⟨queue.metadataOrder, job, ordered, rfl, .inl rfl, fun _ _ => hnone, rfl⟩)

variable {w : Service S}

theorem move_take (h : v.take = some w) : Move sessionOf guard (core v) (core w) := by
  unfold Service.take at h
  rcases hphase : v.phase <;> rw [hphase] at h <;> try cases h
  rcases takeNext_spec v.queue v.preferMetadata with
    ⟨skipped, session, order, record, horder, hskip, hrecord, heq⟩ |
    ⟨order, job, ordered, hordered, horder, hbarrier, heq⟩ | ⟨-, heq⟩
  · rw [heq] at h
    cases h
    exact .takeMetadata (core v) skipped order session record hphase horder hskip hrecord
  · rw [heq] at h
    cases h
    exact .takeOrdered (core v) order job ordered hphase hordered horder hbarrier
  · rw [heq] at h
    cases h

theorem move_rest (h : v.rest = some w) : Move sessionOf guard (core v) (core w) := by
  unfold Service.rest at h
  rcases hphase : v.phase <;> rw [hphase] at h <;> try cases h
  rcases takeNext_spec v.queue v.preferMetadata with
    ⟨skipped, session, order, record, -, -, -, heq⟩ | ⟨order, job, ordered, -, -, -, heq⟩ |
    ⟨hempty, heq⟩
  · rw [heq] at h
    cases h
  · rw [heq] at h
    cases h
  · rw [heq] at h
    cases h
    rw [← hphase]
    exact .rest (core v) hphase hempty

theorem move_retry (h : v.retry = some w) : Move sessionOf guard (core v) (core w) := by
  unfold Service.retry at h
  split at h
  · cases h
    exact .requeue (core v)
  · cases h

theorem core_answer (done : Option ℕ) (result : Except PersistError Unit) :
    core (v.answer done result) =
      { core v with replies := answered v.replies done result } := by
  unfold Service.answer answered
  split
  · rfl
  · rfl

theorem core_endWrite_ok (record : ManifestRevision S) (done : Option ℕ) :
    core (v.endWrite record done (.ok ())) = { core v with
      replies := answered v.replies done (.ok ())
      phase := .ended record.bytes none } := by
  have hcore : core ((v.setError record.state none).answer done (.ok ())) =
      { core v with replies := answered v.replies done (.ok ()) } := by
    rw [core_answer, core_setError]
    rfl
  exact congrArg (fun c : Core S => { c with phase := .ended record.bytes none }) hcore

theorem core_endWrite_error (record : ManifestRevision S) (done : Option ℕ) (error : PersistError) :
    core (v.endWrite record done (.error error)) = { core v with
      replies := answered v.replies done (.error error)
      phase := .ended record.bytes (if record.cls = .final then some record else none) } := by
  have hcore : core ((v.setError record.state (some (.failed error))).answer done (.error error)) =
      { core v with replies := answered v.replies done (.error error) } := by
    rw [core_answer, core_setError]
    rfl
  exact congrArg (fun c : Core S => { c with
    phase := .ended record.bytes (if record.cls = WriteClass.final then some record else none) }) hcore

theorem core_advanceWritten (record : ManifestRevision S) (done : Option ℕ) :
    core (v.advanceWritten record done) = { core v with
      written := Function.update (core v).written record.state
        (max ((core v).written record.state) record.revision)
      replies := answered v.replies done (.ok ())
      phase := .ended record.bytes none } := by
  unfold Service.advanceWritten
  rw [core_endWrite_ok, core_setWritten]
  rfl

theorem core_endJob (done : Option ℕ) (result : Except PersistError Unit) :
    core (v.endJob done result) = { core v with
      replies := answered v.replies done result
      phase := .ended 0 none } :=
  congrArg (fun c : Core S => { c with phase := .ended 0 none }) (core_answer done result)

theorem core_setSeedSkipped (state : ℕ) (skipped : Bool) :
    core (v.setState state fun s => { s with seedSkipped := skipped }) = core v :=
  core_setState_same rfl rfl rfl

/-- What the guard says about the answers of the file system when the writer is in a phase. -/
def AnswersOk (guard : Guard S) (c : Core S) (answers : Service.Answers) : Phase S → Prop
  | .writing record _ => if answers.write.isNone then guard.write c record else guard.fail c record
  | .seeding record _ => answers.seed = .ok ∨ answers.seed = .notFound ∨ guard.failSeed c record
  | _ => True

theorem move_execute {answers : Service.Answers} (h : v.execute answers = some w)
    (hok : AnswersOk guard (core v) answers v.phase) : Move sessionOf guard (core v) (core w) := by
  unfold Service.execute at h
  split at h
  · rename_i record done hphase
    cases h
    unfold Service.startWrite
    split_ifs with hremoved hold
    · rw [core_endWrite_ok]
      exact .skip (core v) record done hphase (.inl hremoved)
    · rw [core_endWrite_ok]
      exact .skip (core v) record done hphase (.inr hold)
    · exact .start (core v) record done hphase (Bool.eq_false_iff.2 hremoved)
        (Nat.le_of_not_lt hold)
  · rename_i session state done hphase
    cases h
    cases answers.write with
    | none => exact .removeFile (core v) session state done hphase
    | some error => exact .keepFile (core v) session state done _ hphase
  · rename_i done hphase
    cases h
    rw [core_endJob]
    exact .ranExclusive (core v) done hphase
  · rename_i ticket hphase
    cases h
    rw [core_endJob]
    exact .passed (core v) ticket hphase
  · rename_i record done hphase
    cases h
    rw [hphase] at hok
    simp only [AnswersOk] at hok
    rcases hwrite : answers.write with _ | error
    · rw [hwrite, Option.isNone_none, if_pos rfl] at hok
      unfold Service.writeManifest
      rcases hseed : record.seed with _ | seed
      · dsimp only
        rw [core_advanceWritten]
        exact .wrote (core v) record done hphase hseed hok
      · exact .write (core v) record done hphase (by simp [hseed]) hok
    · rw [hwrite, Option.isNone_some, if_neg (by simp)] at hok
      unfold Service.writeManifest
      rw [core_endWrite_error]
      exact .failManifest (core v) record done _ hphase hok
  · rename_i record done hphase
    cases h
    rw [hphase] at hok
    simp only [AnswersOk] at hok
    rcases hseed : answers.seed with _ | _ | error
    · unfold Service.writeSeed
      rw [core_advanceWritten, core_setSeedSkipped]
      exact .seeded (core v) record done hphase
    · unfold Service.writeSeed
      rw [core_advanceWritten, core_setSeedSkipped]
      exact .seeded (core v) record done hphase
    · unfold Service.writeSeed
      rw [core_endWrite_error]
      exact .failSeed (core v) record done _ hphase (by simpa [hseed] using hok)
  · rename_i session state done result hphase
    cases h
    unfold Service.clearData
    dsimp only
    rw [core_endJob, core_setError]
    split_ifs
    · exact .clear (core v) session state done result hphase
    · exact .clear (core v) session state done result hphase
  · cases h

theorem move_finish (h : v.finish = some w) : Move sessionOf guard (core v) (core w) := by
  unfold Service.finish at h
  split at h
  · rename_i bytes kept hphase
    cases h
    cases kept with
    | none => exact .finish (core v) bytes none hphase
    | some record =>
      dsimp only
      rw [retainPendingFinal_eq]
      exact .finish (core v) bytes (some record) hphase
  · cases h

end

end Paneflow.Host.PersistMoves
