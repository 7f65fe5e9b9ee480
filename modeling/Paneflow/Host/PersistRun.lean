import Paneflow.Host.PersistMoves
import Paneflow.Transition

/-!
# Runs of the persistence service

Any number of callers number revisions, submit them, remove sessions and drain the queue, while the
writer takes its steps and the file system answers as it likes. `System` adds to the service what the
callers remember, and what only the proofs look at: the finals that were accepted so far and what was
under way when a drain began.

Every step is a `Move` of the service: `step_move`, and `step_move_guarded` for the steps that respect a
guard.
-/

namespace Paneflow.Host.PersistRun

open Paneflow.Host.Persistence Paneflow.Host.PersistMoves Paneflow.Transition

inductive Stage where
  | taken
  | waiting
  | returned (ok : Bool)
  deriving DecidableEq, Repr

/-- A call of `drain`, with the finals accepted, the revisions held and the numbers handed out when
it began. -/
structure Drain (S : Type) where
  stage : Stage
  accepted : List (ManifestRevision S)
  held : List (ManifestRevision S)
  issued : ℕ → ℕ

structure System (S : Type) [LinearOrder S] where
  service : Service S
  nextTicket : ℕ
  drains : ℕ → Option (Drain S)
  waiting : ℕ → Option (ManifestRevision S)
  accepted : List (ManifestRevision S)

inductive Op (S : Type) where
  | number (state generation : ℕ) (manifest : List UInt8) (seed : Option (List UInt8))
    (cls : WriteClass)
  | submit (record : ManifestRevision S)
  | submitAndWait (record : ManifestRevision S)
  | markRemoved (state : ℕ)
  | enqueueRemove (state : ℕ) (wait : Bool)
  | reserveFinal (state : ℕ)
  | releaseFinal (state : ℕ)
  | exclusive
  | drainTake
  | drainBarrier (ticket : ℕ)
  | drainReturn (ticket : ℕ)
  | stop
  | take
  | rest
  | retry
  | execute (answers : Service.Answers)
  | finish

variable {S : Type} [LinearOrder S]

namespace System

variable (sessionOf : ℕ → S) (y : System S)

def submit (record : ManifestRevision S) : System S :=
  let (service, result) := y.service.submit record
  { y with
    service := service
    accepted := match result with
      | .ok () => if record.cls = .final then record :: y.accepted else y.accepted
      | .error _ => y.accepted }

def submitAndWait (record : ManifestRevision S) : System S :=
  let (service, result) := y.service.submitAndWait record y.nextTicket
  { y with
    service := service
    nextTicket := y.nextTicket + 1
    waiting := match result with
      | .ok () => Function.update y.waiting y.nextTicket (some record)
      | .error _ => y.waiting
    accepted := match result with
      | .ok () => if record.cls = .final then record :: y.accepted else y.accepted
      | .error _ => y.accepted }

def drainTake : System S :=
  { y with
    service := y.service.drainTake
    nextTicket := y.nextTicket + 1
    drains := Function.update y.drains y.nextTicket
      (some ⟨.taken, y.accepted, y.service.held, fun state => (y.service.states state).revision⟩) }

def drainBarrier (ticket : ℕ) (drain : Drain S) : System S :=
  let (service, result) := y.service.drainBarrier ticket
  let stage := match result with
    | .ok () => .waiting
    | .error _ => .returned false
  { y with service := service, drains := Function.update y.drains ticket (some { drain with stage }) }

/-- The last block of `drain`; a wait that is given up is a call that never gets here. -/
def drainReturn (ticket : ℕ) (drain : Drain S) (result : Except PersistError Unit) : System S :=
  let ok := match result with
    | .ok () => y.service.drainFailures.isEmpty
    | .error _ => false
  { y with drains := Function.update y.drains ticket (some { drain with stage := .returned ok }) }

/-- A step of the writer. -/
def drive (service : Option (Service S)) : Option (System S) :=
  service.map fun service => { y with service := service }

def step : Op S → Option (System S)
  | .number state generation manifest seed cls =>
    some { y with
      service := (y.service.number (sessionOf state) state generation manifest seed cls).1 }
  | .submit record => if record ∈ y.service.held then some (y.submit record) else none
  | .submitAndWait record => if record ∈ y.service.held then some (y.submitAndWait record) else none
  | .markRemoved state => some { y with service := y.service.markRemoved state }
  | .enqueueRemove state wait =>
    if (y.service.states state).removed then
      some { y with
        service :=
          (y.service.enqueueRemove (sessionOf state) state (if wait then some y.nextTicket else none)).1
        nextTicket := y.nextTicket + 1 }
    else none
  | .reserveFinal state => some { y with service := y.service.reserveFinal state }
  | .releaseFinal state => some { y with service := y.service.releaseFinal state }
  | .exclusive =>
    some { y with
      service := (y.service.pushExclusive (some y.nextTicket)).1
      nextTicket := y.nextTicket + 1 }
  | .drainTake => some y.drainTake
  | .drainBarrier ticket => do
    let drain ← y.drains ticket
    if drain.stage = .taken then some (y.drainBarrier ticket drain) else none
  | .drainReturn ticket => do
    let drain ← y.drains ticket
    let result ← y.service.replies ticket
    if drain.stage = .waiting then some (y.drainReturn ticket drain result) else none
  | .stop =>
    some { y with
      service := { y.service with queue := { y.service.queue with stopped := true } } }
  | .take => y.drive y.service.take
  | .rest => y.drive y.service.rest
  | .retry => y.drive y.service.retry
  | .execute answers => y.drive (y.service.execute answers)
  | .finish => y.drive y.service.finish

end System

/-- The service when it has just been started, over the files of an earlier run. -/
structure Started (sessionOf : ℕ → S) (y : System S) : Prop where
  queue : y.service.queue = .default
  states : ∀ state, y.service.states state = .default
  phase : y.service.phase = .idle
  replies : ∀ ticket, y.service.replies ticket = none
  numbered : y.service.numbered = []
  held : y.service.held = []
  log : y.service.log = []
  files : ∀ s f, y.service.files s = some f → f.session = s ∧ sessionOf f.state = s ∧ f.revision = 0
  drains : ∀ ticket, y.drains ticket = none
  waiting : ∀ ticket, y.waiting ticket = none
  accepted : y.accepted = []

/-- A service that was started over an empty directory. -/
def System.start : System S where
  service := {
    queue := .default
    states := fun _ => .default
    files := fun _ => none
    dirs := fun _ => none
    preferMetadata := false
    phase := .idle
    replies := fun _ => none
    numbered := []
    held := []
    log := [] }
  nextTicket := 0
  drains := fun _ => none
  waiting := fun _ => none
  accepted := []

theorem started_start (sessionOf : ℕ → S) : Started sessionOf (.start : System S) := by
  constructor <;> simp [System.start]

theorem drive_eq_some {y y' : System S} {service : Option (Service S)}
    (h : y.drive service = some y') : ∃ w, service = some w ∧ { y with service := w } = y' :=
  Option.map_eq_some_iff.1 h

section
variable {sessionOf : ℕ → S} {y y' : System S}

theorem step_submit {record : ManifestRevision S}
    (h : y.step sessionOf (.submit record) = some y') :
    record ∈ y.service.held ∧ y' = y.submit record := by
  simp only [System.step] at h
  split_ifs at h with hheld
  exact ⟨hheld, (Option.some.inj h).symm⟩

theorem step_submitAndWait {record : ManifestRevision S}
    (h : y.step sessionOf (.submitAndWait record) = some y') :
    record ∈ y.service.held ∧ y' = y.submitAndWait record := by
  simp only [System.step] at h
  split_ifs at h with hheld
  exact ⟨hheld, (Option.some.inj h).symm⟩

theorem step_drainBarrier {ticket : ℕ} (h : y.step sessionOf (.drainBarrier ticket) = some y') :
    ∃ drain, y.drains ticket = some drain ∧ drain.stage = .taken ∧
      y' = y.drainBarrier ticket drain := by
  simp only [System.step] at h
  rcases hd : y.drains ticket with _ | drain
  · simp [hd] at h
  · simp only [hd, Option.bind_eq_bind, Option.bind_some] at h
    split_ifs at h with hstage
    exact ⟨drain, rfl, hstage, (Option.some.inj h).symm⟩

theorem step_drainReturn {ticket : ℕ} (h : y.step sessionOf (.drainReturn ticket) = some y') :
    ∃ drain result, y.drains ticket = some drain ∧ drain.stage = .waiting ∧
      y.service.replies ticket = some result ∧ y' = y.drainReturn ticket drain result := by
  simp only [System.step] at h
  rcases hd : y.drains ticket with _ | drain
  · simp [hd] at h
  rcases hr : y.service.replies ticket with _ | result
  · simp [hd, hr] at h
  · simp only [hd, hr, Option.bind_eq_bind, Option.bind_some] at h
    split_ifs at h with hstage
    exact ⟨drain, result, rfl, hstage, rfl, (Option.some.inj h).symm⟩

/-- The steps after which the callers remember something new. -/
def Op.Recorded : Op S → Prop
  | .submit _ | .submitAndWait _ | .drainTake | .drainBarrier _ | .drainReturn _ => True
  | _ => False

theorem step_unrecorded {op : Op S} (h : y.step sessionOf op = some y') (hop : ¬ op.Recorded) :
    y'.accepted = y.accepted ∧ y'.drains = y.drains ∧ y'.waiting = y.waiting ∧
      y.nextTicket ≤ y'.nextTicket := by
  cases op with
  | submit => exact absurd trivial hop
  | submitAndWait => exact absurd trivial hop
  | drainTake => exact absurd trivial hop
  | drainBarrier => exact absurd trivial hop
  | drainReturn => exact absurd trivial hop
  | enqueueRemove state wait =>
    simp only [System.step] at h
    split_ifs at h
    all_goals
      cases h
      exact ⟨rfl, rfl, rfl, Nat.le_succ _⟩
  | exclusive =>
    cases h
    exact ⟨rfl, rfl, rfl, Nat.le_succ _⟩
  | take =>
    obtain ⟨w, -, rfl⟩ := drive_eq_some h
    exact ⟨rfl, rfl, rfl, Nat.le_refl _⟩
  | rest =>
    obtain ⟨w, -, rfl⟩ := drive_eq_some h
    exact ⟨rfl, rfl, rfl, Nat.le_refl _⟩
  | retry =>
    obtain ⟨w, -, rfl⟩ := drive_eq_some h
    exact ⟨rfl, rfl, rfl, Nat.le_refl _⟩
  | execute answers =>
    obtain ⟨w, -, rfl⟩ := drive_eq_some h
    exact ⟨rfl, rfl, rfl, Nat.le_refl _⟩
  | finish =>
    obtain ⟨w, -, rfl⟩ := drive_eq_some h
    exact ⟨rfl, rfl, rfl, Nat.le_refl _⟩
  | _ =>
    cases h
    exact ⟨rfl, rfl, rfl, Nat.le_refl _⟩

end

/-- `p` of a result, and `q` where there is none. -/
def Result {α : Type} (p : α → Prop) (q : Prop) : Except PersistError α → Prop
  | .ok a => p a
  | .error _ => q

/-- The steps that respect a guard. -/
def Guarded (sessionOf : ℕ → S) (guard : Guard S) (y : System S) : Op S → Prop
  | .number state generation manifest seed cls =>
    Result guard.number (guard.oversized state)
      (y.service.number (sessionOf state) state generation manifest seed cls).2
  | .submit record =>
    Result (fun _ => record.cls = .metadata →
      ∀ previous ∈ y.service.queue.metadata.get? record.session, guard.replace record previous)
      (guard.refuse record) (y.service.submit record).2
  | .submitAndWait record =>
    Result (fun _ => True) (guard.refuse record) (y.service.submitAndWait record y.nextTicket).2
  | .markRemoved state => guard.remove state
  | .enqueueRemove state _ => guard.remove state
  | .execute answers => AnswersOk guard (core y.service) answers y.service.phase
  | _ => True

theorem guarded_any (sessionOf : ℕ → S) (y : System S) (op : Op S) :
    Guarded sessionOf .any y op := by
  have hresult : ∀ {α : Type} {p : α → Prop} (r : Except PersistError α), (∀ a, p a) →
      Result p True r := by
    rintro α p (_ | a) hp
    · trivial
    · exact hp a
  cases op with
  | number => exact hresult _ fun _ => trivial
  | submit => exact hresult _ fun _ _ _ _ => trivial
  | submitAndWait => exact hresult _ fun _ => trivial
  | execute answers =>
    simp only [Guarded, AnswersOk]
    split
    · split_ifs
      all_goals trivial
    · exact .inr (.inr trivial)
    · trivial
  | _ => trivial

section
variable {guard : Guard S} [∀ r, Decidable (guard.number r)]
  [∀ state, Decidable (guard.oversized state)] [∀ r, Decidable (guard.refuse r)]
  [∀ r p, Decidable (guard.replace r p)] [∀ state, Decidable (guard.remove state)]
  [∀ c r, Decidable (guard.write c r)] [∀ c r, Decidable (guard.fail c r)]
  [∀ c r, Decidable (guard.failSeed c r)]

instance {α : Type} {p : α → Prop} {q : Prop} [∀ a, Decidable (p a)] [Decidable q]
    (r : Except PersistError α) : Decidable (Result p q r) :=
  match r with
  | .ok a => inferInstanceAs (Decidable (p a))
  | .error _ => inferInstanceAs (Decidable q)

instance (c : Core S) (answers : Service.Answers) (phase : Phase S) :
    Decidable (AnswersOk guard c answers phase) :=
  match phase with
  | .writing record _ => inferInstanceAs (Decidable (if answers.write.isNone then guard.write c record
    else guard.fail c record))
  | .seeding record _ => inferInstanceAs (Decidable (answers.seed = .ok ∨ answers.seed = .notFound ∨
    guard.failSeed c record))
  | .idle => isTrue trivial
  | .taken _ => isTrue trivial
  | .clearing _ _ _ _ => isTrue trivial
  | .ended _ _ => isTrue trivial

/-- A guard can be checked along a run. -/
def guardedDecidable (sessionOf : ℕ → S) (y : System S) :
    (op : Op S) → Decidable (Guarded sessionOf guard y op)
  | .number _ _ _ _ _ => inferInstanceAs (Decidable (Result _ _ _))
  | .submit _ => inferInstanceAs (Decidable (Result _ _ _))
  | .submitAndWait _ => inferInstanceAs (Decidable (Result _ _ _))
  | .markRemoved state => inferInstanceAs (Decidable (guard.remove state))
  | .enqueueRemove state _ => inferInstanceAs (Decidable (guard.remove state))
  | .execute answers => inferInstanceAs (Decidable (AnswersOk guard _ answers _))
  | .reserveFinal _ => isTrue trivial
  | .releaseFinal _ => isTrue trivial
  | .exclusive => isTrue trivial
  | .drainTake => isTrue trivial
  | .drainBarrier _ => isTrue trivial
  | .drainReturn _ => isTrue trivial
  | .stop => isTrue trivial
  | .take => isTrue trivial
  | .rest => isTrue trivial
  | .retry => isTrue trivial
  | .finish => isTrue trivial

end

/-- **Every step is a move** of the service. -/
theorem step_move_guarded {sessionOf : ℕ → S} {guard : Guard S} {y y' : System S} {op : Op S}
    (h : y.step sessionOf op = some y') (hok : Guarded sessionOf guard y op) :
    Move sessionOf guard (core y.service) (core y'.service) := by
  cases op with
  | number state generation manifest seed cls =>
    cases h
    rcases hn : y.service.number (sessionOf state) state generation manifest seed cls with ⟨w, result⟩
    simp only [Guarded, hn] at hok
    rcases number_spec hn with ⟨error, rfl, hcore⟩ | ⟨record, rfl, hrecord, hcore⟩
    · rw [hcore]
      exact .oversized _ state hok
    · rw [hcore]
      have : Move sessionOf guard (core y.service) _ :=
        .number (core y.service) record (by rw [hrecord]) (by rw [hrecord]) hok
      rw [hrecord] at this ⊢
      exact this
  | submit record =>
    obtain ⟨hheld, rfl⟩ := step_submit h
    rcases hs : y.service.submit record with ⟨w, result⟩
    simp only [Guarded, hs] at hok
    unfold System.submit
    rw [hs]
    dsimp only
    rcases submit_spec hs with ⟨error, rfl, hcore⟩ | ⟨rfl, ⟨-, hcore⟩ | ⟨previous, hcls, hprev, hcore⟩ |
      ⟨hcls, hnone, hcore⟩ | ⟨hcls, hcore⟩⟩
    · rw [hcore]
      exact .refuse _ record hok
    · rw [hcore]
      exact .push _ record none hheld
    · rw [hcore]
      exact .replace _ record previous hheld hcls hprev (hok hcls previous hprev)
    · rw [hcore]
      exact .add _ record hheld hcls hnone
    · rw [hcore]
      exact .pend _ record hheld hcls
  | submitAndWait record =>
    obtain ⟨hheld, rfl⟩ := step_submitAndWait h
    rcases hs : y.service.submitAndWait record y.nextTicket with ⟨w, result⟩
    simp only [Guarded, hs] at hok
    unfold System.submitAndWait
    rw [hs]
    dsimp only
    rcases submitAndWait_spec hs with ⟨error, rfl, hcore⟩ | ⟨-, hcore⟩
    · rw [hcore]
      exact .refuse _ record hok
    · rw [hcore]
      exact .push _ record (some y.nextTicket) hheld
  | markRemoved state =>
    cases h
    rw [core_markRemoved]
    exact .markRemoved _ state hok
  | enqueueRemove state wait =>
    simp only [System.step] at h
    split_ifs at h with hremoved
    all_goals
      cases h
      dsimp only
      rcases hs : y.service.enqueueRemove (sessionOf state) state _ with ⟨w, result⟩
      rcases enqueueRemove_spec hs with ⟨error, -, hcore⟩ | ⟨-, hcore⟩
      · rw [hcore]
        exact .quiet _
      · rw [hcore]
        exact .enqueueRemove _ (sessionOf state) state _ rfl hremoved hok
  | reserveFinal state =>
    cases h
    rw [core_reserveFinal]
    exact .quiet _
  | releaseFinal state =>
    cases h
    rw [core_releaseFinal]
    exact .quiet _
  | exclusive =>
    cases h
    unfold Service.pushExclusive
    split_ifs
    · exact .quiet _
    · exact .exclusive (core y.service) _
  | drainTake =>
    cases h
    exact .requeue (core y.service)
  | drainBarrier ticket =>
    obtain ⟨drain, -, -, rfl⟩ := step_drainBarrier h
    unfold System.drainBarrier Service.drainBarrier
    split_ifs
    · exact .quiet _
    · exact .barrier (core y.service) ticket
  | drainReturn ticket =>
    obtain ⟨drain, result, -, -, -, rfl⟩ := step_drainReturn h
    exact .quiet _
  | stop =>
    cases h
    exact .quiet (core y.service)
  | take =>
    obtain ⟨w, hw, rfl⟩ := drive_eq_some h
    exact move_take hw
  | rest =>
    obtain ⟨w, hw, rfl⟩ := drive_eq_some h
    exact move_rest hw
  | retry =>
    obtain ⟨w, hw, rfl⟩ := drive_eq_some h
    exact move_retry hw
  | execute answers =>
    obtain ⟨w, hw, rfl⟩ := drive_eq_some h
    exact move_execute hw hok
  | finish =>
    obtain ⟨w, hw, rfl⟩ := drive_eq_some h
    exact move_finish hw

theorem step_move {sessionOf : ℕ → S} {y y' : System S} {op : Op S}
    (h : y.step sessionOf op = some y') : Move sessionOf .any (core y.service) (core y'.service) :=
  step_move_guarded h (guarded_any sessionOf y op)

end Paneflow.Host.PersistRun
