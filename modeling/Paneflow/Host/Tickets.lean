import Paneflow.Host.Revisions

/-!
# Jobs and their answers

A caller that waits for a job is named by a ticket. `SingleUse` says that a ticket is used once: the answer
to a drain comes from its own barrier, and the answer to `submit_and_wait` from the job of its revision.
-/

namespace Paneflow.Host.Tickets

open Paneflow.Host.Persistence Paneflow.Host.PersistMoves Paneflow.Host.PersistRun
open Paneflow.Host.Revisions Paneflow.Transition

variable {S : Type} [LinearOrder S] {sessionOf : ℕ → S} {guard : Guard S} {c c' : Core S}
  {job : Job S} {t : ℕ}

def ticket : Job S → Option ℕ
  | .manifest _ done => done
  | .remove _ _ done => done
  | .exclusive done => done
  | .barrier done => some done

/-- The job that the writer has not answered yet. -/
def current : Phase S → Option (Job S)
  | .taken job => some job
  | .writing record done => some (.manifest record done)
  | .seeding record done => some (.manifest record done)
  | .clearing session state done _ => some (.remove session state done)
  | _ => none

/-- A job that is queued or not answered yet. -/
def Present (c : Core S) (job : Job S) : Prop := job ∈ c.ordered ∨ current c.phase = some job

/-! ### Steps of the writer -/

section
variable {v w : Service S}

theorem endWrite_queue (record : ManifestRevision S) (done : Option ℕ)
    (result : Except PersistError Unit) : (v.endWrite record done result).queue = v.queue := by
  unfold Service.endWrite Service.answer
  cases result <;> cases done <;> rfl

theorem endJob_queue (done : Option ℕ) (result : Except PersistError Unit) :
    (v.endJob done result).queue = v.queue := by
  unfold Service.endJob Service.answer
  cases done <;> rfl

theorem advanceWritten_queue (record : ManifestRevision S) (done : Option ℕ) :
    (v.advanceWritten record done).queue = v.queue := endWrite_queue record done _

/-- The writer leaves the queue alone while it works on a job. -/
theorem execute_queue {answers : Service.Answers} (h : v.execute answers = some w) :
    w.queue = v.queue := by
  unfold Service.execute at h
  split at h
  · cases h
    unfold Service.startWrite
    split_ifs
    · exact endWrite_queue ..
    · exact endWrite_queue ..
    · rfl
  · cases h
    cases answers.write <;> rfl
  · cases h
    exact endJob_queue ..
  · cases h
    exact endJob_queue ..
  · rename_i record done hphase
    cases h
    cases answers.write with
    | none =>
      unfold Service.writeManifest
      cases record.seed with
      | none => exact advanceWritten_queue ..
      | some seed => rfl
    | some error => exact endWrite_queue ..
  · cases h
    cases answers.seed with
    | ok => exact advanceWritten_queue ..
    | notFound => exact advanceWritten_queue ..
    | failed error => exact endWrite_queue ..
  · cases h
    unfold Service.clearData
    dsimp only
    rw [endJob_queue]
    split_ifs <;> rfl
  · cases h

theorem takeNext_ordered {queue queue' : Queue S} {prefer : Bool} {next : Option (Job S)}
    (h : Service.takeNext queue prefer = (queue', next)) (hjob : job ∈ queue'.ordered) :
    job ∈ queue.ordered := by
  rcases takeNext_spec queue prefer with ⟨skipped, session, order, record, -, -, -, heq⟩ |
    ⟨order, job', ordered, hordered, -, -, heq⟩ | ⟨-, heq⟩
  · cases heq.symm.trans h
    exact hjob
  · cases heq.symm.trans h
    rw [hordered]
    exact List.mem_cons_of_mem _ hjob
  · cases heq.symm.trans h
    exact hjob

theorem take_ordered (h : v.take = some w) (hjob : job ∈ w.queue.ordered) :
    job ∈ v.queue.ordered := by
  unfold Service.take at h
  split at h
  · split at h
    · rename_i queue next heq
      cases h
      exact takeNext_ordered heq hjob
    · cases h
  · cases h

theorem rest_ordered (h : v.rest = some w) (hjob : job ∈ w.queue.ordered) :
    job ∈ v.queue.ordered := by
  unfold Service.rest at h
  split at h
  · split at h
    · cases h
    · rename_i queue heq
      cases h
      exact takeNext_ordered heq hjob
  · cases h

theorem finish_ordered (h : v.finish = some w) : w.queue.ordered = v.queue.ordered := by
  unfold Service.finish at h
  split at h
  · rename_i bytes kept hphase
    cases h
    cases kept with
    | none => rfl
    | some record =>
      dsimp only
      rw [retainPendingFinal_eq]
  · cases h

end

/-- The writer works on a job it had, on one of the ordered lane, or on one that nobody waits for. -/
theorem move_current (h : Move sessionOf guard c c') (hjob : current c'.phase = some job) :
    current c.phase = some job ∨ job ∈ c.ordered ∨ ticket job = none := by
  cases h with
  | takeMetadata skipped order session record hphase =>
    cases hjob
    exact .inr (.inr rfl)
  | takeOrdered order next ordered hphase hordered =>
    cases hjob
    exact .inr (.inl (by rw [hordered]; exact List.mem_cons_self))
  | start record done hphase => exact .inl (by rw [hphase]; exact hjob)
  | write record done hphase => exact .inl (by rw [hphase]; exact hjob)
  | removeFile session state done hphase => exact .inl (by rw [hphase]; exact hjob)
  | keepFile session state done error hphase => exact .inl (by rw [hphase]; exact hjob)
  | _ => first | exact .inl hjob | cases hjob

theorem answered_eq_some {replies : ℕ → Option (Except PersistError Unit)} {done : Option ℕ}
    {result r : Except PersistError Unit} (h : answered replies done result t = some r) :
    replies t = some r ∨ done = some t ∧ r = result := by
  unfold answered at h
  cases done with
  | none => exact .inl h
  | some ticket =>
    by_cases ht : t = ticket
    · subst ht
      dsimp only at h
      rw [Function.update_self, Option.some.injEq] at h
      exact .inr ⟨rfl, h.symm⟩
    · dsimp only at h
      rw [Function.update_of_ne ht] at h
      exact .inl h

/-- An answer comes from the job that the writer is at. -/
theorem move_replies {r : Except PersistError Unit} (h : Move sessionOf guard c c')
    (hr : c'.replies t = some r) :
    c.replies t = some r ∨ ∃ job, current c.phase = some job ∧ ticket job = some t := by
  have hjob : ∀ {done result job}, answered c.replies done result t = some r →
      current c.phase = some job → ticket job = done →
      c.replies t = some r ∨ ∃ job, current c.phase = some job ∧ ticket job = some t := by
    intro done result job hr hcurrent hticket
    rcases answered_eq_some hr with hr | ⟨hdone, -⟩
    · exact .inl hr
    · exact .inr ⟨job, hcurrent, hticket.trans hdone⟩
  cases h with
  | skip record done hphase => exact hjob hr (by rw [hphase]; rfl) rfl
  | wrote record done hphase => exact hjob hr (by rw [hphase]; rfl) rfl
  | seeded record done hphase => exact hjob hr (by rw [hphase]; rfl) rfl
  | failManifest record done error hphase => exact hjob hr (by rw [hphase]; rfl) rfl
  | failSeed record done error hphase => exact hjob hr (by rw [hphase]; rfl) rfl
  | clear session state done result hphase => exact hjob hr (by rw [hphase]; rfl) rfl
  | ranExclusive done hphase => exact hjob hr (by rw [hphase]; rfl) rfl
  | passed done hphase => exact hjob hr (by rw [hphase]; rfl) rfl
  | _ => exact .inl hr

/-! ### Steps of the system -/

section
variable {y y' : System S} {op : Op S}

theorem ordered_of_core {w : Service S} (h : core w = c) : w.queue.ordered = c.ordered :=
  congrArg Core.ordered h

/-- A job that is new in the ordered lane: nobody waits for it, or it carries the next ticket, or it is
the barrier of a drain. -/
theorem step_ordered (h : y.step sessionOf op = some y') (hjob : job ∈ y'.service.queue.ordered) :
    job ∈ y.service.queue.ordered ∨ ticket job = none ∨
    (ticket job = some y.nextTicket ∧ y.nextTicket < y'.nextTicket ∧ y'.drains = y.drains ∧
      (y'.waiting = y.waiting ∨ ∃ r, job = .manifest r (some y.nextTicket) ∧
        y'.waiting = Function.update y.waiting y.nextTicket (some r))) ∨
    ∃ t drain, job = .barrier t ∧ y.drains t = some drain ∧ drain.stage = .taken ∧
      y' = y.drainBarrier t drain ∧
      y'.drains = Function.update y.drains t (some { drain with stage := .waiting }) := by
  cases op with
  | number state generation manifest seed cls =>
    cases h
    rcases hn : y.service.number (sessionOf state) state generation manifest seed cls with ⟨w, result⟩
    rw [hn] at hjob
    rcases number_spec hn with ⟨error, -, hcore⟩ | ⟨record, -, -, hcore⟩
    · exact .inl (by rwa [ordered_of_core hcore] at hjob)
    · exact .inl (by rwa [ordered_of_core hcore] at hjob)
  | submit record =>
    obtain ⟨-, rfl⟩ := step_submit h
    rcases hs : y.service.submit record with ⟨w, result⟩
    have hw : (y.submit record).service = w := by rw [System.submit, hs]
    rw [hw] at hjob
    rcases submit_spec hs with ⟨error, -, hcore⟩ | ⟨-, ⟨-, hcore⟩ | ⟨previous, -, -, hcore⟩ |
      ⟨-, -, hcore⟩ | ⟨-, hcore⟩⟩
    · exact .inl (by rwa [ordered_of_core hcore] at hjob)
    · rw [ordered_of_core hcore] at hjob
      rcases List.mem_append.1 hjob with hjob | hjob
      · exact .inl hjob
      · cases List.mem_singleton.1 hjob
        exact .inr (.inl rfl)
    · exact .inl (by rwa [ordered_of_core hcore] at hjob)
    · exact .inl (by rwa [ordered_of_core hcore] at hjob)
    · exact .inl (by rwa [ordered_of_core hcore] at hjob)
  | submitAndWait record =>
    obtain ⟨-, rfl⟩ := step_submitAndWait h
    rcases hs : y.service.submitAndWait record y.nextTicket with ⟨w, result⟩
    have hw : (y.submitAndWait record).service = w := by rw [System.submitAndWait, hs]
    rw [hw] at hjob
    rcases submitAndWait_spec hs with ⟨error, -, hcore⟩ | ⟨rfl, hcore⟩
    · exact .inl (by rwa [ordered_of_core hcore] at hjob)
    · rw [ordered_of_core hcore] at hjob
      rcases List.mem_append.1 hjob with hjob | hjob
      · exact .inl hjob
      · cases List.mem_singleton.1 hjob
        refine .inr (.inr (.inl ⟨rfl, Nat.lt_succ_self _, rfl, .inr ⟨record, rfl, ?_⟩⟩))
        rw [System.submitAndWait, hs]
  | markRemoved state =>
    cases h
    exact .inl hjob
  | enqueueRemove state wait =>
    simp only [System.step] at h
    split_ifs at h with hremoved hwait
    all_goals
      cases h
      dsimp only at hjob
      rcases hs : y.service.enqueueRemove (sessionOf state) state _ with ⟨w, result⟩
      rw [hs] at hjob
      rcases enqueueRemove_spec hs with ⟨error, -, hcore⟩ | ⟨-, hcore⟩
      · exact .inl (by rwa [ordered_of_core hcore] at hjob)
      · rw [ordered_of_core hcore] at hjob
        rcases List.mem_append.1 hjob with hjob | hjob
        · exact .inl hjob
        · cases List.mem_singleton.1 hjob
          first
          | exact .inr (.inl rfl)
          | exact .inr (.inr (.inl ⟨rfl, Nat.lt_succ_self _, rfl, .inl rfl⟩))
  | reserveFinal state =>
    cases h
    exact .inl (by rwa [ordered_of_core (core_reserveFinal state)] at hjob)
  | releaseFinal state =>
    cases h
    exact .inl (by rwa [ordered_of_core (core_releaseFinal state)] at hjob)
  | exclusive =>
    cases h
    dsimp only at hjob
    unfold Service.pushExclusive at hjob
    split_ifs at hjob
    · exact .inl hjob
    · rcases List.mem_append.1 hjob with hjob | hjob
      · exact .inl hjob
      · cases List.mem_singleton.1 hjob
        exact .inr (.inr (.inl ⟨rfl, Nat.lt_succ_self _, rfl, .inl rfl⟩))
  | drainTake =>
    cases h
    rcases List.mem_append.1 hjob with hjob | hjob
    · exact .inl hjob
    · obtain ⟨r, -, rfl⟩ := List.mem_map.1 hjob
      exact .inr (.inl rfl)
  | drainBarrier t =>
    obtain ⟨drain, hdrain, hstage, rfl⟩ := step_drainBarrier h
    unfold System.drainBarrier Service.drainBarrier at hjob
    split_ifs at hjob with hstopped
    · exact .inl hjob
    · rcases List.mem_append.1 hjob with hjob | hjob
      · exact .inl hjob
      · cases List.mem_singleton.1 hjob
        refine .inr (.inr (.inr ⟨t, drain, rfl, hdrain, hstage, rfl, ?_⟩))
        unfold System.drainBarrier Service.drainBarrier
        rw [if_neg hstopped]
  | drainReturn t =>
    obtain ⟨drain, result, -, -, -, rfl⟩ := step_drainReturn h
    exact .inl hjob
  | stop =>
    cases h
    exact .inl hjob
  | take =>
    obtain ⟨w, hw, rfl⟩ := drive_eq_some h
    exact .inl (take_ordered hw hjob)
  | rest =>
    obtain ⟨w, hw, rfl⟩ := drive_eq_some h
    exact .inl (rest_ordered hw hjob)
  | retry =>
    obtain ⟨w, hw, rfl⟩ := drive_eq_some h
    unfold Service.retry at hw
    split at hw
    · cases hw
      rcases List.mem_append.1 hjob with hjob | hjob
      · exact .inl hjob
      · obtain ⟨r, -, rfl⟩ := List.mem_map.1 hjob
        exact .inr (.inl rfl)
    · cases hw
  | execute answers =>
    obtain ⟨w, hw, rfl⟩ := drive_eq_some h
    exact .inl (by rwa [← execute_queue hw])
  | finish =>
    obtain ⟨w, hw, rfl⟩ := drive_eq_some h
    exact .inl (by rwa [← finish_ordered hw])

theorem step_nextTicket (h : y.step sessionOf op = some y') : y.nextTicket ≤ y'.nextTicket := by
  cases op with
  | submit record =>
    obtain ⟨-, rfl⟩ := step_submit h
    exact Nat.le_refl _
  | submitAndWait record =>
    obtain ⟨-, rfl⟩ := step_submitAndWait h
    exact Nat.le_succ _
  | drainTake =>
    cases h
    exact Nat.le_succ _
  | drainBarrier t =>
    obtain ⟨drain, -, -, rfl⟩ := step_drainBarrier h
    exact Nat.le_refl _
  | drainReturn t =>
    obtain ⟨drain, result, -, -, -, rfl⟩ := step_drainReturn h
    exact Nat.le_refl _
  | _ =>
    obtain ⟨-, -, -, hle⟩ := step_unrecorded h (by simp [Op.Recorded])
    exact hle

/-- The callers of `submit_and_wait`: a new one has the next ticket. -/
theorem step_waiting {r : ManifestRevision S} (h : y.step sessionOf op = some y')
    (hr : y'.waiting t = some r) :
    y.waiting t = some r ∨ t = y.nextTicket ∧ y.nextTicket < y'.nextTicket ∧ y'.drains = y.drains ∧
      y'.waiting = Function.update y.waiting y.nextTicket (some r) ∧
      ∀ job ∈ y'.service.queue.ordered, job ∈ y.service.queue.ordered ∨
        job = .manifest r (some y.nextTicket) := by
  cases op with
  | submit record =>
    obtain ⟨-, rfl⟩ := step_submit h
    exact .inl hr
  | submitAndWait record =>
    obtain ⟨-, rfl⟩ := step_submitAndWait h
    rcases hs : y.service.submitAndWait record y.nextTicket with ⟨w, result⟩
    simp only [System.submitAndWait, hs] at hr ⊢
    rcases submitAndWait_spec hs with ⟨error, rfl, -⟩ | ⟨rfl, hcore⟩
    · exact .inl hr
    · dsimp only at hr ⊢
      by_cases ht : t = y.nextTicket
      · rw [ht, Function.update_self, Option.some.injEq] at hr
        subst hr
        refine .inr ⟨ht, Nat.lt_succ_self _, trivial, rfl, fun job hjob => ?_⟩
        rw [ordered_of_core hcore] at hjob
        exact (List.mem_append.1 hjob).imp_right List.mem_singleton.1
      · rw [Function.update_of_ne ht] at hr
        exact .inl hr
  | drainTake =>
    cases h
    exact .inl hr
  | drainBarrier t =>
    obtain ⟨drain, -, -, rfl⟩ := step_drainBarrier h
    exact .inl hr
  | drainReturn t =>
    obtain ⟨drain, result, -, -, -, rfl⟩ := step_drainReturn h
    exact .inl hr
  | _ =>
    obtain ⟨-, -, heq, -⟩ := step_unrecorded h (by simp [Op.Recorded])
    exact .inl (heq ▸ hr)

/-- The calls of `drain`: a new one has the next ticket, and an old one goes through its stages. -/
theorem step_drain {drain : Drain S} (h : y.step sessionOf op = some y')
    (hd : y'.drains t = some drain) :
    y.drains t = some drain ∨ (t = y.nextTicket ∧ y' = y.drainTake) ∨
      ∃ d, y.drains t = some d ∧
        ((d.stage = .taken ∧ y' = y.drainBarrier t d) ∨
          ∃ result, d.stage = .waiting ∧ y.service.replies t = some result ∧
            y' = y.drainReturn t d result) := by
  cases op with
  | drainTake =>
    cases h
    by_cases ht : t = y.nextTicket
    · exact .inr (.inl ⟨ht, rfl⟩)
    · simp only [System.drainTake, Function.update_of_ne ht] at hd
      exact .inl hd
  | drainBarrier t' =>
    obtain ⟨d, hold, hstage, rfl⟩ := step_drainBarrier h
    by_cases ht : t = t'
    · subst ht
      exact .inr (.inr ⟨d, hold, .inl ⟨hstage, rfl⟩⟩)
    · simp only [System.drainBarrier, Function.update_of_ne ht] at hd
      exact .inl hd
  | drainReturn t' =>
    obtain ⟨d, result, hold, hstage, hreply, rfl⟩ := step_drainReturn h
    by_cases ht : t = t'
    · subst ht
      exact .inr (.inr ⟨d, hold, .inr ⟨result, hstage, hreply, rfl⟩⟩)
    · simp only [System.drainReturn, Function.update_of_ne ht] at hd
      exact .inl hd
  | submit record =>
    obtain ⟨-, rfl⟩ := step_submit h
    exact .inl hd
  | submitAndWait record =>
    obtain ⟨-, rfl⟩ := step_submitAndWait h
    exact .inl hd
  | _ =>
    obtain ⟨-, heq, -⟩ := step_unrecorded h (by simp [Op.Recorded])
    exact .inl (heq ▸ hd)

end

/-! ### The invariant -/

structure SingleUse (y : System S) : Prop where
  fresh : ∀ t, y.nextTicket ≤ t →
    y.drains t = none ∧ y.waiting t = none ∧ y.service.replies t = none
  present : ∀ job t, Present (core y.service) job → ticket job = some t → t < y.nextTicket
  drains : ∀ t drain, y.drains t = some drain →
    (∀ job, Present (core y.service) job → ticket job = some t →
      job = .barrier t ∧ drain.stage ≠ .taken) ∧
    (drain.stage = .taken → y.service.replies t = none) ∧ y.waiting t = none
  waiting : ∀ t r, y.waiting t = some r → ∀ job, Present (core y.service) job →
    ticket job = some t → job = .manifest r (some t)

section
variable {y y' : System S} {op : Op S}

theorem step_present (h : y.step sessionOf op = some y') (hjob : Present (core y'.service) job)
    (hticket : ticket job = some t) : Present (core y.service) job ∨
    (t = y.nextTicket ∧ y.nextTicket < y'.nextTicket ∧ y'.drains = y.drains ∧
      (y'.waiting = y.waiting ∨ ∃ r, job = .manifest r (some y.nextTicket) ∧
        y'.waiting = Function.update y.waiting y.nextTicket (some r))) ∨
    ∃ drain, job = .barrier t ∧ y.drains t = some drain ∧ drain.stage = .taken ∧
      y' = y.drainBarrier t drain ∧
      y'.drains = Function.update y.drains t (some { drain with stage := .waiting }) := by
  rcases hjob with hjob | hjob
  · rcases step_ordered h hjob with hjob | hnone | ⟨hnext, hlt, hdrains, hwaiting⟩ |
      ⟨t', drain, rfl, hdrain, hstage, heq, hdrains⟩
    · exact .inl (.inl hjob)
    · cases hnone.symm.trans hticket
    · obtain rfl : t = y.nextTicket := Option.some.inj (hticket.symm.trans hnext)
      exact .inr (.inl ⟨rfl, hlt, hdrains, hwaiting⟩)
    · obtain rfl : t' = t := Option.some.inj hticket
      exact .inr (.inr ⟨drain, rfl, hdrain, hstage, heq, hdrains⟩)
  · rcases move_current (step_move h) hjob with hjob | hjob | hnone
    · exact .inl (.inr hjob)
    · exact .inl (.inl hjob)
    · cases hnone.symm.trans hticket

/-- A ticket that is answered was given out. -/
theorem step_answered {result : Except PersistError Unit}
    (h : y.step sessionOf op = some y') (hr : y'.service.replies t = some result) :
    y.service.replies t = some result ∨ ∃ job, Present (core y.service) job ∧ ticket job = some t := by
  rcases move_replies (step_move h) hr with hr | ⟨job, hjob, hticket⟩
  · exact .inl hr
  · exact .inr ⟨job, .inr hjob, hticket⟩

/-- A drain is new or was there, and no drain goes back to its first stage. -/
theorem step_drain_stage {drain : Drain S} (h : y.step sessionOf op = some y')
    (hd : y'.drains t = some drain) :
    (∃ d, y.drains t = some d ∧ (drain.stage = .taken → d.stage = .taken)) ∨
      t = y.nextTicket ∧ y' = y.drainTake := by
  rcases step_drain h hd with hd | hnew | ⟨d, hold, ⟨hstage, rfl⟩ | ⟨result, hstage, -, rfl⟩⟩
  · exact .inl ⟨drain, hd, id⟩
  · exact .inr hnew
  · exact .inl ⟨d, hold, fun _ => hstage⟩
  · refine .inl ⟨d, hold, fun htaken => ?_⟩
    simp only [System.drainReturn, Function.update_self, Option.some.injEq] at hd
    simp [← hd] at htaken

theorem SingleUse.step (hy : SingleUse y) (h : y.step sessionOf op = some y') : SingleUse y' := by
  have hnext := step_nextTicket h
  constructor
  · intro t ht
    obtain ⟨hdrains, hwaiting, hreplies⟩ := hy.fresh t (hnext.trans ht)
    refine ⟨Option.eq_none_iff_forall_ne_some.2 fun drain hd => ?_,
      Option.eq_none_iff_forall_ne_some.2 fun r hr => ?_,
      Option.eq_none_iff_forall_ne_some.2 fun result hr => ?_⟩
    · rcases step_drain h hd with hd | ⟨rfl, rfl⟩ | ⟨d, hd, -⟩
      · cases hdrains.symm.trans hd
      · exact absurd ht (Nat.not_succ_le_self _)
      · cases hdrains.symm.trans hd
    · rcases step_waiting h hr with hr | ⟨rfl, hlt, -⟩
      · cases hwaiting.symm.trans hr
      · omega
    · rcases step_answered h hr with hr | ⟨job, hjob, hticket⟩
      · cases hreplies.symm.trans hr
      · have := hy.present job t hjob hticket
        omega
  · intro job t hjob hticket
    rcases step_present h hjob hticket with hjob | ⟨rfl, hlt, -⟩ | ⟨drain, -, hdrain, -⟩
    · exact (hy.present job t hjob hticket).trans_le hnext
    · exact hlt
    · refine Nat.lt_of_lt_of_le (Nat.lt_of_not_le fun hle => ?_) hnext
      cases (hy.fresh t hle).1.symm.trans hdrain
  · intro t drain hd
    rcases step_drain_stage h hd with ⟨d, hold, hstage⟩ | ⟨rfl, rfl⟩
    · obtain ⟨hjobs, hreplies, hwaiting⟩ := hy.drains t d hold
      refine ⟨fun job hjob hticket => ?_, fun htaken => ?_, ?_⟩
      · rcases step_present h hjob hticket with hjob | ⟨rfl, -⟩ | ⟨d', rfl, -, -, -, hdrains⟩
        · obtain ⟨heq, hne⟩ := hjobs job hjob hticket
          exact ⟨heq, fun htaken => hne (hstage htaken)⟩
        · cases (hy.fresh _ (Nat.le_refl _)).1.symm.trans hold
        · rw [hdrains, Function.update_self, Option.some.injEq] at hd
          exact ⟨rfl, by simp [← hd]⟩
      · refine Option.eq_none_iff_forall_ne_some.2 fun result hr => ?_
        rcases step_answered h hr with hr | ⟨job, hjob, hticket⟩
        · cases (hreplies (hstage htaken)).symm.trans hr
        · exact (hjobs job hjob hticket).2 (hstage htaken)
      · refine Option.eq_none_iff_forall_ne_some.2 fun r hr => ?_
        rcases step_waiting h hr with hr | ⟨rfl, -⟩
        · cases hwaiting.symm.trans hr
        · cases (hy.fresh _ (Nat.le_refl _)).1.symm.trans hold
    · obtain ⟨hdrains, hwaiting, hreplies⟩ := hy.fresh _ (Nat.le_refl _)
      refine ⟨fun job hjob hticket => ?_, fun _ => hreplies, hwaiting⟩
      rcases hjob with hjob | hjob
      · rcases List.mem_append.1 hjob with hjob | hjob
        · exact absurd (hy.present job _ (.inl hjob) hticket) (Nat.lt_irrefl _)
        · obtain ⟨r, -, rfl⟩ := List.mem_map.1 hjob
          cases hticket
      · exact absurd (hy.present job _ (.inr hjob) hticket) (Nat.lt_irrefl _)
  · intro t r hr job hjob hticket
    rcases step_waiting h hr with hr | ⟨rfl, -, -, -, hjobs⟩
    · rcases step_present h hjob hticket with hjob | ⟨rfl, -⟩ | ⟨drain, -, hdrain, -⟩
      · exact hy.waiting t r hr job hjob hticket
      · cases (hy.fresh _ (Nat.le_refl _)).2.1.symm.trans hr
      · cases (hy.drains t drain hdrain).2.2.symm.trans hr
    · have hold : ¬ Present (core y.service) job := fun hjob =>
        absurd (hy.present job _ hjob hticket) (Nat.lt_irrefl _)
      rcases hjob with hjob | hjob
      · exact (hjobs job hjob).resolve_left fun hjob => hold (.inl hjob)
      · rcases move_current (step_move h) hjob with hjob | hjob | hnone
        · exact absurd (.inr hjob) hold
        · exact absurd (.inl hjob) hold
        · cases hnone.symm.trans hticket

theorem singleUse_started (h : Started sessionOf y) : SingleUse y := by
  constructor
  · intro t _
    exact ⟨h.drains t, h.waiting t, h.replies t⟩
  · rintro job t (hjob | hjob)
    · simp [core, h.queue, Queue.default] at hjob
    · simp [core, h.phase, current] at hjob
  · simp [h.drains]
  · simp [h.waiting]

end

end Paneflow.Host.Tickets
