import Paneflow.Host.Revisions

/-!
# The queue loses no bytes and no final revision

`queuedBytes` is the sum over the two lanes and the job that the writer is at, so that no saturating
subtraction saturates. A final revision that was accepted stays in the queue or in flight until it is
written, unless a newer final of its session took its place or the session is removed.

Main result: `reach_accounted`.
-/

namespace Paneflow.Host.Finals

open Paneflow.Host.Persistence Paneflow.Host.PersistMoves Paneflow.Host.PersistRun
open Paneflow.Host.Revisions Paneflow.Transition

variable {S : Type} [LinearOrder S] {sessionOf : ℕ → S} {guard : Guard S} {c c' : Core S}
  {q r : ManifestRevision S}

/-! ### Bytes -/

/-- The bytes of the job that the writer is at. -/
def inFlightBytes : Phase S → ℕ
  | .idle => 0
  | .taken job => job.bytes
  | .writing record _ => record.bytes
  | .seeding record _ => record.bytes
  | .clearing _ _ _ _ => 0
  | .ended bytes _ => bytes

def manifestBytes (m : OrdMap S (ManifestRevision S)) : ℕ := (m.values.map ManifestRevision.bytes).sum

/-- The bytes of all queued jobs. -/
def laneBytes (c : Core S) : ℕ := (c.ordered.map Job.bytes).sum + manifestBytes c.metadata

def Balanced (c : Core S) : Prop := c.queuedBytes = laneBytes c + inFlightBytes c.phase

section Bytes
variable {m : OrdMap S (ManifestRevision S)} {s : S}

theorem manifestBytes_insert (h : m.get? s = none) :
    manifestBytes (m.insert s q) = q.bytes + manifestBytes m := by
  unfold manifestBytes
  rw [((OrdMap.values_insert h).map _).sum_eq, List.map_cons, List.sum_cons]

theorem manifestBytes_erase :
    manifestBytes m = ((m.get? s).map ManifestRevision.bytes).getD 0 + manifestBytes (m.erase s) := by
  unfold manifestBytes
  rcases hs : m.get? s with _ | previous
  · rw [OrdMap.values_erase_none hs]
    simp
  · rw [((OrdMap.values_erase hs).map _).sum_eq, List.map_cons, List.sum_cons]
    rfl

theorem manifestBytes_erase_some (h : m.get? s = some q) :
    manifestBytes m = q.bytes + manifestBytes (m.erase s) := by
  simpa [h] using manifestBytes_erase (m := m) (s := s)

omit [LinearOrder S] in
theorem jobBytes_pending (l : List (ManifestRevision S)) :
    ((l.map fun record => Job.manifest record none).map Job.bytes).sum =
      (l.map ManifestRevision.bytes).sum := by
  rw [List.map_map]
  rfl

end Bytes

/-- The subtraction of a replaced or removed metadata revision does not saturate. -/
theorem Balanced.metadata (h : Balanced c) {s : S} (hs : c.metadata.get? s = some q) :
    q.bytes ≤ c.queuedBytes := by
  have hsum : c.queuedBytes = laneBytes c + inFlightBytes c.phase := h
  rw [hsum, laneBytes, manifestBytes_erase_some hs]
  omega

/-- The subtraction at the end of a job does not saturate. -/
theorem Balanced.inFlight (h : Balanced c) : inFlightBytes c.phase ≤ c.queuedBytes := by
  have hsum : c.queuedBytes = laneBytes c + inFlightBytes c.phase := h
  omega

theorem Balanced.move (hb : Balanced c) (h : Move sessionOf guard c c') : Balanced c' := by
  have hsum : c.queuedBytes = laneBytes c + inFlightBytes c.phase := hb
  unfold Balanced
  cases h with
  | push record done hheld =>
    simp only [laneBytes, List.map_append, List.map_cons, List.map_nil, List.sum_append,
      List.sum_cons, List.sum_nil, Job.bytes] at hsum ⊢
    omega
  | replace record previous hheld hcls hprev =>
    have hold := manifestBytes_erase_some hprev
    have hnew : manifestBytes ((c.metadata.erase record.session).insert record.session record) =
        record.bytes + manifestBytes (c.metadata.erase record.session) :=
      manifestBytes_insert (by simp)
    simp only [laneBytes] at hsum ⊢
    omega
  | add record hheld hcls hnone =>
    have hnew := manifestBytes_insert (q := record) hnone
    simp only [laneBytes] at hsum ⊢
    omega
  | enqueueRemove session state done hsession hremoved =>
    have hold := manifestBytes_erase (m := c.metadata) (s := session)
    simp only [laneBytes, List.map_append, List.map_cons, List.map_nil, List.sum_append,
      List.sum_cons, List.sum_nil, Job.bytes] at hsum ⊢
    omega
  | exclusive done =>
    simpa [laneBytes, Job.bytes] using hsum
  | barrier ticket =>
    simpa [laneBytes, Job.bytes] using hsum
  | requeue =>
    simp only [laneBytes, List.map_append, List.sum_append, jobBytes_pending] at hsum ⊢
    omega
  | takeMetadata skipped order session record hphase horder hskip hrecord =>
    have hold := manifestBytes_erase_some hrecord
    rw [hphase] at hsum
    simp only [laneBytes, inFlightBytes, Job.bytes] at hsum ⊢
    omega
  | takeOrdered order job ordered hphase hordered horder hbarrier =>
    rw [hphase, laneBytes, hordered, List.map_cons, List.sum_cons] at hsum
    simp only [laneBytes, inFlightBytes] at hsum ⊢
    omega
  | finish bytes kept hphase =>
    rw [hphase] at hsum
    simp only [laneBytes, inFlightBytes] at hsum ⊢
    omega
  | skip record done hphase => rwa [hphase] at hsum
  | start record done hphase => rwa [hphase] at hsum
  | write record done hphase => rwa [hphase] at hsum
  | wrote record done hphase => rwa [hphase] at hsum
  | seeded record done hphase => rwa [hphase] at hsum
  | failManifest record done error hphase => rwa [hphase] at hsum
  | failSeed record done error hphase => rwa [hphase] at hsum
  | removeFile session state done hphase => rwa [hphase] at hsum
  | keepFile session state done error hphase => rwa [hphase] at hsum
  | clear session state done result hphase => rwa [hphase] at hsum
  | ranExclusive done hphase => rwa [hphase] at hsum
  | passed ticket hphase => rwa [hphase] at hsum
  | _ => exact hsum

/-! ### Final revisions -/

/-- In the queue or in flight. -/
def Stored (c : Core S) (q : ManifestRevision S) : Prop := Waiting c q ∨ InFlight c.phase q

/-- In the queue or in flight and not only retained for a retry. -/
def Underway (c : Core S) (q : ManifestRevision S) : Prop :=
  (∃ done, .manifest q done ∈ c.ordered) ∨ InFlight c.phase q

/-- What becomes of a final revision `r` that was accepted: `r` itself, or a final of its session at or
above it, is still there in the sense of `there` or is written, or the session was removed. -/
def Kept (sessionOf : ℕ → S) (there : Core S → ManifestRevision S → Prop) (c : Core S)
    (r : ManifestRevision S) : Prop :=
  (∃ q, q.session = r.session ∧ q.cls = .final ∧ r.revision ≤ q.revision ∧
    (there c q ∨ q.revision ≤ c.written q.state)) ∨
  ∃ state, sessionOf state = r.session ∧ c.removed state = true

theorem Kept.of_newer {there : Core S → ManifestRevision S → Prop} (h : Kept sessionOf there c q)
    (hsession : q.session = r.session) (hrev : r.revision ≤ q.revision) :
    Kept sessionOf there c r := by
  rcases h with ⟨p, hp, hcls, hle, hthere⟩ | ⟨state, hstate, hremoved⟩
  · exact .inl ⟨p, hp.trans hsession, hcls, hrev.trans hle, hthere⟩
  · exact .inr ⟨state, hstate.trans hsession, hremoved⟩

theorem kept_of_stored (hcls : q.cls = .final) (h : Stored c q) : Kept sessionOf Stored c q :=
  .inl ⟨q, rfl, hcls, le_rfl, .inl h⟩

/-- Retaining a final keeps it, or leaves the newer one that is retained already. -/
theorem retained_newer {pending : OrdMap S (ManifestRevision S)}
    (hpending : ∀ s p, pending.get? s = some p → p.session = s ∧ p.cls = .final)
    (hcls : q.cls = .final) : ∃ p ∈ (retained pending q).values,
      p.session = q.session ∧ p.cls = .final ∧ q.revision ≤ p.revision := by
  unfold retained
  split_ifs with hnewer
  · unfold newerPending at hnewer
    rcases hp : pending.get? q.session with _ | p
    · simp [hp] at hnewer
    · rw [hp, Option.any_some, decide_eq_true_iff] at hnewer
      obtain ⟨hsession, hfinal⟩ := hpending _ _ hp
      exact ⟨p, OrdMap.mem_values.2 ⟨_, hp⟩, hsession, hfinal, hnewer⟩
  · exact ⟨q, OrdMap.mem_values.2 ⟨q.session, by simp⟩, rfl, hcls, le_rfl⟩

/-- A final that is already retained stays so, or gives way to a newer one. -/
theorem retained_still {pending : OrdMap S (ManifestRevision S)}
    (hpending : ∀ s p, pending.get? s = some p → p.session = s ∧ p.cls = .final)
    (hr : r.cls = .final) (hq : q ∈ pending.values) : ∃ p ∈ (retained pending r).values,
      p.session = q.session ∧ p.cls = .final ∧ q.revision ≤ p.revision := by
  obtain ⟨s, hs⟩ := OrdMap.mem_values.1 hq
  obtain ⟨rfl, hfinal⟩ := hpending s q hs
  unfold retained
  split_ifs with hnewer
  · exact ⟨q, hq, rfl, hfinal, le_rfl⟩
  · by_cases heq : q.session = r.session
    · refine ⟨r, OrdMap.mem_values.2 ⟨r.session, by simp⟩, heq.symm, hr, ?_⟩
      simp only [newerPending, ← heq, hs, Option.any_some, decide_eq_true_iff] at hnewer
      omega
    · exact ⟨q, OrdMap.mem_values.2 ⟨q.session, by simp [heq, hs]⟩, rfl, hfinal, le_rfl⟩

/-- The final that one move takes care of. -/
theorem kept_of_pending {p : ManifestRevision S} (hp : p ∈ c.pendingFinal.values)
    (hsession : p.session = q.session) (hcls : p.cls = .final) (hle : q.revision ≤ p.revision) :
    Kept sessionOf Stored c q :=
  .inl ⟨p, hsession, hcls, hle, .inl (.inl (.inr (.inr hp)))⟩

/-- A final in the ordered lane stays there until the writer takes it. -/
theorem ordered_stored (h : Move sessionOf guard c c') {done : Option ℕ}
    (hq : .manifest q done ∈ c.ordered) : Stored c' q := by
  cases h with
  | push => exact .inl (.inl ⟨done, List.mem_append_left _ hq⟩)
  | enqueueRemove => exact .inl (.inl ⟨done, List.mem_append_left _ hq⟩)
  | exclusive => exact .inl (.inl ⟨done, List.mem_append_left _ hq⟩)
  | barrier => exact .inl (.inl ⟨done, List.mem_append_left _ hq⟩)
  | requeue => exact .inl (.inl ⟨done, List.mem_append_left _ hq⟩)
  | takeOrdered order job ordered hphase hordered horder hbarrier =>
    rw [hordered] at hq
    rcases List.mem_cons.1 hq with rfl | hq
    · exact .inr rfl
    · exact .inl (.inl ⟨done, hq⟩)
  | _ => exact .inl (.inl ⟨done, hq⟩)

/-- A retained final is kept: a newer one may take its place, and it is queued again for a retry. -/
theorem pending_kept (hg : Good sessionOf c) (h : Move sessionOf guard c c')
    (hq : q ∈ c.pendingFinal.values) : Kept sessionOf Stored c' q := by
  obtain ⟨s, hs⟩ := OrdMap.mem_values.1 hq
  obtain ⟨rfl, hfinal⟩ := hg.pendingFinal s q hs
  have hsame : c'.pendingFinal = c.pendingFinal → Kept sessionOf Stored c' q := fun heq =>
    kept_of_pending (heq ▸ hq) rfl hfinal le_rfl
  cases h with
  | pend record hheld hcls =>
    obtain ⟨p, hp, hsession, hp', hle⟩ := retained_still hg.pendingFinal hcls hq
    exact kept_of_pending hp hsession hp' hle
  | enqueueRemove session state done hsession hremoved =>
    by_cases hk : q.session = session
    · exact .inr ⟨state, by rw [hk, hsession], hremoved⟩
    · exact kept_of_pending (OrdMap.mem_values.2 ⟨q.session, by simp [hk, hs]⟩) rfl hfinal le_rfl
  | requeue =>
    refine kept_of_stored hfinal (.inl (.inl ⟨none, List.mem_append_right _ ?_⟩))
    exact List.mem_map.2 ⟨q, hq, rfl⟩
  | finish bytes kept hphase =>
    cases kept with
    | none => exact hsame rfl
    | some record =>
      obtain ⟨p, hp, hsession, hp', hle⟩ :=
        retained_still hg.pendingFinal (hg.kept bytes record hphase) hq
      exact kept_of_pending hp hsession hp' hle
  | _ => exact hsame rfl

/-- The final that the writer is at is written, skipped for a reason, or retained. -/
theorem inFlight_kept (hg : Good sessionOf c) (h : Move sessionOf guard c c') (hcls : q.cls = .final)
    (hq : InFlight c.phase q) : Kept sessionOf Stored c' q := by
  have hsame : c'.phase = c.phase → Kept sessionOf Stored c' q := fun heq =>
    kept_of_stored hcls (.inr (heq ▸ hq))
  have hnumbered := hg.outstanding q (.inr (.inr hq))
  cases h with
  | takeMetadata skipped order session record hphase => exact absurd hq (by simp [hphase, InFlight])
  | takeOrdered order job ordered hphase => exact absurd hq (by simp [hphase, InFlight])
  | rest hphase => exact absurd hq (by simp [hphase, InFlight])
  | skip record done hphase hskip =>
    obtain rfl : record = q := by rwa [hphase] at hq
    rcases hskip with hremoved | hold
    · exact .inr ⟨_, (hg.session _ hnumbered).symm, hremoved⟩
    · exact .inl ⟨record, rfl, hcls, le_rfl, .inr hold.le⟩
  | start record done hphase =>
    obtain rfl : record = q := by rwa [hphase] at hq
    exact kept_of_stored hcls (.inr rfl)
  | write record done hphase =>
    obtain rfl : record = q := by rwa [hphase] at hq
    exact kept_of_stored hcls (.inr rfl)
  | wrote record done hphase =>
    obtain rfl : record = q := by rwa [hphase] at hq
    exact .inl ⟨record, rfl, hcls, le_rfl, .inr (le_update_max _ _ _)⟩
  | seeded record done hphase =>
    obtain rfl : record = q := by rwa [hphase] at hq
    exact .inl ⟨record, rfl, hcls, le_rfl, .inr (le_update_max _ _ _)⟩
  | failManifest record done error hphase =>
    obtain rfl : record = q := by rwa [hphase] at hq
    exact kept_of_stored hcls (.inr (by simp [hcls, InFlight]))
  | failSeed record done error hphase =>
    obtain rfl : record = q := by rwa [hphase] at hq
    exact kept_of_stored hcls (.inr (by simp [hcls, InFlight]))
  | removeFile session state done hphase => exact absurd hq (by simp [hphase, InFlight])
  | keepFile session state done error hphase => exact absurd hq (by simp [hphase, InFlight])
  | clear session state done result hphase => exact absurd hq (by simp [hphase, InFlight])
  | ranExclusive done hphase => exact absurd hq (by simp [hphase, InFlight])
  | passed ticket hphase => exact absurd hq (by simp [hphase, InFlight])
  | finish bytes kept hphase =>
    cases kept with
    | none => exact absurd hq (by simp [hphase, InFlight])
    | some record =>
      obtain rfl : record = q := by rwa [hphase] at hq
      obtain ⟨p, hp, hsession, hp', hle⟩ := retained_newer hg.pendingFinal hcls
      exact kept_of_pending hp hsession hp' hle
  | _ => exact hsame rfl

/-- **A final that is kept stays kept**, whatever the next step does. -/
theorem Kept.move (hg : Good sessionOf c) (h : Move sessionOf guard c c')
    (hr : Kept sessionOf Stored c r) : Kept sessionOf Stored c' r := by
  rcases hr with ⟨q, hsession, hcls, hle, hq⟩ | ⟨state, hstate, hremoved⟩
  · suffices hkept : Kept sessionOf Stored c' q from hkept.of_newer hsession hle
    rcases hq with ((⟨done, hq⟩ | hq | hq) | hq) | hwritten
    · exact kept_of_stored hcls (ordered_stored h hq)
    · obtain ⟨s, hs⟩ := OrdMap.mem_values.1 hq
      exact absurd (hg.metadata s q hs).2.1 (by simp [hcls])
    · exact pending_kept hg h hq
    · exact inFlight_kept hg h hcls hq
    · exact .inl ⟨q, rfl, hcls, le_rfl, .inr (hwritten.trans (move_monotone h _).2.1)⟩
  · exact .inr ⟨state, hstate, (move_monotone h _).2.2 hremoved⟩

/-! ### Runs -/

/-- A final whose submission was accepted is kept. -/
theorem submitted_kept {v w : Service S} {result : Except PersistError Unit}
    (hg : Good sessionOf (core v)) (hcls : r.cls = .final)
    (h : v.submit r = (w, result)) (hok : result = .ok ()) : Kept sessionOf Stored (core w) r := by
  rcases submit_spec h with ⟨error, herror, -⟩ | ⟨-, ⟨-, hcore⟩ | ⟨previous, hmeta, -⟩ | ⟨hmeta, -⟩ |
    ⟨-, hcore⟩⟩
  · cases hok.symm.trans herror
  · exact kept_of_stored hcls (.inl (.inl ⟨none, by simp [hcore]⟩))
  · exact absurd hmeta (by simp [hcls])
  · exact absurd hmeta (by simp [hcls])
  · obtain ⟨p, hp, hsession, hp', hle⟩ := retained_newer hg.pendingFinal hcls
    exact kept_of_pending (by rw [hcore]; exact hp) hsession hp' hle

structure Accounted (sessionOf : ℕ → S) (y : System S) : Prop where
  good : Good sessionOf (core y.service)
  balanced : Balanced (core y.service)
  accepted : ∀ r ∈ y.accepted, Kept sessionOf Stored (core y.service) r
  drains : ∀ ticket drain, y.drains ticket = some drain → ∀ r ∈ drain.accepted, r ∈ y.accepted

theorem waited_kept {v w : Service S} {result : Except PersistError Unit} {ticket : ℕ}
    (hcls : r.cls = .final) (h : v.submitAndWait r ticket = (w, result)) (hok : result = .ok ()) :
    Kept sessionOf Stored (core w) r := by
  rcases submitAndWait_spec h with ⟨error, herror, -⟩ | ⟨-, hcore⟩
  · cases hok.symm.trans herror
  · exact kept_of_stored hcls (.inl (.inl ⟨some ticket, by simp [hcore]⟩))

/-- A step accepts only what is kept from then on. -/
theorem step_accepted {y y' : System S} {op : Op S} (h : y.step sessionOf op = some y')
    (hg : Good sessionOf (core y.service)) :
    (∀ r ∈ y.accepted, r ∈ y'.accepted) ∧
      ∀ r ∈ y'.accepted, r ∈ y.accepted ∨ Kept sessionOf Stored (core y'.service) r := by
  cases op with
  | submit record =>
    obtain ⟨-, rfl⟩ := step_submit h
    rcases hs : y.service.submit record with ⟨w, result⟩
    simp only [System.submit, hs]
    cases result with
    | error error => exact ⟨fun r hr => hr, fun r hr => .inl hr⟩
    | ok =>
      split_ifs with hcls
      · refine ⟨fun r hr => List.mem_cons_of_mem _ hr, fun r hr => ?_⟩
        rcases List.mem_cons.1 hr with rfl | hr
        · exact .inr (submitted_kept hg hcls hs rfl)
        · exact .inl hr
      · exact ⟨fun r hr => hr, fun r hr => .inl hr⟩
  | submitAndWait record =>
    obtain ⟨-, rfl⟩ := step_submitAndWait h
    rcases hs : y.service.submitAndWait record y.nextTicket with ⟨w, result⟩
    simp only [System.submitAndWait, hs]
    cases result with
    | error error => exact ⟨fun r hr => hr, fun r hr => .inl hr⟩
    | ok =>
      split_ifs with hcls
      · refine ⟨fun r hr => List.mem_cons_of_mem _ hr, fun r hr => ?_⟩
        rcases List.mem_cons.1 hr with rfl | hr
        · exact .inr (waited_kept hcls hs rfl)
        · exact .inl hr
      · exact ⟨fun r hr => hr, fun r hr => .inl hr⟩
  | drainTake =>
    cases h
    exact ⟨fun r hr => hr, fun r hr => .inl hr⟩
  | drainBarrier ticket =>
    obtain ⟨drain, -, -, rfl⟩ := step_drainBarrier h
    exact ⟨fun r hr => hr, fun r hr => .inl hr⟩
  | drainReturn ticket =>
    obtain ⟨drain, result, -, -, -, rfl⟩ := step_drainReturn h
    exact ⟨fun r hr => hr, fun r hr => .inl hr⟩
  | _ =>
    obtain ⟨heq, -⟩ := step_unrecorded h (by simp [Op.Recorded])
    exact ⟨fun r hr => heq ▸ hr, fun r hr => .inl (heq ▸ hr)⟩

/-- What a drain remembers is what was accepted when it began. -/
theorem step_drains {y y' : System S} {op : Op S} {ticket : ℕ} {drain : Drain S}
    (h : y.step sessionOf op = some y') (hd : y'.drains ticket = some drain) :
    drain.accepted = y.accepted ∨
      ∃ drain', y.drains ticket = some drain' ∧ drain.accepted = drain'.accepted := by
  have hupdate : ∀ (t : ℕ) (d : Drain S) (stage : Stage), y.drains t = some d →
      Function.update y.drains t (some { d with stage }) ticket = some drain →
      ∃ drain', y.drains ticket = some drain' ∧ drain.accepted = drain'.accepted := by
    intro t d stage hold hnew
    by_cases ht : ticket = t
    · subst ht
      rw [Function.update_self, Option.some.injEq] at hnew
      exact ⟨d, hold, by rw [← hnew]⟩
    · rw [Function.update_of_ne ht] at hnew
      exact ⟨drain, hnew, rfl⟩
  cases op with
  | drainTake =>
    cases h
    by_cases ht : ticket = y.nextTicket
    · subst ht
      simp only [System.drainTake, Function.update_self, Option.some.injEq] at hd
      exact .inl (by rw [← hd])
    · simp only [System.drainTake, Function.update_of_ne ht] at hd
      exact .inr ⟨drain, hd, rfl⟩
  | drainBarrier t =>
    obtain ⟨d, hold, -, rfl⟩ := step_drainBarrier h
    exact .inr (hupdate t d _ hold hd)
  | drainReturn t =>
    obtain ⟨d, result, hold, -, -, rfl⟩ := step_drainReturn h
    exact .inr (hupdate t d _ hold hd)
  | submit record =>
    obtain ⟨-, rfl⟩ := step_submit h
    exact .inr ⟨drain, hd, rfl⟩
  | submitAndWait record =>
    obtain ⟨-, rfl⟩ := step_submitAndWait h
    exact .inr ⟨drain, hd, rfl⟩
  | _ =>
    obtain ⟨-, heq, -⟩ := step_unrecorded h (by simp [Op.Recorded])
    exact .inr ⟨drain, heq ▸ hd, rfl⟩

theorem Accounted.step {y y' : System S} {op : Op S} (ha : Accounted sessionOf y)
    (h : y.step sessionOf op = some y') : Accounted sessionOf y' := by
  have hmove := step_move h
  obtain ⟨hmono, hnew⟩ := step_accepted h ha.good
  constructor
  · exact ha.good.move hmove
  · exact ha.balanced.move hmove
  · intro r hr
    rcases hnew r hr with hr | hr
    · exact (ha.accepted r hr).move ha.good hmove
    · exact hr
  · intro ticket drain hd r hr
    rcases step_drains h hd with heq | ⟨drain', hd', heq⟩
    · exact hmono r (heq ▸ hr)
    · exact hmono r (ha.drains ticket drain' hd' r (heq ▸ hr))

theorem accounted_started {y : System S} (h : Started sessionOf y) : Accounted sessionOf y := by
  constructor
  · exact good_started h
  · simp [Balanced, laneBytes, manifestBytes, core, h.queue, h.phase, Queue.default, inFlightBytes]
  · simp [h.accepted]
  · simp [h.drains]

/-- With nothing retained, a final that is kept is on its way or written. -/
theorem Kept.underway (hg : Good sessionOf c) (hempty : c.pendingFinal.values = [])
    (h : Kept sessionOf Stored c r) : Kept sessionOf Underway c r := by
  rcases h with ⟨q, hsession, hcls, hle, hq⟩ | hremoved
  · refine .inl ⟨q, hsession, hcls, hle, hq.imp_left ?_⟩
    rintro ((hq | hq | hq) | hq)
    · exact .inl hq
    · obtain ⟨s, hs⟩ := OrdMap.mem_values.1 hq
      exact absurd (hg.metadata s q hs).2.1 (by simp [hcls])
    · simp [hempty] at hq
    · exact .inr hq
  · exact .inr hremoved

/-- A final that the disk refuses once. -/
def refusedOnce : List (Op ℕ) :=
  [.number 0 1 [123, 125] none .final, .submit ⟨0, 1, 1, [123, 125], none, 0, .final⟩, .take,
    .execute ⟨none, .ok, true⟩, .execute ⟨some "disk full", .ok, true⟩, .finish, .drainTake]

end Paneflow.Host.Finals
