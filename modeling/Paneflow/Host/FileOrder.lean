import Paneflow.Host.Revisions

/-!
# The manifest file of a session does not go back

`write_revision` compares a revision with `written`, which is only advanced when the manifest and the
hook seed are both on disk. When the seed of a revision fails, its manifest is on disk and older
revisions still pass the check. `seedSafe` is the condition on a step that excludes this, and under it
the revision in the file of a session never goes down: `reach_in_order`. Without it the file goes back:
`not_reach_in_order`.
-/

namespace Paneflow.Host.FileOrder

open Paneflow.Host.Persistence Paneflow.Host.PersistMoves Paneflow.Host.PersistRun
open Paneflow.Host.Revisions Paneflow.Transition

variable {S : Type} [LinearOrder S] {sessionOf : ℕ → S} {guard : Guard S} {c c' : Core S}
  {q r w : ManifestRevision S}

/-- No older revision of the state of `r` is left that the check of `write_revision` would let
through. -/
def NoOlder (c : Core S) (r : ManifestRevision S) : Prop :=
  ∀ q, Outstanding c q → q.state = r.state →
    r.revision ≤ q.revision ∨ q.revision < c.written q.state ∨ c.removed q.state = true

/-- A hook seed does not fail while an older revision of its session is still to be written. -/
def seedSafe : Guard S := { Guard.any with failSeed := NoOlder }

/-- `writing`: the writer is at a revision that no earlier write is above. `written`: what is left to
be written of a state is not below the manifests that were written of it. -/
structure InOrder (c : Core S) : Prop where
  files : ∀ s f, c.files s = some f → f ∈ c.log ∨ f.revision = 0
  writing : ∀ q done, c.phase = .writing q done →
    ∀ w ∈ c.log, w.state = q.state → w.revision ≤ q.revision
  written : ∀ w ∈ c.log, (∃ done, c.phase = .seeding w done) ∨ NoOlder c w

theorem NoOlder.move (hg : Good sessionOf c) (h : Move sessionOf guard c c') (hr : r ∈ c.numbered)
    (hn : NoOlder c r) : NoOlder c' r := by
  intro q hq hstate
  rcases move_outstanding h hq with hq | ⟨hrev, -, -⟩
  · rcases hn q hq hstate with hle | hlt | hremoved
    · exact .inl hle
    · exact .inr (.inl (hlt.trans_le (move_monotone h _).2.1))
    · exact .inr (.inr ((move_monotone h _).2.2 hremoved))
  · have hbound := (hg.numbered r hr).2
    rw [← hstate] at hbound
    exact .inl (by omega)

/-- Once `written` is at `r`, nothing older passes the check. -/
theorem noOlder_of_written (h : r.revision ≤ c.written r.state) : NoOlder c r := by
  intro q _ hstate
  rcases Nat.lt_or_ge q.revision r.revision with hlt | hle
  · exact .inr (.inl (by rw [hstate]; omega))
  · exact .inl hle

/-- The phase in which a seed is written is only left by the answer to it. -/
theorem move_seeding (h : Move sessionOf guard c c') {done : Option ℕ}
    (hphase : c.phase = .seeding w done) :
    c'.phase = .seeding w done ∨ w.revision ≤ c'.written w.state ∨ guard.failSeed c w := by
  cases h with
  | seeded record done' hphase' =>
    cases hphase.symm.trans hphase'
    exact .inr (.inl (le_update_max _ _ _))
  | failSeed record done' error hphase' hok =>
    cases hphase.symm.trans hphase'
    exact .inr (.inr hok)
  | _ => first | exact .inl hphase | cases hphase.symm.trans ‹c.phase = _›

/-- A file is what it was, or what the writer is at. -/
theorem move_files (h : Move sessionOf guard c c') {s : S} (hf : c'.files s = some r) :
    c.files s = some r ∨ ∃ done, c.phase = .writing r done ∧ c'.log = r :: c.log := by
  have hupdate : ∀ (x : ManifestRevision S),
      Function.update c.files x.session (some x) s = some r → c.files s = some r ∨ x = r := by
    intro x hx
    by_cases hs : s = x.session
    · rw [hs, Function.update_self, Option.some.injEq] at hx
      exact .inr hx
    · rw [Function.update_of_ne hs] at hx
      exact .inl hx
  cases h with
  | write record done hphase =>
    rcases hupdate record hf with hf | rfl
    · exact .inl hf
    · exact .inr ⟨done, hphase, rfl⟩
  | wrote record done hphase =>
    rcases hupdate record hf with hf | rfl
    · exact .inl hf
    · exact .inr ⟨done, hphase, rfl⟩
  | removeFile session state done hphase =>
    by_cases hs : s = session
    · simp [hs] at hf
    · exact .inl (by simpa [hs] using hf)
  | _ => exact .inl hf

/-- The writer starts to write what passes the check of `write_revision`. -/
theorem move_writing (h : Move sessionOf guard c c') {done : Option ℕ} (hphase : c'.phase = .writing q done) :
    (c.phase = .writing q done ∧ c'.log = c.log) ∨
      c.phase = .taken (.manifest q done) ∧ c.removed q.state = false ∧
        c.written q.state ≤ q.revision ∧ c'.log = c.log := by
  cases h with
  | start record done' hphase' hlive hnew =>
    cases hphase
    exact .inr ⟨hphase', hlive, hnew, rfl⟩
  | _ => first | exact .inl ⟨hphase, rfl⟩ | cases hphase

theorem InOrder.move (hg : Good sessionOf c) (hi : InOrder c) (h : Move sessionOf seedSafe c c') :
    InOrder c' := by
  constructor
  · intro s f hf
    rcases move_files h hf with hf | ⟨done, -, heq⟩
    · exact (hi.files s f hf).imp_left (mem_log_mono h)
    · exact .inl (heq ▸ List.mem_cons_self)
  · intro q done hphase w hw hstate
    rcases move_writing h hphase with ⟨hold, heq⟩ | ⟨hold, hlive, hnew, heq⟩
    · exact hi.writing q done hold w (heq ▸ hw) hstate
    · rcases hi.written w (heq ▸ hw) with ⟨d, hphase'⟩ | hno
      · cases hold.symm.trans hphase'
      · have hq : Outstanding c q := .inr (.inr (by rw [hold]; rfl))
        rcases hno q hq hstate.symm with hle | hlt | hremoved
        · exact hle
        · omega
        · simp [hlive] at hremoved
  · intro w hw
    have hold : w ∈ c.log → (∃ done, c'.phase = .seeding w done) ∨ NoOlder c' w := by
      intro hw
      have hnumbered := hg.log w hw
      rcases hi.written w hw with ⟨done, hphase⟩ | hno
      · rcases move_seeding h hphase with hphase' | hwritten | hno
        · exact .inl ⟨done, hphase'⟩
        · exact .inr (noOlder_of_written hwritten)
        · exact .inr (hno.move hg h hnumbered)
      · exact .inr (hno.move hg h hnumbered)
    cases h with
    | write record done hphase =>
      rcases List.mem_cons.1 hw with rfl | hw
      · exact .inl ⟨done, rfl⟩
      · exact hold hw
    | wrote record done hphase =>
      rcases List.mem_cons.1 hw with rfl | hw
      · exact .inr (noOlder_of_written (le_update_max _ _ _))
      · exact hold hw
    | _ => exact hold hw

/-! ### Runs -/

/-- The jobs that delete files belong to removed sessions, and a deleted file is not there while its
job is at the data directory. -/
structure Removals (sessionOf : ℕ → S) (c : Core S) : Prop where
  queued : ∀ session state done, .remove session state done ∈ c.ordered →
    session = sessionOf state ∧ c.removed state = true
  taken : ∀ session state done, c.phase = .taken (.remove session state done) →
    session = sessionOf state ∧ c.removed state = true
  clearing : ∀ session state done result, c.phase = .clearing session state done result →
    session = sessionOf state ∧ c.removed state = true ∧ (result = .ok () → c.files session = none)

theorem Removals.move (hr : Removals sessionOf c) (h : Move sessionOf guard c c') :
    Removals sessionOf c' := by
  have hmono : ∀ {session state}, session = sessionOf state ∧ c.removed state = true →
      session = sessionOf state ∧ c'.removed state = true := fun hs =>
    ⟨hs.1, (move_monotone h _).2.2 hs.2⟩
  constructor
  · intro session state done hjob
    have hold := fun hjob => hmono (hr.queued session state done hjob)
    cases h with
    | push => exact hold (by simpa using hjob)
    | enqueueRemove session' state' done' hsession hremoved =>
      rcases List.mem_append.1 hjob with hjob | hjob
      · exact hold hjob
      · cases List.mem_singleton.1 hjob
        exact ⟨hsession, hremoved⟩
    | exclusive => exact hold (by simpa using hjob)
    | barrier => exact hold (by simpa using hjob)
    | requeue => exact hold (by simpa using hjob)
    | takeOrdered order job ordered hphase hordered =>
      exact hold (by rw [hordered]; exact List.mem_cons_of_mem _ hjob)
    | _ => exact hold hjob
  · intro session state done hphase
    have hold := fun hphase => hmono (hr.taken session state done hphase)
    cases h with
    | takeOrdered order job ordered hidle hordered =>
      cases hphase
      exact hr.queued session state done (by rw [hordered]; exact List.mem_cons_self)
    | _ => first | exact hold hphase | cases hphase
  · intro session state done result hphase
    have hold := fun hphase => hr.clearing session state done result hphase
    cases h with
    | removeFile session' state' done' hphase' =>
      cases hphase
      obtain ⟨hsession, hremoved⟩ := hr.taken _ _ _ hphase'
      exact ⟨hsession, hremoved, fun _ => by simp⟩
    | keepFile session' state' done' error hphase' =>
      cases hphase
      obtain ⟨hsession, hremoved⟩ := hr.taken _ _ _ hphase'
      exact ⟨hsession, hremoved, fun h => by cases h⟩
    | markRemoved state' =>
      obtain ⟨hsession, hremoved, hfile⟩ := hold hphase
      exact ⟨hsession, (hmono ⟨hsession, hremoved⟩).2, hfile⟩
    | _ => first | exact hold hphase | cases hphase

structure Ordered (sessionOf : ℕ → S) (y : System S) : Prop where
  good : Good sessionOf (core y.service)
  inOrder : InOrder (core y.service)
  removals : Removals sessionOf (core y.service)

theorem Ordered.step {y y' : System S} {op : Op S} (ho : Ordered sessionOf y)
    (hsafe : Guarded sessionOf seedSafe y op) (h : y.step sessionOf op = some y') :
    Ordered sessionOf y' := by
  have hmove := step_move_guarded h hsafe
  constructor
  · exact ho.good.move hmove
  · exact ho.inOrder.move ho.good hmove
  · exact ho.removals.move hmove

theorem ordered_started {y : System S} (h : Started sessionOf y) : Ordered sessionOf y := by
  constructor
  · exact good_started h
  · constructor
    · intro s f hf
      exact .inr (h.files s f hf).2.2
    · simp [core, h.phase]
    · simp [core, h.log]
  · constructor
    · simp [core, h.queue, Queue.default]
    · simp [core, h.phase]
    · simp [core, h.phase]

/-- Of a removed session nothing is written but what the writer is at. -/
theorem move_removed (h : Move sessionOf guard c c') {state : ℕ} (hremoved : c.removed state = true) :
    (∀ q done, c'.phase = .writing q done → q.state = state → c.phase = .writing q done) ∧
      ∀ w ∈ c'.log, w.state = state → w ∈ c.log ∨ ∃ done, c.phase = .writing w done := by
  constructor
  · rintro q done hphase rfl
    rcases move_writing h hphase with ⟨hold, -⟩ | ⟨-, hlive, -⟩
    · exact hold
    · simp [hlive] at hremoved
  · intro w hw _
    rcases move_log h with heq | ⟨record, done, hphase, heq, -⟩
    · exact .inl (heq ▸ hw)
    · rw [heq] at hw
      rcases List.mem_cons.1 hw with rfl | hw
      · exact .inr ⟨done, hphase⟩
      · exact .inl hw

section
variable {y y' : System S}

/-- The file of a session does not go back along a run. -/
theorem run_files (ho : Ordered sessionOf y) (hrun : Run (System.step sessionOf) (Guarded sessionOf seedSafe) y y') {s : S}
    (hq : y.service.files s = some q) (hr : y'.service.files s = some r) (hstate : q.state = r.state) :
    q.revision ≤ r.revision := by
  -- along the run `q` stays in the log, and whatever is in the file is not below it
  let P : System S → Prop := fun u => (q ∈ u.service.log ∨ q.revision = 0) ∧
    ∀ f, u.service.files s = some f → q.state = f.state → q.revision ≤ f.revision
  suffices hp : P y' from hp.2 r hr hstate
  refine hrun.invariant (fun _ _ _ hi hc hs => hi.step hc hs) ?_ ho ?_
  · rintro u op u' hu ⟨hlog, hfile⟩ - hs
    have hmove := step_move hs
    constructor
    · rcases hlog with hlog | hzero
      · exact .inl (mem_log_mono hmove hlog)
      · exact .inr hzero
    · intro f hf hst
      rcases move_files hmove hf with hf | ⟨done, hphase, -⟩
      · exact hfile f hf hst
      · rcases hlog with hlog | hzero
        · exact hu.inOrder.writing f done hphase q hlog hst
        · omega
  · constructor
    · exact ho.inOrder.files s q hq
    · intro f hf _
      obtain rfl : q = f := Option.some.inj (hq.symm.trans hf)
      exact le_rfl

/-- Once a session is marked as removed, only a write that is already under way still happens. -/
theorem run_removed (ho : Ordered sessionOf y) (hrun : Run (System.step sessionOf) (Guarded sessionOf seedSafe) y y')
    {state : ℕ} (hremoved : (y.service.states state).removed = true) (hw : w ∈ y'.service.log)
    (hstate : w.state = state) : w ∈ y.service.log ∨ ∃ done, y.service.phase = .writing w done := by
  let P : System S → Prop := fun u => (core u.service).removed state = true ∧
    (∀ x done, u.service.phase = .writing x done → x.state = state → y.service.phase = .writing x done) ∧
    ∀ x ∈ u.service.log, x.state = state → x ∈ y.service.log ∨ ∃ done, y.service.phase = .writing x done
  suffices hp : P y' from hp.2.2 w hw hstate
  refine hrun.invariant (fun _ _ _ hi hc hs => hi.step hc hs) ?_ ho ?_
  · rintro u op u' - ⟨hrem, hwriting, hlog⟩ - hs
    have hmove := step_move hs
    obtain ⟨hwriting', hlog'⟩ := move_removed hmove hrem
    refine ⟨(move_monotone hmove _).2.2 hrem, ?_, ?_⟩
    · intro x done hphase hx
      exact hwriting x done (hwriting' x done hphase hx) hx
    · intro x hmem hx
      rcases hlog' x hmem hx with hmem | ⟨done, hphase⟩
      · exact hlog x hmem hx
      · exact .inr ⟨done, hwriting x done hphase hx⟩
  · exact ⟨hremoved, fun x done hphase _ => hphase, fun x hmem _ => .inl hmem⟩

/-- Once the job of `enqueue_remove` has deleted the file, no write of its state brings it back. -/
theorem run_deleted (ho : Ordered sessionOf y) (hrun : Run (System.step sessionOf) (Guarded sessionOf seedSafe) y y')
    {session : S} {state : ℕ} {done : Option ℕ}
    (hphase : y.service.phase = .clearing session state done (.ok ()))
    (hr : y'.service.files session = some r) : r.state ≠ state := by
  obtain ⟨-, hremoved, hnone⟩ := ho.removals.clearing session state done _ hphase
  let P : System S → Prop := fun u => (core u.service).removed state = true ∧
    (∀ x done, u.service.phase = .writing x done → x.state ≠ state) ∧
    ∀ f, u.service.files session = some f → f.state ≠ state
  suffices hp : P y' from hp.2.2 r hr
  refine hrun.invariant (fun _ _ _ hi hc hs => hi.step hc hs) ?_ ho ?_
  · rintro u op u' - ⟨hrem, hwriting, hfile⟩ - hs
    have hmove := step_move hs
    obtain ⟨hwriting', -⟩ := move_removed hmove hrem
    refine ⟨(move_monotone hmove _).2.2 hrem, ?_, ?_⟩
    · intro x d hx hstate
      exact hwriting x d (hwriting' x d hx hstate) hstate
    · intro f hf
      rcases move_files hmove hf with hf | ⟨d, hx, -⟩
      · exact hfile f hf
      · exact hwriting f d hx
  · refine ⟨hremoved, ?_, ?_⟩
    · intro x d hx
      cases hphase.symm.trans hx
    · intro f hf
      cases (hnone rfl).symm.trans hf

/-- **The file of a session does not go back**, and writes of a removed session do not bring it back,
when no hook seed fails while an older revision of its session is still to be written: from every state
of such a run on, the revision in a file only grows, of a session that is marked as removed only a write
already under way still happens, and a file that its removal deleted is not written again. -/
theorem reach_in_order (h : Reach (System.step sessionOf) (Started sessionOf) (Guarded sessionOf seedSafe) y)
    (hrun : Run (System.step sessionOf) (Guarded sessionOf seedSafe) y y') :
    (∀ s f f', y.service.files s = some f → y'.service.files s = some f' → f.state = f'.state →
      f.revision ≤ f'.revision) ∧
    (∀ state, (y.service.states state).removed = true → ∀ w ∈ y'.service.log, w.state = state →
      w ∈ y.service.log ∨ ∃ done, y.service.phase = .writing w done) ∧
    ∀ session state done, y.service.phase = .clearing session state done (.ok ()) →
      ∀ f, y'.service.files session = some f → f.state ≠ state := by
  have ho : Ordered sessionOf y :=
    h.invariant (fun _ => ordered_started) (fun _ _ _ hi hc hs => hi.step hc hs)
  refine ⟨fun s f f' => run_files ho hrun, fun state hremoved w => run_removed ho hrun hremoved, ?_⟩
  intro session state done hphase f
  exact run_deleted ho hrun hphase

end

/-- The state of the writer in which a seed may fail. -/
def isSeeding : Phase S → Bool
  | .seeding _ _ => true
  | _ => false

theorem guarded_of_not_seeding (sessionOf : ℕ → S) (y : System S) (op : Op S)
    (h : isSeeding y.service.phase = false) : Guarded sessionOf seedSafe y op := by
  have hany := guarded_any sessionOf y op
  cases op with
  | execute answers =>
    simp only [Guarded] at hany ⊢
    rcases hphase : y.service.phase
    case seeding => simp [hphase, isSeeding] at h
    all_goals rwa [hphase] at hany
  | _ => exact hany

def firstWrite : List (Op ℕ) :=
  [.number 0 1 [1] none .critical, .submit ⟨0, 1, 1, [1], none, 0, .critical⟩, .take,
    .execute ⟨none, .ok, true⟩, .execute ⟨none, .ok, true⟩]

def secondWrite : List (Op ℕ) :=
  [.number 0 1 [2] none .metadata, .submit ⟨0, 1, 2, [2], none, 0, .metadata⟩, .finish, .take,
    .execute ⟨none, .ok, true⟩, .execute ⟨none, .ok, true⟩]

theorem reach_in_order_two : ∃ y y' : System ℕ, ∃ f f',
    Reach (System.step id) (Started id) (Guarded id seedSafe) y ∧
      Run (System.step id) (Guarded id seedSafe) y y' ∧
      y.service.files 0 = some f ∧ y'.service.files 0 = some f' ∧ f'.manifest = [2] ∧
      f.revision ≤ f'.revision := by
  have hstart : Reach (System.step id) (Started id) (fun y _ => isSeeding y.service.phase = false)
      (.start : System ℕ) := .init (started_start id)
  obtain ⟨y, y', f, f', hreach, hrun, hf, hf', hstate, hnew⟩ : ∃ y y' f f',
      Reach (System.step id) (Started id) (fun y _ => isSeeding y.service.phase = false) y ∧
      Run (System.step id) (fun y _ => isSeeding y.service.phase = false) y y' ∧
      y.service.files 0 = some f ∧ y'.service.files 0 = some f' ∧ f.state = f'.state ∧
      f'.manifest = [2] :=
    ⟨_, _, _, _, hstart.follow firstWrite rfl, run_follow secondWrite rfl, rfl, rfl, rfl, rfl⟩
  have hreach := hreach.mono (guarded_of_not_seeding id)
  have hrun := hrun.mono (guarded_of_not_seeding id)
  exact ⟨y, y', f, f', hreach, hrun, hf, hf', hnew, (reach_in_order hreach hrun).1 0 f f' hf hf' hstate⟩

/-- An update of the metadata is queued, a critical one is written before it and its seed fails. -/
def seedFails : List (Op ℕ) :=
  [.number 0 1 [1] none .metadata, .submit ⟨0, 1, 1, [1], none, 0, .metadata⟩,
    .number 0 1 [2] (some [7]) .critical, .submit ⟨0, 1, 2, [2], some [7], 0, .critical⟩,
    .take, .execute ⟨none, .ok, true⟩, .execute ⟨none, .ok, true⟩,
    .execute ⟨none, .failed "disk full", true⟩]

/-- The queued update is written next. -/
def olderWritten : List (Op ℕ) :=
  [.finish, .take, .execute ⟨none, .ok, true⟩, .execute ⟨none, .ok, true⟩]

theorem not_reach_in_order : ∃ y y' : System ℕ,
    Reach (System.step id) (Started id) (fun _ _ => True) y ∧
      Run (System.step id) (fun _ _ => True) y y' ∧
      ∃ f f', y.service.files 0 = some f ∧ y'.service.files 0 = some f' ∧ f.state = f'.state ∧
        f'.revision < f.revision :=
  ⟨_, _, (Reach.init (started_start id)).follow seedFails rfl, run_follow olderWritten rfl, _, _, rfl,
    rfl, rfl, by decide⟩

end Paneflow.Host.FileOrder
