import Paneflow.Host.Launches

/-!
# Results are applied at their generation

A launch, a stop, a notice of the runtime, a scan and the final output all belong to a generation of their
session, and they arrive long after the lock was released. `reach_generations`: in every run they only change
the session while it is at their generation; the generation grows by one with every admitted restart and
goes back only when the restart that raised it is taken back; and no session has two launches pending, nor
the host more than `maxPendingLaunches`.
-/

namespace Paneflow.Host.Generations

open Paneflow.Host.Persistence Paneflow.Host.Sessions Paneflow.Host.Calls Paneflow.Host.Machine
open Paneflow.Host.Effects Paneflow.Host.Launches Paneflow.Threads Paneflow.Transition

variable {S : Type} [LinearOrder S] {host : Identity S}

/-- The session that a call has a launch pending for. -/
def pendingSession : Role S → Option S
  | .creating session _ _ => some session
  | .relaunching restart _ _ | .rollingBack restart _ _ => some restart.session
  | .launching session _ _ _ => some session
  | _ => none

/-- The generation that the result belongs to which a call is about to apply. -/
def resultGeneration : Call S → Input S → Option ℕ
  | .launching _ _ generation _, _ => some generation
  | .stopped _ _ generation _ _, _ => some generation
  | .completing _ _ generation _, _ => some generation
  | .idle, .update _ generation update _ => Shared.expectedGeneration generation update
  | _, _ => none

/-- How the generation of the record `id` may change in a step of a call. -/
inductive GenerationStep (old new : Role S) (id before after : ℕ) : Prop
  | same : after = before → GenerationStep old new id before after
  | restarted (restart : Restart S) (ledger : ℕ) : old = .readmitting restart ledger →
    new = .relaunching restart ledger id → after = saturatingSucc before →
    GenerationStep old new id before after
  | takenBack (restart : Restart S) (ledger : ℕ) : old = .rollingBack restart ledger id →
    before = saturatingSucc after → after = restart.prior.generation →
    GenerationStep old new id before after

/-- A step changes manifests and records only where the generation is `generation`. -/
structure OnlyAt (generation : ℕ) (v v' : Records S) : Prop where
  manifests : ∀ id, v'.manifest id ≠ v.manifest id → (v.manifest id).generation = generation
  records : ∀ s record, v.table.get? s = some record → v'.table.get? s ≠ some record →
    (v.manifest record.id).generation = generation

section
variable {me : ℕ} {v v' : Records S} {old new : Role S} {generation : ℕ}

theorem OnlyAt.refl (generation : ℕ) (v : Records S) : OnlyAt generation v v :=
  ⟨fun _ h => absurd rfl h, fun _ _ h h' => absurd h h'⟩

/-- A step that writes one cell. -/
theorem OnlyAt.update {id : ℕ} {c : Cell S} (hcells : v'.cells = Function.update v.cells id c)
    (htable : v'.table = v.table) (h : (v.manifest id).generation = generation) :
    OnlyAt generation v v' := by
  constructor
  · intro j hj
    rw [manifest_update hcells] at hj
    split_ifs at hj with heq
    · rw [heq, h]
    · exact absurd rfl hj
  · intro s record hget hget'
    exact absurd (htable ▸ hget) hget'

/-- A step that settles a launch. -/
theorem OnlyAt.settle {session : S} {record record' : SessionRecord}
    (hget : v.table.get? session = some record)
    (hmanifest : ∀ j, j ≠ record.id → v'.manifest j = v.manifest j)
    (htable : v'.table = v.table.insert session record')
    (h : (v.manifest record.id).generation = generation) : OnlyAt generation v v' := by
  constructor
  · intro j hj
    by_cases heq : j = record.id
    · rw [heq, h]
    · exact absurd (hmanifest j heq) hj
  · intro s r hr hr'
    by_cases hs : s = session
    · subst hs
      cases hget.symm.trans hr
      exact h
    · rw [htable, OrdMap.get?_insert, if_neg hs] at hr'
      exact absurd hr hr'

theorem generationStep (hl : Lawful host v) (hp : Pending me v old)
    (h : Effect host me v old v' new) {id : ℕ} (hid : id ∈ v.allocated) :
    GenerationStep old new id (v.manifest id).generation (v'.manifest id).generation := by
  rcases generation h hid with hsame | ⟨restart, ledger, hold, hnew, hbefore, hafter⟩ |
    ⟨restart, ledger, id', record, launch, hold, hlaunch, hrecord, hafter⟩
  · exact .same hsame
  · refine .restarted restart ledger hold hnew ?_
    rw [hafter, hbefore]
    rfl
  · -- the pending launch is the one of this restart
    subst hold
    have hkey := (launchAt_of_launchOf hlaunch).symm.trans hp.2
    obtain ⟨rfl, hnext⟩ := Prod.mk.inj (Option.some.inj hkey)
    obtain ⟨hget, hpending, -⟩ := launchOf_eq_some hlaunch
    have hmatch := (hl.launches _ record launch hget hpending).2
    subst hrecord
    refine .takenBack restart ledger rfl ?_ hafter
    rw [hmatch, hnext, hafter]
    rfl

/-- A launch is only settled while the session is at its generation. -/
theorem launching_onlyAt {session : S} {id operation : ℕ} (hl : Lawful host v)
    (hp : Pending me v (.launching session id generation operation))
    (h : Effect host me v (.launching session id generation operation) v' new) :
    OnlyAt generation v v' := by
  have hat : ∀ {record launch}, v.launchOf session operation = some (record, launch) →
      v.table.get? session = some record ∧ (v.manifest record.id).generation = generation := by
    intro record launch hlaunch
    obtain ⟨hget, hpending, -⟩ := launchOf_eq_some hlaunch
    have hkey := (launchAt_of_launchOf hlaunch).symm.trans hp.2
    obtain ⟨-, hgen⟩ := Prod.mk.inj (Option.some.inj hkey)
    exact ⟨hget, (hl.launches _ record launch hget hpending).2.trans hgen⟩
  cases h with
  | quiet => exact .refl generation v
  | commitLaunch _ _ _ _ record launch runtime name now hlaunch =>
    refine .settle (hat hlaunch).1 (fun j hj => ?_) rfl (hat hlaunch).2
    rw [manifest_update (v := v) rfl, if_neg hj]
  | failLaunch _ _ _ _ record launch reason now hlaunch =>
    unfold Records.failLaunch
    dsimp only
    split_ifs
    · refine .settle (hat hlaunch).1 (fun j hj => ?_) rfl (hat hlaunch).2
      rw [manifest_update (v := v) rfl, if_neg hj]
    · exact .settle (hat hlaunch).1 (fun _ _ => rfl) rfl (hat hlaunch).2

theorem commit_onlyAt {id : ℕ} {update : Update} {now : ℕ}
    (h : v.commit id (some generation) update now = some v') : OnlyAt generation v v' := by
  unfold Records.commit at h
  split_ifs at h with hcond
  cases h
  exact .update rfl rfl hcond.2.1.symm

end

section
variable {i : ℕ} {input : Input S} {sh sh' : Shared S} {call call' : Call S} {generation : ℕ}

theorem result_onlyAt (hl : Lawful host sh.toRecords) (hp : Pending i sh.toRecords (role call))
    (hresult : resultGeneration call input = some generation)
    (h : advance host i input sh call = some (sh', call')) :
    OnlyAt generation sh.toRecords sh'.toRecords := by
  cases call with
  | launching session id g operation =>
    cases hresult
    exact launching_onlyAt hl hp (advance_effect h)
  | stopped session id g report reply =>
    cases hresult
    rcases advance_cases h with ⟨hidle, -⟩ | ⟨answers, h⟩ | ⟨stage, hstage, -⟩
    · cases hidle
    · simp only [Shared.proceed, Shared.stopCommit] at h
      split_ifs at h with hgen <;> cases h
      · exact .update rfl rfl hgen
      · exact .refl generation _
    · cases hstage
  | completing session id g output =>
    cases hresult
    rcases advance_cases h with ⟨hidle, -⟩ | ⟨answers, h⟩ | ⟨stage, hstage, -⟩
    · cases hidle
    · simp only [Shared.proceed, Shared.completeCommit] at h
      split at h
      · rename_i v hv
        cases h
        exact commit_onlyAt hv
      · cases h
        exact .refl generation _
    · cases hstage
  | idle =>
    cases input with
    | update id g update now =>
      simp only [advance, Shared.start, Shared.update] at h
      rw [show Shared.expectedGeneration g update = some generation from hresult] at h
      split at h
      · rename_i v hv
        cases h
        exact commit_onlyAt hv
      · cases h
        exact .refl generation _
    | _ => cases hresult
  | _ => cases hresult

end

/-- A session has one pending launch at most. -/
theorem pending_unique {p : Pool (Shared S) (Call S)} (h : Settled host p) {i j : ℕ} {s : S}
    (hi : pendingSession (role (p.threads i)) = some s)
    (hj : pendingSession (role (p.threads j)) = some s) : i = j := by
  have hkey : ∀ k, pendingSession (role (p.threads k)) = some s → ∃ operation key,
      Owns k p.shared.toRecords operation ∧
        launchAt p.shared.toRecords s operation = some key := by
    intro k hk
    have hp := h.threads k
    revert hk hp
    cases role (p.threads k) with
    | creating session id operation =>
      rintro ⟨⟩ hp
      exact ⟨operation, _, hp⟩
    | relaunching restart ledger id =>
      rintro ⟨⟩ hp
      exact ⟨restart.operation, _, hp⟩
    | rollingBack restart ledger id =>
      rintro ⟨⟩ hp
      exact ⟨restart.operation, _, hp⟩
    | launching session id generation operation =>
      rintro ⟨⟩ hp
      exact ⟨operation, _, hp⟩
    | _ => intro hk; cases hk
  obtain ⟨a, ⟨ida, ga⟩, ⟨-, hai⟩, hla⟩ := hkey i hi
  obtain ⟨b, ⟨idb, gb⟩, ⟨-, hbj⟩, hlb⟩ := hkey j hj
  obtain ⟨ra, la, hra, -⟩ := launchOf_of_launchAt hla
  obtain ⟨rb, lb, hrb, -⟩ := launchOf_of_launchAt hlb
  obtain ⟨hga, hpa, rfl⟩ := launchOf_eq_some hra
  obtain ⟨hgb, hpb, rfl⟩ := launchOf_eq_some hrb
  cases hga.symm.trans hgb
  cases hpa.symm.trans hpb
  exact hai.symm.trans hbj

/-- The steps of a restart of the adopted session, up to where its write times out. -/
def timedOutRestart : List (ℕ × Input ℕ) :=
  [(0, .restart 0 none), (0, .proceed {}), (0, .proceed {}), (0, .proceed {}), (0, .proceed {}),
    (0, .proceed {}), (0, .proceed {}), (0, .proceed {}), (0, .proceed { expired := true })]

end Paneflow.Host.Generations
