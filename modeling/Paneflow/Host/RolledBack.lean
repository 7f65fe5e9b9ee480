import Paneflow.Host.Launches

/-!
# A restart that is taken back

A restart that could not be persisted writes back the whole manifest that it cloned before it was admitted.
What the session should be then is its `shadow`: the manifest with every other update, and without the
restart. `Undisturbed` is the condition under which the two agree: a restart is only taken back on the
record that it cloned, and only when that record was not updated since.
-/

namespace Paneflow.Host.RolledBack

open Paneflow.Host.Persistence Paneflow.Host.Sessions Paneflow.Host.Calls Paneflow.Host.Machine
open Paneflow.Host.Effects Paneflow.Host.Launches Paneflow.Threads Paneflow.Transition

variable {S : Type}

/-! ### Cells -/

/-- The manifest is what it would be without a restart that is not persisted yet. -/
def Agrees (cell : Cell S) : Prop := cell.manifest = cell.shadow

/-- The shadow only changes with an update that is counted. -/
structure Counted (cell cell' : Cell S) : Prop where
  updates : cell.updates ≤ cell'.updates
  shadow : cell'.updates = cell.updates → cell'.shadow = cell.shadow

theorem Counted.refl (cell : Cell S) : Counted cell cell := ⟨le_rfl, fun _ => rfl⟩

theorem counted_write (cell : Cell S) (f : SessionManifest S → SessionManifest S) :
    Counted cell (cell.write f) :=
  ⟨Nat.le_succ _, fun h => absurd h (Nat.succ_ne_self _)⟩

theorem agrees_write {cell : Cell S} (f : SessionManifest S → SessionManifest S)
    (h : Agrees cell) : Agrees (cell.write f) := congrArg f h

variable [LinearOrder S] {host : Identity S} {me : ℕ} {v v' : Records S} {old new : Role S} {id : ℕ}

theorem counted_ingest (host : Identity S) (event : AgentEvent S) (now j : ℕ) :
    Counted (v.cells j) ((v.ingestEvent host event id now).cells j) := by
  refine forall_cells_update .refl rfl ?_ j
  constructor
  · dsimp only
    split_ifs <;> omega
  · dsimp only
    split_ifs <;> simp

theorem agrees_ingest (host : Identity S) (event : AgentEvent S) (now j : ℕ)
    (h : Agrees (v.cells j)) : Agrees ((v.ingestEvent host event id now).cells j) := by
  refine forall_cells_update (R := fun cell cell' => Agrees cell → Agrees cell')
    (fun _ hold => hold) rfl (fun hold => ?_) j h
  unfold Agrees at hold ⊢
  dsimp only
  rcases ingest_spec host (v.cells id).manifest (v.cells id).ledger event now with
    ⟨⟨hframe, hsame, -⟩, -⟩ | ⟨-, -, -, -, haccept⟩
  · rw [hframe, hsame]
    exact hold
  · rw [haccept, ← hold]
    rfl

/-- The shadows of the records after a step. -/
theorem counted (h : Effect host me v old v' new) {j : ℕ} (hj : j ∈ v.allocated) :
    Counted (v.cells j) (v'.cells j) := by
  cases h with
  | admitCreate session fresh operation id _ _ hid _ =>
    have hne : j ≠ id := by
      rintro rfl
      exact hid hj
    change Counted (v.cells j) (Function.update v.cells id _ j)
    rw [Function.update_of_ne hne]
    exact .refl _
  | undoCreate session id operation =>
    unfold Records.eraseCreated
    split_ifs <;> exact .refl _
  | lock => exact forall_cells_update .refl rfl ⟨le_rfl, fun _ => rfl⟩ j
  | admitRestart => exact forall_cells_update .refl rfl ⟨le_rfl, fun _ => rfl⟩ j
  | rollBack => exact forall_cells_update .refl rfl ⟨le_rfl, fun _ => rfl⟩ j
  | clear restart ledger id =>
    rw [cells_clearReceipts]
    dsimp only
    split_ifs
    · exact ⟨Nat.le_succ _, fun h => absurd h (Nat.succ_ne_self _)⟩
    · exact ⟨Nat.le_succ _, fun h => absurd h (Nat.succ_ne_self _)⟩
    · exact ⟨le_rfl, fun _ => rfl⟩
    · exact .refl _
  | unlock => exact forall_cells_update .refl rfl ⟨le_rfl, fun _ => rfl⟩ j
  | commitLaunch => exact forall_cells_update .refl rfl (counted_write ..) j
  | failLaunch =>
    unfold Records.failLaunch
    dsimp only
    split_ifs
    · exact forall_cells_update .refl rfl (counted_write ..) j
    · exact .refl _
  | stopCommit => exact forall_cells_update .refl rfl (counted_write ..) j
  | mark => exact forall_cells_update .refl rfl ⟨le_rfl, fun _ => rfl⟩ j
  | commit id expected update now v' hcommit =>
    unfold Records.commit at hcommit
    split_ifs at hcommit
    cases hcommit
    exact forall_cells_update .refl rfl (counted_write ..) j
  | ingest event id now => exact counted_ingest host event now j
  | _ => exact .refl _

/-- What agrees with its shadow still does after a step, unless a restart was admitted or taken back. -/
theorem agrees (h : Effect host me v old v' new) {j : ℕ}
    (hagrees : Agrees (v.cells j)) : Agrees (v'.cells j) ∨
      (∃ restart ledger record, old = .readmitting restart ledger ∧
        new = .relaunching restart ledger j ∧ v.table.get? restart.session = some record ∧ record.launch = none ∧ record.id = j) ∨
      ∃ restart ledger id record launch, old = .rollingBack restart ledger id ∧
        v.launchOf restart.session restart.operation = some (record, launch) ∧ record.id = j := by
  -- a step that writes one cell, and keeps its agreement
  have hkeep : ∀ {k c}, v'.cells = Function.update v.cells k c →
      (Agrees (v.cells k) → Agrees c) → Agrees (v'.cells j) := fun hcells hc =>
    forall_cells_update (R := fun cell cell' => Agrees cell → Agrees cell') (fun _ h => h) hcells hc
      j hagrees
  cases h with
  | admitCreate session fresh operation id =>
    exact .inl (hkeep rfl fun _ => rfl)
  | undoCreate session id operation =>
    refine .inl ?_
    unfold Records.eraseCreated
    split_ifs <;> exact hagrees
  | lock => exact .inl (hkeep rfl fun h => h)
  | admitRestart restart ledger now record hget hnone =>
    by_cases hid : record.id = j
    · subst hid
      exact .inr (.inl ⟨restart, ledger, record, rfl, rfl, hget, hnone, rfl⟩)
    · refine .inl ?_
      rw [cells_update (v := v) rfl, if_neg (Ne.symm hid)]
      exact hagrees
  | rollBack restart ledger id record launch hlaunch =>
    by_cases hid : record.id = j
    · exact .inr (.inr ⟨restart, ledger, id, record, launch, rfl, hlaunch, hid⟩)
    · refine .inl ?_
      rw [cells_update (v := v) rfl, if_neg (Ne.symm hid)]
      exact hagrees
  | clear restart ledger id =>
    refine .inl ?_
    rw [cells_clearReceipts]
    dsimp only
    split_ifs
    · rfl
    · rfl
    · exact hagrees
    · exact hagrees
  | unlock => exact .inl (hkeep rfl fun h => h)
  | commitLaunch => exact .inl (hkeep rfl (agrees_write _))
  | failLaunch =>
    refine .inl ?_
    revert hkeep
    unfold Records.failLaunch
    dsimp only
    split_ifs
    · intro hkeep
      exact hkeep rfl (agrees_write _)
    · intro
      exact hagrees
  | stopCommit => exact .inl (hkeep rfl (agrees_write _))
  | mark => exact .inl (hkeep rfl fun h => h)
  | commit id expected update now v' hcommit =>
    unfold Records.commit at hcommit
    split_ifs at hcommit
    cases hcommit
    exact .inl (hkeep rfl (agrees_write _))
  | ingest event id now => exact .inl (agrees_ingest host event now j hagrees)
  | _ => exact .inl hagrees

/-! ### Runs -/

/-- A restart is taken back only on the record that it cloned, when it was not updated since. -/
def Undisturbed (_ : ℕ) (_ : Input S) (sh : Shared S) : Call S → Prop
  | .rollingBack restart _ id => id = restart.cloned ∧ (sh.cells id).updates = restart.seen
  | _ => True

instance (i : ℕ) (input : Input S) (sh : Shared S) (call : Call S) :
    Decidable (Undisturbed i input sh call) := by
  apply @Call.casesOn S (fun call => Decidable (Undisturbed i input sh call)) call
  all_goals
    intros
    dsimp only [Undisturbed]
    infer_instance

/-- `Undisturbed` for roles. -/
def Restores (v : Records S) : Role S → Prop
  | .rollingBack restart _ id => id = restart.cloned ∧ (v.cells id).updates = restart.seen
  | _ => True

theorem restores_of_undisturbed {i : ℕ} {input : Input S} {sh : Shared S} {call : Call S}
    (h : Undisturbed i input sh call) : Restores sh.toRecords (role call) := by
  cases call with
  | rollingBack restart ledger id => exact h
  | numbering id cls next => cases next <;> trivial
  | submitting record next => cases next <;> trivial
  | waiting ticket id next => cases next <;> trivial
  | _ => trivial

/-- The clone of a restart is the shadow of its record, as long as that was not updated. -/
def Cloned (v : Records S) (restart : Restart S) : Prop :=
  restart.cloned ∈ v.allocated ∧ restart.seen ≤ (v.cells restart.cloned).updates ∧
    ((v.cells restart.cloned).updates = restart.seen →
      restart.prior = (v.cells restart.cloned).shadow)

/-- What a call knows about shadows, by its role. -/
def Shadowed (v : Records S) : Role S → Prop
  | .creating _ id _ => id ∈ v.allocated ∧ Agrees (v.cells id)
  | .launching _ id _ _ => id ∈ v.allocated ∧ Agrees (v.cells id)
  | .cloned restart | .seeded restart _ | .holding restart _ | .readmitting restart _ =>
    Cloned v restart
  | .relaunching restart _ id | .rollingBack restart _ id => id ∈ v.allocated ∧ Cloned v restart
  | _ => True

/-- Every record without a pending launch agrees with its shadow. -/
def AllAgree (v : Records S) : Prop :=
  ∀ s record, v.table.get? s = some record → record.launch = none → Agrees (v.cells record.id)

/-- What the other calls can rely on. -/
structure Tracked (me : ℕ) (v v' : Records S) : Prop where
  allocated : ∀ id ∈ v.allocated, id ∈ v'.allocated
  counted : ∀ id ∈ v.allocated, Counted (v.cells id) (v'.cells id)
  agrees : ∀ s operation id generation, v.owner operation ≠ me →
    launchAt v s operation = some (id, generation) → Agrees (v.cells id) → Agrees (v'.cells id)

theorem tracked (hl : Lawful host v) (hp : Pending me v old) (h : Effect host me v old v' new) :
    Tracked me v v' := by
  refine ⟨fun id => allocated_mono h, fun id => counted h, ?_⟩
  intro s operation id generation howner hlaunch hagrees
  obtain ⟨record, launch, hof, rfl, -⟩ := launchOf_of_launchAt hlaunch
  obtain ⟨hget, hpending, rfl⟩ := launchOf_eq_some hof
  have hs := (hl.ids s record hget).2
  rcases agrees h hagrees with hnew | ⟨restart, ledger, record', rfl, -, hget', hnone, hid⟩ |
    ⟨restart, ledger, id', record', launch', rfl, hof', hid⟩
  · exact hnew
  · -- the admitted restart found no launch pending
    have hs' := (hl.ids _ record' hget').2
    rw [hid, hs] at hs'
    subst hs'
    cases hget.symm.trans hget'
    cases hnone.symm.trans hpending
  · -- the launch that is taken back is the caller's own
    obtain ⟨hget', hpending', hop⟩ := launchOf_eq_some hof'
    have hs' := (hl.ids _ record' hget').2
    rw [hid, hs] at hs'
    subst hs'
    cases hget.symm.trans hget'
    cases hpending.symm.trans hpending'
    exact absurd (hop ▸ hp.1.2) howner

theorem Cloned.tracked {restart : Restart S} (h : Cloned v restart) (ht : Tracked me v v') :
    Cloned v' restart := by
  obtain ⟨hmem, hseen, hprior⟩ := h
  have hc := ht.counted _ hmem
  refine ⟨ht.allocated _ hmem, hseen.trans hc.updates, fun heq => ?_⟩
  have hsame : (v'.cells restart.cloned).updates = (v.cells restart.cloned).updates :=
    le_antisymm (heq ▸ hseen) hc.updates
  rw [hc.shadow hsame]
  exact hprior (hsame.symm.trans heq)

theorem Shadowed.tracked {me' : ℕ} (hne : me' ≠ me) (hp : Pending me v old) (h : Shadowed v old)
    (ht : Tracked me' v v') : Shadowed v' old := by
  cases old with
  | creating session id operation =>
    exact ⟨ht.allocated id h.1, ht.agrees session operation id 1 (by rw [hp.1.2]; exact hne.symm)
      hp.2 h.2⟩
  | launching session id generation operation =>
    exact ⟨ht.allocated id h.1, ht.agrees session operation id generation
      (by rw [hp.1.2]; exact hne.symm) hp.2 h.2⟩
  | cloned restart => exact Cloned.tracked h ht
  | seeded restart ledger => exact Cloned.tracked h ht
  | holding restart ledger => exact Cloned.tracked h ht
  | readmitting restart ledger => exact Cloned.tracked h ht
  | relaunching restart ledger id => exact ⟨ht.allocated id h.1, h.2.tracked ht⟩
  | rollingBack restart ledger id => exact ⟨ht.allocated id h.1, h.2.tracked ht⟩
  | _ => trivial

theorem shadowed (hl : Lawful host v) (hp : Pending me v old) (hs : Shadowed v old)
    (ha : AllAgree v) (h : Effect host me v old v' new) : Shadowed v' new := by
  have ht := tracked hl hp h
  cases h with
  | quiet hfollows =>
    cases hfollows with
    | same => exact hs
    | seeded restart record => exact hs
    | prepared restart ledger => exact hs
    | created session id operation => exact hs
    | failed restart ledger id => exact hs
    | _ => trivial
  | admitCreate session fresh operation id =>
    refine ⟨List.mem_cons_self, ?_⟩
    change Agrees (Function.update v.cells id _ id)
    rw [Function.update_self]
    rfl
  | clone session record cwd hget hnone =>
    exact ⟨(hl.ids session record hget).1, le_rfl, fun _ => ha session record hget hnone⟩
  | lock restart ledger => exact Cloned.tracked hs ht
  | admitRestart restart ledger now record hget =>
    exact ⟨(hl.ids _ record hget).1, Cloned.tracked hs ht⟩
  | clear restart ledger id =>
    refine ⟨hs.1, ?_⟩
    rw [cells_clearReceipts, if_pos rfl]
    rfl
  | _ => trivial

/-- Where a record without a pending launch comes from: it had none before, or the caller settled it. -/
theorem get?_settled (h : Effect host me v old v' new) {s : S} {record' : SessionRecord}
    (hget : v'.table.get? s = some record') (hnone : record'.launch = none) :
    (∃ record, v.table.get? s = some record ∧ record.launch = none ∧ record.id = record'.id) ∨
      (∃ id generation operation record launch, old = .launching s id generation operation ∧
        v.launchOf s operation = some (record, launch) ∧ record.id = record'.id) ∨
      ∃ restart ledger id record launch, old = .rollingBack restart ledger id ∧
        restart.session = s ∧ v.launchOf s restart.operation = some (record, launch) ∧
        record.id = record'.id ∧ v' = v.rollBack restart record := by
  have hsame : v'.table = v.table → ∃ record, v.table.get? s = some record ∧
      record.launch = none ∧ record.id = record'.id :=
    fun htable => ⟨record', htable ▸ hget, hnone, rfl⟩
  -- a step that writes the record of one session
  have hset : ∀ {session new}, v'.table = v.table.insert session new →
      s = session ∧ new = record' ∨
        ∃ record, v.table.get? s = some record ∧ record.launch = none ∧ record.id = record'.id := by
    intro session new htable
    rw [htable, OrdMap.get?_insert] at hget
    split_ifs at hget with hs
    · cases hget
      exact .inl ⟨hs, rfl⟩
    · exact .inr ⟨record', hget, hnone, rfl⟩
  cases h with
  | admitCreate session fresh operation id =>
    rcases hset rfl with ⟨-, rfl⟩ | hold
    · cases hnone
    · exact .inl hold
  | undoCreate session id operation =>
    refine .inl ?_
    revert hget hsame
    unfold Records.eraseCreated
    split_ifs
    · intro hget _
      dsimp only at hget
      rw [OrdMap.get?_erase] at hget
      split_ifs at hget
      exact ⟨record', hget, hnone, rfl⟩
    · intro _ hsame
      exact hsame rfl
  | admitRestart restart ledger now record =>
    rcases hset rfl with ⟨-, rfl⟩ | hold
    · cases hnone
    · exact .inl hold
  | rollBack restart ledger id record launch hlaunch =>
    rcases hset rfl with ⟨rfl, rfl⟩ | hold
    · exact .inr (.inr ⟨restart, ledger, id, record, launch, rfl, rfl, hlaunch, rfl, rfl⟩)
    · exact .inl hold
  | commitLaunch session id generation operation record launch runtime name now hlaunch =>
    rcases hset rfl with ⟨rfl, rfl⟩ | hold
    · exact .inr (.inl ⟨id, generation, operation, record, launch, rfl, hlaunch, rfl⟩)
    · exact .inl hold
  | failLaunch session id generation operation record launch reason now hlaunch =>
    have htable : (v.failLaunch session record launch reason now).table =
        v.table.insert session { record with launch := none } := by
      unfold Records.failLaunch
      dsimp only
      split_ifs <;> rfl
    rcases hset htable with ⟨rfl, rfl⟩ | hold
    · exact .inr (.inl ⟨id, generation, operation, record, launch, rfl, hlaunch, rfl⟩)
    · exact .inl hold
  | annotate session record new hrecord hannotates =>
    rcases hset rfl with ⟨rfl, rfl⟩ | hold
    · refine .inl ⟨record, hrecord, ?_, hannotates.id.symm⟩
      have := hannotates.launch
      rw [hnone] at this
      simpa using this.symm
    · exact .inl hold
  | drop dropped =>
    rw [get?_drop] at hget
    split_ifs at hget
    exact .inl ⟨record', hget, hnone, rfl⟩
  | commit id expected update now v' hcommit =>
    unfold Records.commit at hcommit
    split_ifs at hcommit
    cases hcommit
    exact .inl (hsame rfl)
  | _ => exact .inl (hsame rfl)

theorem allAgree (hl : Lawful host v) (hp : Pending me v old) (hs : Shadowed v old)
    (hr : Restores v old) (ha : AllAgree v) (h : Effect host me v old v' new) : AllAgree v' := by
  intro s record' hget' hnone'
  rcases get?_settled h hget' hnone' with ⟨record, hget, hnone, hid⟩ |
    ⟨id, generation, operation, record, launch, rfl, hlaunch, hid⟩ |
    ⟨restart, ledger, id, record, launch, rfl, rfl, hlaunch, hid, rfl⟩
  · have hp' := pending hl hp h
    rw [← hid]
    rcases agrees h (ha s record hget hnone) with hnew | ⟨restart, ledger, r, -, rfl, hr, -, hrid⟩ |
      ⟨restart, ledger, id, r, launch, -, hlaunch, hrid⟩
    · exact hnew
    · -- the admitted restart has its launch pending, so this record cannot be without one
      have hsession := (hl.ids _ r hr).2
      rw [hrid, (hl.ids s record hget).2] at hsession
      subst hsession
      obtain ⟨r', l', hof, -⟩ := launchOf_of_launchAt hp'.2
      obtain ⟨hr', hl', -⟩ := launchOf_eq_some hof
      cases hget'.symm.trans hr'
      cases hnone'.symm.trans hl'
    · obtain ⟨hr, hl', -⟩ := launchOf_eq_some hlaunch
      have hsession := (hl.ids _ r hr).2
      rw [hrid, (hl.ids s record hget).2] at hsession
      subst hsession
      cases hget.symm.trans hr
      cases hnone.symm.trans hl'
  · have hkey := (launchAt_of_launchOf hlaunch).symm.trans hp.2
    obtain ⟨rfl, -⟩ := Prod.mk.inj (Option.some.inj hkey)
    rw [← hid]
    rcases agrees h hs.2 with hnew | ⟨_, _, _, hold, -⟩ | ⟨_, _, _, _, _, hold, -⟩
    · exact hnew
    · cases hold
    · cases hold
  · have hkey := (launchAt_of_launchOf hlaunch).symm.trans hp.2
    obtain ⟨rfl, -⟩ := Prod.mk.inj (Option.some.inj hkey)
    rw [← hid]
    change Agrees (Function.update v.cells record.id _ record.id)
    rw [Function.update_self]
    obtain ⟨hcloned, hseen⟩ := hr
    rw [hcloned] at hseen ⊢
    exact hs.2.2.2 hseen

/-- The invariant of undisturbed runs. -/
abbrev Restored (host : Identity S) (p : Pool (Shared S) (Call S)) : Prop :=
  p.Holds (fun sh => Lawful host sh.toRecords ∧ AllAgree sh.toRecords) fun i sh call =>
    Pending i sh.toRecords (role call) ∧ Shadowed sh.toRecords (role call)

theorem restored_opened {p : Pool (Shared S) (Call S)} (h : Opened host p) : Restored host p := by
  have hsettled := settled_opened h
  constructor
  · refine ⟨hsettled.shared, fun s record hget hnone => ?_⟩
    rw [h.cells]
    rfl
  · intro i
    refine ⟨hsettled.threads i, ?_⟩
    rw [h.threads i]
    trivial

theorem reach_restored {p : Pool (Shared S) (Call S)} (h : Reachable host Undisturbed p) :
    Restored host p := by
  refine Pool.invariant (fun i sh sh' => Kept i sh.toRecords sh'.toRecords ∧
    Tracked i sh.toRecords sh'.toRecords) (fun _ => restored_opened) ?_ ?_ h
  · intro i input sh call sh' call' hinv hassert hcond hstep
    obtain ⟨hl, ha⟩ := hinv
    obtain ⟨hp, hs⟩ := hassert
    have heffect := advance_effect hstep
    refine ⟨⟨hl.effect hp heffect, ?_⟩, ⟨pending hl hp heffect, shadowed hl hp hs ha heffect⟩,
      kept hp heffect, tracked hl hp heffect⟩
    exact allAgree hl hp hs (restores_of_undisturbed hcond) ha heffect
  · intro i j sh sh' call hne _ hassert hkeep
    exact ⟨hassert.1.kept hne hkeep.1, hassert.2.tracked hne hassert.1 hkeep.2⟩

/-- **A restart that is taken back leaves nothing behind**, in every run in which restarts are only taken
back undisturbed: a session without a pending launch is what it would be without the restarts that were
taken back, and taking one back does not fail. -/
theorem reach_rolledBack {p : Pool (Shared S) (Call S)} (h : Reachable host Undisturbed p) :
    (∀ s record, p.shared.table.get? s = some record → record.launch = none →
      p.shared.manifest record.id = (p.shared.cells record.id).shadow) ∧
    ∀ i input restart ledger id sh' call', p.threads i = .rollingBack restart ledger id →
      Undisturbed i input p.shared (p.threads i) →
      advance host i input p.shared (p.threads i) = some (sh', call') →
      ∃ record, sh'.table.get? restart.session = some record ∧ record.id = id ∧
        record.launch = none ∧ sh'.manifest id = restart.prior ∧
        sh'.manifest id = (p.shared.cells id).shadow := by
  have hrestored := reach_restored h
  obtain ⟨hl, ha⟩ := hrestored.shared
  refine ⟨ha, ?_⟩
  intro i input restart ledger id sh' call' hcall hcond hstep
  obtain ⟨hp, hs⟩ := hrestored.threads i
  rw [hcall] at hp hs hcond hstep
  obtain ⟨record, launch, hlaunch, rfl, -⟩ := launchOf_of_launchAt hp.2
  have hprior : restart.prior = (p.shared.cells record.id).shadow := by
    obtain ⟨hcloned, hseen⟩ := hcond
    rw [hcloned] at hseen ⊢
    exact hs.2.2.2 hseen
  rcases advance_cases hstep with ⟨hidle, -⟩ | ⟨answers, hstep⟩ | ⟨stage, hstage, -⟩
  · cases hidle
  · simp only [Shared.proceed, Shared.restartRollBack, hlaunch] at hstep
    cases hstep
    have hmanifest : (p.shared.toRecords.rollBack restart record).manifest record.id =
        restart.prior := by
      rw [manifest_update rfl, if_pos rfl]
    refine ⟨{ record with launch := none }, ?_, rfl, rfl, hmanifest, hmanifest.trans hprior⟩
    exact OrdMap.get?_insert.trans (if_pos rfl)
  · cases hstage

/-- The steps of a restart of the adopted session, up to where its write has timed out. -/
def timedOut : List (ℕ × Input ℕ) :=
  [(0, .proceed {}), (0, .proceed {}), (0, .proceed {}), (0, .proceed {}), (0, .proceed {}),
    (0, .proceed {}), (0, .proceed { expired := true })]

theorem reach_rolledBack_adopted :
    ∃ (p : Pool (Shared ℕ) (Call ℕ)) (restart : Restart ℕ), Reachable sampleHost Undisturbed p ∧
      p.threads 0 = .rollingBack restart 0 0 ∧ ∃ sh' call' record,
        advance sampleHost 0 (.proceed {}) p.shared (p.threads 0) = some (sh', call') ∧
        sh'.table.get? 0 = some record ∧ record.launch = none ∧
        (sh'.manifest 0).generation = 1 := by
  obtain ⟨p, restart, sh', call', hp, hcall, hcloned, hstep, hprior⟩ :
      ∃ (p : Pool (Shared ℕ) (Call ℕ)) (restart : Restart ℕ) (sh' : Shared ℕ) (call' : Call ℕ),
        Reachable sampleHost Undisturbed p ∧ p.threads 0 = .rollingBack restart 0 0 ∧
        (0 = restart.cloned ∧ (p.shared.cells 0).updates = restart.seen) ∧
        advance sampleHost 0 (.proceed {}) p.shared (p.threads 0) = some (sh', call') ∧
        restart.session = 0 ∧ restart.prior.generation = 1 :=
    ⟨_, _, _, _, (Reach.init opened_adopted).follow
      ([(0, .restart 0 none), (0, .proceed {})] ++ timedOut) rfl, rfl, ⟨rfl, rfl⟩, rfl, rfl, rfl⟩
  have hcond : Undisturbed 0 (.proceed {}) p.shared (p.threads 0) := by
    rw [hcall]
    exact hcloned
  obtain ⟨record, hget, -, hnone, hmanifest, -⟩ :=
    (reach_rolledBack hp).2 0 _ restart 0 0 sh' call' hcall hcond hstep
  rw [hprior.1] at hget
  exact ⟨p, restart, hp, hcall, sh', call', record, hstep, hget, hnone, hmanifest ▸ hprior.2⟩

/-- A workspace that is set between the clone and the admission is lost when the restart is taken back. -/
theorem not_reach_rolledBack :
    ¬ ∀ p : Pool (Shared ℕ) (Call ℕ), Reachable sampleHost (fun _ _ _ _ => True) p →
      ∀ s record, p.shared.table.get? s = some record → record.launch = none →
        p.shared.manifest record.id = (p.shared.cells record.id).shadow := by
  intro h
  obtain ⟨p, hp, hget, hmanifest, hshadow⟩ : ∃ p : Pool (Shared ℕ) (Call ℕ),
      Reachable sampleHost (fun _ _ _ _ => True) p ∧
        p.shared.table.get? 0 = some (.fresh 0) ∧ (p.shared.manifest 0).workspace = none ∧
        (p.shared.cells 0).shadow.workspace = some "w" :=
    ⟨_, (Reach.init opened_adopted).follow
      ([(0, .restart 0 none), (0, .proceed {}), (1, .update 0 0 (.workspace "w") 0)] ++ timedOut ++
        [(0, .proceed {})]) rfl, rfl, rfl, rfl⟩
  have := h p hp 0 (.fresh 0) hget rfl
  have hworkspace := congrArg SessionManifest.workspace this
  cases hmanifest.symm.trans (hworkspace.trans hshadow)

end Paneflow.Host.RolledBack
