import Paneflow.Host.Effects
import Mathlib.Data.Nat.Basic

/-!
# Generations and pending launches

Who may settle a launch: the call that took its operation number. The pending launches of the other calls
are as they were after every step (`Effect.launches`), so that a launch is still pending when its call comes
to commit it, and the session is still at the generation of the launch.
-/

namespace Paneflow.Host.Launches

open Paneflow.Host.Persistence Paneflow.Host.Sessions Paneflow.Host.Calls Paneflow.Host.Machine
open Paneflow.Host.Effects
open Paneflow.Threads Paneflow.Transition

variable {S : Type} [LinearOrder S] {host : Identity S} {me : ℕ} {v v' : Records S}
  {old new : Role S} {s session : S} {record record' : SessionRecord} {launch : PendingLaunch}
  {id ledger operation : ℕ}

/-! ### Pending launches -/

/-- The record and the generation of a pending launch. -/
def launchKey (record : SessionRecord) (operation : ℕ) : Option (ℕ × ℕ) :=
  record.launch.bind fun launch =>
    if launch.operation = operation then some (record.id, launch.generation) else none

def launchAt (v : Records S) (session : S) (operation : ℕ) : Option (ℕ × ℕ) :=
  (v.table.get? session).bind (launchKey · operation)

theorem launchKey_of_none (h : record.launch = none) : launchKey record operation = none := by
  simp [launchKey, h]

theorem launchKey_of_ne (h : record.launch = some launch) (hne : launch.operation ≠ operation) :
    launchKey record operation = none := by
  simp [launchKey, h, hne]

theorem launchKey_annotates (h : Annotates record record') :
    launchKey record' operation = launchKey record operation := by
  obtain ⟨hid, hlaunch, -⟩ := h
  unfold launchKey
  rcases hr : record.launch with _ | launch <;> rcases hr' : record'.launch with _ | launch' <;>
    simp [hr, hr'] at hlaunch ⊢
  simp [hid, hlaunch]

theorem launchAt_of_get? (h : v.table.get? s = some record) :
    launchAt v s operation = launchKey record operation := by
  simp [launchAt, h]

theorem launchAt_setRecord :
    launchAt (v.setRecord session record) s operation =
      if s = session then launchKey record operation else launchAt v s operation := by
  unfold launchAt Records.setRecord
  dsimp only
  rw [OrdMap.get?_insert]
  split_ifs <;> rfl

theorem launchAt_of_launchOf (h : v.launchOf s operation = some (record, launch)) :
    launchAt v s operation = some (record.id, launch.generation) := by
  obtain ⟨hget, hlaunch, hop⟩ := launchOf_eq_some h
  rw [launchAt_of_get? hget]
  simp [launchKey, hlaunch, hop]

theorem launchOf_of_launchAt {generation : ℕ}
    (h : launchAt v s operation = some (id, generation)) :
    ∃ record launch, v.launchOf s operation = some (record, launch) ∧ record.id = id ∧
      launch.generation = generation := by
  obtain ⟨record, hget, h⟩ := Option.bind_eq_some_iff.1 h
  obtain ⟨launch, hlaunch, h⟩ := Option.bind_eq_some_iff.1 h
  split_ifs at h with hop
  cases h
  exact ⟨record, launch, by simp [Records.launchOf, hget, hlaunch, hop], rfl, rfl⟩

/-- Replacing a record keeps the launches that neither the old nor the new one has. -/
theorem launchAt_replace (hget : v.table.get? session = some record)
    (hkey : launchKey record' operation = launchKey record operation) :
    launchAt (v.setRecord session record') s operation = launchAt v s operation := by
  rw [launchAt_setRecord]
  split_ifs with hs
  · rw [hs, launchAt_of_get? hget, hkey]
  · rfl

/-- The call owns the operation number. -/
def Owns (me : ℕ) (v : Records S) (operation : ℕ) : Prop :=
  operation < v.nextOperation ∧ v.owner operation = me

/-- What the other calls can rely on. -/
structure Kept (me : ℕ) (v v' : Records S) : Prop where
  next : v.nextOperation ≤ v'.nextOperation
  owner : ∀ operation < v.nextOperation, v'.owner operation = v.owner operation
  launches : ∀ s operation, operation < v.nextOperation → v.owner operation ≠ me →
    launchAt v' s operation = launchAt v s operation

theorem Kept.refl (me : ℕ) (v : Records S) : Kept me v v :=
  ⟨Nat.le_refl _, fun _ _ => rfl, fun _ _ _ _ => rfl⟩

/-- What a call knows about its pending launch, by its role. -/
def Pending (me : ℕ) (v : Records S) : Role S → Prop
  | .plain => True
  | .admitting _ fresh operation =>
    Owns me v operation ∧ (∀ s, launchAt v s operation = none) ∧ fresh.generation = 1
  | .creating session id operation =>
    Owns me v operation ∧ launchAt v session operation = some (id, 1)
  | .cloned restart | .seeded restart _ | .holding restart _ | .readmitting restart _ =>
    Owns me v restart.operation ∧ ∀ s, launchAt v s restart.operation = none
  | .relaunching restart _ id | .rollingBack restart _ id =>
    Owns me v restart.operation ∧
      launchAt v restart.session restart.operation = some (id, restart.next)
  | .unlocking _ | .ingesting _ => True
  | .launching session id generation operation =>
    Owns me v operation ∧ launchAt v session operation = some (id, generation)

/-- The generation of every pending launch is that of its session. -/
def Matches (v : Records S) : Prop :=
  ∀ s record launch, v.table.get? s = some record → record.launch = some launch →
    launch.operation < v.nextOperation ∧ (v.manifest record.id).generation = launch.generation

/-- The table: names, pending launches and their number. -/
structure Lawful (host : Identity S) (v : Records S) : Prop where
  ids : ∀ s record, v.table.get? s = some record →
    record.id ∈ v.allocated ∧ host.sessionOf record.id = s
  launches : Matches v
  pending : v.pending ≤ maxPendingLaunches

/-! ### What a step keeps -/

theorem Owns.ne {other : ℕ} (h : Owns me v operation) (hother : v.owner other ≠ me) :
    operation ≠ other := by
  rintro rfl
  exact hother h.2

theorem Owns.kept {me' : ℕ} (h : Owns me v operation) (hk : Kept me' v v') :
    Owns me v' operation :=
  ⟨Nat.lt_of_lt_of_le h.1 hk.next, (hk.owner _ h.1).trans h.2⟩

theorem Pending.kept {me' : ℕ} (hne : me' ≠ me) (h : Pending me v old) (hk : Kept me' v v') :
    Pending me v' old := by
  have hlaunch : ∀ {s operation}, Owns me v operation →
      launchAt v' s operation = launchAt v s operation := by
    intro s operation hown
    exact hk.launches s operation hown.1 (by rw [hown.2]; exact hne.symm)
  cases old with
  | plain => trivial
  | admitting session fresh operation =>
    obtain ⟨hown, hnone, hfresh⟩ := h
    exact ⟨hown.kept hk, fun s => (hlaunch hown).trans (hnone s), hfresh⟩
  | creating session id operation => exact ⟨h.1.kept hk, (hlaunch h.1).trans h.2⟩
  | cloned restart => exact ⟨h.1.kept hk, fun s => (hlaunch h.1).trans (h.2 s)⟩
  | seeded restart ledger => exact ⟨h.1.kept hk, fun s => (hlaunch h.1).trans (h.2 s)⟩
  | holding restart ledger => exact ⟨h.1.kept hk, fun s => (hlaunch h.1).trans (h.2 s)⟩
  | readmitting restart ledger => exact ⟨h.1.kept hk, fun s => (hlaunch h.1).trans (h.2 s)⟩
  | relaunching restart ledger id => exact ⟨h.1.kept hk, (hlaunch h.1).trans h.2⟩
  | rollingBack restart ledger id => exact ⟨h.1.kept hk, (hlaunch h.1).trans h.2⟩
  | unlocking ledger => trivial
  | ingesting id => trivial
  | launching session id generation operation => exact ⟨h.1.kept hk, (hlaunch h.1).trans h.2⟩

/-- A step that leaves the operation numbers alone, and touches one launch at most, which is its own. -/
theorem Kept.of_own (hnext : v'.nextOperation = v.nextOperation) (howner : v'.owner = v.owner)
    (h : ∀ s operation, v.owner operation ≠ me → launchAt v' s operation = launchAt v s operation) :
    Kept me v v' :=
  ⟨hnext.ge, fun _ _ => by rw [howner], fun s operation _ hne => h s operation hne⟩

theorem Kept.takeOperation (me : ℕ) (v : Records S) : Kept me v (v.takeOperation me) :=
  ⟨Nat.le_succ _, fun _ hlt => Function.update_of_ne hlt.ne _ _, fun _ _ _ _ => rfl⟩

theorem get?_drop {dropped : List S} :
    (v.drop dropped).table.get? s = if s ∈ dropped then none else v.table.get? s := by
  have : ∀ (dropped : List S) (table : OrdMap S SessionRecord),
      (dropped.foldl OrdMap.erase table).get? s =
        if s ∈ dropped then none else table.get? s := by
    intro dropped
    induction dropped with
    | nil => intro table; simp
    | cons t dropped ih =>
      intro table
      rw [List.foldl_cons, ih, OrdMap.get?_erase]
      by_cases hs : s ∈ dropped <;> by_cases ht : s = t <;> simp [hs, ht]
  exact this dropped v.table

theorem launchAt_drop {dropped : List S}
    (h : ∀ s ∈ dropped, ∃ record, v.table.get? s = some record ∧ record.launch = none) :
    launchAt (v.drop dropped) s operation = launchAt v s operation := by
  unfold launchAt
  rw [get?_drop]
  split_ifs with hs
  · obtain ⟨record, hrecord, hnone⟩ := h s hs
    simp [hrecord, launchKey_of_none hnone]
  · rfl

/-- The settled launch is the only one that the record had. -/
theorem launchAt_settle (h : v.launchOf session operation = some (record, launch))
    (hnone : record'.launch = none) {other : ℕ} (hother : operation ≠ other) :
    launchAt (v.setRecord session record') s other = launchAt v s other := by
  obtain ⟨hget, hlaunch, rfl⟩ := launchOf_eq_some h
  exact launchAt_replace hget
    ((launchKey_of_none hnone).trans (launchKey_of_ne hlaunch hother).symm)

/-- The next operation number is not used yet. -/
theorem launchAt_unused (hl : Lawful host v) :
    launchAt (v.takeOperation me) s v.nextOperation = none := by
  unfold launchAt launchKey Records.takeOperation
  dsimp only
  rcases hget : v.table.get? s with _ | record
  · rfl
  · rcases hlaunch : record.launch with _ | launch
    · simp [hlaunch]
    · have := (hl.launches s record launch hget hlaunch).1
      simp [hlaunch, this.ne]

theorem kept (hp : Pending me v old) (h : Effect host me v old v' new) : Kept me v v' := by
  cases h with
  | quiet _ => exact .refl me v
  | operate => exact .takeOperation me v
  | create => exact .takeOperation me v
  | clone => exact .takeOperation me v
  | admitCreate session fresh operation id hnone _ _ _ =>
    refine .of_own rfl rfl fun s other hne => ?_
    refine (launchAt_setRecord (v := _)).trans ?_
    split_ifs with hs
    · rw [launchKey_of_ne rfl (hp.1.ne hne), hs]
      simp [launchAt, hnone]
    · rfl
  | undoCreate session id operation =>
    refine .of_own ?_ ?_ fun s other hne => ?_
    · unfold Records.eraseCreated
      split_ifs <;> rfl
    · unfold Records.eraseCreated
      split_ifs <;> rfl
    · unfold Records.eraseCreated
      split_ifs with hsome
      · obtain ⟨⟨record, launch⟩, hlaunch⟩ := Option.isSome_iff_exists.1 hsome
        obtain ⟨hget, hlaunch, hop⟩ := launchOf_eq_some hlaunch
        unfold launchAt
        dsimp only
        rw [OrdMap.get?_erase]
        split_ifs with hs
        · rw [hs, hget]
          exact (launchKey_of_ne hlaunch (hop ▸ hp.1.ne hne)).symm
        · rfl
      · rfl
  | lock => exact .of_own rfl rfl fun _ _ _ => rfl
  | admitRestart restart ledger now record hget hnone _ _ =>
    refine .of_own rfl rfl fun s other hne => ?_
    exact launchAt_replace (v := v.setCell _ _) hget
      ((launchKey_of_ne rfl (hp.1.ne hne)).trans (launchKey_of_none hnone).symm)
  | rollBack restart ledger id record launch hlaunch =>
    exact .of_own rfl rfl fun s other hne => launchAt_settle hlaunch rfl (hp.1.ne hne)
  | clear => exact .of_own rfl rfl fun _ _ _ => rfl
  | unlock => exact .of_own rfl rfl fun _ _ _ => rfl
  | commitLaunch session id generation operation record launch runtime name now hlaunch =>
    exact .of_own rfl rfl fun s other hne =>
      launchAt_settle (v := v.setCell _ _) hlaunch rfl (hp.1.ne hne)
  | failLaunch session id generation operation record launch reason now hlaunch =>
    unfold Records.failLaunch
    dsimp only
    split_ifs <;>
      exact .of_own rfl rfl fun s other hne => launchAt_settle hlaunch rfl (hp.1.ne hne)
  | annotate session record record' hget hsame =>
    exact .of_own rfl rfl fun s other _ => launchAt_replace hget (launchKey_annotates hsame)
  | stopCommit => exact .of_own rfl rfl fun _ _ _ => rfl
  | drop dropped hdropped => exact .of_own rfl rfl fun _ _ _ => launchAt_drop hdropped
  | mark => exact .of_own rfl rfl fun _ _ _ => rfl
  | commit id expected update now v' hcommit =>
    unfold Records.commit at hcommit
    split_ifs at hcommit
    cases hcommit
    exact .of_own rfl rfl fun _ _ _ => rfl
  | ingest => exact .of_own rfl rfl fun _ _ _ => rfl

/-- Where the call stands with its launch after a step of its own. -/
theorem pending (hl : Lawful host v) (hp : Pending me v old)
    (h : Effect host me v old v' new) : Pending me v' new := by
  have hk := kept hp h
  cases h with
  | quiet hfollows =>
    cases hfollows with
    | same => exact hp
    | seeded restart record => exact hp
    | prepared restart ledger => exact hp
    | created session id operation => exact hp
    | failed restart ledger id => exact hp
    | _ => trivial
  | operate => trivial
  | create request now =>
    refine ⟨⟨Nat.lt_succ_self _, Function.update_self ..⟩, fun s => ?_, rfl⟩
    exact launchAt_unused hl
  | clone session record cwd hget hnone =>
    refine ⟨⟨Nat.lt_succ_self _, Function.update_self ..⟩, fun s => ?_⟩
    exact launchAt_unused hl
  | admitCreate session fresh operation id hnone _ _ _ =>
    refine ⟨hp.1.kept hk, ?_⟩
    refine (launchAt_setRecord (v := _)).trans ?_
    simp [launchKey, SessionRecord.fresh]
  | undoCreate => trivial
  | lock restart ledger hholder => exact ⟨hp.1.kept hk, hp.2⟩
  | admitRestart restart ledger now record hget hnone _ _ =>
    refine ⟨hp.1.kept hk, ?_⟩
    refine (launchAt_setRecord (v := _)).trans ?_
    simp [launchKey]
  | clear restart ledger id => exact ⟨hp.1.kept hk, hp.2⟩
  | _ => trivial

/-! ### Cells -/

theorem cells_update {c : Cell S} {j : ℕ} (hcells : v'.cells = Function.update v.cells id c) :
    v'.cells j = if j = id then c else v.cells j := by
  rw [hcells, Function.update_apply]

/-- A relation between the cells before and after a step that writes one cell. -/
theorem forall_cells_update {R : Cell S → Cell S → Prop} (hrefl : ∀ cell, R cell cell) {c : Cell S}
    (hcells : v'.cells = Function.update v.cells id c) (h : R (v.cells id) c) (j : ℕ) :
    R (v.cells j) (v'.cells j) := by
  rw [cells_update hcells]
  split_ifs with hj
  · rw [hj]
    exact h
  · exact hrefl _

theorem cells_clearReceipts (v : Records S) (ledger id j : ℕ) :
    (v.clearReceipts ledger id).cells j =
      let cell := if j = ledger then
          { v.cells j with ledger := { (v.cells j).ledger with receipts := [] }, holder := none }
        else v.cells j
      if j = id then { cell with shadow := cell.manifest, updates := cell.updates + 1 } else cell := by
  simp only [Records.clearReceipts, Records.setCell, Function.update_apply]
  by_cases hid : j = id
  · subst hid
    by_cases hledger : j = ledger
    · subst hledger
      simp
    · simp [hledger]
  · by_cases hledger : j = ledger
    · subst hledger
      simp [hid]
    · simp [hid, hledger]

/-- The manifests after a step that writes one cell. -/
theorem manifest_update {c : Cell S} {j : ℕ} (hcells : v'.cells = Function.update v.cells id c) :
    v'.manifest j = if j = id then c.manifest else v.manifest j := by
  unfold Records.manifest
  rw [cells_update hcells]
  split_ifs <;> rfl

theorem generation_update {c : Cell S} {j : ℕ} (hcells : v'.cells = Function.update v.cells id c)
    (h : c.manifest.generation = (v.manifest id).generation) :
    (v'.manifest j).generation = (v.manifest j).generation := by
  rw [manifest_update hcells]
  split_ifs with hj
  · rw [hj, h]
  · rfl

theorem manifest_clearReceipts (v : Records S) (ledger id j : ℕ) :
    (v.clearReceipts ledger id).manifest j = v.manifest j := by
  unfold Records.manifest
  rw [cells_clearReceipts]
  dsimp only
  split_ifs <;> rfl

/-! ### Generations -/

/-- How the generation of a record changes in one step: not at all, by an admitted restart, or by one that is
taken back. -/
theorem generation (h : Effect host me v old v' new) {j : ℕ} (hj : j ∈ v.allocated) :
    (v'.manifest j).generation = (v.manifest j).generation ∨
      (∃ restart ledger, old = .readmitting restart ledger ∧ new = .relaunching restart ledger j ∧
        (v.manifest j).generation = restart.prior.generation ∧
        (v'.manifest j).generation = restart.next) ∨
      ∃ restart ledger id record launch, old = .rollingBack restart ledger id ∧
        v.launchOf restart.session restart.operation = some (record, launch) ∧ record.id = j ∧
        (v'.manifest j).generation = restart.prior.generation := by
  cases h with
  | admitCreate session fresh operation id _ _ hid _ =>
    have hne : j ≠ id := by
      rintro rfl
      exact hid hj
    refine .inl ?_
    rw [manifest_update (v := v) rfl, if_neg hne]
  | undoCreate session id operation =>
    refine .inl ?_
    unfold Records.eraseCreated
    split_ifs <;> rfl
  | lock restart ledger => exact .inl (generation_update rfl rfl)
  | admitRestart restart ledger now record hget hnone hgeneration _ =>
    by_cases hid : j = record.id
    · subst hid
      refine .inr (.inl ⟨restart, ledger, rfl, rfl, hgeneration, ?_⟩)
      rw [manifest_update (v := v) rfl, if_pos rfl]
      rfl
    · refine .inl ?_
      rw [manifest_update (v := v) rfl, if_neg hid]
  | rollBack restart ledger id record launch hlaunch =>
    by_cases hid : j = record.id
    · subst hid
      refine .inr (.inr ⟨restart, ledger, id, record, launch, rfl, hlaunch, rfl, ?_⟩)
      rw [manifest_update (v := v) rfl, if_pos rfl]
    · refine .inl ?_
      rw [manifest_update (v := v) rfl, if_neg hid]
  | clear restart ledger id =>
    exact .inl (congrArg SessionManifest.generation (manifest_clearReceipts ..))
  | unlock ledger => exact .inl (generation_update rfl rfl)
  | commitLaunch => exact .inl (generation_update rfl rfl)
  | failLaunch =>
    refine .inl ?_
    unfold Records.failLaunch
    dsimp only
    split_ifs
    · exact generation_update rfl rfl
    · rfl
  | stopCommit => exact .inl (generation_update rfl rfl)
  | mark => exact .inl (generation_update rfl rfl)
  | commit id expected update now v' hcommit =>
    unfold Records.commit at hcommit
    split_ifs at hcommit
    cases hcommit
    exact .inl (generation_update rfl (SessionManifest.sameCounters_commit _ update now).generation)
  | ingest event id now hholder =>
    exact .inl (generation_update rfl (ingest_generation ..))
  | _ => exact .inl rfl

/-! ### The table -/

/-- What a step can do to the table. -/
inductive TableStep (host : Identity S) (v v' : Records S) (old : Role S) : Prop
  | replace (session : S) (record new : SessionRecord) : v.table.get? session = some record →
    v'.table = v.table.insert session new → new.id = record.id →
    (new.launch.isSome = true → record.launch.isSome = true ∨ v.pending < maxPendingLaunches) →
    v'.allocated = v.allocated → TableStep host v v' old
  | shrink : (∀ s record, v'.table.get? s = some record → v.table.get? s = some record) →
    v'.pending ≤ v.pending → v'.allocated = v.allocated → TableStep host v v' old
  | create (session : S) (fresh : SessionManifest S) (operation id : ℕ) :
    old = .admitting session fresh operation → v.table.get? session = none → id ∉ v.allocated →
    host.sessionOf id = session → v.pending < maxPendingLaunches →
    v' = v.insertCreated session fresh operation id → TableStep host v v' old

theorem TableStep.same (htable : v'.table = v.table) (halloc : v'.allocated = v.allocated) :
    TableStep host v v' old :=
  .shrink (fun s record h => htable ▸ h) (by rw [Records.pending, htable]; exact le_rfl) halloc

theorem pending_erase {table : OrdMap S SessionRecord} :
    { v with table := table.erase s }.pending ≤ { v with table := table }.pending := by
  unfold Records.pending
  dsimp only
  rcases hget : table.get? s with _ | record
  · rw [OrdMap.values_erase_none hget]
  · rw [((OrdMap.values_erase hget).filter _).length_eq, List.filter_cons]
    split_ifs <;> simp

theorem pending_drop {dropped : List S} : (v.drop dropped).pending ≤ v.pending := by
  unfold Records.drop
  have : ∀ (dropped : List S) (table : OrdMap S SessionRecord),
      { v with table := dropped.foldl OrdMap.erase table }.pending ≤
        { v with table := table }.pending := by
    intro dropped
    induction dropped with
    | nil => intro table; exact le_rfl
    | cons s dropped ih => intro table; exact (ih _).trans pending_erase
  exact this dropped v.table

/-- Replacing a record of the table by one with a launch only adds a launch if there was none. -/
theorem pending_insert_of_some (hget : v.table.get? s = some record)
    (htable : v'.table = v.table.insert s record') :
    v'.pending ≤ v.pending + 1 ∧
      ((record'.launch.isSome = true → record.launch.isSome = true) → v'.pending ≤ v.pending) := by
  unfold Records.pending
  rw [htable, ((OrdMap.values_insert_of_some hget).filter _).length_eq,
    ((OrdMap.values_erase hget).filter _).length_eq, List.filter_cons, List.filter_cons]
  split_ifs with h h' h' <;> simp_all
  omega

theorem tableStep (h : Effect host me v old v' new) : TableStep host v v' old := by
  cases h with
  | admitCreate session fresh operation id hnone hpending hid hsession =>
    exact .create session fresh operation id rfl hnone hid hsession hpending rfl
  | undoCreate session id operation =>
    unfold Records.eraseCreated
    split_ifs
    · refine .shrink (fun s record hget => ?_) pending_erase rfl
      dsimp only at hget
      rw [OrdMap.get?_erase] at hget
      split_ifs at hget
      exact hget
    · exact .same rfl rfl
  | admitRestart restart ledger now record hrecord hnone hgeneration hpending =>
    exact .replace restart.session record _ hrecord rfl rfl (fun _ => .inr hpending) rfl
  | rollBack restart ledger id record launch hlaunch =>
    exact .replace restart.session record _ (launchOf_eq_some hlaunch).1 rfl rfl (by simp) rfl
  | commitLaunch session id generation operation record launch runtime name now hlaunch =>
    exact .replace session record _ (launchOf_eq_some hlaunch).1 rfl rfl (by simp) rfl
  | failLaunch session id generation operation record launch reason now hlaunch =>
    unfold Records.failLaunch
    dsimp only
    split_ifs <;>
      exact .replace session record _ (launchOf_eq_some hlaunch).1 rfl rfl (by simp) rfl
  | annotate session record record' hrecord hsame =>
    refine .replace session record record' hrecord rfl hsame.1 (fun hsome => .inl ?_) rfl
    have := congrArg Option.isSome hsame.2
    simpa [hsome] using this.symm
  | drop dropped =>
    refine .shrink (fun s record hget => ?_) pending_drop rfl
    rw [get?_drop] at hget
    split_ifs at hget
    exact hget
  | commit id expected update now v' hcommit =>
    unfold Records.commit at hcommit
    split_ifs at hcommit
    cases hcommit
    exact .same rfl rfl
  | _ => exact .same rfl rfl

theorem allocated_mono (h : Effect host me v old v' new) {j : ℕ} (hj : j ∈ v.allocated) :
    j ∈ v'.allocated := by
  cases tableStep h with
  | replace _ _ _ _ _ _ _ halloc => exact halloc ▸ hj
  | shrink _ _ halloc => exact halloc ▸ hj
  | create session fresh operation id _ _ _ _ _ heq =>
    subst heq
    exact List.mem_cons_of_mem _ hj

theorem Lawful.ids_step (hl : Lawful host v) (h : TableStep host v v' old)
    (hget : v'.table.get? s = some record) :
    record.id ∈ v'.allocated ∧ host.sessionOf record.id = s := by
  cases h with
  | replace session record' new hget' htable hid _ halloc =>
    rw [htable, OrdMap.get?_insert] at hget
    rw [halloc]
    split_ifs at hget with hs
    · cases hget
      rw [hid, hs]
      exact hl.ids session record' hget'
    · exact hl.ids s record hget
  | shrink hshrink _ halloc =>
    rw [halloc]
    exact hl.ids s record (hshrink s record hget)
  | create session fresh operation id _ _ _ hsession _ heq =>
    subst heq
    simp only [Records.insertCreated, Records.setRecord, Records.setCell, OrdMap.get?_insert] at hget
    split_ifs at hget with hs
    · cases hget
      exact ⟨List.mem_cons_self, hs ▸ hsession⟩
    · obtain ⟨hmem, hs⟩ := hl.ids s record hget
      exact ⟨List.mem_cons_of_mem _ hmem, hs⟩

theorem Lawful.pending_step (hl : Lawful host v) (h : TableStep host v v' old) :
    v'.pending ≤ maxPendingLaunches := by
  cases h with
  | replace session record new hget htable _ hlaunch _ =>
    obtain ⟨hone, hsame⟩ := pending_insert_of_some hget htable
    by_cases hkeep : new.launch.isSome = true → record.launch.isSome = true
    · exact (hsame hkeep).trans hl.pending
    · obtain ⟨hsome, hnone⟩ := not_forall.1 hkeep
      rcases hlaunch hsome with h | h
      · exact absurd h hnone
      · omega
  | shrink _ hpending _ => exact hpending.trans hl.pending
  | create session fresh operation id _ hnone _ _ hpending heq =>
    subst heq
    have hperm := (OrdMap.values_insert (m := v.table) (k := session)
      (v := { SessionRecord.fresh id with launch := some ⟨operation, 1, false⟩ }) hnone)
    have hlength := (hperm.filter fun record => record.launch.isSome).length_eq
    rw [List.filter_cons_of_pos (by rfl), List.length_cons] at hlength
    exact hlength.le.trans (Nat.succ_le_of_lt hpending)

theorem Matches.keep (h : Matches v) (hnext : v.nextOperation ≤ v'.nextOperation)
    (htable : v'.table = v.table)
    (hgen : ∀ j, (v'.manifest j).generation = (v.manifest j).generation) : Matches v' := by
  intro s record launch hget hlaunch
  rw [htable] at hget
  obtain ⟨hlt, hsame⟩ := h s record launch hget hlaunch
  exact ⟨hlt.trans_le hnext, (hgen _).trans hsame⟩

/-- A step that writes one record, and keeps the generations of the others. -/
theorem Matches.replace (h : Matches v) (hnext : v'.nextOperation = v.nextOperation)
    (htable : v'.table = v.table.insert session record)
    (hgen : ∀ s record, v.table.get? s = some record → s ≠ session →
      (v'.manifest record.id).generation = (v.manifest record.id).generation)
    (hnew : ∀ launch, record.launch = some launch → launch.operation < v.nextOperation ∧
      (v'.manifest record.id).generation = launch.generation) : Matches v' := by
  intro s record' launch hget hlaunch
  rw [htable, OrdMap.get?_insert] at hget
  rw [hnext]
  split_ifs at hget with hs
  · cases hget
    exact hnew launch hlaunch
  · obtain ⟨hlt, hsame⟩ := h s record' launch hget hlaunch
    exact ⟨hlt, (hgen s record' hget hs).trans hsame⟩

theorem Lawful.matches_effect (hl : Lawful host v) (hp : Pending me v old)
    (h : Effect host me v old v' new) : Matches v' := by
  have hm : Matches v := hl.launches
  -- the records of two sessions have different cells
  have hother : ∀ {s session record record'}, v.table.get? s = some record →
      v.table.get? session = some record' → s ≠ session → record.id ≠ record'.id := by
    intro s session record record' hget hget' hne heq
    exact hne ((hl.ids s record hget).2.symm.trans (heq ▸ (hl.ids session record' hget').2))
  cases h with
  | quiet => exact hm
  | operate => exact hm.keep (Nat.le_succ _) rfl fun _ => rfl
  | create => exact hm.keep (Nat.le_succ _) rfl fun _ => rfl
  | clone => exact hm.keep (Nat.le_succ _) rfl fun _ => rfl
  | admitCreate session fresh operation id hnone _ hid _ =>
    refine hm.replace rfl rfl (fun s record hget _ => ?_) fun launch hlaunch => ?_
    · have : record.id ≠ id := fun heq => hid (heq ▸ (hl.ids s record hget).1)
      rw [manifest_update (v := v) rfl, if_neg this]
    · cases hlaunch
      refine ⟨hp.1.1, ?_⟩
      rw [manifest_update (v := v) rfl]
      exact (congrArg SessionManifest.generation (if_pos rfl)).trans hp.2.2
  | undoCreate session id operation =>
    unfold Records.eraseCreated
    split_ifs
    · intro s record launch hget hlaunch
      dsimp only at hget
      rw [OrdMap.get?_erase] at hget
      split_ifs at hget
      exact hm s record launch hget hlaunch
    · exact hm
  | lock => exact hm.keep le_rfl rfl fun _ => generation_update rfl rfl
  | admitRestart restart ledger now record hget hnone _ _ =>
    refine hm.replace rfl rfl (fun s record' hget' hs => ?_) fun launch hlaunch => ?_
    · rw [manifest_update (v := v) rfl, if_neg (hother hget' hget hs)]
    · cases hlaunch
      refine ⟨hp.1.1, ?_⟩
      rw [manifest_update (v := v) rfl, if_pos rfl]
      rfl
  | rollBack restart ledger id record launch hlaunch =>
    refine hm.replace rfl rfl (fun s record' hget' hs => ?_) (by simp)
    rw [manifest_update (v := v) rfl, if_neg (hother hget' (launchOf_eq_some hlaunch).1 hs)]
  | clear restart ledger id =>
    exact hm.keep le_rfl rfl fun j =>
      congrArg SessionManifest.generation (manifest_clearReceipts v ledger id j)
  | unlock => exact hm.keep le_rfl rfl fun _ => generation_update rfl rfl
  | commitLaunch =>
    exact hm.replace rfl rfl (fun _ _ _ _ => generation_update rfl rfl) (by simp)
  | failLaunch =>
    unfold Records.failLaunch
    dsimp only
    split_ifs
    · exact hm.replace rfl rfl (fun _ _ _ _ => generation_update rfl rfl) (by simp)
    · exact hm.replace rfl rfl (fun _ _ _ _ => rfl) (by simp)
  | annotate session record record' hget hsame =>
    refine hm.replace rfl rfl (fun _ _ _ _ => rfl) fun launch' hlaunch' => ?_
    obtain ⟨hid, hkey, -⟩ := hsame
    rw [hlaunch'] at hkey
    obtain ⟨launch, hlaunch, heq⟩ := Option.map_eq_some_iff.1 hkey.symm
    obtain ⟨hop, hgen⟩ := Prod.mk.inj heq
    have := hm session record launch hget hlaunch
    rw [hop, hgen] at this
    rw [hid]
    exact this
  | stopCommit => exact hm.keep le_rfl rfl fun _ => generation_update rfl rfl
  | drop dropped =>
    intro s record launch hget hlaunch
    rw [get?_drop] at hget
    split_ifs at hget
    exact hm s record launch hget hlaunch
  | mark => exact hm.keep le_rfl rfl fun _ => generation_update rfl rfl
  | commit id expected update now v' hcommit =>
    unfold Records.commit at hcommit
    split_ifs at hcommit
    cases hcommit
    exact hm.keep le_rfl rfl fun _ =>
      generation_update rfl (SessionManifest.sameCounters_commit _ update now).generation
  | ingest event id now hholder =>
    exact hm.keep le_rfl rfl fun _ => generation_update rfl (ingest_generation ..)

/-- A step keeps the table lawful. -/
theorem Lawful.effect (hl : Lawful host v) (hp : Pending me v old)
    (h : Effect host me v old v' new) : Lawful host v' :=
  ⟨fun _ _ hget => hl.ids_step (tableStep h) hget, hl.matches_effect hp h,
    hl.pending_step (tableStep h)⟩

/-! ### Runs -/

/-- The table is lawful, and every call knows where its launch stands. -/
abbrev Settled (host : Identity S) (p : Pool (Shared S) (Call S)) : Prop :=
  p.Holds (fun sh => Lawful host sh.toRecords) fun i sh call => Pending i sh.toRecords (role call)

theorem settled_opened {p : Pool (Shared S) (Call S)} (h : Opened host p) : Settled host p := by
  have hnone : ∀ s record, p.shared.table.get? s = some record → record.launch = none := by
    intro s record hget
    rw [(h.records s record hget).1]
    rfl
  constructor
  · constructor
    · intro s record hget
      obtain ⟨-, hmem, hs, -⟩ := h.records s record hget
      exact ⟨hmem, hs⟩
    · intro s record launch hget hlaunch
      cases (hnone s record hget).symm.trans hlaunch
    · unfold Records.pending
      rw [List.filter_eq_nil_iff.2]
      · exact Nat.zero_le _
      · intro record hmem
        obtain ⟨s, hget⟩ := OrdMap.mem_values.1 hmem
        simp [hnone s record hget]
  · intro i
    rw [h.threads i]
    trivial

/-- The rule for the steps of the host: the table stays lawful, and so does what the calls know. -/
theorem settled_own {i : ℕ} {input : Input S} {sh sh' : Shared S} {call call' : Call S}
    (hl : Lawful host sh.toRecords) (hp : Pending i sh.toRecords (role call))
    (h : advance host i input sh call = some (sh', call')) :
    Lawful host sh'.toRecords ∧ Pending i sh'.toRecords (role call') ∧
      Kept i sh.toRecords sh'.toRecords := by
  have heffect := advance_effect h
  exact ⟨hl.effect hp heffect, pending hl hp heffect, kept hp heffect⟩

theorem reach_settled {cond : ℕ → Input S → Shared S → Call S → Prop}
    {p : Pool (Shared S) (Call S)}
    (h : Reach (Pool.step (advance host)) (Opened host) (Pool.Cond cond) p) : Settled host p :=
  Pool.invariant (fun i sh sh' => Kept i sh.toRecords sh'.toRecords) (fun _ => settled_opened)
    (fun _ _ _ _ _ _ hl hp _ hs => settled_own hl hp hs)
    (fun _ _ _ _ _ hne _ hp hk => hp.kept hne hk) h

end Paneflow.Host.Launches
