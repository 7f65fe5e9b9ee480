import Paneflow.Host.Launches

/-!
# Agent events

The lock of its ledger protects what a session knows about its agent events: the generation, the revision of
the last event and the receipts (`Book`). `bookStep` says how the steps change it. Accepted events have
increasing revisions, and the receipts are those of the last `maxHookReceipts` events of the generation
(`Ordered`, `Receipts`), in every run in which a restart is only admitted on the record that it cloned and
whose ledger it has locked, and only taken back when no event was accepted since the clone (`Unmissed`).
-/

namespace Paneflow.Host.HookEvents

open Paneflow.Host.Persistence Paneflow.Host.Sessions Paneflow.Host.Calls Paneflow.Host.Machine
open Paneflow.Host.Effects Paneflow.Host.Launches Paneflow.Threads Paneflow.Transition

/-- What the lock of a ledger protects; `frames` are the events of the record that were published, the latest
first. -/
structure Book (S : Type) where
  generation : ℕ
  hookRevision : ℕ
  hostInstance : ℕ
  receipts : List (ℕ × ℕ)
  holder : Option ℕ
  frames : List (Frame S)

variable {S : Type}

/-! ### Books -/

section
variable {host : Identity S}

/-- The receipt of an event. -/
def receipt (host : Identity S) (frame : Frame S) : ℕ × ℕ :=
  (host.receiptKey frame.event, frame.revision)

/-- The accepted events of a book: their revisions increase and are not above the revision of the book, and
they were captured in a generation that the session has reached, on this host. -/
structure Ordered (host : Identity S) (b : Book S) : Prop where
  increasing : b.frames.Pairwise fun later earlier => earlier.revision < later.revision
  bounded : ∀ frame ∈ b.frames, frame.revision ≤ b.hookRevision
  captured : ∀ frame ∈ b.frames, frame.event.generation = some frame.generation
  reached : ∀ frame ∈ b.frames, frame.generation ≤ b.generation
  ours : ∀ frame ∈ b.frames, frame.generation = b.generation → b.hostInstance = host.hostInstance

/-- The last events of a generation, the latest first. -/
def recent (b : Book S) (generation : ℕ) : List (Frame S) :=
  (b.frames.filter fun frame => frame.generation = generation).take maxHookReceipts

/-- The receipts are those of the last events of the generation, and they can be told apart. -/
structure Receipts (host : Identity S) (b : Book S) (generation : ℕ) : Prop where
  window : b.receipts = ((recent b generation).map (receipt host)).reverse
  distinct : (b.receipts.map Prod.fst).Nodup

theorem take_succ_window {α : Type} (l : List α) (n : ℕ) :
    (if (l.take (n + 1)).reverse.length ≥ n + 1 then (l.take (n + 1)).reverse.tail
      else (l.take (n + 1)).reverse) = (l.take n).reverse := by
  rw [List.length_reverse, List.length_take]
  split_ifs with h
  · have hlength : min ((min (n + 1) l.length) - 1) (n + 1) = n := by omega
    rw [List.tail_reverse, List.dropLast_eq_take, List.take_take, List.length_take, hlength]
  · rw [List.take_of_length_le (by omega), List.take_of_length_le (by omega)]

theorem Ordered.accept {b : Book S} {frame : Frame S} {receipts : List (ℕ × ℕ)} (h : Ordered host b)
    (hcaptured : frame.event.generation = some frame.generation)
    (hgen : frame.generation = b.generation) (hinst : b.hostInstance = host.hostInstance)
    (hrev : frame.revision = saturatingSucc b.hookRevision) (hlt : b.hookRevision < maxU64) :
    Ordered host { b with
      hookRevision := saturatingSucc b.hookRevision
      receipts := receipts
      frames := frame :: b.frames } := by
  have hsucc : saturatingSucc b.hookRevision = b.hookRevision + 1 := by
    unfold saturatingSucc
    omega
  constructor
  · refine List.pairwise_cons.2 ⟨fun f hf => ?_, h.increasing⟩
    have := h.bounded f hf
    omega
  · intro f hf
    dsimp only
    rcases List.mem_cons.1 hf with rfl | hf
    · exact hrev.le
    · have := h.bounded f hf
      omega
  · intro f hf
    rcases List.mem_cons.1 hf with rfl | hf
    · exact hcaptured
    · exact h.captured f hf
  · intro f hf
    rcases List.mem_cons.1 hf with rfl | hf
    · exact hgen.le
    · exact h.reached f hf
  · intro f _ _
    exact hinst

theorem Receipts.accept {b : Book S} {frame : Frame S} {revision : ℕ}
    (h : Receipts host b b.generation) (hgen : frame.generation = b.generation)
    (hfresh : ∀ held ∈ b.receipts, held.1 ≠ host.receiptKey frame.event) :
    Receipts host { b with
      hookRevision := revision
      receipts := (if b.receipts.length ≥ maxHookReceipts then b.receipts.tail else b.receipts) ++
        [(host.receiptKey frame.event, frame.revision)]
      frames := frame :: b.frames } b.generation := by
  constructor
  · have hrecent : recent { b with
          hookRevision := revision
          receipts := (if b.receipts.length ≥ maxHookReceipts then b.receipts.tail
            else b.receipts) ++ [(host.receiptKey frame.event, frame.revision)]
          frames := frame :: b.frames } b.generation =
        frame :: (b.frames.filter fun frame => frame.generation = b.generation).take 15 := by
      unfold recent
      rw [List.filter_cons_of_pos (by simpa using hgen)]
      rfl
    dsimp only
    rw [hrecent, List.map_cons, List.reverse_cons, h.window]
    refine congrArg (· ++ _) ?_
    unfold recent
    rw [List.map_take, List.map_take]
    exact take_succ_window _ 15
  · dsimp only
    have hsub : ((if b.receipts.length ≥ maxHookReceipts then b.receipts.tail
        else b.receipts).map Prod.fst).Sublist (b.receipts.map Prod.fst) := by
      refine List.Sublist.map _ ?_
      split_ifs
      · exact List.tail_sublist _
      · exact .refl _
    rw [List.map_append, List.nodup_append]
    refine ⟨hsub.nodup h.distinct, by simp, ?_⟩
    intro key hkey key' hkey' heq
    obtain ⟨held, hheld, rfl⟩ := List.mem_map.1 (hsub.subset hkey)
    rw [List.map_singleton, List.mem_singleton] at hkey'
    exact hfresh held hheld (heq.trans hkey')

end

/-! ### Steps -/

/-- The cells that have the same book. -/
structure SameBook (cell cell' : Cell S) : Prop where
  counters : cell.manifest.SameCounters cell'.manifest
  receipts : cell'.ledger.receipts = cell.ledger.receipts
  holder : cell'.holder = cell.holder

theorem SameBook.refl (cell : Cell S) : SameBook cell cell := ⟨⟨rfl, rfl, rfl⟩, rfl, rfl⟩

theorem sameBook_write {f : SessionManifest S → SessionManifest S} (cell : Cell S)
    (h : cell.manifest.SameCounters (f cell.manifest)) : SameBook cell (cell.write f) := ⟨h, rfl, rfl⟩

variable [LinearOrder S] {host : Identity S} {me : ℕ} {v v' : Records S} {old new : Role S} {id : ℕ}

def book (v : Records S) (id : ℕ) : Book S where
  generation := (v.manifest id).generation
  hookRevision := (v.manifest id).hookRevision
  hostInstance := (v.manifest id).hostInstance
  receipts := (v.cells id).ledger.receipts
  holder := (v.cells id).holder
  frames := (v.frames.filter fun entry => entry.1 = id).map Prod.snd

/-- How a step changes the book of the record `j`. -/
inductive BookStep (host : Identity S) (me : ℕ) (v : Records S) (old new : Role S) (j : ℕ)
    (b : Book S) : Book S → Prop
  | same : BookStep host me v old new j b b
  | lock (restart : Restart S) : old = .seeded restart j → new = .holding restart j →
    b.holder = none → BookStep host me v old new j b { b with holder := some me }
  | admitted (restart : Restart S) (ledger : ℕ) (record : SessionRecord) :
    old = .readmitting restart ledger → new = .relaunching restart ledger j →
    v.table.get? restart.session = some record → record.id = j →
    b.generation = restart.prior.generation →
    BookStep host me v old new j b
      { b with generation := restart.next, hostInstance := host.hostInstance }
  | rollBack (restart : Restart S) (ledger k : ℕ) (record : SessionRecord) (launch : PendingLaunch) :
    old = .rollingBack restart ledger k → new = .unlocking ledger →
    v.launchOf restart.session restart.operation = some (record, launch) → record.id = j →
    BookStep host me v old new j b
      { b with
        generation := restart.prior.generation
        hookRevision := restart.prior.hookRevision
        hostInstance := restart.prior.hostInstance }
  | clear (restart : Restart S) (k : ℕ) : old = .relaunching restart j k →
    new = .launching restart.session k restart.next restart.operation →
    BookStep host me v old new j b { b with receipts := [], holder := none }
  | unlock : old = .unlocking j → new = .plain →
    BookStep host me v old new j b { b with holder := none }
  | accept (event : AgentEvent S) (frame : Frame S) : old = .ingesting j → new = .plain →
    b.holder = none → event.generation = some b.generation →
    b.hostInstance = host.hostInstance →
    (∀ held ∈ b.receipts, held.1 ≠ host.receiptKey event) → frame.event = event →
    frame.generation = b.generation → frame.revision = saturatingSucc b.hookRevision →
    BookStep host me v old new j b
      { b with
        hookRevision := saturatingSucc b.hookRevision
        receipts := (if b.receipts.length ≥ maxHookReceipts then b.receipts.tail else b.receipts) ++
          [(host.receiptKey event, saturatingSucc b.hookRevision)]
        frames := frame :: b.frames }

theorem book_eq {j : ℕ} (hframes : v'.frames = v.frames) (h : SameBook (v.cells j) (v'.cells j)) :
    book v' j = book v j := by
  obtain ⟨⟨hgen, hrev, hinst⟩, hreceipts, hholder⟩ := h
  simp only [book, Records.manifest, hgen, hrev, hinst, hreceipts, hholder, hframes]

/-- A step that writes one cell. -/
theorem bookStep_update {j : ℕ} {c : Cell S} (hframes : v'.frames = v.frames)
    (hcells : v'.cells = Function.update v.cells id c)
    (h : j = id → BookStep host me v old new j (book v j)
      ⟨c.manifest.generation, c.manifest.hookRevision, c.manifest.hostInstance, c.ledger.receipts,
        c.holder, (book v j).frames⟩) :
    BookStep host me v old new j (book v j) (book v' j) := by
  have hbook : book v' j = if j = id then
        ⟨c.manifest.generation, c.manifest.hookRevision, c.manifest.hostInstance, c.ledger.receipts,
          c.holder, (book v j).frames⟩
      else book v j := by
    simp only [book, Records.manifest, cells_update hcells, hframes]
    split_ifs <;> rfl
  rw [hbook]
  split_ifs with hj
  · exact h hj
  · exact .same

/-- A step that writes one cell, and keeps its book. -/
theorem bookStep_same {c : Cell S} {j : ℕ} (hframes : v'.frames = v.frames)
    (hcells : v'.cells = Function.update v.cells id c) (h : SameBook (v.cells id) c) :
    BookStep host me v old new j (book v j) (book v' j) := by
  rw [book_eq hframes (forall_cells_update .refl hcells h j)]
  exact .same

theorem bookStep_ingest (event : AgentEvent S) (now : ℕ) {j : ℕ}
    (hholder : (v.cells id).holder = none) :
    BookStep host me v (.ingesting id) .plain j (book v j)
      (book (v.ingestEvent host event id now) j) := by
  by_cases hj : j = id
  · subst hj
    rcases ingest_spec host (v.cells j).manifest (v.cells j).ledger event now with
      ⟨⟨hframe, hsame, hreceipts, -⟩, -⟩ | ⟨-, hgen, hinst, hfresh, haccept⟩
    · have hbook : book (v.ingestEvent host event j now) j = book v j := by
        refine book_eq ?_ ?_
        · simp [Records.ingestEvent, Records.setCell, hframe]
        · refine @forall_cells_update S _ _ _ j _ .refl _ rfl ?_ j
          refine ⟨?_, hreceipts, rfl⟩
          dsimp only
          rw [hsame]
          exact ⟨rfl, rfl, rfl⟩
      rw [hbook]
      exact .same
    · have hbook : book (v.ingestEvent host event j now) j =
          { book v j with
            hookRevision := saturatingSucc (book v j).hookRevision
            receipts := (if (book v j).receipts.length ≥ maxHookReceipts then (book v j).receipts.tail
              else (book v j).receipts) ++
                [(host.receiptKey event, saturatingSucc (book v j).hookRevision)]
            frames := ((v.cells j).manifest.accept host event now).2 :: (book v j).frames } := by
        simp [book, Records.manifest, Records.ingestEvent, Records.setCell, haccept,
          SeedLedger.push, SessionManifest.accept]
      rw [hbook]
      exact .accept event _ rfl rfl hholder hgen hinst hfresh rfl rfl rfl
  · have hbook : book (v.ingestEvent host event id now) j = book v j := by
      have hcell : (v.ingestEvent host event id now).cells j = v.cells j :=
        Function.update_of_ne hj _ _
      have hframes : ((v.ingestEvent host event id now).frames.filter fun entry => entry.1 = j) =
          v.frames.filter fun entry => entry.1 = j := by
        simp only [Records.ingestEvent, Records.setCell, List.filter_append]
        rcases (ingest host (v.cells id).manifest (v.cells id).ledger event now).frame with
          _ | frame
        · rfl
        · simp [Ne.symm hj]
      simp only [book, Records.manifest, hcell, hframes]
    rw [hbook]
    exact .same

/-- **How a step changes a book.** -/
theorem bookStep (h : Effect host me v old v' new) {j : ℕ} (hj : j ∈ v.allocated) :
    BookStep host me v old new j (book v j) (book v' j) := by
  cases h with
  | admitCreate session fresh operation id _ _ hid _ =>
    have hne : j ≠ id := by
      rintro rfl
      exact hid hj
    exact bookStep_update rfl rfl fun heq => absurd heq hne
  | undoCreate session id operation =>
    unfold Records.eraseCreated
    split_ifs <;> exact .same
  | lock restart ledger hholder =>
    refine bookStep_update rfl rfl fun hledger => ?_
    subst hledger
    exact .lock restart rfl rfl hholder
  | admitRestart restart ledger now record hget hnone hgeneration _ =>
    refine bookStep_update rfl rfl fun hid => ?_
    subst hid
    exact .admitted restart ledger record rfl rfl hget rfl hgeneration
  | rollBack restart ledger id record launch hlaunch =>
    refine bookStep_update rfl rfl fun hid => ?_
    subst hid
    exact .rollBack restart ledger id record launch rfl rfl hlaunch rfl
  | clear restart ledger id =>
    by_cases hledger : j = ledger
    · subst hledger
      have hbook : book (v.clearReceipts j id) j =
          { book v j with receipts := [], holder := none } := by
        simp only [book, manifest_clearReceipts, cells_clearReceipts]
        split_ifs <;> rfl
      rw [hbook]
      exact .clear restart id rfl rfl
    · have hbook : book (v.clearReceipts ledger id) j = book v j := by
        simp only [book, manifest_clearReceipts, cells_clearReceipts, if_neg hledger]
        split_ifs <;> rfl
      rw [hbook]
      exact .same
  | unlock ledger =>
    refine bookStep_update rfl rfl fun hledger => ?_
    subst hledger
    exact .unlock rfl rfl
  | commitLaunch => exact bookStep_same rfl rfl (sameBook_write _ ⟨rfl, rfl, rfl⟩)
  | failLaunch =>
    unfold Records.failLaunch
    dsimp only
    split_ifs
    · exact bookStep_same rfl rfl (sameBook_write _ ⟨rfl, rfl, rfl⟩)
    · exact .same
  | stopCommit => exact bookStep_same rfl rfl (sameBook_write _ ⟨rfl, rfl, rfl⟩)
  | mark => exact bookStep_same rfl rfl ⟨⟨rfl, rfl, rfl⟩, rfl, rfl⟩
  | commit id expected update now v' hcommit =>
    unfold Records.commit at hcommit
    split_ifs at hcommit
    cases hcommit
    exact bookStep_same rfl rfl (sameBook_write _ (SessionManifest.sameCounters_commit _ update now))
  | ingest event id now hholder => exact bookStep_ingest event now hholder
  | _ => exact .same

theorem book_lockLedger (v : Records S) (me ledger : ℕ) :
    book (v.lockLedger me ledger) ledger = { book v ledger with holder := some me } := by
  simp [book, Records.manifest, Records.lockLedger, Records.setCell]

theorem book_admitRestart (host : Identity S) (v : Records S) (restart : Restart S)
    (record : SessionRecord) (now : ℕ) :
    book (v.admitRestart host restart record now) record.id =
      { book v record.id with
        generation := restart.next
        hostInstance := host.hostInstance } := by
  simp [book, Records.manifest, Records.admitRestart, Records.setRecord, Records.setCell,
    SessionManifest.restarted]

theorem book_rollBack (v : Records S) (restart : Restart S) (record : SessionRecord) :
    book (v.rollBack restart record) record.id =
      { book v record.id with
        generation := restart.prior.generation
        hookRevision := restart.prior.hookRevision
        hostInstance := restart.prior.hostInstance } := by
  simp [book, Records.manifest, Records.rollBack, Records.setRecord, Records.setCell]

theorem mem_frames (h : Effect host me v old v' new) {entry : ℕ × Frame S}
    (hentry : entry ∈ v'.frames) : entry ∈ v.frames ∨ old = .ingesting entry.1 := by
  cases h with
  | undoCreate session id operation =>
    unfold Records.eraseCreated at hentry
    split_ifs at hentry <;> exact .inl hentry
  | failLaunch =>
    unfold Records.failLaunch at hentry
    dsimp only at hentry
    split_ifs at hentry <;> exact .inl hentry
  | commit id expected update now v' hcommit =>
    unfold Records.commit at hcommit
    split_ifs at hcommit
    cases hcommit
    exact .inl hentry
  | ingest event id now hholder =>
    simp only [Records.ingestEvent, Records.setCell, List.mem_append, Option.mem_toList,
      Option.map_eq_some_iff] at hentry
    rcases hentry with ⟨frame, -, rfl⟩ | hentry
    · exact .inr rfl
    · exact .inl hentry
  | _ => exact .inl hentry

/-! ### Runs -/

/-- A restart is admitted only on the record that it cloned and whose ledger it has locked, and taken back
only when no event was accepted since the clone; the counters do not reach the largest number. -/
def Unmissed (_ : ℕ) (_ : Input S) (sh : Shared S) : Call S → Prop
  | .readmitting restart ledger _ =>
    (∀ record ∈ sh.table.get? restart.session, record.id = ledger ∧ record.id = restart.cloned) ∧
      restart.prior.generation < maxU64
  | .rollingBack restart _ id => (sh.manifest id).hookRevision = restart.prior.hookRevision
  | .ingesting _ id => (sh.manifest id).hookRevision < maxU64
  | _ => True

instance (i : ℕ) (input : Input S) (sh : Shared S) (call : Call S) :
    Decidable (Unmissed i input sh call) := by
  unfold Unmissed
  split <;> infer_instance

/-- `Unmissed` for roles. -/
def Allowed (v : Records S) : Role S → Prop
  | .readmitting restart ledger =>
    (∀ record ∈ v.table.get? restart.session, record.id = ledger ∧ record.id = restart.cloned) ∧
      restart.prior.generation < maxU64
  | .rollingBack restart _ id => (book v id).hookRevision = restart.prior.hookRevision
  | .ingesting id => (book v id).hookRevision < maxU64
  | _ => True

theorem allowed_of_unmissed {i : ℕ} {input : Input S} {sh : Shared S} {call : Call S}
    (h : Unmissed i input sh call) : Allowed sh.toRecords (role call) := by
  cases call with
  | readmitting restart ledger attempts => exact h
  | rollingBack restart ledger id => exact h
  | ingesting event id => exact h
  | numbering id cls next => cases next <;> trivial
  | submitting record next => cases next <;> trivial
  | waiting ticket id next => cases next <;> trivial
  | _ => trivial

/-- The books of all records. -/
structure Filed (host : Identity S) (v : Records S) : Prop where
  frames : ∀ entry ∈ v.frames, entry.1 ∈ v.allocated
  ordered : ∀ id ∈ v.allocated, Ordered host (book v id)
  receipts : ∀ id ∈ v.allocated, (book v id).holder = none →
    Receipts host (book v id) (book v id).generation

/-- The clone of a restart has the host instance of its generation, as long as no event was accepted. -/
structure Cloned (host : Identity S) (v : Records S) (restart : Restart S) : Prop where
  allocated : restart.cloned ∈ v.allocated
  revision : restart.prior.hookRevision ≤ (book v restart.cloned).hookRevision
  ours : (book v restart.cloned).hookRevision = restart.prior.hookRevision →
    ∀ frame ∈ (book v restart.cloned).frames, frame.generation = restart.prior.generation →
      restart.prior.hostInstance = host.hostInstance

/-- The ledger is locked by the call. -/
structure Locked (me : ℕ) (v : Records S) (ledger : ℕ) : Prop where
  allocated : ledger ∈ v.allocated
  holder : (book v ledger).holder = some me

/-- A restart that is admitted, on the record `id`: the receipts are still those of the generation before. -/
structure Admitted (host : Identity S) (me : ℕ) (v : Records S) (restart : Restart S)
    (ledger id : ℕ) : Prop where
  locked : Locked me v ledger
  ledger : id = ledger
  cloned : id = restart.cloned
  generation : (book v id).generation = restart.prior.generation + 1
  reached : ∀ frame ∈ (book v id).frames, frame.generation ≤ restart.prior.generation
  receipts : Receipts host (book v id) restart.prior.generation
  clone : Cloned host v restart

/-- What a call knows about the ledger that it has locked, by its role. -/
def Knows (host : Identity S) (me : ℕ) (v : Records S) : Role S → Prop
  | .cloned restart => Cloned host v restart
  | .seeded restart ledger => ledger ∈ v.allocated ∧ Cloned host v restart
  | .holding restart ledger | .readmitting restart ledger =>
    Locked me v ledger ∧ Receipts host (book v ledger) (book v ledger).generation ∧
      Cloned host v restart
  | .relaunching restart ledger id | .rollingBack restart ledger id =>
    Admitted host me v restart ledger id
  | .unlocking ledger =>
    Locked me v ledger ∧ Receipts host (book v ledger) (book v ledger).generation
  | .ingesting id => id ∈ v.allocated
  | _ => True

/-- What the other calls can rely on. -/
structure Protected (me : ℕ) (v v' : Records S) : Prop where
  allocated : ∀ id ∈ v.allocated, id ∈ v'.allocated
  locked : ∀ id ∈ v.allocated, ∀ j, j ≠ me → (book v id).holder = some j → book v' id = book v id
  revision : ∀ id ∈ v.allocated, (book v id).hookRevision ≤ (book v' id).hookRevision
  frames : ∀ id ∈ v.allocated, (book v' id).hookRevision = (book v id).hookRevision →
    (book v' id).frames = (book v id).frames

theorem Cloned.kept {restart : Restart S} (h : Cloned host v restart) (hk : Protected me v v') :
    Cloned host v' restart := by
  have hrev := hk.revision _ h.allocated
  refine ⟨hk.allocated _ h.allocated, h.revision.trans hrev, fun heq => ?_⟩
  have hsame : (book v' restart.cloned).hookRevision = (book v restart.cloned).hookRevision :=
    le_antisymm (heq ▸ h.revision) hrev
  rw [hk.frames _ h.allocated hsame]
  exact h.ours (hsame.symm.trans heq)

theorem Locked.kept {me' ledger : ℕ} (hne : me' ≠ me) (h : Locked me v ledger)
    (hk : Protected me' v v') : book v' ledger = book v ledger ∧ Locked me v' ledger := by
  have hbook := hk.locked ledger h.allocated me hne.symm h.holder
  exact ⟨hbook, hk.allocated ledger h.allocated, by rw [hbook]; exact h.holder⟩

theorem Admitted.kept {me' ledger : ℕ} {restart : Restart S} (hne : me' ≠ me)
    (h : Admitted host me v restart ledger id) (hk : Protected me' v v') :
    Admitted host me v' restart ledger id := by
  obtain ⟨hlocked, rfl, hcloned, hgen, hreached, hreceipts, hclone⟩ := h
  obtain ⟨hbook, hlocked'⟩ := hlocked.kept hne hk
  rw [← hbook] at hgen hreached hreceipts
  exact ⟨hlocked', rfl, hcloned, hgen, hreached, hreceipts, hclone.kept hk⟩

theorem Knows.kept {me' : ℕ} (hne : me' ≠ me) (h : Knows host me v old) (hk : Protected me' v v') :
    Knows host me v' old := by
  have hlocked : ∀ {ledger}, Locked me v ledger →
      Receipts host (book v ledger) (book v ledger).generation →
      Locked me v' ledger ∧ Receipts host (book v' ledger) (book v' ledger).generation := by
    intro ledger hl hr
    obtain ⟨hbook, hl'⟩ := hl.kept hne hk
    exact ⟨hl', by rw [hbook]; exact hr⟩
  cases old with
  | cloned restart => exact Cloned.kept h hk
  | seeded restart ledger => exact ⟨hk.allocated _ h.1, h.2.kept hk⟩
  | holding restart ledger =>
    obtain ⟨hl, hr, hc⟩ := h
    exact ⟨(hlocked hl hr).1, (hlocked hl hr).2, hc.kept hk⟩
  | readmitting restart ledger =>
    obtain ⟨hl, hr, hc⟩ := h
    exact ⟨(hlocked hl hr).1, (hlocked hl hr).2, hc.kept hk⟩
  | relaunching restart ledger id => exact Admitted.kept hne h hk
  | rollingBack restart ledger id => exact Admitted.kept hne h hk
  | unlocking ledger => exact hlocked h.1 h.2
  | ingesting id => exact hk.allocated id h
  | _ => trivial

/-- The launch that is taken back is that of the admitted record. -/
theorem rolledBack_id {restart : Restart S} {ledger k : ℕ} {record : SessionRecord}
    {launch : PendingLaunch} (hp : Pending me v (.rollingBack restart ledger k))
    (hlaunch : v.launchOf restart.session restart.operation = some (record, launch)) :
    record.id = k :=
  (Prod.mk.inj (Option.some.inj ((launchAt_of_launchOf hlaunch).symm.trans hp.2))).1

theorem saturatingSucc_of_lt {n : ℕ} (h : n < maxU64) : saturatingSucc n = n + 1 := by
  unfold saturatingSucc
  omega

theorem protected_effect (hp : Pending me v old) (hk : Knows host me v old) (ha : Allowed v old)
    (h : Effect host me v old v' new) : Protected me v v' := by
  refine ⟨fun id => allocated_mono h, ?_, ?_, ?_⟩
  · intro id hid j hne hholder
    -- the books that a step changes are not locked, or locked by the caller
    have hmine : ∀ {b}, (b = none ∨ b = some me) → b = some j → False := by
      rintro b (rfl | rfl) heq
      · cases heq
      · exact hne (Option.some.inj heq).symm
    have hstep := bookStep h hid
    generalize book v' id = b' at hstep
    cases hstep with
    | same => rfl
    | lock restart _ _ hnone => exact (hmine (.inl hnone) hholder).elim
    | admitted restart ledger record hold _ hget hrecord _ =>
      subst hold
      obtain ⟨hledger, -⟩ := ha.1 record hget
      rw [hrecord] at hledger
      subst hledger
      exact (hmine (.inr hk.1.holder) hholder).elim
    | rollBack restart ledger k record launch hold _ hlaunch hrecord =>
      subst hold
      rw [rolledBack_id hp hlaunch, hk.ledger] at hrecord
      subst hrecord
      exact (hmine (.inr hk.locked.holder) hholder).elim
    | clear restart k hold _ =>
      subst hold
      exact (hmine (.inr hk.locked.holder) hholder).elim
    | unlock hold _ =>
      subst hold
      exact (hmine (.inr hk.1.holder) hholder).elim
    | accept event frame _ _ hnone => exact (hmine (.inl hnone) hholder).elim
  · intro id hid
    have hstep := bookStep h hid
    generalize book v' id = b' at hstep
    cases hstep with
    | rollBack restart ledger k record launch hold _ hlaunch hrecord =>
      subst hold
      rw [rolledBack_id hp hlaunch] at hrecord
      subst hrecord
      exact ha.le
    | accept event frame hold =>
      subst hold
      dsimp only
      rw [saturatingSucc_of_lt ha]
      exact Nat.le_succ _
    | _ => exact le_rfl
  · intro id hid
    have hstep := bookStep h hid
    generalize book v' id = b' at hstep
    cases hstep with
    | accept event frame hold =>
      subst hold
      intro heq
      dsimp only at heq
      rw [saturatingSucc_of_lt ha] at heq
      exact absurd heq (Nat.succ_ne_self _)
    | _ => exact fun _ => rfl

theorem filed (hp : Pending me v old) (hk : Knows host me v old) (ha : Allowed v old)
    (hf : Filed host v) (h : Effect host me v old v' new) : Filed host v' := by
  -- a record that was just created has an empty book
  have hcreated : ∀ id ∈ v'.allocated, id ∉ v.allocated →
      (book v' id).frames = [] ∧ (book v' id).receipts = [] := by
    intro id hid hnew
    have hnone : ∀ entry ∈ v.frames, ¬ entry.1 = id := by
      intro entry hentry heq
      exact hnew (heq ▸ hf.frames entry hentry)
    cases tableStep h with
    | replace _ _ _ _ _ _ _ halloc => exact absurd (halloc ▸ hid) hnew
    | shrink _ _ halloc => exact absurd (halloc ▸ hid) hnew
    | create session fresh operation k _ _ _ _ _ heq =>
      subst heq
      rcases List.mem_cons.1 hid with rfl | hid
      · constructor
        · have : v.frames.filter (fun entry => entry.1 = id) = [] :=
            List.filter_eq_nil_iff.2 fun entry hentry => by simpa using hnone entry hentry
          simp [book, Records.insertCreated, Records.setRecord, Records.setCell, this]
        · simp [book, Records.insertCreated, Records.setRecord, Records.setCell, Cell.fresh,
            SeedLedger.default]
      · exact absurd hid hnew
  constructor
  · intro entry hentry
    rcases mem_frames h hentry with hold | hold
    · exact allocated_mono h (hf.frames entry hold)
    · subst hold
      exact allocated_mono h hk
  · intro id hid
    by_cases hold : id ∈ v.allocated
    · have ho := hf.ordered id hold
      have hstep := bookStep h hold
      generalize book v' id = b' at hstep
      cases hstep with
      | same => exact ho
      | lock => exact ⟨ho.increasing, ho.bounded, ho.captured, ho.reached, ho.ours⟩
      | admitted restart ledger record hrole _ _ _ hgen =>
        subst hrole
        refine ⟨ho.increasing, ho.bounded, ho.captured, fun frame hframe => ?_, fun _ _ _ => rfl⟩
        have := ho.reached frame hframe
        dsimp only
        rw [Restart.next, saturatingSucc_of_lt ha.2, ← hgen]
        exact this.trans (Nat.le_succ _)
      | rollBack restart ledger k record launch hrole _ hlaunch hrecord =>
        subst hrole
        rw [rolledBack_id hp hlaunch] at hrecord
        subst hrecord
        refine ⟨ho.increasing, fun frame hframe => ?_, ho.captured, hk.reached, ?_⟩
        · exact (ho.bounded frame hframe).trans ha.le
        · have hcloned := hk.cloned
          intro frame hframe hgen
          rw [hcloned] at ha hframe
          exact hk.clone.ours ha frame hframe hgen
      | clear => exact ⟨ho.increasing, ho.bounded, ho.captured, ho.reached, ho.ours⟩
      | unlock => exact ⟨ho.increasing, ho.bounded, ho.captured, ho.reached, ho.ours⟩
      | accept event frame hrole _ _ hgen hinst _ hevent hframe hrev =>
        subst hrole
        refine ho.accept ?_ hframe hinst hrev ha
        rw [hevent, hgen, hframe]
    · obtain ⟨hframes, -⟩ := hcreated id hid hold
      constructor <;> simp [hframes]
  · intro id hid hholder
    by_cases hold : id ∈ v.allocated
    · have hr := hf.receipts id hold
      have hstep := bookStep h hold
      generalize book v' id = b' at hstep hholder
      cases hstep with
      | same => exact hr hholder
      | lock => cases hholder
      | admitted restart ledger record hrole _ hget hrecord _ =>
        subst hrole
        obtain ⟨hledger, -⟩ := ha.1 record hget
        rw [hrecord] at hledger
        subst hledger
        cases hk.1.holder.symm.trans hholder
      | rollBack restart ledger k record launch hrole _ hlaunch hrecord =>
        subst hrole
        rw [rolledBack_id hp hlaunch, hk.ledger] at hrecord
        subst hrecord
        cases hk.locked.holder.symm.trans hholder
      | clear restart k hrole _ =>
        subst hrole
        obtain ⟨-, rfl, -, hgen, hreached, -, -⟩ := hk
        have hrecent : recent { book v k with receipts := [], holder := none }
            (book v k).generation = [] := by
          unfold recent
          rw [List.filter_eq_nil_iff.2, List.take_nil]
          intro frame hframe
          have := hreached frame hframe
          simp only [decide_eq_true_eq]
          omega
        exact ⟨by rw [hrecent]; rfl, List.nodup_nil⟩
      | unlock hrole _ =>
        subst hrole
        exact ⟨hk.2.window, hk.2.distinct⟩
      | accept event frame hrole _ hnone hgen hinst hfresh hevent hframe hrev =>
        subst hevent
        rw [← hrev]
        exact (hr hnone).accept hframe hfresh
    · obtain ⟨hframes, hreceipts⟩ := hcreated id hid hold
      constructor <;> simp [recent, hframes, hreceipts]

/-- A step keeps what its call knows. -/
theorem knows (hl : Lawful host v) (hf : Filed host v) (hp : Pending me v old)
    (hk : Knows host me v old) (ha : Allowed v old) (h : Effect host me v old v' new) :
    Knows host me v' new := by
  have hprotected := protected_effect hp hk ha h
  cases h with
  | quiet hfollows =>
    cases hfollows with
    | same => exact hk
    | found session record hget => exact (hl.ids session record hget).1
    | seeded restart record hget => exact ⟨(hl.ids _ record hget).1, hk⟩
    | unprepared => exact ⟨hk.1, hk.2.1⟩
    | prepared => exact hk
    | unadmitted => exact ⟨hk.1, hk.2.1⟩
    | failed => exact hk
    | lost restart ledger id hnone =>
      obtain ⟨record, launch, hsome, -⟩ := launchOf_of_launchAt hp.2
      cases hnone.symm.trans hsome
    | _ => trivial
  | clone session record cwd hget _ =>
    have hmem := (hl.ids session record hget).1
    exact ⟨hmem, le_rfl, fun _ => (hf.ordered record.id hmem).ours⟩
  | lock restart ledger hholder =>
    have hreceipts := hf.receipts ledger hk.1 hholder
    refine ⟨⟨hprotected.allocated _ hk.1, ?_⟩, ?_, hk.2.kept hprotected⟩
    · rw [book_lockLedger]
    · rw [book_lockLedger]
      exact ⟨hreceipts.window, hreceipts.distinct⟩
  | admitRestart restart ledger now record hget _ hgeneration _ =>
    obtain ⟨⟨halloc, hholder⟩, hreceipts, hclone⟩ := hk
    obtain ⟨hadmitted, hsmall⟩ := ha
    obtain ⟨hledger, hcloned⟩ := hadmitted record hget
    subst hledger
    have hgen : (book v record.id).generation = restart.prior.generation := hgeneration
    have hordered := hf.ordered record.id halloc
    rw [hgen] at hreceipts
    refine ⟨⟨hprotected.allocated _ halloc, ?_⟩, rfl, hcloned, ?_, ?_, ?_, hclone.kept hprotected⟩
    · rw [book_admitRestart]
      exact hholder
    · rw [book_admitRestart]
      exact saturatingSucc_of_lt hsmall
    · rw [book_admitRestart]
      intro frame hframe
      exact hgen ▸ hordered.reached frame hframe
    · rw [book_admitRestart]
      exact ⟨hreceipts.window, hreceipts.distinct⟩
  | rollBack restart ledger id record launch hlaunch =>
    have hid := rolledBack_id hp hlaunch
    obtain ⟨⟨halloc, hholder⟩, rfl, -, -, -, hreceipts, -⟩ := hk
    subst hid
    refine ⟨⟨hprotected.allocated _ halloc, ?_⟩, ?_⟩
    · rw [book_rollBack]
      exact hholder
    · rw [book_rollBack]
      exact ⟨hreceipts.window, hreceipts.distinct⟩
  | _ => trivial

/-! ### The events of a session -/

/-- The invariant of the runs in which no event is missed. -/
abbrev Recorded (host : Identity S) (p : Pool (Shared S) (Call S)) : Prop :=
  p.Holds (fun sh => Lawful host sh.toRecords ∧ Filed host sh.toRecords) fun i sh call =>
    Pending i sh.toRecords (role call) ∧ Knows host i sh.toRecords (role call)

theorem recorded_opened {p : Pool (Shared S) (Call S)} (h : Opened host p) : Recorded host p := by
  have hsettled := settled_opened h
  have hbook : ∀ id, (book p.shared.toRecords id).frames = [] ∧
      (book p.shared.toRecords id).receipts = [] := by
    intro id
    constructor
    · simp [book, h.frames]
    · simp [book, h.cells id, Cell.fresh, SeedLedger.default]
  constructor
  · refine ⟨hsettled.shared, ?_, ?_, ?_⟩
    · simp [h.frames]
    · intro id _
      constructor <;> simp [hbook id]
    · intro id _ _
      constructor <;> simp [recent, hbook id]
  · intro i
    refine ⟨hsettled.threads i, ?_⟩
    rw [h.threads i]
    trivial

theorem reach_recorded {p : Pool (Shared S) (Call S)} (h : Reachable host Unmissed p) :
    Recorded host p := by
  refine Pool.invariant (fun i sh sh' => Kept i sh.toRecords sh'.toRecords ∧
    Protected i sh.toRecords sh'.toRecords) (fun _ => recorded_opened) ?_ ?_ h
  · intro i input sh call sh' call' hinv hassert hcond hstep
    obtain ⟨hl, hf⟩ := hinv
    obtain ⟨hp, hk⟩ := hassert
    have ha := allowed_of_unmissed hcond
    have heffect := advance_effect hstep
    exact ⟨⟨hl.effect hp heffect, filed hp hk ha hf heffect⟩,
      ⟨pending hl hp heffect, knows hl hf hp hk ha heffect⟩,
      kept hp heffect, protected_effect hp hk ha heffect⟩
  · intro i j sh sh' call hne _ hassert hkeep
    exact ⟨hassert.1.kept hne hkeep.1, hassert.2.kept hne hkeep.2⟩

/-- The revision that a call acknowledges, once the event is looked at. -/
def acknowledging : Call S → Option ℕ
  | .awaiting _ hookRevision _ | .covering _ hookRevision | .settling _ hookRevision _ _
  | .numbering _ _ (.settle hookRevision _) | .submitting _ (.settle hookRevision _)
  | .waiting _ _ (.settle hookRevision _) | .returned (.acknowledged _ hookRevision _) =>
    some hookRevision
  | _ => none

/-- A call acknowledges the revision that it has found. -/
theorem acknowledging_step {i revision : ℕ} {input : Input S} {sh sh' : Shared S}
    {call call' : Call S} (hcall : acknowledging call = some revision)
    (h : advance host i input sh call = some (sh', call')) :
    acknowledging call' = some revision := by
  rcases advance_cases h with ⟨rfl, -⟩ | ⟨answers, h⟩ | ⟨stage, rfl, -⟩
  · cases hcall
  · cases call with
    | awaiting id hookRevision retry =>
      simp only [Shared.proceed, Shared.awaitCriticalDurability] at h
      split_ifs at h <;> cases h <;> exact hcall
    | covering id hookRevision =>
      cases h
      exact hcall
    | settling id hookRevision covered ok =>
      cases h
      exact hcall
    | numbering id cls next =>
      cases next <;> cases hcall
      simp only [Shared.proceed, Shared.persistRevision] at h
      split at h <;> cases h <;> rfl
    | submitting record next =>
      cases next <;> cases hcall
      simp only [Shared.proceed, Shared.submit] at h
      split_ifs at h
      all_goals
        obtain ⟨sh1, -, h⟩ := Option.bind_eq_some_iff.1 h
        split at h <;> cases h <;> rfl
    | waiting ticket id next =>
      cases next <;> cases hcall
      simp only [Shared.proceed, Shared.wait] at h
      split_ifs at h
      · cases h
        rfl
      · split at h <;> cases h <;> rfl
    | returned outcome => cases h
    | _ => cases hcall
  · cases hcall

/-- An event changes nothing. -/
structure Refused (sh sh' : Shared S) : Prop where
  frames : sh'.frames = sh.frames
  cells : ∀ id, (sh'.cells id).manifest = (sh.cells id).manifest ∧
    (sh'.cells id).ledger.receipts = (sh.cells id).ledger.receipts

/-- An event is accepted for the record `id`. -/
structure Accepted (host : Identity S) (sh sh' : Shared S) (event : AgentEvent S) (id : ℕ)
    (frame : Frame S) : Prop where
  generation : event.generation = some (sh.manifest id).generation
  hostInstance : (sh.manifest id).hostInstance = host.hostInstance
  frames : sh'.frames = (id, frame) :: sh.frames
  event : frame.event = event
  revision : frame.revision = (sh.manifest id).hookRevision + 1
  hookRevision : (sh'.manifest id).hookRevision = frame.revision
  length : (host.encode (sh'.manifest id)).length ≤ maxManifestBytes

theorem ingestLocked_of_advance {i : ℕ} {input : Input S} {sh sh' : Shared S}
    {event : AgentEvent S} {call' : Call S}
    (h : advance host i input sh (.ingesting event id) = some (sh', call')) :
    ∃ answers, (sh.cells id).holder = none ∧
      sh.ingestLocked host event id answers = some (sh', call') := by
  rcases advance_cases h with ⟨hidle, -⟩ | ⟨answers, hstep⟩ | ⟨stage, hstage, -⟩
  · cases hidle
  · refine ⟨answers, ?_, hstep⟩
    simp only [Shared.proceed, Shared.ingestLocked] at hstep
    split_ifs at hstep with hholder
    exact hholder
  · cases hstage

/-- An event is accepted or changes nothing. -/
theorem ingest_step {i : ℕ} {input : Input S} {sh sh' : Shared S} {event : AgentEvent S}
    {call' : Call S} (hlt : (sh.manifest id).hookRevision < maxU64)
    (h : advance host i input sh (.ingesting event id) = some (sh', call')) :
    (∃ frame, Accepted host sh sh' event id frame ∧ call' = .awaiting id frame.revision false) ∨
      Refused sh sh' ∧ ∀ revision, call' ≠ .awaiting id revision false := by
  obtain ⟨answers, hholder, hstep⟩ := ingestLocked_of_advance h
  simp only [Shared.ingestLocked, if_pos hholder] at hstep
  cases hstep
  have hlength := @ingest_length S host (sh.cells id).manifest (sh.cells id).ledger event
    answers.now (saturatingSucc (sh.manifest id).hookRevision)
  rcases ingest_spec host (sh.cells id).manifest (sh.cells id).ledger event answers.now with
    ⟨⟨hframe, hsame, hreceipts, -⟩, hverdict⟩ | ⟨-, hgen, hinst, -, haccept⟩
  · refine .inr ⟨⟨?_, fun j => ?_⟩, fun revision => ?_⟩
    · simp [Shared.withRecords, Records.ingestEvent, Records.setCell, hframe]
    · refine forall_cells_update (v := sh.toRecords) (R := fun cell cell' =>
        cell'.manifest = cell.manifest ∧ cell'.ledger.receipts = cell.ledger.receipts)
        (fun _ => ⟨rfl, rfl⟩) rfl ⟨hsame, hreceipts⟩ j
    · revert hverdict
      cases (ingest host (sh.cells id).manifest (sh.cells id).ledger event answers.now).verdict with
      | accepted hookRevision => exact fun hverdict => absurd rfl (hverdict hookRevision)
      | _ => exact fun _ hcall => by cases hcall
  · refine .inl ⟨((sh.cells id).manifest.accept host event answers.now).2, ?_, ?_⟩
    · have hmanifest : ((sh.withRecords (·.ingestEvent host event id answers.now)).manifest id) =
          ((sh.cells id).manifest.accept host event answers.now).1 := by
        rw [manifest_update (v := sh.toRecords) rfl, if_pos rfl, haccept]
      refine ⟨hgen, hinst, ?_, rfl, saturatingSucc_of_lt hlt, ?_, ?_⟩
      · simp [Shared.withRecords, Records.ingestEvent, Records.setCell, haccept]
      · rw [hmanifest]
        rfl
      · rw [hmanifest]
        rw [haccept] at hlength
        exact hlength rfl
    · rw [haccept]
      rfl

/-- A resent event changes nothing, and the call acknowledges its revision. -/
theorem resent_step {i : ℕ} {input : Input S} {sh sh' : Shared S} {frame : Frame S}
    {event : AgentEvent S} {call' : Call S} (hmem : id ∈ sh.allocated)
    (hf : Filed host sh.toRecords) (hremoved : (sh.cells id).ledger.removed = false)
    (hframe : frame ∈ recent (book sh.toRecords id) (sh.manifest id).generation)
    (hkey : host.receiptKey event = host.receiptKey frame.event)
    (hgen : event.generation = frame.event.generation)
    (h : advance host i input sh (.ingesting event id) = some (sh', call')) :
    sh' = sh ∧ call' = .awaiting id frame.revision true := by
  obtain ⟨answers, hholder, hstep⟩ := ingestLocked_of_advance h
  simp only [Shared.ingestLocked, if_pos hholder] at hstep
  obtain ⟨hwindow, hdistinct⟩ := hf.receipts id hmem hholder
  obtain ⟨hfiled, hcurrent⟩ := List.mem_filter.1 (List.mem_of_mem_take hframe)
  replace hcurrent : frame.generation = (sh.manifest id).generation := by simpa using hcurrent
  have hheld : receipt host frame ∈ (sh.cells id).ledger.receipts := by
    change _ ∈ (book sh.toRecords id).receipts
    rw [hwindow]
    exact List.mem_reverse.2 (List.mem_map_of_mem hframe)
  have hordered := hf.ordered id hmem
  have hcaptured : event.generation = some (sh.cells id).manifest.generation := by
    rw [hgen, hordered.captured frame hfiled, hcurrent]
    rfl
  have hduplicate : ingest host (sh.cells id).manifest (sh.cells id).ledger event answers.now =
      ⟨(sh.cells id).manifest, (sh.cells id).ledger, none, .duplicate frame.revision⟩ :=
    ingest_duplicate hremoved hcaptured (hordered.ours frame hfiled hcurrent) hheld hdistinct
      hkey.symm
  have hsame : sh.toRecords.ingestEvent host event id answers.now = sh.toRecords := by
    simp [Records.ingestEvent, Records.setCell, hduplicate]
  rw [hduplicate, Shared.withRecords, hsame] at hstep
  cases hstep
  exact ⟨rfl, rfl⟩

/-- **The events of a session**, in every run in which no event is missed: the revisions increase in the
order in which the events are published, so none is used twice. An event is accepted at the generation and
the host instance of the session, with the next revision, or it changes nothing. A resent event changes
nothing and is acknowledged with its first revision, if it is among the last of its generation. -/
theorem reach_events {p : Pool (Shared S) (Call S)} (h : Reachable host Unmissed p) :
    (∀ id ∈ p.shared.allocated,
      ((book p.shared.toRecords id).frames.Pairwise fun later earlier =>
        earlier.revision < later.revision) ∧
      ∀ frame ∈ (book p.shared.toRecords id).frames,
        frame.revision ≤ (p.shared.manifest id).hookRevision) ∧
    (∀ i input event id sh' call', p.threads i = .ingesting event id →
      Unmissed i input p.shared (p.threads i) →
      advance host i input p.shared (p.threads i) = some (sh', call') →
      (∃ frame, Accepted host p.shared sh' event id frame ∧
        call' = .awaiting id frame.revision false) ∨
      Refused p.shared sh' ∧ ∀ revision, call' ≠ .awaiting id revision false) ∧
    (∀ i input event id sh' call' frame, p.threads i = .ingesting event id →
      (p.shared.cells id).ledger.removed = false →
      frame ∈ recent (book p.shared.toRecords id) (p.shared.manifest id).generation →
      host.receiptKey event = host.receiptKey frame.event →
      event.generation = frame.event.generation →
      advance host i input p.shared (p.threads i) = some (sh', call') →
      sh' = p.shared ∧ call' = .awaiting id frame.revision true) ∧
    ∀ i input sh' call' revision, acknowledging (p.threads i) = some revision →
      advance host i input p.shared (p.threads i) = some (sh', call') →
      acknowledging call' = some revision := by
  have hrecorded := reach_recorded h
  obtain ⟨-, hf⟩ := hrecorded.shared
  refine ⟨fun id hid => ?_, ?_, ?_, ?_⟩
  · exact ⟨(hf.ordered id hid).increasing, (hf.ordered id hid).bounded⟩
  · intro i input event id sh' call' hcall hcond hstep
    rw [hcall] at hcond hstep
    exact ingest_step hcond hstep
  · intro i input event id sh' call' frame hcall hremoved hframe hkey hgen hstep
    have hmem := (hrecorded.threads i).2
    rw [hcall] at hmem hstep
    exact resent_step hmem hf hremoved hframe hkey hgen hstep
  · intro i input sh' call' revision hcall hstep
    exact acknowledging_step hcall hstep

/-- An event of the second generation of the session. -/
def notification (pid : ℕ) : AgentEvent ℕ where
  session := 0
  generation := some 2
  kind := .notification
  tool := "t"
  pid := some pid
  toolName := none
  message := none
  summary := none
  exitCode := none
  emittedAtMs := none
  receivedAtMs := none
  interrupt := false
  payload := []

/-- The steps of a restart of the adopted session that is persisted, and whose process does not start. -/
def restarted : List (ℕ × Input ℕ) :=
  [(0, .restart 0 none), (0, .proceed {}), (0, .proceed {}), (0, .proceed {}), (0, .proceed {}),
    (0, .proceed {}), (0, .proceed {}), (0, .proceed {}), (1, .writer .take),
    (1, .writer (.execute ⟨none, .ok, true⟩)), (1, .writer (.execute ⟨none, .ok, true⟩)),
    (1, .writer .finish), (0, .proceed {}), (0, .proceed {}), (0, .proceed {})]

theorem reach_events_restarted :
    ∃ p sh', Reachable sampleHost Unmissed p ∧ p.threads 3 = .ingesting (notification 7) 0 ∧
      advance sampleHost 3 (.proceed {}) p.shared (p.threads 3) =
        some (sh', .awaiting 0 1 true) ∧ sh' = p.shared ∧
      ((book p.shared.toRecords 0).frames.Pairwise fun later earlier =>
        earlier.revision < later.revision) := by
  obtain ⟨p, sh', frame, hp, hcall, hstep, hmem, hremoved, hframe, hevent⟩ :
      ∃ (p : Pool (Shared ℕ) (Call ℕ)) (sh' : Shared ℕ) (frame : Frame ℕ),
        Reachable sampleHost Unmissed p ∧ p.threads 3 = .ingesting (notification 7) 0 ∧
        advance sampleHost 3 (.proceed {}) p.shared (p.threads 3) =
          some (sh', .awaiting 0 1 true) ∧
        0 ∈ p.shared.allocated ∧ (p.shared.cells 0).ledger.removed = false ∧
        frame ∈ recent (book p.shared.toRecords 0) (p.shared.manifest 0).generation ∧
        frame.event = notification 7 :=
    ⟨_, _, _, (Reach.init opened_adopted).follow
      (restarted ++ [(2, .ingest (notification 7)), (2, .proceed {}),
        (3, .ingest (notification 7))]) rfl, rfl, rfl, List.mem_singleton.2 rfl, rfl,
      List.mem_singleton.2 rfl, rfl⟩
  obtain ⟨hordered, -, hresent, -⟩ := reach_events hp
  have hsame := hresent 3 _ _ 0 sh' _ frame hcall hremoved hframe (hevent ▸ rfl) (hevent ▸ rfl) hstep
  exact ⟨p, sh', hp, hcall, hstep, hsame.1, (hordered 0 hmem).1⟩

/-- An event that is accepted between the clone of a restart and its lock of the ledger: when the restart is
taken back, the next event gets the same revision. -/
theorem not_reach_events :
    ¬ ∀ p : Pool (Shared ℕ) (Call ℕ), Reachable sampleHost (fun _ _ _ _ => True) p →
      ∀ id ∈ p.shared.allocated, (book p.shared.toRecords id).frames.Pairwise
        fun later earlier => earlier.revision < later.revision := by
  intro h
  obtain ⟨p, hp, hmem, hframes⟩ : ∃ p : Pool (Shared ℕ) (Call ℕ),
      Reachable sampleHost (fun _ _ _ _ => True) p ∧ 0 ∈ p.shared.allocated ∧
        (book p.shared.toRecords 0).frames.map Frame.revision = [1, 1] :=
    ⟨_, (Reach.init opened_adopted).follow
      (restarted ++ [(2, .restart 0 none), (2, .proceed {}), (3, .ingest (notification 7)),
        (3, .proceed {}), (2, .proceed {}), (2, .proceed {}), (2, .proceed {}), (2, .proceed {}),
        (2, .proceed {}), (2, .proceed {}), (2, .proceed { expired := true }), (2, .proceed {}),
        (2, .proceed {}), (2, .proceed {}), (2, .proceed {}), (4, .ingest (notification 8)),
        (4, .proceed {})]) rfl, List.mem_singleton.2 rfl, rfl⟩
  have hdistinct : ((book p.shared.toRecords 0).frames.map Frame.revision).Pairwise (· > ·) :=
    List.pairwise_map.2 (h p hp 0 hmem)
  rw [hframes] at hdistinct
  simp at hdistinct

end Paneflow.Host.HookEvents
