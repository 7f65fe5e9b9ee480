import Paneflow.Transition
import Mathlib.Data.Nat.Cast.WithTop
import Mathlib.Logic.Function.Basic
import Mathlib.Tactic.Common

/-!
# Saving the session

app/session.rs. A change of the app takes the next number and a snapshot, which a task writes after a while unless a
later number was taken; at exit a loop writes snapshots until one is current. A write stages the state in a temporary
file, promotes it to the pending file and renames that over the session file, under a lock. The loader prefers the
pending file.

The system takes one step at a time, of which those of the file system may fail; the process may stop between any two.
`session_saved` says what the loader would return in every state of every run.

The app's state and what is saved of it are the types `α` and `σ`, with `build_session_state` as the parameter `build`.
-/

namespace Paneflow.App.SessionSave

variable {α σ : Type}

/-- What a file has: the state of the save with that number, or something that the loader rejects. What was there
before the process has the number zero. -/
inductive File (σ : Type) where
  | state (seq : ℕ) (state : σ)
  | rejected

structure Files (σ : Type) where
  session : Option (File σ)
  pending : Option (File σ)

/-- `load_session_at` -/
def loadAt : Option (File σ) → Option (ℕ × σ)
  | some (.state seq state) => some (seq, state)
  | some .rejected | none => none

/-- `load_session_with_recovery_at` -/
def Files.load (files : Files σ) : Option (ℕ × σ) := (loadAt files.pending).or (loadAt files.session)

/-- What `write_session_json_if_current` returns: `Ok(true)`, `Ok(false)` or an error. -/
inductive WriteResult where
  | saved
  | stale
  | failed
  deriving DecidableEq, Repr

/-- A snapshot with its number, as a task takes it along. -/
structure Save (σ : Type) where
  seq : ℕ
  state : σ
  restoreFailed : Bool

inductive Phase (σ : Type) where
  /-- The exit loop, before it takes a snapshot. -/
  | start
  | debounce (save : Save σ)
  /-- Before the lock. -/
  | queued (save : Save σ)
  | writing (save : Save σ)
  /-- The write has returned, and the app is to be updated. -/
  | returned (save : Save σ) (result : WriteResult)
  | done

/-- A task of `save_session`, or of `save_session_before_exit_as` with its `prepare`. -/
structure Task (σ : Type) where
  exit : Option (σ → σ)
  phase : Phase σ

inductive Stage where
  | entered
  | current
  | staged
  | promoted
  deriving DecidableEq, Repr

/-- The holder of the write lock; `before` is what the loader would have returned when it got the lock. -/
structure Writer (σ : Type) where
  task : ℕ
  exit : Option (σ → σ)
  save : Save σ
  stage : Stage
  before : Option (ℕ × σ)

/-- The process and its files. `made` and `returned` record the snapshots by their numbers and the results of writes. -/
structure Sys (α σ : Type) where
  app : α
  saveSeq : ℕ
  restoreFailed : Bool
  exitPending : Bool
  stopped : Bool
  count : ℕ
  tasks : ℕ → Option (Task σ)
  writer : Option (Writer σ)
  files : Files σ
  made : ℕ → Option σ
  returned : List (ℕ × WriteResult)

inductive Label (α σ : Type) where
  | change (app : α)
  | fire (task : ℕ)
  | exit (prepare : σ → σ)
  | snapshot (task : ℕ)
  | enter (task : ℕ)
  | check
  | stage (ok : Bool)
  | promote (ok : Bool)
  | rename (ok : Bool)
  | finish (task : ℕ)
  /-- Other code of the app holds the saves back, or lets them through. -/
  | setExitPending (pending : Bool)
  | stop

namespace Sys

def setTask (s : Sys α σ) (i : ℕ) (task : Task σ) : Sys α σ :=
  { s with tasks := Function.update s.tasks i (some task) }

/-- `build_session_state` with the next number. -/
def take (s : Sys α σ) (state : σ) : Sys α σ :=
  { s with
    saveSeq := s.saveSeq + 1
    made := Function.update s.made (s.saveSeq + 1) (some state) }

/-- The write returns, and the lock is free. -/
def returns (s : Sys α σ) (w : Writer σ) (result : WriteResult) : Sys α σ :=
  { s with
    tasks := Function.update s.tasks w.task (some ⟨w.exit, .returned w.save result⟩)
    writer := none
    returned := s.returned ++ [(w.save.seq, result)] }

/-- The exit task whose snapshot is saved and current: `on_saved` runs. -/
def onSaved (s : Sys α σ) (i : ℕ) : Option (σ → σ) :=
  match s.tasks i with
  | some ⟨some prepare, .returned save .saved⟩ => if s.saveSeq = save.seq then some prepare else none
  | _ => none

end Sys

/-- `save_session` after a change of the app. -/
def saveSession (build : α → σ) (s : Sys α σ) (app : α) : Sys α σ :=
  let s := { s with app := app }
  if s.restoreFailed || s.exitPending then { s with saveSeq := s.saveSeq + 1 }
  else
    let save : Save σ := ⟨s.saveSeq + 1, build app, s.restoreFailed⟩
    { (s.take (build app)).setTask s.count ⟨none, .debounce save⟩ with count := s.count + 1 }

/-- A round of the exit loop ends. -/
def finishExit (s : Sys α σ) (i : ℕ) (prepare : σ → σ) (save : Save σ) (result : WriteResult) : Sys α σ :=
  match result with
  | .stale => s.setTask i ⟨some prepare, .start⟩
  | .saved =>
    if s.saveSeq = save.seq then { s.setTask i ⟨some prepare, .done⟩ with exitPending := false }
    else s.setTask i ⟨some prepare, .start⟩
  | .failed => { s.setTask i ⟨some prepare, .done⟩ with exitPending := false }

def stepRunning (build : α → σ) (s : Sys α σ) : Label α σ → Option (Sys α σ)
  | .change app => some (saveSession build s app)
  | .fire i =>
    match s.tasks i with
    | some ⟨exit, .debounce save⟩ =>
      some (s.setTask i ⟨exit, if s.saveSeq ≠ save.seq then .done else .queued save⟩)
    | _ => none
  | .exit prepare =>
    if s.exitPending || s.restoreFailed then some s
    else some { s.setTask s.count ⟨some prepare, .start⟩ with exitPending := true, count := s.count + 1 }
  | .snapshot i =>
    match s.tasks i with
    | some ⟨some prepare, .start⟩ =>
      let state := prepare (build s.app)
      some ((s.take state).setTask i ⟨some prepare, .queued ⟨s.saveSeq + 1, state, s.restoreFailed⟩⟩)
    | _ => none
  | .enter i =>
    match s.writer, s.tasks i with
    | none, some ⟨exit, .queued save⟩ =>
      some { s.setTask i ⟨exit, .writing save⟩ with writer := some ⟨i, exit, save, .entered, s.files.load⟩ }
    | _, _ => none
  | .check =>
    match s.writer with
    | some w =>
      if w.stage ≠ .entered then none
      else if w.save.restoreFailed then some (s.returns w .failed)
      else if s.saveSeq ≠ w.save.seq then some (s.returns w .stale)
      else some { s with writer := some { w with stage := .current } }
    | none => none
  | .stage ok =>
    match s.writer with
    | some w =>
      if w.stage ≠ .current then none
      else if ok then some { s with writer := some { w with stage := .staged } }
      else some (s.returns w .failed)
    | none => none
  | .promote ok =>
    match s.writer with
    | some w =>
      if w.stage ≠ .staged then none
      else if ok then
        some { s with
          writer := some { w with stage := .promoted }
          files := { s.files with pending := some (.state w.save.seq w.save.state) } }
      else some (s.returns w .failed)
    | none => none
  | .rename ok =>
    match s.writer with
    | some w =>
      if w.stage ≠ .promoted then none
      else if ok then some ({ s with files := ⟨s.files.pending, none⟩ }.returns w .saved)
      else some (s.returns w .failed)
    | none => none
  | .finish i =>
    match s.tasks i with
    | some ⟨none, .returned _ _⟩ => some (s.setTask i ⟨none, .done⟩)
    | some ⟨some prepare, .returned save result⟩ => some (finishExit s i prepare save result)
    | _ => none
  | .setExitPending pending => some { s with exitPending := pending }
  | .stop => some { s with stopped := true }

def step (build : α → σ) (s : Sys α σ) (label : Label α σ) : Option (Sys α σ) :=
  if s.stopped then none else stepRunning build s label

/-- The process begins. -/
structure Init (s : Sys α σ) : Prop where
  saveSeq : s.saveSeq = 0
  tasks : ∀ i, s.tasks i = none
  writer : s.writer = none
  files : ∀ seq state, s.files.session = some (.state seq state) ∨
    s.files.pending = some (.state seq state) → seq = 0
  returned : s.returned = []

/-- The number of the state that the loader would return, below all numbers when there is none. -/
def loadedSeq (s : Sys α σ) : WithBot ℕ :=
  match s.files.load with
  | none => ⊥
  | some (seq, _) => seq

/-! ### The invariant -/

/-- The snapshot that a task takes along. -/
def Phase.save? : Phase σ → Option (Save σ)
  | .debounce save | .queued save | .writing save | .returned save _ => some save
  | .start | .done => none

/-- The file has the state with that number. -/
def Files.Has (files : Files σ) (seq : ℕ) (state : σ) : Prop :=
  files.session = some (.state seq state) ∨ files.pending = some (.state seq state)

/-- The snapshot was taken under its number; and while the number is the last one, an exit's snapshot is of the app as
it is. -/
structure Taken (saveSeq : ℕ) (made : ℕ → Option σ) (built : σ) (exit : Option (σ → σ)) (save : Save σ) :
    Prop where
  le : save.seq ≤ saveSeq
  pos : 0 < save.seq
  made : made save.seq = some save.state
  current : save.seq = saveSeq → ∀ prepare, exit = some prepare → save.state = prepare built

/-- The files while a write is under way. -/
structure Writing (files : Files σ) (w : Writer σ) : Prop where
  below : w.stage ≠ .entered → ∀ seq state, files.Has seq state → seq ≤ w.save.seq
  before : w.stage ≠ .promoted → files.load = w.before
  promoted : w.stage = .promoted → files.pending = some (.state w.save.seq w.save.state)

structure Inv (build : α → σ) (s : Sys α σ) : Prop where
  file : ∀ seq state, s.files.Has seq state → seq ≤ s.saveSeq ∧ (seq = 0 ∨ s.made seq = some state)
  task : ∀ i task save, s.tasks i = some task → task.phase.save? = some save →
    Taken s.saveSeq s.made (build s.app) task.exit save
  writer : ∀ w, s.writer = some w → Taken s.saveSeq s.made (build s.app) w.exit w.save ∧ Writing s.files w
  answered : ∀ i exit save, s.tasks i = some ⟨exit, .returned save .saved⟩ →
    (save.seq, .saved) ∈ s.returned
  returned : ∀ seq, (seq, .saved) ∈ s.returned → (seq : WithBot ℕ) ≤ loadedSeq s

variable {build : α → σ} {s s' : Sys α σ}

theorem Files.load_has {files : Files σ} {seq : ℕ} {state : σ} (h : files.load = some (seq, state)) :
    files.Has seq state := by
  unfold Files.load at h
  rcases hpending : files.pending with _ | ⟨pending, state'⟩ | _
  all_goals rw [hpending] at h
  · left
    rcases hsession : files.session with _ | ⟨session, state'⟩ | _
    all_goals rw [hsession] at h
    · cases h
    · cases h
      rfl
    · cases h
  · cases h
    exact .inr hpending
  · left
    rcases hsession : files.session with _ | ⟨session, state'⟩ | _
    all_goals rw [hsession] at h
    · cases h
    · cases h
      rfl
    · cases h

theorem load_of_pending {files : Files σ} {seq : ℕ} {state : σ}
    (h : files.pending = some (.state seq state)) : files.load = some (seq, state) := by
  unfold Files.load
  rw [h]
  rfl

theorem loadedSeq_of_load {seq : ℕ} {state : σ} (h : s.files.load = some (seq, state)) :
    loadedSeq s = seq := by
  unfold loadedSeq
  rw [h]

theorem loadedSeq_le {bound : ℕ} (h : ∀ seq state, s.files.Has seq state → seq ≤ bound) :
    loadedSeq s ≤ bound := by
  rcases hload : s.files.load with _ | ⟨seq, state⟩
  · unfold loadedSeq
    rw [hload]
    exact bot_le
  · rw [loadedSeq_of_load hload]
    exact WithBot.coe_le_coe.2 (h seq state (Files.load_has hload))

theorem loadedSeq_congr (h : s'.files = s.files) : loadedSeq s' = loadedSeq s := by
  unfold loadedSeq
  rw [h]

theorem inv_init (h : Init s) : Inv build s where
  file seq state hhas := by
    have hzero := h.files seq state hhas
    exact ⟨hzero.le.trans (Nat.zero_le _), .inl hzero⟩
  task i task save htask := absurd (htask.symm.trans (h.tasks i)) nofun
  writer w hw := absurd (hw.symm.trans h.writer) nofun
  answered i exit save htask := absurd (htask.symm.trans (h.tasks i)) nofun
  returned seq hmem := by
    rw [h.returned] at hmem
    exact absurd hmem List.not_mem_nil

/-- A number is taken: what was taken before is no more current. -/
theorem Inv.advance (h : Inv build s) (app : α) {made : ℕ → Option σ}
    (hmade : ∀ seq ≤ s.saveSeq, made seq = s.made seq) :
    Inv build { s with app := app, saveSeq := s.saveSeq + 1, made := made } := by
  have htaken {exit : Option (σ → σ)} {save : Save σ} (ht : Taken s.saveSeq s.made (build s.app) exit save) :
      Taken (s.saveSeq + 1) made (build app) exit save := by
    have hle := ht.le
    refine ⟨Nat.le_succ_of_le hle, ht.pos, (hmade _ hle).trans ht.made, ?_⟩
    intro hlast
    have hlast : save.seq = s.saveSeq + 1 := hlast
    omega
  refine ⟨?_, ?_, ?_, h.answered, h.returned⟩
  · intro seq state hhas
    obtain ⟨hle, hstate⟩ := h.file seq state hhas
    exact ⟨Nat.le_succ_of_le hle, hstate.imp_right (hmade seq hle).trans⟩
  · intro i task save hi hsave
    exact htaken (h.task i task save hi hsave)
  · intro w hw
    obtain ⟨ht, hwriting⟩ := h.writer w hw
    exact ⟨htaken ht, hwriting⟩

/-- A task goes on. -/
theorem Inv.setTask (h : Inv build s) (i : ℕ) (task : Task σ)
    (htaken : ∀ save, task.phase.save? = some save → Taken s.saveSeq s.made (build s.app) task.exit save)
    (hreturned : ∀ save, task.phase = .returned save .saved → (save.seq, .saved) ∈ s.returned) :
    Inv build (s.setTask i task) := by
  refine ⟨h.file, ?_, h.writer, ?_, h.returned⟩
  · intro j task' save hj hsave
    have hj : Function.update s.tasks i (some task) j = some task' := hj
    rw [Function.update_apply] at hj
    split_ifs at hj
    · cases hj
      exact htaken save hsave
    · exact h.task j task' save hj hsave
  · intro j exit save hj
    have hj : Function.update s.tasks i (some task) j = some ⟨exit, .returned save .saved⟩ := hj
    rw [Function.update_apply] at hj
    split_ifs at hj
    · cases hj
      exact hreturned save rfl
    · exact h.answered j exit save hj

/-- The lock changes hands, or the write goes on. -/
theorem Inv.setWriter (h : Inv build s) (writer : Option (Writer σ))
    (hwriter : ∀ w, writer = some w → Taken s.saveSeq s.made (build s.app) w.exit w.save ∧ Writing s.files w) :
    Inv build { s with writer := writer } :=
  ⟨h.file, h.task, hwriter, h.answered, h.returned⟩

/-- A write returns, whose lock is free already. -/
theorem Inv.returns {w : Writer σ} (h : Inv build { s with writer := none })
    (ht : Taken s.saveSeq s.made (build s.app) w.exit w.save) {result : WriteResult}
    (hresult : result = .saved → (w.save.seq : WithBot ℕ) ≤ loadedSeq s) :
    Inv build (s.returns w result) := by
  have hlog : Inv build { s with writer := none, returned := s.returned ++ [(w.save.seq, result)] } := by
    refine ⟨h.file, h.task, h.writer, ?_, ?_⟩
    · intro i exit save hi
      exact List.mem_append_left _ (h.answered i exit save hi)
    · intro seq hmem
      rcases List.mem_append.1 hmem with hmem | hmem
      · exact h.returned seq hmem
      · obtain ⟨rfl, rfl⟩ := Prod.mk.inj (List.mem_singleton.1 hmem)
        exact hresult rfl
  refine hlog.setTask w.task ⟨w.exit, .returned w.save result⟩ ?_ ?_
  · intro save hsave
    cases hsave
    exact ht
  · intro save hsave
    cases hsave
    exact List.mem_append_right _ (List.mem_singleton_self _)

/-! ### Steps -/

theorem Inv.saveSession (h : Inv build s) (app : α) : Inv build (saveSession build s app) := by
  unfold SessionSave.saveSession
  dsimp only
  split_ifs
  · exact h.advance app fun _ _ => rfl
  · have hmade : ∀ seq ≤ s.saveSeq,
        Function.update s.made (s.saveSeq + 1) (some (build app)) seq = s.made seq := by
      intro seq hle
      exact Function.update_of_ne (by omega) _ _
    have hset := (h.advance app hmade).setTask s.count
      ⟨none, .debounce ⟨s.saveSeq + 1, build app, s.restoreFailed⟩⟩ ?_ nofun
    · exact ⟨hset.file, hset.task, hset.writer, hset.answered, hset.returned⟩
    · intro save hsave
      cases hsave
      exact ⟨le_rfl, Nat.succ_pos _, Function.update_self .., fun _ _ hexit => nomatch hexit⟩

theorem Inv.snapshot (h : Inv build s) (i : ℕ) (prepare : σ → σ) :
    Inv build ((s.take (prepare (build s.app))).setTask i
      ⟨some prepare, .queued ⟨s.saveSeq + 1, prepare (build s.app), s.restoreFailed⟩⟩) := by
  have hmade : ∀ seq ≤ s.saveSeq,
      Function.update s.made (s.saveSeq + 1) (some (prepare (build s.app))) seq = s.made seq := by
    intro seq hle
    exact Function.update_of_ne (by omega) _ _
  refine (h.advance s.app hmade).setTask i _ ?_ nofun
  intro save hsave
  cases hsave
  refine ⟨le_rfl, Nat.succ_pos _, Function.update_self .., ?_⟩
  rintro - _ ⟨⟩
  rfl

/-- The state is promoted: nothing that was on disk has a greater number. -/
theorem Inv.promote (h : Inv build s) {w : Writer σ} (hw : s.writer = some w) (hstage : w.stage = .staged) :
    Inv build { s with
      writer := some { w with stage := .promoted }
      files := { s.files with pending := some (.state w.save.seq w.save.state) } } := by
  obtain ⟨ht, hwriting⟩ := h.writer w hw
  have hbelow := hwriting.below (by rw [hstage]; nofun)
  have hhas : ∀ seq state,
      Files.Has { s.files with pending := some (.state w.save.seq w.save.state) } seq state →
      s.files.Has seq state ∨ seq = w.save.seq ∧ state = w.save.state := by
    rintro seq state (hsession | hpending)
    · exact .inl (.inl hsession)
    · cases hpending
      exact .inr ⟨rfl, rfl⟩
  have hload : Files.load { s.files with pending := some (.state w.save.seq w.save.state) } =
      some (w.save.seq, w.save.state) := load_of_pending rfl
  refine ⟨?_, h.task, ?_, h.answered, ?_⟩
  · intro seq state hnew
    rcases hhas seq state hnew with hold | ⟨rfl, rfl⟩
    · exact h.file seq state hold
    · exact ⟨ht.le, .inr ht.made⟩
  · rintro w' ⟨⟩
    refine ⟨ht, ?_, fun hne => absurd rfl hne, fun _ => rfl⟩
    intro _ seq state hnew
    rcases hhas seq state hnew with hold | ⟨rfl, -⟩
    · exact hbelow seq state hold
    · exact le_rfl
  · intro seq hmem
    have hle : loadedSeq s ≤ w.save.seq := loadedSeq_le hbelow
    rw [loadedSeq_of_load hload]
    exact (h.returned seq hmem).trans hle

/-- The pending file is renamed: the loader returns the same as before. -/
theorem Inv.rename (h : Inv build s) {w : Writer σ} (hw : s.writer = some w) (hstage : w.stage = .promoted) :
    Inv build { s with files := ⟨s.files.pending, none⟩, writer := none } ∧
      Files.load ⟨s.files.pending, none⟩ = s.files.load := by
  obtain ⟨ht, hwriting⟩ := h.writer w hw
  have hpending := hwriting.promoted hstage
  have hload : Files.load ⟨s.files.pending, none⟩ = s.files.load := by
    rw [load_of_pending hpending, hpending]
    rfl
  refine ⟨⟨?_, h.task, nofun, h.answered, ?_⟩, hload⟩
  · rintro seq state (hnew | hnew)
    · exact h.file seq state (.inr hnew)
    · cases hnew
  · intro seq hmem
    have hsame : loadedSeq { s with files := ⟨s.files.pending, none⟩, writer := none } = loadedSeq s := by
      unfold loadedSeq
      rw [hload]
    rw [hsame]
    exact h.returned seq hmem

/-- The lock is free after a failed or a stale write. -/
theorem Inv.gaveUp (h : Inv build s) {w : Writer σ} (hw : s.writer = some w) {result : WriteResult}
    (hresult : result ≠ .saved) : Inv build (s.returns w result) :=
  (h.setWriter none nofun).returns (h.writer w hw).1 fun hsaved => absurd hsaved hresult

/-- What a step does while a task holds the lock. -/
inductive Wrote (s : Sys α σ) (w : Writer σ) : Sys α σ → Prop where
  | gaveUp (result : WriteResult) (h : result ≠ .saved) : Wrote s w (s.returns w result)
  | checked (hstage : w.stage = .entered) (hcurrent : s.saveSeq = w.save.seq) :
      Wrote s w { s with writer := some { w with stage := .current } }
  | staged (hstage : w.stage = .current) : Wrote s w { s with writer := some { w with stage := .staged } }
  | promoted (hstage : w.stage = .staged) :
      Wrote s w { s with
        writer := some { w with stage := .promoted }
        files := { s.files with pending := some (.state w.save.seq w.save.state) } }
  | renamed (hstage : w.stage = .promoted) :
      Wrote s w ({ s with files := ⟨s.files.pending, none⟩ }.returns w .saved)

/-- What a step does to the tasks and the app; the files and the results stay. -/
inductive Moved (build : α → σ) (s : Sys α σ) : Sys α σ → Prop where
  | change (app : α) : Moved build s (saveSession build s app)
  | task (i : ℕ) (old task : Task σ) (exitPending : Bool) (hold : s.tasks i = some old)
      (hexit : task.exit = old.exit) (hsave : ∀ save, task.phase.save? = some save →
        old.phase.save? = some save) (hreturned : ∀ save result, task.phase ≠ .returned save result) :
      Moved build s { s.setTask i task with exitPending := exitPending }
  | exit (prepare : σ → σ) :
      Moved build s { s.setTask s.count ⟨some prepare, .start⟩ with exitPending := true, count := s.count + 1 }
  | snapshot (i : ℕ) (prepare : σ → σ) :
      Moved build s ((s.take (prepare (build s.app))).setTask i
        ⟨some prepare, .queued ⟨s.saveSeq + 1, prepare (build s.app), s.restoreFailed⟩⟩)
  | enter (i : ℕ) (exit : Option (σ → σ)) (save : Save σ) (htask : s.tasks i = some ⟨exit, .queued save⟩)
      (hfree : s.writer = none) :
      Moved build s { s.setTask i ⟨exit, .writing save⟩ with
        writer := some ⟨i, exit, save, .entered, s.files.load⟩ }
  | flags (exitPending stopped : Bool) : Moved build s { s with exitPending := exitPending, stopped := stopped }

theorem finishExit_moved {i : ℕ} {prepare : σ → σ} {save : Save σ} {result : WriteResult}
    (htask : s.tasks i = some ⟨some prepare, .returned save result⟩) :
    Moved build s (finishExit s i prepare save result) := by
  have hstart : Moved build s (s.setTask i ⟨some prepare, .start⟩) :=
    .task i _ ⟨some prepare, .start⟩ s.exitPending htask rfl nofun nofun
  have hdone : Moved build s { s.setTask i ⟨some prepare, .done⟩ with exitPending := false } :=
    .task i _ ⟨some prepare, .done⟩ false htask rfl nofun nofun
  rcases result with _ | _ | _
  · unfold finishExit
    dsimp only
    split_ifs
    · exact hdone
    · exact hstart
  · exact hstart
  · exact hdone

theorem step_cases {label : Label α σ} (hstep : step build s label = some s') :
    Moved build s s' ∨ ∃ w, s.writer = some w ∧ Wrote s w s' := by
  unfold step at hstep
  split_ifs at hstep
  rcases label with app | i | prepare | i | i | _ | ok | ok | ok | i | pending | _
  · cases hstep
    exact .inl (.change app)
  · left
    simp only [stepRunning] at hstep
    split at hstep
    · next exit save htask =>
      cases hstep
      split_ifs
      · exact .task i _ ⟨exit, .done⟩ s.exitPending htask rfl nofun nofun
      · exact .task i _ ⟨exit, .queued save⟩ s.exitPending htask rfl (fun _ h => h) nofun
    · cases hstep
  · left
    simp only [stepRunning] at hstep
    split_ifs at hstep
    · cases hstep
      exact .flags s.exitPending s.stopped
    · cases hstep
      exact .exit prepare
  · left
    simp only [stepRunning] at hstep
    split at hstep
    · next prepare htask =>
      cases hstep
      exact .snapshot i prepare
    · cases hstep
  · left
    simp only [stepRunning] at hstep
    split at hstep
    · next exit save hfree htask =>
      cases hstep
      exact .enter i exit save htask hfree
    · cases hstep
  · right
    simp only [stepRunning] at hstep
    split at hstep
    · next w hw =>
      refine ⟨w, hw, ?_⟩
      split_ifs at hstep with hstage hfailed hstale
      · cases hstep
        exact .gaveUp .failed nofun
      · cases hstep
        exact .gaveUp .stale nofun
      · cases hstep
        exact .checked (not_not.1 hstage) (not_not.1 hstale)
    · cases hstep
  · right
    simp only [stepRunning] at hstep
    split at hstep
    · next w hw =>
      refine ⟨w, hw, ?_⟩
      split_ifs at hstep with hstage hok
      · cases hstep
        exact .staged (not_not.1 hstage)
      · cases hstep
        exact .gaveUp .failed nofun
    · cases hstep
  · right
    simp only [stepRunning] at hstep
    split at hstep
    · next w hw =>
      refine ⟨w, hw, ?_⟩
      split_ifs at hstep with hstage hok
      · cases hstep
        exact .promoted (not_not.1 hstage)
      · cases hstep
        exact .gaveUp .failed nofun
    · cases hstep
  · right
    simp only [stepRunning] at hstep
    split at hstep
    · next w hw =>
      refine ⟨w, hw, ?_⟩
      split_ifs at hstep with hstage hok
      · cases hstep
        exact .renamed (not_not.1 hstage)
      · cases hstep
        exact .gaveUp .failed nofun
    · cases hstep
  · left
    simp only [stepRunning] at hstep
    split at hstep
    · next save result htask =>
      cases hstep
      exact .task i _ ⟨none, .done⟩ s.exitPending htask rfl nofun nofun
    · next prepare save result htask =>
      cases hstep
      exact finishExit_moved htask
    · cases hstep
  · cases hstep
    exact .inl (.flags pending s.stopped)
  · cases hstep
    exact .inl (.flags s.exitPending true)

theorem Inv.moved (h : Inv build s) (hmoved : Moved build s s') : Inv build s' := by
  cases hmoved with
  | change app => exact h.saveSession app
  | task i old task exitPending hold hexit hsave hreturned =>
    have hset := h.setTask i task ?_ (fun save hphase => absurd hphase (hreturned save .saved))
    · exact ⟨hset.file, hset.task, hset.writer, hset.answered, hset.returned⟩
    · intro save hphase
      rw [hexit]
      exact h.task i old save hold (hsave save hphase)
  | exit prepare =>
    have hset := h.setTask s.count ⟨some prepare, .start⟩ nofun nofun
    exact ⟨hset.file, hset.task, hset.writer, hset.answered, hset.returned⟩
  | snapshot i prepare => exact h.snapshot i prepare
  | enter i exit save htask hfree =>
    have ht := h.task i _ save htask rfl
    have hset := h.setTask i ⟨exit, .writing save⟩ (fun _ hsave => Option.some.inj hsave ▸ ht) nofun
    refine hset.setWriter (some ⟨i, exit, save, .entered, s.files.load⟩) ?_
    rintro w ⟨⟩
    exact ⟨ht, fun hne => absurd rfl hne, fun _ => rfl, nofun⟩
  | flags exitPending stopped => exact ⟨h.file, h.task, h.writer, h.answered, h.returned⟩

theorem moved_files (hmoved : Moved build s s') : s'.files = s.files ∧ s'.returned = s.returned := by
  cases hmoved with
  | change app =>
    unfold saveSession
    dsimp only
    split_ifs
    · exact ⟨rfl, rfl⟩
    · exact ⟨rfl, rfl⟩
  | task | exit | snapshot | enter | flags => exact ⟨rfl, rfl⟩

theorem Inv.wrote (h : Inv build s) {w : Writer σ} (hw : s.writer = some w) (hwrote : Wrote s w s') :
    Inv build s' ∧ loadedSeq s ≤ loadedSeq s' := by
  obtain ⟨ht, hwriting⟩ := h.writer w hw
  cases hwrote with
  | gaveUp result hresult => exact ⟨h.gaveUp hw hresult, le_rfl⟩
  | checked hstage hcurrent =>
    refine ⟨h.setWriter _ ?_, le_rfl⟩
    rintro w' ⟨⟩
    refine ⟨ht, ?_, fun _ => hwriting.before (by rw [hstage]; nofun), nofun⟩
    intro _ seq state hhas
    exact (h.file seq state hhas).1.trans_eq hcurrent
  | staged hstage =>
    refine ⟨h.setWriter _ ?_, le_rfl⟩
    rintro w' ⟨⟩
    exact ⟨ht, fun _ => hwriting.below (by rw [hstage]; nofun),
      fun _ => hwriting.before (by rw [hstage]; nofun), nofun⟩
  | promoted hstage =>
    have hbelow : loadedSeq s ≤ (w.save.seq : WithBot ℕ) :=
      loadedSeq_le (hwriting.below (by rw [hstage]; nofun))
    exact ⟨h.promote hw hstage, hbelow⟩
  | renamed hstage =>
    obtain ⟨hinv, hload⟩ := h.rename hw hstage
    have hpending := load_of_pending (hwriting.promoted hstage)
    have hsame : loadedSeq { s with files := ⟨s.files.pending, none⟩ } = loadedSeq s := by
      unfold loadedSeq
      rw [hload]
    refine ⟨Inv.returns (s := { s with files := ⟨s.files.pending, none⟩ }) hinv ht fun _ => ?_, hsame.ge⟩
    rw [hsame, loadedSeq_of_load hpending]

/-- A step keeps the invariant, and the number of what the loader returns does not decrease. -/
theorem Inv.step (h : Inv build s) {label : Label α σ} (hstep : step build s label = some s') :
    Inv build s' ∧ loadedSeq s ≤ loadedSeq s' := by
  rcases step_cases hstep with hmoved | ⟨w, hw, hwrote⟩
  · exact ⟨h.moved hmoved, (loadedSeq_congr (moved_files hmoved).1).ge⟩
  · exact h.wrote hw hwrote

/-- A write that failed leaves what was there before it, or what it wrote. -/
theorem Inv.failed (h : Inv build s) {label : Label α σ} (hstep : SessionSave.step build s label = some s')
    {w : Writer σ} (hw : s.writer = some w) (hfailed : s'.returned = s.returned ++ [(w.save.seq, .failed)]) :
    s'.files.load = w.before ∨ s'.files.load = some (w.save.seq, w.save.state) := by
  have hdiffer : s.returned ≠ s.returned ++ [(w.save.seq, .failed)] := by
    intro hsame
    have hlength := congrArg List.length hsame
    rw [List.length_append, List.length_singleton] at hlength
    omega
  obtain ⟨-, hwriting⟩ := h.writer w hw
  have hkept : s.files.load = w.before ∨ s.files.load = some (w.save.seq, w.save.state) := by
    by_cases hstage : w.stage = .promoted
    · exact .inr (load_of_pending (hwriting.promoted hstage))
    · exact .inl (hwriting.before hstage)
  rcases step_cases hstep with hmoved | ⟨w', hw', hwrote⟩
  · exact absurd ((moved_files hmoved).2.symm.trans hfailed) hdiffer
  · obtain rfl : w = w' := Option.some.inj (hw.symm.trans hw')
    cases hwrote with
    | gaveUp result hresult => exact hkept
    | checked => exact absurd hfailed hdiffer
    | staged => exact absurd hfailed hdiffer
    | promoted => exact absurd hfailed hdiffer
    | renamed hstage =>
      have hresult := List.append_cancel_left (hfailed : s.returned ++ _ = s.returned ++ _)
      cases hresult

/-- When `on_saved` runs, the loader would return the app as it is. -/
theorem Inv.onSaved (h : Inv build s) {i : ℕ} {prepare : σ → σ} (hsaved : s.onSaved i = some prepare) :
    s.files.load = some (s.saveSeq, prepare (build s.app)) := by
  unfold Sys.onSaved at hsaved
  split at hsaved
  · next prepare' save htask =>
    split_ifs at hsaved with hlast
    cases hsaved
    have ht := h.task i _ save htask rfl
    have hstate := ht.current hlast.symm prepare rfl
    have hle := h.returned save.seq (h.answered i _ save htask)
    rcases hload : s.files.load with _ | ⟨seq, state⟩
    · unfold loadedSeq at hle
      rw [hload] at hle
      exact absurd hle (WithBot.not_coe_le_bot _)
    · obtain ⟨hseq, hmade⟩ := h.file seq state (Files.load_has hload)
      rw [loadedSeq_of_load hload] at hle
      have hle : save.seq ≤ seq := WithBot.coe_le_coe.1 hle
      have hpos := ht.pos
      have hsame : seq = save.seq := by omega
      subst hsame
      rcases hmade with hzero | hmade
      · omega
      · have hstates : save.state = state := Option.some.inj (ht.made.symm.trans hmade)
        rw [← hstates, hstate, ← hlast]
  · cases hsaved

/-- The states of the runs of the process. -/
abbrev SessionReach (build : α → σ) : Sys α σ → Prop :=
  Transition.Reach (step build) Init fun _ _ => True

theorem SessionReach.inv (hreach : SessionReach build s) : Inv build s := by
  refine Transition.Reach.invariant (fun s hinit => inv_init hinit) ?_ hreach
  intro s label s' h _ hstep
  exact (h.step hstep).1

/-- **What the loader would return**, in every state of every run: its number never decreases; after a write that
returned `Ok(true)` it is at least that of the write; after one that failed it is what it was when the write began, or
what was written; and when `on_saved` runs it is the snapshot of the app as it is. -/
theorem session_saved (hreach : SessionReach build s) :
    (∀ s', Transition.Run (step build) (fun _ _ => True) s s' → loadedSeq s ≤ loadedSeq s') ∧
    (∀ seq, (seq, .saved) ∈ s.returned → (seq : WithBot ℕ) ≤ loadedSeq s) ∧
    (∀ label s' w, step build s label = some s' → s.writer = some w →
      s'.returned = s.returned ++ [(w.save.seq, .failed)] →
      s'.files.load = w.before ∨ s'.files.load = some (w.save.seq, w.save.state)) ∧
    (∀ i prepare, s.onSaved i = some prepare →
      s.files.load = some (s.saveSeq, prepare (build s.app))) := by
  have hinv := hreach.inv
  refine ⟨?_, hinv.returned, ?_, fun i prepare hsaved => hinv.onSaved hsaved⟩
  · intro s' hrun
    refine Transition.Run.invariant (I := Inv build) (P := fun t => loadedSeq s ≤ loadedSeq t) ?_ ?_ hrun hinv
      le_rfl
    · intro t label t' ht _ hstep
      exact (ht.step hstep).1
    · intro t label t' ht hle _ hstep
      exact hle.trans (ht.step hstep).2
  · intro label s' w hstep hw hfailed
    exact hinv.failed hstep hw hfailed

/-- A process that begins with a session on disk. -/
def sampleStart : Sys ℕ ℕ :=
  ⟨7, 0, false, false, false, 0, fun _ => none, none, ⟨some (.state 0 1), none⟩, fun _ => none, []⟩

/-- An exit whose first snapshot is overtaken by a change of the app. -/
def sampleLabels : List (Label ℕ ℕ) :=
  [.exit id, .snapshot 0, .change 8, .enter 0, .check, .finish 0, .snapshot 0, .enter 0, .check,
    .stage true, .promote true, .rename true]

theorem session_saved_exit :
    ∃ s, SessionReach id s ∧ s.onSaved 0 = some id ∧ s.app = 8 ∧ s.files.load = some (3, 8) := by
  have hinit : Init sampleStart := by
    refine ⟨rfl, fun _ => rfl, rfl, ?_, rfl⟩
    rintro seq state (hfile | hfile)
    · cases hfile
      rfl
    · cases hfile
  obtain ⟨s, hfollow⟩ : ∃ s, Transition.follow (step id) (fun _ _ => True) sampleStart sampleLabels = some s :=
    ⟨_, rfl⟩
  have hreach : SessionReach id s := Transition.Reach.follow (.init hinit) sampleLabels hfollow
  have hs : s.onSaved 0 = some id ∧ s.app = 8 ∧ s.saveSeq = 3 := by
    cases hfollow
    exact ⟨rfl, rfl, rfl⟩
  obtain ⟨hsaved, happ, hseq⟩ := hs
  have hload := (session_saved hreach).2.2.2 0 id hsaved
  rw [happ, hseq] at hload
  exact ⟨s, hreach, hsaved, happ, hload⟩

end Paneflow.App.SessionSave
