import Paneflow.Checked
import Paneflow.Lines
import Paneflow.Numerals
import Paneflow.Past
import Paneflow.Text
import Mathlib.Data.List.Sort
import Mathlib.Data.Nat.Digits.Defs
import Mathlib.Logic.Function.Basic

/-!
# Snapshots of worktrees

worktree.rs of the workspace. A worktree with uncommitted work is committed aside before it is removed: the commit is
kept alive by a reference, whose name is the slug of the branch and the second in which it was taken.

Git is the environment of the functions: what it answers to the calls of a function is the function's first argument.
A repository is the references it has, with a record of what was done to them.
-/

namespace Paneflow.Workspace.Worktree

open Paneflow.Checked Paneflow.Lines Paneflow.Numerals Paneflow.Past Paneflow.Text

/-! ### Names -/

def isSlugChar (c : Char) : Bool := c.isAlphanum || c = '.' || c = '_' || c = '-'

def branchSlug (branch : List Char) : List Char :=
  trimMatches (fun c => c = '-' || c = '.') (branch.map fun c => if isSlugChar c then c else '-')

def branchSlugOrDefault (branch : List Char) : List Char :=
  if branchSlug branch = [] then "branch".toList else branchSlug branch

def snapshotRefPrefix : List Char := "refs/paneflow/snapshots/".toList

/-! ### Snapshots -/

structure Snapshot where
  reference : List Char
  commit : List Char
  head : List Char
  branch : Option (List Char)
  path : List Char
  takenAt : ℕ
  deriving DecidableEq, Repr

/-- What the reference of a snapshot is named after: its branch, or its path where no branch is checked out. -/
def snapshotLabel (branch : Option (List Char)) (path : List Char) : List Char :=
  match branch with
  | some branch => branchSlugOrDefault branch
  | none => branchSlugOrDefault path

def Snapshot.label (snapshot : Snapshot) : List Char := snapshotLabel snapshot.branch snapshot.path

def snapshotReference (label : List Char) (takenAt : ℕ) : List Char :=
  snapshotRefPrefix ++ label ++ '-' :: Nat.toDigits 10 takenAt

inductive Event where
  | taken (snapshot : Snapshot)
  | deleted (snapshot : Snapshot)
  | removed (path : List Char) (snapshot : Option Snapshot)
  deriving DecidableEq, Repr

structure Repo where
  refs : List Char → Option (List Char)
  events : List Event

abbrev Refs := List Char → Option (List Char)

/-- What an event does to the references. -/
def Event.apply (refs : Refs) : Event → Refs
  | .taken snapshot => Function.update refs snapshot.reference (some snapshot.commit)
  | .deleted snapshot => Function.update refs snapshot.reference none
  | .removed _ _ => refs

def Repo.record (repo : Repo) (event : Event) : Repo :=
  ⟨event.apply repo.refs, repo.events ++ [event]⟩

/-- What git answers to the calls of `snapshot_worktree`, and the clock. -/
structure SnapshotAnswers where
  head : Except (List Char) (List Char)
  symbolicRef : Except (List Char) (List Char)
  gitDir : Option (List Char)
  add : Except (List Char) Unit
  writeTree : Except (List Char) (List Char)
  unixNow : ℕ
  commitTree : (tree head message : List Char) → Except (List Char) (List Char)
  updateRef : Except (List Char) Unit

def currentBranch (answers : SnapshotAnswers) : Option (List Char) :=
  match answers.symbolicRef with
  | .ok branch => if branch = [] then none else some branch
  | .error _ => none

def snapshotMessage (branch : Option (List Char)) (path head : List Char) (takenAt : ℕ) : List Char :=
  "Paneflow snapshot of ".toList ++ branch.getD "detached HEAD".toList ++ "\n\nPaneflow-Path: ".toList ++ path ++
    "\nPaneflow-Branch: ".toList ++ branch.getD [] ++ "\nPaneflow-Head: ".toList ++ head ++
    "\nPaneflow-Taken-At: ".toList ++ Nat.toDigits 10 takenAt ++ ['\n']

def locatedGitDir (answers : SnapshotAnswers) (path : List Char) : Except (List Char) (List Char) :=
  match answers.gitDir with
  | some gitDir => .ok gitDir
  | none => .error ("cannot locate the git dir of ".toList ++ path ++ ": no `.git` pointer file".toList)

/-- The git calls of `snapshot_worktree` up to the commit. -/
def prepareSnapshot (answers : SnapshotAnswers) (path : List Char) : Except (List Char) Snapshot := do
  let head ← answers.head
  let branch := currentBranch answers
  let _ ← locatedGitDir answers path
  answers.add.mapError ("git add -A failed: ".toList ++ ·)
  let tree ← answers.writeTree.mapError ("git write-tree failed: ".toList ++ ·)
  let takenAt := answers.unixNow
  let commit ← answers.commitTree tree head (snapshotMessage branch path head takenAt)
  return { reference := snapshotReference (snapshotLabel branch path) takenAt, commit, head, branch, path, takenAt }

def snapshotWorktree (answers : SnapshotAnswers) (path : List Char) (repo : Repo) :
    Except (List Char) Snapshot × Repo :=
  match prepareSnapshot answers path with
  | .error e => (.error e, repo)
  | .ok snapshot =>
    match answers.updateRef with
    | .error e => (.error e, repo)
    | .ok () => (.ok snapshot, repo.record (.taken snapshot))

def deleteSnapshot (updateRef : Except (List Char) Unit) (snapshot : Snapshot) (repo : Repo) :
    Except (List Char) Unit × Repo :=
  match updateRef with
  | .error e => (.error e, repo)
  | .ok () => (.ok (), repo.record (.deleted snapshot))

/-- What the calls of `restore_snapshot` give: the directory that is free for the snapshot, the new worktree, what is
read into it, and the deletion of the reference at last. -/
structure RestoreAnswers where
  directory : Except (List Char) (List Char)
  worktreeAdd : Except (List Char) Unit
  finish : Except (List Char) Unit
  updateRef : Except (List Char) Unit

def restoreSnapshot (answers : RestoreAnswers) (snapshot : Snapshot) (repo : Repo) :
    Except (List Char) (List Char) × Repo :=
  match answers.directory, answers.worktreeAdd, answers.finish with
  | .error e, _, _ => (.error e, repo)
  | .ok _, .error e, _ => (.error e, repo)
  | .ok _, .ok (), .error e => (.error e, repo)
  | .ok path, .ok (), .ok () => (.ok path, (deleteSnapshot answers.updateRef snapshot repo).2)

/-! ### Removing worktrees -/

def removeAttempts : ℕ := 6

/-- The outcome of the last attempt; there is another one as long as they fail. -/
def retryWhileHeld (attempts : ℕ) (remove : ℕ → Except (List Char) Unit) : Except (List Char) Unit :=
  (List.range' 1 (max attempts 1 - 1)).foldl
    (fun outcome attempt => match outcome with
      | .ok () => .ok ()
      | .error _ => remove attempt)
    (remove 0)

structure RemoveAnswers where
  hasOwnerMarker : Bool
  isClean : Except (List Char) Bool
  snapshot : SnapshotAnswers
  worktreeRemove : ℕ → Except (List Char) Unit

/-- The snapshot of a worktree that is not clean. -/
def snapshotIfDirty (answers : RemoveAnswers) (path : List Char) (repo : Repo) :
    Except (List Char) (Option Snapshot) × Repo :=
  match answers.isClean with
  | .error e => (.error e, repo)
  | .ok true => (.ok none, repo)
  | .ok false => ((snapshotWorktree answers.snapshot path repo).1.map some, (snapshotWorktree answers.snapshot path repo).2)

def snapshotAndRemove (answers : RemoveAnswers) (path : List Char) (repo : Repo) :
    Except (List Char) (Option Snapshot) × Repo :=
  if answers.hasOwnerMarker = false then
    (.error (path ++ " was not created by Paneflow - remove it with git worktree remove".toList), repo)
  else
    match snapshotIfDirty answers path repo with
    | (.error e, repo) => (.error e, repo)
    | (.ok snapshot, repo) =>
      match retryWhileHeld removeAttempts answers.worktreeRemove with
      | .error e => (.error e, repo)
      | .ok () => (.ok snapshot, repo.record (.removed path snapshot))

inductive TeardownPolicy where
  | auto
  | keep
  deriving DecidableEq, Repr

structure ManagedWorktree where
  path : List Char
  branch : List Char
  teardown : TeardownPolicy
  deriving DecidableEq, Repr

def keptWorktreeMessage (path error : List Char) : List Char := path ++ " was kept: ".toList ++ error

/-- The file system, and what git answers for each worktree of a loop. -/
structure LoopAnswers where
  pathExists : List Char → Bool
  createdAt : List Char → Option ℕ
  remove : ℕ → RemoveAnswers

structure Trimmed where
  repo : Repo
  removed : List (List Char)
  kept : List (List Char)

/-- By its name in the loops below, instead of a proof of its own in each. -/
local instance lawfulPath : LawfulBEq (List Char) := inferInstance

/-- The loop of `trim_to_limit`; `index` counts the worktrees that were tried. -/
def trimLoop (answers : LoopAnswers) (bound : List (List Char)) :
    List ManagedWorktree → (excess index : ℕ) → Trimmed → Trimmed
  | [], _, _, trimmed => trimmed
  | _ :: _, 0, _, trimmed => trimmed
  | wt :: worktrees, excess + 1, index, trimmed =>
    if wt.path ∈ bound then trimLoop answers bound worktrees (excess + 1) index trimmed
    else
      match snapshotAndRemove (answers.remove index) wt.path trimmed.repo with
      | (.ok _, repo) =>
        trimLoop answers bound worktrees excess (index + 1)
          { trimmed with repo, removed := trimmed.removed ++ [wt.path] }
      | (.error e, repo) =>
        trimLoop answers bound worktrees (excess + 1) (index + 1)
          { trimmed with repo, kept := trimmed.kept ++ [keptWorktreeMessage wt.path e] }

def trimToLimit (answers : LoopAnswers) (candidates : List ManagedWorktree) (keep : ℕ)
    (bound : List (List Char)) (repo : Repo) : Trimmed :=
  let aged := (candidates.filter fun wt => wt.teardown = .auto && answers.pathExists wt.path).map fun wt =>
    ((answers.createdAt wt.path).getD 0, wt)
  if aged.length ≤ keep then ⟨repo, [], []⟩
  else
    trimLoop answers bound ((aged.insertionSort fun a b => a.1 ≤ b.1).map Prod.snd) (aged.length - keep) 0 ⟨repo, [], []⟩

/-- The loop of `teardown_all`. -/
def teardownLoop (answers : LoopAnswers) : List ManagedWorktree → ℕ → Repo × List (List Char) → Repo × List (List Char)
  | [], _, result => result
  | wt :: worktrees, index, (repo, kept) =>
    if wt.teardown = .keep ∨ answers.pathExists wt.path = false then
      teardownLoop answers worktrees (index + 1) (repo, kept)
    else
      match snapshotAndRemove (answers.remove index) wt.path repo with
      | (.ok _, repo) => teardownLoop answers worktrees (index + 1) (repo, kept)
      | (.error e, repo) => teardownLoop answers worktrees (index + 1) (repo, kept ++ [keptWorktreeMessage wt.path e])

def teardownAll (answers : LoopAnswers) (worktrees : List ManagedWorktree) (repo : Repo) : Repo × List (List Char) :=
  teardownLoop answers worktrees 0 (repo, [])

/-! ### Runs -/

inductive Op where
  | snapshot (answers : SnapshotAnswers) (path : List Char)
  | remove (answers : RemoveAnswers) (path : List Char)
  | trim (answers : LoopAnswers) (candidates : List ManagedWorktree) (keep : ℕ) (bound : List (List Char))
  | teardown (answers : LoopAnswers) (worktrees : List ManagedWorktree)
  | delete (updateRef : Except (List Char) Unit) (snapshot : Snapshot)
  | restore (answers : RestoreAnswers) (snapshot : Snapshot)

def Op.apply (repo : Repo) : Op → Repo
  | .snapshot answers path => (snapshotWorktree answers path repo).2
  | .remove answers path => (snapshotAndRemove answers path repo).2
  | .trim answers candidates keep bound => (trimToLimit answers candidates keep bound repo).repo
  | .teardown answers worktrees => (teardownAll answers worktrees repo).1
  | .delete updateRef old => (deleteSnapshot updateRef old repo).2
  | .restore answers old => (restoreSnapshot answers old repo).2

/-- The repository after some calls; at first nothing was recorded. -/
def run (refs : Refs) (ops : List Op) : Repo := ops.foldl Op.apply ⟨refs, []⟩

/-! ### What a call does to the references -/

def refsAfter (refs : Refs) (events : List Event) : Refs := events.foldl Event.apply refs

/-- The reference of a snapshot is named after its label and its second. -/
def Named (snapshot : Snapshot) : Prop := snapshot.reference = snapshotReference snapshot.label snapshot.takenAt

def Event.WellNamed : Event → Prop
  | .taken snapshot => Named snapshot
  | _ => True

/-- Some events were recorded, and the references are those behind them. -/
def Grows (repo repo' : Repo) : Prop :=
  ∃ events, repo'.events = repo.events ++ events ∧ repo'.refs = refsAfter repo.refs events ∧
    ∀ event ∈ events, event.WellNamed

variable {repo repo' repo'' : Repo} {refs : Refs} {event : Event} {events : List Event} {path : List Char}
  {snapshot other : Snapshot}

theorem refsAfter_append (refs : Refs) (events more : List Event) :
    refsAfter refs (events ++ more) = refsAfter (refsAfter refs events) more := List.foldl_append

theorem Grows.refl (repo : Repo) : Grows repo repo := ⟨[], by simp, rfl, by simp⟩

theorem Grows.trans (h : Grows repo repo') (h' : Grows repo' repo'') : Grows repo repo'' := by
  obtain ⟨events, hevents, hrefs, hnamed⟩ := h
  obtain ⟨more, hmore, hrefs', hnamed'⟩ := h'
  refine ⟨events ++ more, ?_, ?_, ?_⟩
  · rw [hmore, hevents, List.append_assoc]
  · rw [hrefs', hrefs, refsAfter_append]
  · intro event hevent
    rcases List.mem_append.1 hevent with hevent | hevent
    · exact hnamed event hevent
    · exact hnamed' event hevent

theorem grows_record (repo : Repo) (h : event.WellNamed) : Grows repo (repo.record event) :=
  ⟨[event], rfl, rfl, by simpa using h⟩

theorem named_prepareSnapshot {answers : SnapshotAnswers} (h : prepareSnapshot answers path = .ok snapshot) :
    Named snapshot := by
  unfold prepareSnapshot at h
  simp only [bind_eq_ok] at h
  obtain ⟨head, -, -, -, -, -, tree, -, commit, -, h⟩ := h
  cases h
  rfl

theorem grows_snapshotWorktree (answers : SnapshotAnswers) (path : List Char) (repo : Repo) :
    Grows repo (snapshotWorktree answers path repo).2 := by
  unfold snapshotWorktree
  rcases hprepared : prepareSnapshot answers path with e | snapshot
  · exact .refl repo
  · rcases answers.updateRef with e | -
    · exact .refl repo
    · exact grows_record repo (named_prepareSnapshot hprepared)

theorem grows_deleteSnapshot (updateRef : Except (List Char) Unit) (snapshot : Snapshot) (repo : Repo) :
    Grows repo (deleteSnapshot updateRef snapshot repo).2 := by
  rcases updateRef with e | -
  · exact .refl repo
  · exact grows_record repo trivial

theorem grows_restoreSnapshot (answers : RestoreAnswers) (snapshot : Snapshot) (repo : Repo) :
    Grows repo (restoreSnapshot answers snapshot repo).2 := by
  unfold restoreSnapshot
  rcases answers.directory with e | path
  · exact .refl repo
  rcases answers.worktreeAdd with e | -
  · exact .refl repo
  rcases answers.finish with e | -
  · exact .refl repo
  exact grows_deleteSnapshot answers.updateRef snapshot repo

theorem grows_snapshotIfDirty (answers : RemoveAnswers) (path : List Char) (repo : Repo) :
    Grows repo (snapshotIfDirty answers path repo).2 := by
  unfold snapshotIfDirty
  rcases answers.isClean with e | clean
  · exact .refl repo
  · rcases clean with _ | _
    · exact grows_snapshotWorktree answers.snapshot path repo
    · exact .refl repo

theorem grows_snapshotAndRemove (answers : RemoveAnswers) (path : List Char) (repo : Repo) :
    Grows repo (snapshotAndRemove answers path repo).2 := by
  have hgrows := grows_snapshotIfDirty answers path repo
  unfold snapshotAndRemove
  split_ifs with howner
  · exact .refl repo
  · generalize snapshotIfDirty answers path repo = result at hgrows
    rcases result with ⟨e | snapshot, repo'⟩
    · exact hgrows
    · rcases retryWhileHeld removeAttempts answers.worktreeRemove with e | -
      · exact hgrows
      · exact hgrows.trans (grows_record repo' trivial)

theorem grows_trimLoop (answers : LoopAnswers) (bound : List (List Char)) (worktrees : List ManagedWorktree) :
    ∀ (excess index : ℕ) (trimmed : Trimmed),
      Grows trimmed.repo (trimLoop answers bound worktrees excess index trimmed).repo := by
  induction worktrees with
  | nil => exact fun _ _ trimmed => .refl trimmed.repo
  | cons wt worktrees ih =>
    intro excess index trimmed
    rcases excess with _ | excess
    · exact .refl trimmed.repo
    · have hgrows := grows_snapshotAndRemove (answers.remove index) wt.path trimmed.repo
      unfold trimLoop
      split_ifs with hbound
      · exact ih _ _ _
      · rcases hremoved : snapshotAndRemove (answers.remove index) wt.path trimmed.repo with ⟨e | snapshot, repo⟩
        · rw [hremoved] at hgrows
          exact hgrows.trans (ih _ _ _)
        · rw [hremoved] at hgrows
          exact hgrows.trans (ih _ _ _)

theorem grows_trimToLimit (answers : LoopAnswers) (candidates : List ManagedWorktree) (keep : ℕ)
    (bound : List (List Char)) (repo : Repo) : Grows repo (trimToLimit answers candidates keep bound repo).repo := by
  unfold trimToLimit
  dsimp only
  split_ifs with hkeep
  · exact .refl repo
  · exact grows_trimLoop answers bound _ _ _ ⟨repo, [], []⟩

theorem grows_teardownLoop (answers : LoopAnswers) (worktrees : List ManagedWorktree) :
    ∀ (index : ℕ) (result : Repo × List (List Char)),
      Grows result.1 (teardownLoop answers worktrees index result).1 := by
  induction worktrees with
  | nil => exact fun _ result => .refl result.1
  | cons wt worktrees ih =>
    rintro index ⟨repo, kept⟩
    have hgrows := grows_snapshotAndRemove (answers.remove index) wt.path repo
    unfold teardownLoop
    split_ifs with hkeep
    · exact ih _ _
    · rcases hremoved : snapshotAndRemove (answers.remove index) wt.path repo with ⟨e | snapshot, repo'⟩
      · rw [hremoved] at hgrows
        exact hgrows.trans (ih _ _)
      · rw [hremoved] at hgrows
        exact hgrows.trans (ih _ _)

theorem Op.grows (op : Op) (repo : Repo) : Grows repo (op.apply repo) := by
  cases op with
  | snapshot answers path => exact grows_snapshotWorktree answers path repo
  | remove answers path => exact grows_snapshotAndRemove answers path repo
  | trim answers candidates keep bound => exact grows_trimToLimit answers candidates keep bound repo
  | teardown answers worktrees => exact grows_teardownLoop answers worktrees 0 (repo, [])
  | delete updateRef old => exact grows_deleteSnapshot updateRef old repo
  | restore answers old => exact grows_restoreSnapshot answers old repo

theorem grows_run (refs : Refs) (ops : List Op) : Grows ⟨refs, []⟩ (run refs ops) := by
  have hfold : ∀ (ops : List Op) (repo : Repo), Grows repo (ops.foldl Op.apply repo) := by
    intro ops
    induction ops with
    | nil => exact .refl
    | cons op ops ih => exact fun repo => (op.grows repo).trans (ih (op.apply repo))
  exact hfold ops ⟨refs, []⟩

/-! ### Names that meet -/

theorem dash_notMem_digits (n : ℕ) : '-' ∉ (Nat.toDigits 10 n).reverse := by
  intro hmem
  have hdigit := isDigitIn_toDigits (by decide) (le_refl 10) n '-' (List.mem_reverse.1 hmem)
  exact absurd hdigit (by decide)

theorem toDigits_inj {n m : ℕ} (h : Nat.toDigits 10 n = Nat.toDigits 10 m) : n = m := by
  have hvalue := congrArg (Nat.ofDigitChars 10 · 0) h
  simpa only [Nat.ofDigitChars_toDigits (Nat.lt_of_sub_pos (by decide : 0 < 10 - 1)) (le_refl 10)] using hvalue

/-- The label and the second can be read off the name: the digits have no dash. -/
theorem snapshotReference_inj {label label' : List Char} {takenAt takenAt' : ℕ} :
    snapshotReference label takenAt = snapshotReference label' takenAt' ↔ label = label' ∧ takenAt = takenAt' := by
  constructor
  · intro h
    unfold snapshotReference at h
    rw [List.append_assoc, List.append_assoc] at h
    have hrest := List.append_cancel_left h
    have hreverse := congrArg List.reverse hrest
    simp only [List.reverse_append, List.reverse_cons, List.append_assoc, List.singleton_append] at hreverse
    have hsplit := congrArg (fun text => (splitLines '-' text).1.head?) hreverse
    simp only [splitLines_line (dash_notMem_digits _), List.head?_cons, Option.some.injEq] at hsplit
    rw [hsplit] at hreverse
    have hlabel := (List.cons.inj (List.append_cancel_left hreverse)).2
    exact ⟨List.reverse_injective hlabel, toDigits_inj (List.reverse_injective hsplit)⟩
  · rintro ⟨rfl, rfl⟩
    rfl

/-- The snapshot was taken and was not deleted since. -/
def Live (events : List Event) (snapshot : Snapshot) : Prop :=
  Since (fun _ event => event = .taken snapshot) (· ≠ .deleted snapshot) events

/-- Every snapshot that was not deleted is the value of its reference. -/
def Kept (refs : Refs) (events : List Event) : Prop :=
  ∀ snapshot, Live events snapshot → refsAfter refs events snapshot.reference = some snapshot.commit

/-- What an event must not meet: a snapshot of another commit with its slug and second, or another snapshot under the
reference that it deletes. -/
def Apart (events : List Event) : Event → Prop
  | .taken snapshot => ∀ other, Live events other → other.label = snapshot.label → other.takenAt = snapshot.takenAt →
    other.commit = snapshot.commit
  | .deleted snapshot => ∀ other, Live events other → other.reference = snapshot.reference → other = snapshot
  | .removed _ _ => True

theorem live_concat : Live (events ++ [event]) snapshot ↔
    event = .taken snapshot ∨ Live events snapshot ∧ event ≠ .deleted snapshot := since_concat

theorem refsAfter_concat (refs : Refs) (events : List Event) (event : Event) :
    refsAfter refs (events ++ [event]) = event.apply (refsAfter refs events) := by
  rw [refsAfter_append]
  rfl

theorem Live.named (hnamed : ∀ event ∈ events, event.WellNamed) (h : Live events snapshot) : Named snapshot := by
  obtain ⟨before, _, after, rfl, rfl, -⟩ := h
  exact hnamed (.taken snapshot) (by simp)

/-- An event keeps the snapshots if and only if it is apart from them. -/
theorem kept_concat_iff (hnamed : ∀ e ∈ events ++ [event], e.WellNamed) (hkept : Kept refs events) :
    Kept refs (events ++ [event]) ↔ Apart events event := by
  have hold : ∀ {snapshot}, Live events snapshot → Named snapshot := fun h =>
    h.named fun event hevent => hnamed event (by simp [hevent])
  unfold Kept
  simp only [live_concat, refsAfter_concat]
  rcases event with snapshot | snapshot | ⟨path, snapshot⟩
  · have hnew : Named snapshot := hnamed (.taken snapshot) (by simp)
    have hsame : ∀ {other}, Live events other →
        (other.reference = snapshot.reference ↔ other.label = snapshot.label ∧ other.takenAt = snapshot.takenAt) := by
      intro other hother
      rw [hold hother, hnew, snapshotReference_inj]
    constructor
    · intro h other hother hlabel hsecond
      have hvalue := h other (.inr ⟨hother, by simp⟩)
      simp only [Event.apply, (hsame hother).2 ⟨hlabel, hsecond⟩, Function.update_self] at hvalue
      exact (Option.some.inj hvalue).symm
    · rintro h other (hother | ⟨hother, -⟩)
      · cases hother
        simp [Event.apply]
      · by_cases hreference : other.reference = snapshot.reference
        · obtain ⟨hlabel, hsecond⟩ := (hsame hother).1 hreference
          simp [Event.apply, hreference, h other hother hlabel hsecond]
        · simp only [Event.apply, Function.update_of_ne hreference]
          exact hkept other hother
  · constructor
    · intro h other hother hreference
      by_contra hne
      have hvalue := h other (.inr ⟨hother, fun heq => hne (Event.deleted.inj heq).symm⟩)
      simp [Event.apply, hreference] at hvalue
    · rintro h other (hother | ⟨hother, hdeleted⟩)
      · cases hother
      · have hreference : other.reference ≠ snapshot.reference := by
          intro hreference
          exact hdeleted (by rw [h other hother hreference])
        simp only [Event.apply, Function.update_of_ne hreference]
        exact hkept other hother
  · constructor
    · exact fun _ => trivial
    · rintro - other (hother | ⟨hother, -⟩)
      · cases hother
      · exact hkept other hother

/-- **No snapshot is lost, unless two names meet.** At every point of every run each snapshot that was not deleted is
the value of its reference, if and only if no snapshot was taken with the slug and in the second of one of another
commit, and none was deleted under the reference of another. -/
theorem snapshots_kept_iff (refs : Refs) (ops : List Op) :
    (∀ events, events <+: (run refs ops).events → Kept refs events) ↔
      ∀ events event, events ++ [event] <+: (run refs ops).events → Apart events event := by
  obtain ⟨all, hall, -, hnamed⟩ := grows_run refs ops
  have hall : (run refs ops).events = all := hall
  rw [hall]
  have hnamed' : ∀ {events}, events <+: all → ∀ event ∈ events, event.WellNamed := fun hinitial event hevent =>
    hnamed event (hinitial.subset hevent)
  constructor
  · intro h events event hinitial
    have hbefore : events <+: all := (List.prefix_append events [event]).trans hinitial
    exact (kept_concat_iff (hnamed' hinitial) (h events hbefore)).1 (h _ hinitial)
  · intro h events
    -- one event after the other
    induction events using List.reverseRecOn with
    | nil => exact fun _ snapshot hlive => absurd hlive not_since_nil
    | append_singleton events event ih =>
      intro hinitial
      have hbefore : events <+: all := (List.prefix_append events [event]).trans hinitial
      exact (kept_concat_iff (hnamed' hinitial) (ih hbefore)).2 (h events event hinitial)

/-- Git answers for a dirty worktree that is on a branch. -/
def dirtyAnswers (branch commit : List Char) : RemoveAnswers where
  hasOwnerMarker := true
  isClean := .ok false
  snapshot := {
    head := .ok "1111".toList
    symbolicRef := .ok branch
    gitDir := some "/repo/.git/worktrees/w".toList
    add := .ok ()
    writeTree := .ok "2222".toList
    unixNow := 1700000000
    commitTree := fun _ _ _ => .ok commit
    updateRef := .ok () }
  worktreeRemove := fun _ => .ok ()

/-- Two dirty worktrees on the branches x/a and x-a are torn down in one second. -/
def slashAndDash : List Op :=
  [.teardown
    { pathExists := fun _ => true
      createdAt := fun _ => none
      remove := fun index =>
        if index = 0 then dirtyAnswers ['x', '/', 'a'] ['3'] else dirtyAnswers ['x', '-', 'a'] ['4'] }
    [⟨['/', 'u'], ['x', '/', 'a'], .auto⟩, ⟨['/', 'v'], ['x', '-', 'a'], .auto⟩]]

def ofBranch (branch path commit : List Char) : Snapshot :=
  ⟨snapshotReference (branchSlugOrDefault branch) 1700000000, commit, "1111".toList, some branch, path, 1700000000⟩

theorem events_slashAndDash : (run (fun _ => none) slashAndDash).events =
    [.taken (ofBranch ['x', '/', 'a'] ['/', 'u'] ['3']),
      .removed ['/', 'u'] (some (ofBranch ['x', '/', 'a'] ['/', 'u'] ['3'])),
      .taken (ofBranch ['x', '-', 'a'] ['/', 'v'] ['4']),
      .removed ['/', 'v'] (some (ofBranch ['x', '-', 'a'] ['/', 'v'] ['4']))] := by
  rfl

/-- The first of the two snapshots is lost: the second took its reference. -/
theorem snapshots_meet : ¬ ∀ events, events <+: (run (fun _ => none) slashAndDash).events →
    Kept (fun _ => none) events := by
  intro h
  have hlive : Live (run (fun _ => none) slashAndDash).events (ofBranch ['x', '/', 'a'] ['/', 'u'] ['3']) :=
    ⟨[], _, _, events_slashAndDash, rfl, by simp⟩
  have hvalue := h _ List.prefix_rfl _ hlive
  have hmet : snapshotReference (branchSlugOrDefault ['x', '-', 'a']) 1700000000 =
      snapshotReference (branchSlugOrDefault ['x', '/', 'a']) 1700000000 := by decide
  rw [events_slashAndDash] at hvalue
  simp [refsAfter, Event.apply, ofBranch, hmet] at hvalue

end Paneflow.Workspace.Worktree
