import Paneflow.Bfs
import Paneflow.Host.Runtimes

/-!
# The runtime in the foreground

`observe_foreground_runtime` of runtime_observer.rs on Linux, over the processes that `/proc` shows at one moment: the
members of the terminal's foreground group that the session leader or the group leader leads to (`mem_foregroundJob`),
and the runtime among them. A group leader that is a runtime is the answer (`identify_leader`); where it is none and has
no children, the strongest match with the lowest pid is (`identify_alone`).
-/

namespace Paneflow.Host.Foreground

open Paneflow.Bfs Paneflow.Host.Runtimes

/-- What `/proc` shows of a process. -/
structure Process where
  pid : UInt32
  startedAt : ℕ
  parent : UInt32
  group : UInt32
  session : UInt32
  name : List Char
  argv : Option (List (List Char))
  deriving DecidableEq, Repr

/-- The processes at one moment, and the foreground group of the terminal. -/
structure Machine where
  processes : List Process
  foreground : Option Int32
  /-- the pids that were given so far, with their start times -/
  used : List (UInt32 × ℕ)
  deriving DecidableEq, Repr

structure ProcessIdentity where
  pid : UInt32
  startedAt : Option ℕ
  deriving DecidableEq, Repr

structure RuntimeObservation where
  id : List Char
  pid : UInt32
  pidStartedAt : Option ℕ
  processGroup : UInt32
  processName : List Char
  argv : Option (List (List Char))
  deriving DecidableEq, Repr

inductive ForegroundRuntime where
  | unobservable
  | observed (observation : Option RuntimeObservation)
  deriving DecidableEq, Repr

structure ForegroundJob where
  processGroup : UInt32
  processes : List Process
  deriving DecidableEq, Repr

section
variable (m : Machine)

def Machine.process (pid : UInt32) : Option Process := m.processes.find? fun process => process.pid = pid

def Machine.children (pid : UInt32) : List UInt32 :=
  (m.processes.filter fun process => process.parent = pid).map Process.pid

def Machine.isProvablyLive (identity : ProcessIdentity) : Bool :=
  match identity.startedAt with
  | none => false
  | some recorded => (m.process identity.pid).any fun process => process.startedAt = recorded

/-- The foreground group, if there is one. -/
def Machine.processGroup : Option UInt32 :=
  m.foreground.bind fun group =>
    if 1 < group then some (UInt32.ofNat group.toInt.toNat) else none

/-- The children that a walk goes on to. -/
def Machine.walked (pid : UInt32) : List UInt32 := (m.children pid).filter fun child => 1 < child

def Machine.processTreePids (roots : List UInt32) : Option (List UInt32) :=
  walk m.walked (roots.length + m.processes.length) (roots.filter fun root => 1 < root)

def Machine.foregroundJob (sessionLeaderPid : UInt32) : Option ForegroundJob := do
  let processGroup ← m.processGroup
  let pids ← m.processTreePids [sessionLeaderPid, processGroup]
  let processes := pids.filterMap fun pid => (m.process pid).filter fun stat =>
    stat.group = processGroup && stat.session = sessionLeaderPid
  if processes.isEmpty then none else some ⟨processGroup, processes⟩

end

/-! ### Who is in the job -/

def usizeMax : ℕ := 2 ^ 64 - 1

def u32Max : ℕ := 2 ^ 32 - 1

/-- The loop of `ancestry_depth`, which ends after one round more than there are processes. -/
def ancestryDepthFrom (ancestor : UInt32) (processes : List Process) : (rounds depth : ℕ) → UInt32 → Option ℕ
  | 0, _, _ => none
  | rounds + 1, depth, current =>
    if current = ancestor then some depth
    else do
      let process ← processes.find? fun candidate => candidate.pid = current
      if process.parent = 0 ∨ process.parent = current then none
      else ancestryDepthFrom ancestor processes rounds (depth + 1) process.parent

def ancestryDepth (pid ancestor : UInt32) (processes : List Process) : Option ℕ :=
  ancestryDepthFrom ancestor processes (processes.length + 1) 0 pid

def observation (process : Process) (runtimeMatch : RuntimeMatch) : RuntimeObservation where
  id := runtimeMatch.runtimeId
  pid := process.pid
  pidStartedAt := some process.startedAt
  processGroup := process.group
  processName := normalizedExecutableName process.name
  argv := if runtimeMatch.strength = .direct then boundedEvidenceArgv process.argv runtimeMatch.evidenceArgvLen else none

/-- A process that may be the answer, with what it is compared by. -/
structure Candidate where
  strength : ℕ
  nearness : ℕ
  age : ℕ
  process : Process
  runtimeMatch : RuntimeMatch

def Candidate.outranks (candidate current : Candidate) : Bool :=
  current.strength < candidate.strength ||
    (current.strength = candidate.strength && (current.nearness < candidate.nearness ||
      (current.nearness = candidate.nearness && current.age < candidate.age)))

section
variable (runtimes : List Runtime)

def Process.runtimeMatch (process : Process) : Option RuntimeMatch := matchProcess runtimes process.name process.argv

def candidateOf (job : ForegroundJob) (process : Process) (runtimeMatch : RuntimeMatch) : Candidate where
  strength := runtimeMatch.strength.rank
  nearness := usizeMax - (ancestryDepth process.pid job.processGroup job.processes).getD usizeMax
  age := u32Max - process.pid.toNat
  process := process
  runtimeMatch := runtimeMatch

def better (job : ForegroundJob) (best : Option Candidate) (process : Process) : Option Candidate :=
  match process.runtimeMatch runtimes with
  | none => best
  | some runtimeMatch =>
    let candidate := candidateOf job process runtimeMatch
    if best.all fun current => candidate.outranks current then some candidate else best

def identifyRuntimeInJob (job : ForegroundJob) : Option RuntimeObservation :=
  match (job.processes.find? fun process => process.pid = job.processGroup).bind fun leader =>
      (leader.runtimeMatch runtimes).map (observation leader) with
  | some observed => some observed
  | none =>
    (job.processes.foldl (better runtimes job) none).map fun best => observation best.process best.runtimeMatch

def observeForegroundRuntime (m : Machine) (sessionLeader : ProcessIdentity) : ForegroundRuntime :=
  if sessionLeader.pid ≤ 1 || !m.isProvablyLive sessionLeader then .unobservable
  else
    match m.foregroundJob sessionLeader.pid with
    | none => .unobservable
    | some job =>
      if !m.isProvablyLive sessionLeader then .unobservable else .observed (identifyRuntimeInJob runtimes job)

end

/-! ### The walk -/

section
variable {m : Machine} {sessionLeaderPid : UInt32}

theorem mem_children {pid child : UInt32} :
    child ∈ m.children pid ↔ ∃ process ∈ m.processes, process.parent = pid ∧ process.pid = child := by
  simp [Machine.children, and_assoc]

/-- The walk through the processes ends. -/
theorem processTreePids_isSome (roots : List UInt32) : (m.processTreePids roots).isSome = true := by
  refine @walk_isSome UInt32 _ m.walked (roots ++ m.processes.map Process.pid) (fun node _ child hchild => ?_) _
    (fun root hroot => List.mem_append_left _ (List.mem_of_mem_filter hroot)) _ (by simp)
  obtain ⟨process, hprocess, -, rfl⟩ := mem_children.mp (List.mem_of_mem_filter hchild)
  exact List.mem_append_right _ (List.mem_map_of_mem hprocess)

theorem process_mem {pid : UInt32} {process : Process} (h : m.process pid = some process) :
    process ∈ m.processes ∧ process.pid = pid :=
  ⟨List.mem_of_find?_eq_some h, by simpa using List.find?_some h⟩

theorem process_of_mem (hpids : (m.processes.map Process.pid).Nodup) {process : Process} (h : process ∈ m.processes) :
    m.process process.pid = some process := by
  cases hfound : m.process process.pid with
  | none =>
    exact absurd (decide_eq_true rfl) (List.find?_eq_none.mp hfound process h)
  | some found =>
    obtain ⟨hmem, hpid⟩ := process_mem hfound
    rw [List.inj_on_of_nodup_map hpids hmem h hpid]

/-- A member of the foreground job: of the group and the session, and led to by one of the two leaders. -/
structure Member (m : Machine) (sessionLeaderPid group : UInt32) (process : Process) : Prop where
  mem : process ∈ m.processes
  group_eq : process.group = group
  session_eq : process.session = sessionLeaderPid
  reached : ∃ root ∈ [sessionLeaderPid, group], 1 < root ∧ Relation.ReflTransGen (Edge m.walked) root process.pid

/-- The processes of the job are those that the walk comes by in the group and the session. -/
theorem mem_jobProcesses (hpids : (m.processes.map Process.pid).Nodup) {group : UInt32} {pids : List UInt32}
    (hwalk : m.processTreePids [sessionLeaderPid, group] = some pids) (process : Process) :
    (process ∈ pids.filterMap fun pid => (m.process pid).filter fun stat =>
      stat.group = group && stat.session = sessionLeaderPid) ↔ Member m sessionLeaderPid group process := by
  obtain ⟨-, hreached⟩ := walk_spec hwalk
  have hroots : ∀ pid, pid ∈ pids ↔ ∃ root ∈ [sessionLeaderPid, group], 1 < root ∧
      Relation.ReflTransGen (Edge m.walked) root pid := fun pid => by
    rw [hreached]
    constructor
    · rintro ⟨root, hroot, hpath⟩
      obtain ⟨hmem, habove⟩ := List.mem_filter.mp hroot
      exact ⟨root, hmem, of_decide_eq_true habove, hpath⟩
    · rintro ⟨root, hmem, habove, hpath⟩
      exact ⟨root, List.mem_filter.mpr ⟨hmem, decide_eq_true habove⟩, hpath⟩
  rw [List.mem_filterMap]
  constructor
  · rintro ⟨pid, hpid, hstat⟩
    obtain ⟨hfound, hkept⟩ := Option.filter_eq_some_iff.mp hstat
    obtain ⟨hmem, rfl⟩ := process_mem hfound
    rw [Bool.and_eq_true, decide_eq_true_eq, decide_eq_true_eq] at hkept
    exact ⟨hmem, hkept.1, hkept.2, (hroots _).mp hpid⟩
  · rintro ⟨hmem, hgroup, hsession, hpath⟩
    refine ⟨process.pid, (hroots _).mpr hpath, Option.filter_eq_some_iff.mpr ⟨process_of_mem hpids hmem, ?_⟩⟩
    rw [hgroup, hsession, decide_eq_true rfl, decide_eq_true rfl, Bool.and_self]

theorem pids_jobProcesses {pids : List UInt32} (hpids : pids.Nodup) (kept : Process → Bool) :
    ((pids.filterMap fun pid => (m.process pid).filter kept).map Process.pid).Nodup := by
  rw [List.map_filterMap]
  refine hpids.filterMap fun pid pid' found hfound hfound' => ?_
  obtain ⟨process, hprocess, rfl⟩ := Option.map_eq_some_iff.mp hfound
  obtain ⟨process', hprocess', heq⟩ := Option.map_eq_some_iff.mp hfound'
  obtain ⟨-, rfl⟩ := process_mem (Option.filter_eq_some_iff.mp hprocess).1
  obtain ⟨-, rfl⟩ := process_mem (Option.filter_eq_some_iff.mp hprocess').1
  exact heq.symm

theorem foregroundJob_some (hpids : (m.processes.map Process.pid).Nodup) {job : ForegroundJob}
    (h : m.foregroundJob sessionLeaderPid = some job) :
    m.processGroup = some job.processGroup ∧ (job.processes.map Process.pid).Nodup ∧ job.processes ≠ [] ∧
      ∀ process, process ∈ job.processes ↔ Member m sessionLeaderPid job.processGroup process := by
  unfold Machine.foregroundJob at h
  obtain ⟨group, hgroup, h⟩ := Option.bind_eq_some_iff.mp h
  obtain ⟨pids, hwalk, h⟩ := Option.bind_eq_some_iff.mp h
  dsimp only at h
  split_ifs at h with hempty
  cases h
  exact ⟨hgroup, pids_jobProcesses (walk_spec hwalk).1 _, fun hnil => hempty (List.isEmpty_iff.mpr hnil),
    mem_jobProcesses hpids hwalk⟩

theorem foregroundJob_isSome (hpids : (m.processes.map Process.pid).Nodup) {group : UInt32} {process : Process}
    (hgroup : m.processGroup = some group) (hmember : Member m sessionLeaderPid group process) :
    ∃ job, m.foregroundJob sessionLeaderPid = some job ∧ job.processGroup = group := by
  obtain ⟨pids, hwalk⟩ := Option.isSome_iff_exists.mp (processTreePids_isSome (m := m) [sessionLeaderPid, group])
  have hmem := (mem_jobProcesses hpids hwalk process).mpr hmember
  unfold Machine.foregroundJob
  simp only [Option.bind_eq_bind, hgroup, Option.bind_some, hwalk]
  rw [if_neg fun hempty => List.ne_nil_of_mem hmem (List.isEmpty_iff.mp hempty)]
  exact ⟨_, rfl, rfl⟩

end

/-! ### The answer -/

section
variable {runtimes : List Runtime} {job : ForegroundJob}

/-- **A group leader that is a runtime is the answer.** -/
theorem identify_leader (hpids : (job.processes.map Process.pid).Nodup) {leader : Process}
    (hleader : leader ∈ job.processes) (hpid : leader.pid = job.processGroup) {runtimeMatch : RuntimeMatch}
    (hmatch : leader.runtimeMatch runtimes = some runtimeMatch) :
    identifyRuntimeInJob runtimes job = some (observation leader runtimeMatch) := by
  have hfound := process_of_mem (m := ⟨job.processes, none, []⟩) hpids hleader
  rw [hpid] at hfound
  have hfind : (job.processes.find? fun process => process.pid = job.processGroup) = some leader := hfound
  rw [identifyRuntimeInJob, hfind, Option.bind_some, hmatch, Option.map_some]

/-- The match that is reported where the leader is none: the strongest, and of these the lowest pid. -/
structure Chosen (runtimes : List Runtime) (members : Process → Prop) (process : Process) (runtimeMatch : RuntimeMatch) :
    Prop where
  mem : members process
  matched : process.runtimeMatch runtimes = some runtimeMatch
  strongest : ∀ other, members other → ∀ match', other.runtimeMatch runtimes = some match' →
    match'.strength.rank < runtimeMatch.strength.rank ∨
      (match'.strength.rank = runtimeMatch.strength.rank ∧ process.pid ≤ other.pid)

/-- In a job whose leader has no children no other process descends from it. -/
theorem ancestryDepth_eq_none (halone : ∀ process ∈ job.processes, process.parent ≠ job.processGroup) {pid : UInt32}
    (hpid : pid ≠ job.processGroup) : ancestryDepth pid job.processGroup job.processes = none := by
  unfold ancestryDepth
  generalize job.processes.length + 1 = rounds
  generalize (0 : ℕ) = depth
  induction rounds generalizing pid depth with
  | zero => rfl
  | succ rounds ih =>
    rw [ancestryDepthFrom, if_neg hpid]
    cases hfound : job.processes.find? fun candidate => candidate.pid = pid with
    | none => rfl
    | some process =>
      simp only [Option.bind_eq_bind, Option.bind_some]
      split_ifs
      · rfl
      · exact ih (halone process (List.mem_of_find?_eq_some hfound)) _

/-- What the loop over the job has found: nothing, or a match that no other outranks. -/
def Best (runtimes : List Runtime) (job : ForegroundJob) (processes : List Process) : Option Candidate → Prop
  | none => ∀ process ∈ processes, process.runtimeMatch runtimes = none
  | some best => ∃ process ∈ processes, ∃ runtimeMatch, process.runtimeMatch runtimes = some runtimeMatch ∧
      best = candidateOf job process runtimeMatch ∧ ∀ other ∈ processes, ∀ match',
        other.runtimeMatch runtimes = some match' → (candidateOf job other match').outranks best = false

theorem outranks_eq_false {candidate current : Candidate} : candidate.outranks current = false ↔
    candidate.strength < current.strength ∨ (candidate.strength = current.strength ∧
      (candidate.nearness < current.nearness ∨
        (candidate.nearness = current.nearness ∧ candidate.age ≤ current.age))) := by
  unfold Candidate.outranks
  simp only [Bool.or_eq_false_iff, Bool.and_eq_false_imp, decide_eq_false_iff_not, decide_eq_true_eq]
  omega

/-- What replaces the best is outranked by nothing that the best was not outranked by. -/
theorem not_outranks_of_outranks {other candidate current : Candidate} (hother : other.outranks current = false)
    (h : candidate.outranks current = true) : other.outranks candidate = false := by
  rw [← Bool.not_eq_false, outranks_eq_false] at h
  rw [outranks_eq_false] at hother ⊢
  omega

theorem best_foldl (processes : List Process) : Best runtimes job processes (processes.foldl (better runtimes job) none) := by
  induction processes using List.reverseRecOn with
  | nil => exact nofun
  | append_singleton front process ih =>
    rw [List.foldl_append, List.foldl_cons, List.foldl_nil]
    generalize front.foldl (better runtimes job) none = best at ih
    unfold better
    cases hmatch : process.runtimeMatch runtimes with
    | none =>
      cases best with
      | none =>
        intro other hother
        rcases List.mem_append.mp hother with hother | hother
        · exact ih other hother
        · rwa [List.mem_singleton.mp hother]
      | some best =>
        obtain ⟨chosen, hchosen, runtimeMatch, hmatched, hbest, hnone⟩ := ih
        refine ⟨chosen, List.mem_append_left _ hchosen, runtimeMatch, hmatched, hbest, fun other hother match' hother' => ?_⟩
        rcases List.mem_append.mp hother with hother | hother
        · exact hnone other hother match' hother'
        · rw [List.mem_singleton.mp hother, hmatch] at hother'
          cases hother'
    | some runtimeMatch =>
      dsimp only
      split_ifs with hall
      · refine ⟨process, List.mem_append_right _ (List.mem_singleton_self _), runtimeMatch, hmatch, rfl,
          fun other hother match' hother' => ?_⟩
        rcases List.mem_append.mp hother with hother | hother
        · cases best with
          | none =>
            rw [ih other hother] at hother'
            cases hother'
          | some best =>
            obtain ⟨-, -, -, -, -, hnone⟩ := ih
            exact not_outranks_of_outranks (hnone other hother match' hother') hall
        · rw [List.mem_singleton.mp hother, hmatch] at hother'
          cases hother'
          rw [List.mem_singleton.mp hother, outranks_eq_false]
          exact .inr ⟨rfl, .inr ⟨rfl, le_rfl⟩⟩
      · cases best with
        | none => exact absurd rfl hall
        | some best =>
          obtain ⟨chosen, hchosen, chosenMatch, hmatched, hbest, hnone⟩ := ih
          refine ⟨chosen, List.mem_append_left _ hchosen, chosenMatch, hmatched, hbest, fun other hother match' hother' => ?_⟩
          rcases List.mem_append.mp hother with hother | hother
          · exact hnone other hother match' hother'
          · rw [List.mem_singleton.mp hother, hmatch] at hother'
            cases hother'
            rw [List.mem_singleton.mp hother]
            exact Bool.not_eq_true _ ▸ hall

theorem Chosen.unique {members : Process → Prop} (hpids : ∀ p q, members p → members q → p.pid = q.pid → p = q)
    {p q : Process} {match₁ match₂ : RuntimeMatch} (h : Chosen runtimes members p match₁)
    (h' : Chosen runtimes members q match₂) : p = q ∧ match₁ = match₂ := by
  have hsame : p = q := by
    refine hpids p q h.mem h'.mem ?_
    rcases h.strongest q h'.mem match₂ h'.matched with hless | ⟨heq, hle⟩
    · rcases h'.strongest p h.mem match₁ h.matched with hless' | ⟨heq', hle'⟩
      · omega
      · omega
    · rcases h'.strongest p h.mem match₁ h.matched with hless' | ⟨heq', hle'⟩
      · omega
      · exact UInt32.le_antisymm hle hle'
  subst hsame
  exact ⟨rfl, Option.some.inj (h.matched.symm.trans h'.matched)⟩

/-- **A childless leader that is no runtime leaves the answer to the strength and the pid.** -/
theorem identify_alone (hpids : (job.processes.map Process.pid).Nodup)
    (halone : ∀ process ∈ job.processes, process.parent ≠ job.processGroup)
    (hleader : ∀ process ∈ job.processes, process.pid = job.processGroup → process.runtimeMatch runtimes = none)
    (observed : RuntimeObservation) :
    identifyRuntimeInJob runtimes job = some observed ↔ ∃ process runtimeMatch,
      Chosen runtimes (· ∈ job.processes) process runtimeMatch ∧ observed = observation process runtimeMatch := by
  have hnone : ((job.processes.find? fun process => process.pid = job.processGroup).bind fun leader =>
      (leader.runtimeMatch runtimes).map (observation leader)) = none := by
    cases hfound : job.processes.find? fun process => process.pid = job.processGroup with
    | none => rfl
    | some leader =>
      have hpid : leader.pid = job.processGroup := by simpa using List.find?_some hfound
      rw [Option.bind_some, hleader leader (List.mem_of_find?_eq_some hfound) hpid, Option.map_none]
  rw [identifyRuntimeInJob, hnone]
  dsimp only
  -- no matched process descends from the leader, so that the nearness of all is the same
  have hnearness : ∀ process ∈ job.processes, ∀ runtimeMatch, process.runtimeMatch runtimes = some runtimeMatch →
      (candidateOf job process runtimeMatch).nearness = 0 := fun process hprocess runtimeMatch hmatch => by
    have hpid : process.pid ≠ job.processGroup := fun hpid => by
      rw [hleader process hprocess hpid] at hmatch
      cases hmatch
    rw [candidateOf, ancestryDepth_eq_none halone hpid, Option.getD_none, Nat.sub_self]
  have hbest := @best_foldl runtimes job job.processes
  generalize job.processes.foldl (better runtimes job) none = best at hbest
  have hchosen : ∀ process ∈ job.processes, ∀ runtimeMatch, process.runtimeMatch runtimes = some runtimeMatch →
      (∀ other ∈ job.processes, ∀ match', other.runtimeMatch runtimes = some match' →
        (candidateOf job other match').outranks (candidateOf job process runtimeMatch) = false) →
      Chosen runtimes (· ∈ job.processes) process runtimeMatch := fun process hprocess runtimeMatch hmatch hall => by
    refine ⟨hprocess, hmatch, fun other hother match' hother' => ?_⟩
    have hranks := outranks_eq_false.mp (hall other hother match' hother')
    rw [hnearness other hother match' hother', hnearness process hprocess runtimeMatch hmatch] at hranks
    rcases hranks with hless | ⟨heq, hless | ⟨-, hage⟩⟩
    · exact .inl hless
    · exact absurd hless (lt_irrefl 0)
    · refine .inr ⟨heq, ?_⟩
      have hprocess32 : process.pid.toNat < 2 ^ 32 := process.pid.toNat_lt
      have hage : u32Max - other.pid.toNat ≤ u32Max - process.pid.toNat := hage
      have hmax : u32Max = 2 ^ 32 - 1 := rfl
      rw [UInt32.le_iff_toNat_le]
      omega
  have huniq : ∀ p q, p ∈ job.processes → q ∈ job.processes → p.pid = q.pid → p = q := fun p q hp hq hpid =>
    List.inj_on_of_nodup_map hpids hp hq hpid
  cases best with
  | none =>
    refine iff_of_false (by simp) ?_
    rintro ⟨process, runtimeMatch, hchosen, -⟩
    have := hchosen.matched
    rw [hbest process hchosen.mem] at this
    cases this
  | some best =>
    obtain ⟨process, hprocess, runtimeMatch, hmatch, rfl, hall⟩ := hbest
    have hthis := hchosen process hprocess runtimeMatch hmatch hall
    rw [Option.map_some, Option.some_inj]
    constructor
    · rintro rfl
      exact ⟨process, runtimeMatch, hthis, rfl⟩
    · rintro ⟨process', match', hchosen', rfl⟩
      obtain ⟨rfl, rfl⟩ := hthis.unique huniq hchosen'
      rfl

end

end Paneflow.Host.Foreground
