import Paneflow.Host.Foreground
import Paneflow.Transition

/-!
# The foreground cache

`ForegroundCache` of runtime_observer.rs holds the last observation and reuses it while the group leader is the same by
its pid, start time and name, and either is itself the answer or has no children. Between two calls the processes may
change in every way that the kernel lets them. `observe_transparent`: a call returns what observing returns, as long as
the two calls see a leader with the same arguments, and around a leader that is no answer the same strongest match.
`stale_pipeline` is what happens otherwise.
-/

namespace Paneflow.Host.ForegroundCache

open Paneflow.Bfs Paneflow.Host.Foreground Paneflow.Host.Runtimes Paneflow.Transition

/-! ### The cache -/

structure ForegroundLeader where
  processGroup : UInt32
  startedAt : ℕ
  name : List Char
  deriving DecidableEq, Repr

/-- `ForegroundLeader::read` -/
def leaderOf (m : Machine) : Option ForegroundLeader := do
  let processGroup ← m.processGroup
  let stat ← m.process processGroup
  return ⟨processGroup, stat.startedAt, stat.name⟩

def leaderRunsAlone (m : Machine) (pid : UInt32) : Bool := (m.process pid).isSome && (m.children pid).isEmpty

def decidedByLeader (leader : ForegroundLeader) : ForegroundRuntime → Bool
  | .observed (some observation) => observation.pid = leader.processGroup
  | _ => false

structure Cache where
  held : Option (ForegroundLeader × ForegroundRuntime)
  deriving DecidableEq, Repr

def reusable (runsAlone : UInt32 → Bool) (leader : ForegroundLeader) (runtime : ForegroundRuntime) : Bool :=
  decidedByLeader leader runtime || runsAlone leader.processGroup

/-- What is held of an observation. -/
def heldOf (runsAlone : UInt32 → Bool) (leader : Option ForegroundLeader) (observed : ForegroundRuntime) :
    Option (ForegroundLeader × ForegroundRuntime) :=
  match leader, observed with
  | some leader, .observed found =>
    if reusable runsAlone leader (.observed found) then some (leader, .observed found) else none
  | _, _ => none

/-- `reuse_or_observe`, by what its closures return -/
def Cache.reuseOrObserve (cache : Cache) (leader : Option ForegroundLeader)
    (sessionLeaderGone : Option ForegroundRuntime) (runsAlone : UInt32 → Bool) (observed : ForegroundRuntime) :
    ForegroundRuntime × Cache :=
  match leader, cache.held with
  | some leader, some (heldLeader, held) =>
    if leader = heldLeader ∧ reusable runsAlone leader held then
      match sessionLeaderGone with
      | none => (held, cache)
      | some gone => (gone, ⟨none⟩)
    else (observed, ⟨heldOf runsAlone (some leader) observed⟩)
  | leader, _ => (observed, ⟨heldOf runsAlone leader observed⟩)

section
variable (runtimes : List Runtime)

def Cache.observe (cache : Cache) (m : Machine) (sessionLeader : ProcessIdentity) : ForegroundRuntime × Cache :=
  cache.reuseOrObserve (leaderOf m) (if m.isProvablyLive sessionLeader then none else some .unobservable)
    (leaderRunsAlone m) (observeForegroundRuntime runtimes m sessionLeader)

/-! ### The machine -/

/-- What the processes do between two calls. -/
inductive Change where
  | fork (parent pid : UInt32) (startedAt : ℕ) (group : UInt32)
  | exit (pid heir : UInt32)
  | exec (pid : UInt32) (name : List Char) (argv : Option (List (List Char)))
  | moveForeground (group : Option Int32)
  deriving DecidableEq, Repr

/-- One change, if the kernel allows it: a child joins a group of its session or is the first of its own, under a pid
that names no group and with a start time that it has not had. Who becomes the parent of the children of a process that
exits is left open. -/
def after (m : Machine) : Change → Option Machine
  | .fork parent pid startedAt group => do
    let process ← m.process parent
    if (pid, startedAt) ∉ m.used ∧ (∀ other ∈ m.processes, other.pid ≠ pid ∧ other.group ≠ pid) ∧
        (group = pid ∨ ∃ other ∈ m.processes, other.group = group ∧ other.session = process.session) then
      return { m with
        processes := m.processes ++ [{ process with pid, startedAt, parent, group }]
        used := (pid, startedAt) :: m.used }
    else none
  | .exit pid heir =>
    if (m.process pid).isSome then
      some { m with processes := (m.processes.filter fun process => process.pid ≠ pid).map fun process =>
        if process.parent = pid then { process with parent := heir } else process }
    else none
  | .exec pid name argv => do
    let process ← m.process pid
    if name ≠ process.name then
      return { m with processes := m.processes.map fun process =>
        if process.pid = pid then { process with name, argv } else process }
    else none
  | .moveForeground group => some { m with foreground := group }

/-- What the kernel keeps: pids are given once, and a group is named after its first process. -/
structure Sound (m : Machine) : Prop where
  pids : (m.processes.map Process.pid).Nodup
  used : ∀ process ∈ m.processes, (process.pid, process.startedAt) ∈ m.used
  leaders : ∀ leader ∈ m.processes, ∀ process ∈ m.processes, process.group = leader.pid →
    leader.group = leader.pid ∧ leader.session = process.session

/-- A cache and the machine that it watches, with the machine as the last call saw it. -/
structure Watch where
  machine : Machine
  cache : Cache
  seen : Machine
  deriving DecidableEq, Repr

inductive Event where
  | changed (what : Change)
  | observe
  deriving DecidableEq, Repr

def step (sessionLeader : ProcessIdentity) (s : Watch) : Event → Option Watch
  | .changed what => (after s.machine what).map fun machine => { s with machine }
  | .observe => some ⟨s.machine, (s.cache.observe runtimes s.machine sessionLeader).2, s.machine⟩

/-- What an observation says of a process. -/
def evidence (process : Process) : UInt32 × ℕ × List Char × Option (List (List Char)) :=
  (process.pid, process.startedAt, process.name, process.argv)

/-- Two calls between which a held observation is kept: they see the same leader, and either it was recognized or it
has no children at both. -/
structure Kept (seen now : Machine) (leader : ForegroundLeader) : Prop where
  before : leaderOf seen = some leader
  after : leaderOf now = some leader
  kept : (seen.process leader.processGroup).bind (Process.runtimeMatch runtimes) ≠ none ∨
    leaderRunsAlone seen leader.processGroup = true ∧ leaderRunsAlone now leader.processGroup = true

/-- What such calls have to see besides: the leader's arguments, and where it is not recognized the strongest match. -/
structure Steady (sessionLeaderPid : UInt32) (seen now : Machine) : Prop where
  args : ∀ leader, Kept runtimes seen now leader →
    (seen.process leader.processGroup).bind Process.argv = (now.process leader.processGroup).bind Process.argv
  others : ∀ leader, Kept runtimes seen now leader →
    (now.process leader.processGroup).bind (Process.runtimeMatch runtimes) = none →
    ∀ found, (∃ process runtimeMatch, Chosen runtimes (Member seen sessionLeaderPid leader.processGroup) process
        runtimeMatch ∧ evidence process = found) ↔
      ∃ process runtimeMatch, Chosen runtimes (Member now sessionLeaderPid leader.processGroup) process runtimeMatch ∧
        evidence process = found

/-- The condition on the steps of a run. -/
def Allowed (sessionLeader : ProcessIdentity) (s : Watch) (event : Event) : Prop :=
  event = .observe → s.cache.held ≠ none → Steady runtimes sessionLeader.pid s.seen s.machine

def Opened (s : Watch) : Prop := Sound s.machine ∧ s.cache.held = none

end

/-! ### What a change keeps -/

/-- What the processes that are there now were before, if they were there. -/
structure Later (seen now : Machine) : Prop where
  used : ∀ identity ∈ seen.used, identity ∈ now.used
  processes : ∀ process ∈ now.processes, (process.pid, process.startedAt) ∈ seen.used →
    ∃ before ∈ seen.processes, before.pid = process.pid ∧ before.startedAt = process.startedAt ∧
      before.group = process.group ∧ before.session = process.session

theorem Later.refl (m : Machine) : Later m m := ⟨fun _ h => h, fun process h _ => ⟨process, h, rfl, rfl, rfl, rfl⟩⟩

variable {m m' seen : Machine} {what : Change}

/-- A process after a change is new, or it was there with the same pid, start time, group and session. -/
theorem mem_after (h : after m what = some m') {process : Process} (hprocess : process ∈ m'.processes) :
    (∃ before ∈ m.processes, before.pid = process.pid ∧ before.startedAt = process.startedAt ∧
      before.group = process.group ∧ before.session = process.session) ∨
    (process.pid, process.startedAt) ∉ m.used ∧ (process.pid, process.startedAt) ∈ m'.used ∧
      (∀ other ∈ m.processes, other.pid ≠ process.pid ∧ other.group ≠ process.pid) ∧
      (process.group = process.pid ∨
        ∃ other ∈ m.processes, other.group = process.group ∧ other.session = process.session) := by
  cases what with
  | fork parent pid startedAt group =>
    obtain ⟨forked, hforked, h⟩ := Option.bind_eq_some_iff.mp h
    split_ifs at h with hallowed
    cases h
    rcases List.mem_append.mp hprocess with hold | hnew
    · exact .inl ⟨process, hold, rfl, rfl, rfl, rfl⟩
    · obtain rfl := List.mem_singleton.mp hnew
      exact .inr ⟨hallowed.1, List.mem_cons_self, hallowed.2.1, hallowed.2.2⟩
  | exit pid heir =>
    unfold after at h
    dsimp only at h
    split_ifs at h
    cases h
    obtain ⟨before, hbefore, rfl⟩ := List.mem_map.mp hprocess
    refine .inl ⟨before, List.mem_of_mem_filter hbefore, ?_⟩
    split_ifs
    · exact ⟨rfl, rfl, rfl, rfl⟩
    · exact ⟨rfl, rfl, rfl, rfl⟩
  | exec pid name argv =>
    obtain ⟨executed, hexecuted, h⟩ := Option.bind_eq_some_iff.mp h
    split_ifs at h
    cases h
    obtain ⟨before, hbefore, rfl⟩ := List.mem_map.mp hprocess
    refine .inl ⟨before, hbefore, ?_⟩
    split_ifs
    · exact ⟨rfl, rfl, rfl, rfl⟩
    · exact ⟨rfl, rfl, rfl, rfl⟩
  | moveForeground group =>
    cases h
    exact .inl ⟨process, hprocess, rfl, rfl, rfl, rfl⟩

theorem used_after (h : after m what = some m') : ∀ identity ∈ m.used, identity ∈ m'.used := by
  intro identity hidentity
  cases what with
  | fork parent pid startedAt group =>
    obtain ⟨forked, hforked, h⟩ := Option.bind_eq_some_iff.mp h
    split_ifs at h
    cases h
    exact List.mem_cons_of_mem _ hidentity
  | exit pid heir =>
    unfold after at h
    dsimp only at h
    split_ifs at h
    cases h
    exact hidentity
  | exec pid name argv =>
    obtain ⟨executed, hexecuted, h⟩ := Option.bind_eq_some_iff.mp h
    split_ifs at h
    cases h
    exact hidentity
  | moveForeground group =>
    cases h
    exact hidentity

theorem pids_after (hsound : Sound m) (h : after m what = some m') : (m'.processes.map Process.pid).Nodup := by
  cases what with
  | fork parent pid startedAt group =>
    obtain ⟨forked, hforked, h⟩ := Option.bind_eq_some_iff.mp h
    split_ifs at h with hallowed
    cases h
    rw [List.map_append, List.nodup_append]
    refine ⟨hsound.pids, List.pairwise_singleton _ _, fun x hx y hy heq => ?_⟩
    obtain ⟨other, hother, rfl⟩ := List.mem_map.mp hx
    exact (hallowed.2.1 other hother).1 (heq.trans (List.mem_singleton.mp hy))
  | exit pid heir =>
    unfold after at h
    dsimp only at h
    split_ifs at h
    cases h
    have hpid : (Process.pid ∘ fun process : Process =>
        if process.parent = pid then { process with parent := heir } else process) = Process.pid := by
      funext process
      rw [Function.comp_apply]
      split_ifs <;> rfl
    rw [List.map_map, hpid]
    exact hsound.pids.sublist (List.filter_sublist.map _)
  | exec pid name argv =>
    obtain ⟨executed, hexecuted, h⟩ := Option.bind_eq_some_iff.mp h
    split_ifs at h
    cases h
    have hpid : (Process.pid ∘ fun process : Process =>
        if process.pid = pid then { process with name, argv } else process) = Process.pid := by
      funext process
      rw [Function.comp_apply]
      split_ifs <;> rfl
    rw [List.map_map, hpid]
    exact hsound.pids
  | moveForeground group =>
    cases h
    exact hsound.pids

theorem Sound.after (hsound : Sound m) (h : after m what = some m') : Sound m' := by
  refine ⟨pids_after hsound h, fun process hprocess => ?_, fun leader hleader process hprocess hgroup => ?_⟩
  · rcases mem_after h hprocess with ⟨before, hbefore, hpid, hstarted, -, -⟩ | ⟨-, hnew, -, -⟩
    · rw [← hpid, ← hstarted]
      exact used_after h _ (hsound.used before hbefore)
    · exact hnew
  · have hpids := pids_after hsound h
    rcases mem_after h hleader with ⟨old, hold, hpid, -, hgroup', hsession'⟩ | ⟨hunused, -, hnames, -⟩
    · rcases mem_after h hprocess with ⟨before, hbefore, -, -, hgroup'', hsession''⟩ | ⟨hunused, -, hnames, hjoined⟩
      · rw [← hgroup', ← hpid, ← hsession', ← hsession'']
        exact hsound.leaders old hold before hbefore (by rw [hgroup'', hgroup, hpid])
      · rcases hjoined with hown | ⟨other, hother, hgroup'', hsession''⟩
        · exact absurd (hpid.trans (hgroup.symm.trans hown)) (hnames old hold).1
        · rw [← hgroup', ← hpid, ← hsession', ← hsession'']
          exact hsound.leaders old hold other hother (by rw [hgroup'', hgroup, hpid])
    · rcases mem_after h hprocess with ⟨before, hbefore, -, -, hgroup'', -⟩ | ⟨hunused', -, hnames', hjoined⟩
      · exact absurd (hgroup''.trans hgroup) (hnames before hbefore).2
      · rcases hjoined with hown | ⟨other, hother, hgroup'', -⟩
        · have hsame := List.inj_on_of_nodup_map hpids hleader hprocess (hgroup.symm.trans hown)
          rw [hsame]
          exact ⟨hown, rfl⟩
        · exact absurd (hgroup''.trans hgroup) (hnames other hother).2

theorem Later.after (hlater : Later seen m) (h : after m what = some m') : Later seen m' := by
  refine ⟨fun identity hidentity => used_after h _ (hlater.used _ hidentity), fun process hprocess hused => ?_⟩
  rcases mem_after h hprocess with ⟨middle, hmiddle, hpid, hstarted, hgroup, hsession⟩ | ⟨hunused, -⟩
  · rw [← hpid, ← hstarted] at hused ⊢
    rw [← hgroup, ← hsession]
    exact hlater.processes middle hmiddle hused
  · exact absurd (hlater.used _ hused) hunused

/-! ### Two calls that see the same leader -/

section
variable {runtimes : List Runtime} {sessionLeader : ProcessIdentity} {now : Machine} {leader : ForegroundLeader}
  {found : Option RuntimeObservation}

theorem leaderOf_some (h : leaderOf m = some leader) : m.processGroup = some leader.processGroup ∧
    ∃ process, m.process leader.processGroup = some process ∧ process.startedAt = leader.startedAt ∧
      process.name = leader.name := by
  unfold leaderOf at h
  obtain ⟨group, hgroup, h⟩ := Option.bind_eq_some_iff.mp h
  obtain ⟨process, hprocess, h⟩ := Option.bind_eq_some_iff.mp h
  cases h
  exact ⟨hgroup, process, hprocess, rfl, rfl⟩

theorem one_lt_processGroup {group : UInt32} (h : m.processGroup = some group) : 1 < group := by
  unfold Machine.processGroup at h
  obtain ⟨foreground, -, h⟩ := Option.bind_eq_some_iff.mp h
  split_ifs at h with habove
  cases h
  have hpos : (1 : ℤ) < foreground.toInt := Int32.lt_iff_toInt_lt.mp habove
  have hlt := foreground.toInt_lt
  rw [UInt32.lt_iff_toNat_lt, UInt32.toNat_ofNat']
  have : foreground.toInt.toNat % 2 ^ 32 = foreground.toInt.toNat := Nat.mod_eq_of_lt (by omega)
  have hone : (1 : UInt32).toNat = 1 := rfl
  omega

theorem observed_iff : observeForegroundRuntime runtimes m sessionLeader = .observed found ↔
    1 < sessionLeader.pid ∧ m.isProvablyLive sessionLeader = true ∧
      ∃ job, m.foregroundJob sessionLeader.pid = some job ∧ identifyRuntimeInJob runtimes job = found := by
  have hpid : (sessionLeader.pid ≤ 1) ↔ ¬1 < sessionLeader.pid := UInt32.not_lt.symm
  unfold observeForegroundRuntime
  by_cases hlow : sessionLeader.pid ≤ 1
  · rw [decide_eq_true hlow, Bool.true_or, if_pos rfl]
    exact iff_of_false nofun fun h => hpid.mp hlow h.1
  · have habove : 1 < sessionLeader.pid := not_not.mp (mt hpid.mpr hlow)
    rw [decide_eq_false hlow, Bool.false_or]
    cases hlive : m.isProvablyLive sessionLeader with
    | false => exact iff_of_false nofun fun h => absurd h.2.1 Bool.false_ne_true
    | true =>
      rw [Bool.not_true, if_neg Bool.false_ne_true]
      cases hjob : m.foregroundJob sessionLeader.pid with
      | none =>
        refine iff_of_false nofun ?_
        rintro ⟨-, -, job, h, -⟩
        cases h
      | some job =>
        dsimp only
        rw [if_neg Bool.false_ne_true, ForegroundRuntime.observed.injEq]
        constructor
        · exact fun h => ⟨habove, rfl, job, rfl, h⟩
        · rintro ⟨-, -, job', hsame, h⟩
          obtain rfl := Option.some.inj hsame
          exact h

/-- The process that a group is named after belongs to the job, if there is one. -/
theorem leader_member (hsound : Sound m) {job : ForegroundJob} {pid : UInt32} (h : m.foregroundJob pid = some job)
    {process : Process} (hprocess : m.process job.processGroup = some process) :
    Member m pid job.processGroup process := by
  obtain ⟨hgroup, -, hne, hmembers⟩ := foregroundJob_some hsound.pids h
  obtain ⟨other, hother⟩ := List.exists_mem_of_ne_nil _ hne
  have hmember := (hmembers other).mp hother
  obtain ⟨hmem, hpid⟩ := process_mem hprocess
  obtain ⟨hown, hsession⟩ := hsound.leaders process hmem other hmember.mem (hmember.group_eq.trans hpid.symm)
  exact ⟨hmem, hown.trans hpid, hsession.trans hmember.session_eq, job.processGroup, by simp,
    one_lt_processGroup hgroup, hpid ▸ .refl⟩

/-- An answer with the pid of the leader is the leader's own. -/
theorem recognized_of_decided {job : ForegroundJob} {process : Process}
    (hpids : (job.processes.map Process.pid).Nodup) (hprocess : process ∈ job.processes)
    (hpid : process.pid = job.processGroup) {observed : RuntimeObservation}
    (h : identifyRuntimeInJob runtimes job = some observed) (hdecided : observed.pid = job.processGroup) :
    process.runtimeMatch runtimes ≠ none := by
  intro hnone
  have hfound := process_of_mem (m := ⟨job.processes, none, []⟩) hpids hprocess
  rw [hpid] at hfound
  have hfind : (job.processes.find? fun process => process.pid = job.processGroup) = some process := hfound
  rw [identifyRuntimeInJob, hfind, Option.bind_some, hnone, Option.map_none] at h
  have hbest := @best_foldl runtimes job job.processes
  obtain ⟨best, heq, rfl⟩ := Option.map_eq_some_iff.mp h
  rw [heq] at hbest
  obtain ⟨chosen, hchosen, runtimeMatch, hmatch, rfl, -⟩ := hbest
  have hsame := List.inj_on_of_nodup_map hpids hchosen hprocess (hdecided.trans hpid.symm)
  rw [hsame, hnone] at hmatch
  cases hmatch

theorem leaderRunsAlone_parent (h : leaderRunsAlone m leader.processGroup = true) {process : Process}
    (hprocess : process ∈ m.processes) : process.parent ≠ leader.processGroup := by
  intro hparent
  have hempty := List.isEmpty_iff.mp (Bool.and_eq_true_iff.mp h).2
  have hchild : process.pid ∈ m.children leader.processGroup := mem_children.mpr ⟨process, hprocess, hparent, rfl⟩
  rw [hempty] at hchild
  exact List.not_mem_nil hchild

/-- What an observation says depends on the evidence and the group. -/
theorem observation_congr {p q : Process} (h : evidence p = evidence q) (hgroup : p.group = q.group)
    (runtimeMatch : RuntimeMatch) : observation p runtimeMatch = observation q runtimeMatch := by
  obtain ⟨hpid, hrest⟩ := Prod.mk.inj h
  obtain ⟨hstarted, hrest⟩ := Prod.mk.inj hrest
  obtain ⟨hname, hargv⟩ := Prod.mk.inj hrest
  rw [observation, observation, hpid, hstarted, hname, hargv, hgroup]

theorem runtimeMatch_congr {p q : Process} (h : evidence p = evidence q) :
    p.runtimeMatch runtimes = q.runtimeMatch runtimes := by
  obtain ⟨-, hrest⟩ := Prod.mk.inj h
  obtain ⟨-, hrest⟩ := Prod.mk.inj hrest
  obtain ⟨hname, hargv⟩ := Prod.mk.inj hrest
  rw [Process.runtimeMatch, Process.runtimeMatch, hname, hargv]

/-- The leader that two calls see is the same process: of the same group and session. -/
theorem leader_persists (hseen : Sound seen) (hlater : Later seen now) (hbefore : leaderOf seen = some leader)
    (hafter : leaderOf now = some leader) :
    ∃ p q, seen.process leader.processGroup = some p ∧ now.process leader.processGroup = some q ∧
      p.pid = q.pid ∧ p.startedAt = q.startedAt ∧ p.name = q.name ∧ p.group = q.group ∧ p.session = q.session := by
  obtain ⟨-, p, hp, hpstarted, hpname⟩ := leaderOf_some hbefore
  obtain ⟨-, q, hq, hqstarted, hqname⟩ := leaderOf_some hafter
  obtain ⟨hpmem, hppid⟩ := process_mem hp
  obtain ⟨hqmem, hqpid⟩ := process_mem hq
  have hpid : p.pid = q.pid := hppid.trans hqpid.symm
  have hstarted : p.startedAt = q.startedAt := hpstarted.trans hqstarted.symm
  have hused : (q.pid, q.startedAt) ∈ seen.used := hpid ▸ hstarted ▸ hseen.used p hpmem
  obtain ⟨before, hmem, hbpid, -, hgroup, hsession⟩ := hlater.processes q hqmem hused
  obtain rfl := List.inj_on_of_nodup_map hseen.pids hmem hpmem (hbpid.trans hpid.symm)
  exact ⟨before, q, hp, hq, hpid, hstarted, hpname.trans hqname.symm, hgroup, hsession⟩

/-- Around a leader that has no children and is not recognized, the answer is that of the strongest match. -/
theorem identify_chosen (hsound : Sound m) {job : ForegroundJob} {pid : UInt32} (h : m.foregroundJob pid = some job)
    (hgroup : job.processGroup = leader.processGroup) (halone : leaderRunsAlone m leader.processGroup = true)
    (hnone : ∀ process, m.process leader.processGroup = some process → process.runtimeMatch runtimes = none)
    (observed : RuntimeObservation) :
    identifyRuntimeInJob runtimes job = some observed ↔ ∃ process runtimeMatch,
      Chosen runtimes (Member m pid leader.processGroup) process runtimeMatch ∧
        observed = observation process runtimeMatch := by
  obtain ⟨-, hpids, -, hmembers⟩ := foregroundJob_some hsound.pids h
  have hmem : (fun process => process ∈ job.processes) = Member m pid leader.processGroup := by
    funext process
    rw [hmembers, hgroup]
  rw [identify_alone hpids (fun process hprocess => ?_) (fun process hprocess hpid => ?_), hmem]
  · rw [hgroup]
    exact leaderRunsAlone_parent halone ((hmembers process).mp hprocess).mem
  · refine hnone process ?_
    rw [← hgroup, ← hpid]
    exact process_of_mem hsound.pids ((hmembers process).mp hprocess).mem

/-- Where the same match is chosen, the same is observed. -/
theorem chosen_observation {pid group : UInt32} (h : ∀ found, (∃ process runtimeMatch,
      Chosen runtimes (Member seen pid group) process runtimeMatch ∧ evidence process = found) →
    ∃ process runtimeMatch, Chosen runtimes (Member now pid group) process runtimeMatch ∧ evidence process = found)
    {observed : RuntimeObservation} (hobserved : ∃ process runtimeMatch,
      Chosen runtimes (Member seen pid group) process runtimeMatch ∧ observed = observation process runtimeMatch) :
    ∃ process runtimeMatch,
      Chosen runtimes (Member now pid group) process runtimeMatch ∧ observed = observation process runtimeMatch := by
  obtain ⟨process, runtimeMatch, hchosen, rfl⟩ := hobserved
  obtain ⟨other, match', hchosen', hsame⟩ := h (evidence process) ⟨process, runtimeMatch, hchosen, rfl⟩
  obtain rfl : match' = runtimeMatch := Option.some.inj
    (hchosen'.matched.symm.trans ((runtimeMatch_congr hsame).trans hchosen.matched))
  exact ⟨other, match', hchosen', (observation_congr hsame
    (hchosen'.mem.group_eq.trans hchosen.mem.group_eq.symm) _).symm⟩

/-- **What was observed is what is observed**, between two calls that see the same leader and are steady. -/
theorem observe_again (hseen : Sound seen) (hnow : Sound now) (hlater : Later seen now)
    (hsteady : Steady runtimes sessionLeader.pid seen now) (hbefore : leaderOf seen = some leader)
    (hafter : leaderOf now = some leader)
    (hobserved : observeForegroundRuntime runtimes seen sessionLeader = .observed found)
    (hkept : decidedByLeader leader (.observed found) = true ∨
      leaderRunsAlone seen leader.processGroup = true ∧ leaderRunsAlone now leader.processGroup = true)
    (hlive : now.isProvablyLive sessionLeader = true) :
    observeForegroundRuntime runtimes now sessionLeader = .observed found := by
  obtain ⟨hone, -, job, hjob, hfound⟩ := observed_iff.mp hobserved
  obtain ⟨p, q, hp, hq, hpid, hstarted, hname, hgroup, hsession⟩ := leader_persists hseen hlater hbefore hafter
  obtain ⟨hjobGroup, hpids, -, hmembers⟩ := foregroundJob_some hseen.pids hjob
  have hgroupEq : job.processGroup = leader.processGroup :=
    Option.some.inj (hjobGroup.symm.trans (leaderOf_some hbefore).1)
  -- the leader is a member of both jobs
  have hpmember := leader_member hseen hjob (hgroupEq ▸ hp)
  have hqmember : Member now sessionLeader.pid leader.processGroup q := by
    obtain ⟨hqmem, hqpid⟩ := process_mem hq
    refine ⟨hqmem, ?_, hsession ▸ hpmember.session_eq, leader.processGroup, by simp,
      one_lt_processGroup (leaderOf_some hafter).1, hqpid ▸ .refl⟩
    rw [← hgroup, hpmember.group_eq, hgroupEq]
  obtain ⟨job', hjob', hgroupEq'⟩ := foregroundJob_isSome hnow.pids (leaderOf_some hafter).1 hqmember
  obtain ⟨-, hpids', -, hmembers'⟩ := foregroundJob_some hnow.pids hjob'
  have hpinJob := (hmembers p).mpr hpmember
  have hqinJob := (hmembers' q).mpr (hgroupEq'.symm ▸ hqmember)
  have hppid : p.pid = job.processGroup := (process_mem hp).2.trans hgroupEq.symm
  have hqpid : q.pid = job'.processGroup := (process_mem hq).2.trans hgroupEq'.symm
  have hall : Kept runtimes seen now leader := by
    refine ⟨hbefore, hafter, ?_⟩
    rcases hkept with hdecided | halone
    · refine .inl ?_
      rw [hp, Option.bind_some]
      cases found with
      | none => cases hdecided
      | some observed =>
        exact recognized_of_decided hpids hpinJob hppid hfound ((of_decide_eq_true hdecided).trans hgroupEq.symm)
    · exact .inr halone
  have hargs := hsteady.args leader hall
  rw [hp, hq, Option.bind_some, Option.bind_some] at hargs
  have hevidence : evidence p = evidence q := by rw [evidence, evidence, hpid, hstarted, hname, hargs]
  refine observed_iff.mpr ⟨hone, hlive, job', hjob', ?_⟩
  rw [← hfound]
  cases hmatch : p.runtimeMatch runtimes with
  | some runtimeMatch =>
    rw [identify_leader hpids hpinJob hppid hmatch, identify_leader hpids' hqinJob hqpid
      ((runtimeMatch_congr hevidence).symm.trans hmatch), observation_congr hevidence hgroup]
  | none =>
    have hmatch' := (runtimeMatch_congr hevidence).symm.trans hmatch
    obtain ⟨halone, halone'⟩ : leaderRunsAlone seen leader.processGroup = true ∧
        leaderRunsAlone now leader.processGroup = true := by
      rcases hall.kept with hrecognized | halone
      · rw [hp, Option.bind_some, hmatch] at hrecognized
        exact absurd rfl hrecognized
      · exact halone
    have hothers := hsteady.others leader hall (by rw [hq, Option.bind_some, hmatch'])
    refine Option.ext fun observed => ?_
    rw [identify_chosen hnow hjob' hgroupEq' halone' fun process hprocess => ?_,
      identify_chosen hseen hjob hgroupEq halone fun process hprocess => ?_]
    · exact ⟨chosen_observation (fun found => (hothers found).mpr), chosen_observation (fun found => (hothers found).mp)⟩
    · obtain rfl := Option.some.inj (hp.symm.trans hprocess)
      exact hmatch
    · obtain rfl := Option.some.inj (hq.symm.trans hprocess)
      exact hmatch'

end

/-! ### The runs -/

section
variable {runtimes : List Runtime} {sessionLeader : ProcessIdentity}

/-- What a call holds afterwards is what it has observed, of a leader that is the answer or has no children. -/
structure Holds (runtimes : List Runtime) (sessionLeader : ProcessIdentity) (m : Machine) (leader : ForegroundLeader)
    (runtime : ForegroundRuntime) : Prop where
  leader_eq : leaderOf m = some leader
  observed : observeForegroundRuntime runtimes m sessionLeader = runtime
  observable : ∃ found, runtime = .observed found
  reusable : reusable (leaderRunsAlone m) leader runtime = true

theorem holds_of_heldOf {m : Machine} {leader : ForegroundLeader} {runtime : ForegroundRuntime}
    (h : heldOf (leaderRunsAlone m) (leaderOf m) (observeForegroundRuntime runtimes m sessionLeader) =
      some (leader, runtime)) : Holds runtimes sessionLeader m leader runtime := by
  unfold heldOf at h
  split at h
  · next leader' found hleader hobserved =>
    split_ifs at h with hreusable
    obtain ⟨rfl, rfl⟩ := Prod.mk.inj (Option.some.inj h)
    exact ⟨hleader, hobserved, ⟨found, rfl⟩, hreusable⟩
  · cases h

/-- The ways in which a call ends. -/
theorem observe_cases (cache : Cache) (m : Machine) :
    (∃ leader runtime, leaderOf m = some leader ∧ cache.held = some (leader, runtime) ∧
        reusable (leaderRunsAlone m) leader runtime = true ∧ m.isProvablyLive sessionLeader = true ∧
        cache.observe runtimes m sessionLeader = (runtime, cache)) ∨
      (m.isProvablyLive sessionLeader = false ∧
        cache.observe runtimes m sessionLeader = (.unobservable, ⟨none⟩)) ∨
      cache.observe runtimes m sessionLeader = (observeForegroundRuntime runtimes m sessionLeader,
        ⟨heldOf (leaderRunsAlone m) (leaderOf m) (observeForegroundRuntime runtimes m sessionLeader)⟩) := by
  unfold Cache.observe Cache.reuseOrObserve
  split
  · next leader heldLeader held hleader hheld =>
    split_ifs with hsame hlive
    · obtain ⟨rfl, hreusable⟩ := hsame
      exact .inl ⟨leader, held, hleader, hheld, hreusable, hlive, rfl⟩
    · exact .inr (.inl ⟨Bool.not_eq_true _ ▸ hlive, rfl⟩)
    · exact .inr (.inr (hleader ▸ rfl))
  · exact .inr (.inr rfl)

/-- What holds in every state of a run: what is held was observed by the last call, of the same processes. -/
structure Inv (runtimes : List Runtime) (sessionLeader : ProcessIdentity) (s : Watch) : Prop where
  machine : Sound s.machine
  seen : s.cache.held ≠ none → Sound s.seen ∧ Later s.seen s.machine
  held : ∀ leader runtime, s.cache.held = some (leader, runtime) → Holds runtimes sessionLeader s.seen leader runtime

/-- What is reused is what observing returns, and is held again of the machine that was seen. -/
theorem holds_reused {s : Watch} (hinv : Inv runtimes sessionLeader s)
    (hallowed : Allowed runtimes sessionLeader s .observe) {leader : ForegroundLeader} {runtime : ForegroundRuntime}
    (hleader : leaderOf s.machine = some leader) (hheld : s.cache.held = some (leader, runtime))
    (hreusable : reusable (leaderRunsAlone s.machine) leader runtime = true)
    (hlive : s.machine.isProvablyLive sessionLeader = true) :
    Holds runtimes sessionLeader s.machine leader runtime := by
  have hsome : s.cache.held ≠ none := fun hnone => by
    rw [hnone] at hheld
    cases hheld
  obtain ⟨hseen, hlater⟩ := hinv.seen hsome
  obtain ⟨hbefore, hobserved, ⟨found, rfl⟩, hreusable'⟩ := hinv.held leader runtime hheld
  refine ⟨hleader, ?_, ⟨found, rfl⟩, hreusable⟩
  refine observe_again hseen hinv.machine hlater (hallowed rfl hsome) hbefore hleader hobserved ?_ hlive
  unfold reusable at hreusable hreusable'
  cases hdecided : decidedByLeader leader (.observed found) with
  | true => exact .inl rfl
  | false =>
    rw [hdecided, Bool.false_or] at hreusable hreusable'
    exact .inr ⟨hreusable', hreusable⟩

theorem inv_opened {s : Watch} (h : Opened s) : Inv runtimes sessionLeader s := by
  obtain ⟨hsound, hnone⟩ := h
  refine ⟨hsound, fun hsome => absurd hnone hsome, fun leader runtime hheld => ?_⟩
  rw [hnone] at hheld
  cases hheld

/-- What one step keeps. -/
theorem inv_step {s s' : Watch} {event : Event} (hinv : Inv runtimes sessionLeader s)
    (hallowed : Allowed runtimes sessionLeader s event) (h : step runtimes sessionLeader s event = some s') :
    Inv runtimes sessionLeader s' := by
  cases event with
  | changed what =>
    obtain ⟨machine, hafter, rfl⟩ := Option.map_eq_some_iff.mp h
    refine ⟨hinv.machine.after hafter, fun hsome => ?_, hinv.held⟩
    obtain ⟨hseen, hlater⟩ := hinv.seen hsome
    exact ⟨hseen, hlater.after hafter⟩
  | observe =>
    cases h
    refine ⟨hinv.machine, fun _ => ⟨hinv.machine, .refl _⟩, fun leader runtime hheld => ?_⟩
    dsimp only at hheld
    rcases @observe_cases runtimes sessionLeader s.cache s.machine with
      ⟨leader', runtime', hleader, hheld', hreusable, hlive, hcall⟩ | ⟨-, hcall⟩ | hcall
    · rw [hcall] at hheld
      obtain ⟨rfl, rfl⟩ := Prod.mk.inj (Option.some.inj (hheld'.symm.trans hheld))
      exact holds_reused hinv hallowed hleader hheld' hreusable hlive
    · rw [hcall] at hheld
      cases hheld
    · rw [hcall] at hheld
      exact holds_of_heldOf hheld

/-- **The cache is transparent** in every run whose calls are steady: each of them returns what observing returns. -/
theorem observe_transparent {s : Watch}
    (h : Reach (step runtimes sessionLeader) Opened (Allowed runtimes sessionLeader) s)
    (hallowed : Allowed runtimes sessionLeader s .observe) :
    (s.cache.observe runtimes s.machine sessionLeader).1 =
      observeForegroundRuntime runtimes s.machine sessionLeader := by
  have hinv : Inv runtimes sessionLeader s :=
    h.invariant (fun _ => inv_opened) fun _ _ _ hinv hallowed hstep => inv_step hinv hallowed hstep
  rcases @observe_cases runtimes sessionLeader s.cache s.machine with
    ⟨leader, runtime, hleader, hheld, hreusable, hlive, hcall⟩ | ⟨hgone, hcall⟩ | hcall
  · rw [hcall]
    exact (holds_reused hinv hallowed hleader hheld hreusable hlive).observed.symm
  · rw [hcall]
    unfold observeForegroundRuntime
    rw [hgone, Bool.not_false, Bool.or_true, if_pos rfl]
  · rw [hcall]

end

/-! ### Two runs -/

/-- A catalog with one runtime. -/
def claude : Runtime := ⟨"claude-code".toList, [.linux], ["claude".toList], []⟩

/-- A shell, alone in its session. -/
def shell : Process := ⟨10, 1, 1, 10, 10, "bash".toList, some ["bash".toList]⟩

def shellLeader : ProcessIdentity := ⟨10, some 1⟩

def shellWatch : Watch where
  machine := ⟨[shell], some 10, [(10, 1)]⟩
  cache := ⟨none⟩
  seen := ⟨[], none, []⟩

theorem opened_shellWatch : Opened shellWatch := by
  refine ⟨⟨List.pairwise_singleton _ _, fun process hprocess => ?_, fun leader hleader process hprocess hgroup => ?_⟩, rfl⟩
  · rw [List.mem_singleton.mp hprocess]
    exact List.mem_cons_self
  · rw [List.mem_singleton.mp hprocess, List.mem_singleton.mp hleader]
    exact ⟨rfl, rfl⟩

/-- The machine after the shell has started claude in the foreground. -/
def claudeMachine : Machine where
  processes := [shell, ⟨20, 2, 10, 20, 10, "claude".toList, some ["claude".toList]⟩]
  foreground := some 20
  used := [(20, 2), (10, 1)]

theorem Steady.refl (runtimes : List Runtime) (pid : UInt32) (m : Machine) : Steady runtimes pid m m :=
  ⟨fun _ _ => rfl, fun _ _ _ _ => .rfl⟩

/-- Two calls while claude is in the foreground. -/
theorem observe_transparent_claude :
    let cache := (Cache.observe [claude] ⟨none⟩ claudeMachine shellLeader).2
    cache.held.isSome = true ∧
      (cache.observe [claude] claudeMachine shellLeader).1 =
        observeForegroundRuntime [claude] claudeMachine shellLeader := by
  have hstarted : follow (step [claude] shellLeader) (fun _ event => event ≠ .observe) shellWatch
      [.changed (.fork 10 20 2 20), .changed (.exec 20 "claude".toList (some ["claude".toList])),
        .changed (.moveForeground (some 20))] = some { shellWatch with machine := claudeMachine } := by
    decide
  have hreach : Reach (step [claude] shellLeader) Opened (Allowed [claude] shellLeader)
      { shellWatch with machine := claudeMachine } :=
    (Reach.init opened_shellWatch).run ((run_follow _ hstarted).mono fun _ _ hchange hobserve => absurd hobserve hchange)
  have hcalled := hreach.step .observe (fun _ hheld => absurd rfl hheld) rfl
  exact ⟨by decide, observe_transparent hcalled fun _ _ => Steady.refl _ _ _⟩

/-- **The shell runs `cat | claude`**: the group leader is cat, which has no children. A call finds claude, claude exits,
and the next call still reports it. -/
theorem stale_pipeline : Opened shellWatch ∧
    (follow (step [claude] shellLeader) (fun _ _ => True) shellWatch
      [.changed (.fork 10 20 2 20), .changed (.exec 20 "cat".toList (some ["cat".toList])),
        .changed (.fork 10 21 3 20), .changed (.exec 21 "claude".toList (some ["claude".toList])),
        .changed (.moveForeground (some 20)), .observe, .changed (.exit 21 10)]).map (fun s =>
      ((s.cache.observe [claude] s.machine shellLeader).1, observeForegroundRuntime [claude] s.machine shellLeader)) =
        some (.observed (some ⟨"claude-code".toList, 21, some 3, 20, "claude".toList, some ["claude".toList]⟩),
          .observed none) :=
  ⟨opened_shellWatch, by decide⟩

end Paneflow.Host.ForegroundCache
