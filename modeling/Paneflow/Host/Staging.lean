import Paneflow.Transition
import Mathlib

/-!
# Staged checkpoints

`CheckpointStaging` of host/staging.rs: at most two captures at once, and a budget for their bytes. A call of `admit`
looks at the largest checkpoint first, and then takes the lock again and again until its bytes fit or its deadline has
passed; the lease it gets is adjusted to the size of the snapshot, without a look at the budget, and released when it is
dropped. Each of these holds the lock from its first access of the state to its last one and is one step here.

* `Counted`: the invariant, kept by every step (`counted_step`);
* `staging_counted`: what it says of the counters and of the saturating operations on them;
* `fits_iff`: a call waits only for one of the two captures, and never for the budget.
-/

namespace Paneflow.Host.Staging

open Paneflow.Transition

def maxConcurrentCheckpoints : ℕ := 2

def checkpointStagingBudgetBytes : ℕ := 256 * 1024 * 1024

/-- `protocol::MAX_CHECKPOINT_BYTES` -/
def maxCheckpointBytes : ℕ := 64 * 1024 * 1024

/-- The largest `usize`. -/
def maxUsize : ℕ := 2 ^ 64 - 1

def saturatingAdd (a b : ℕ) : ℕ := min (a + b) maxUsize

structure StagingState where
  active : ℕ
  bytes : ℕ
  peakBytes : ℕ
  refused : ℕ
  deriving DecidableEq, Repr

structure StagingReport where
  active : ℕ
  maxConcurrent : ℕ
  stagedBytes : ℕ
  peakStagedBytes : ℕ
  budgetBytes : ℕ
  refused : ℕ
  deriving DecidableEq, Repr

inductive HostError where
  | checkpointTooLarge (bytes limit : ℕ)
  | busy (text : String)
  deriving DecidableEq, Repr

structure StagingLease where
  bytes : ℕ
  deriving DecidableEq, Repr

def report (state : StagingState) : StagingReport where
  active := state.active
  maxConcurrent := maxConcurrentCheckpoints
  stagedBytes := state.bytes
  peakStagedBytes := state.peakBytes
  budgetBytes := checkpointStagingBudgetBytes
  refused := state.refused

/-- `admit` before its loop: the state and the error of a checkpoint that is too large. -/
def checkLimit (bytes : ℕ) (state : StagingState) : Option (StagingState × HostError) :=
  let limit := min maxCheckpointBytes checkpointStagingBudgetBytes
  if bytes > limit then some ({ state with refused := state.refused + 1 }, .checkpointTooLarge bytes limit) else none

def fits (bytes : ℕ) (state : StagingState) : Bool :=
  state.active < maxConcurrentCheckpoints && saturatingAdd state.bytes bytes ≤ checkpointStagingBudgetBytes

def atCapacity (state : StagingState) : String :=
  s!"checkpoint staging is at capacity ({state.active} of {maxConcurrentCheckpoints} captures, {state.bytes} of " ++
    s!"{checkpointStagingBudgetBytes} bytes); retry when an attachment finishes"

/-- How a round of the loop of `admit` ends. -/
inductive Admission where
  | admitted (lease : StagingLease)
  | refused (error : HostError)
  | waits
  deriving DecidableEq, Repr

/-- A round of the loop of `admit`; `expired` if no time remains. -/
def admitRound (bytes : ℕ) (expired : Bool) (state : StagingState) : StagingState × Admission :=
  if fits bytes state then
    let total := state.bytes + bytes
    ({ state with active := state.active + 1, bytes := total, peakBytes := max state.peakBytes total },
      .admitted ⟨bytes⟩)
  else if expired then ({ state with refused := state.refused + 1 }, .refused (.busy (atCapacity state)))
  else (state, .waits)

def StagingLease.adjust (lease : StagingLease) (actual : ℕ) (state : StagingState) : StagingState × StagingLease :=
  let total := saturatingAdd (state.bytes - lease.bytes) actual
  ({ state with bytes := total, peakBytes := max state.peakBytes total }, ⟨actual⟩)

def StagingLease.drop (lease : StagingLease) (state : StagingState) : StagingState :=
  { state with active := state.active - 1, bytes := state.bytes - lease.bytes }

/-! ### Interleavings -/

/-- The shared state, the bytes of the calls that are in the loop of `admit`, and the live leases. -/
structure Captures where
  state : StagingState
  waiting : List ℕ
  leases : List StagingLease
  deriving DecidableEq, Repr

inductive Event where
  | callAdmit (bytes : ℕ)
  | round (call : ℕ) (expired : Bool)
  | adjust (lease actual : ℕ)
  | drop (lease : ℕ)
  deriving DecidableEq, Repr

def step (s : Captures) : Event → Option Captures
  | .callAdmit bytes =>
    match checkLimit bytes s.state with
    | some (state, _) => some { s with state := state }
    | none => some { s with waiting := s.waiting ++ [bytes] }
  | .round call expired => do
    let bytes ← s.waiting[call]?
    match admitRound bytes expired s.state with
    | (state, .admitted lease) => some ⟨state, s.waiting.eraseIdx call, s.leases ++ [lease]⟩
    | (state, .refused _) => some { s with state := state, waiting := s.waiting.eraseIdx call }
    | (state, .waits) => some { s with state := state }
  | .adjust lease actual => do
    let held ← s.leases[lease]?
    let (state, held) := held.adjust actual s.state
    some { s with state := state, leases := s.leases.set lease held }
  | .drop lease => do
    let held ← s.leases[lease]?
    some { s with state := held.drop s.state, leases := s.leases.eraseIdx lease }

def initial : Captures := ⟨⟨0, 0, 0, 0⟩, [], []⟩

/-- What the snapshots are: none is larger than the largest checkpoint. -/
def Sized (_ : Captures) : Event → Prop
  | .adjust _ actual => actual ≤ maxCheckpointBytes
  | _ => True

/-! ### The counters -/

def leasedBytes (leases : List StagingLease) : ℕ := (leases.map StagingLease.bytes).sum

structure Counted (s : Captures) : Prop where
  active : s.state.active = s.leases.length
  concurrent : s.leases.length ≤ maxConcurrentCheckpoints
  bytes : s.state.bytes = leasedBytes s.leases
  peak : s.state.bytes ≤ s.state.peakBytes
  bounded : s.state.peakBytes ≤ checkpointStagingBudgetBytes
  lease : ∀ lease ∈ s.leases, lease.bytes ≤ maxCheckpointBytes
  call : ∀ bytes ∈ s.waiting, bytes ≤ maxCheckpointBytes

theorem leasedBytes_append (leases : List StagingLease) (lease : StagingLease) :
    leasedBytes (leases ++ [lease]) = leasedBytes leases + lease.bytes := by
  unfold leasedBytes
  rw [List.map_append, List.sum_append, List.map_singleton, List.sum_singleton]

theorem leasedBytes_erase {leases : List StagingLease} {i : ℕ} {held : StagingLease} (h : leases[i]? = some held) :
    leasedBytes (leases.eraseIdx i) + held.bytes = leasedBytes leases := by
  obtain ⟨hi, rfl⟩ := List.getElem?_eq_some_iff.mp h
  have hperm := (List.getElem_cons_eraseIdx_perm hi).map StagingLease.bytes
  unfold leasedBytes
  rw [← hperm.sum_eq, List.map_cons, List.sum_cons, Nat.add_comm]

theorem leasedBytes_set {leases : List StagingLease} {i : ℕ} {held : StagingLease} (h : leases[i]? = some held)
    (lease : StagingLease) :
    leasedBytes (leases.set i lease) + held.bytes = leasedBytes leases + lease.bytes := by
  obtain ⟨hi, rfl⟩ := List.getElem?_eq_some_iff.mp h
  have hset : (leases.set i lease)[i]? = some lease := List.getElem?_set_self hi
  have herase := leasedBytes_erase h
  have herase' := leasedBytes_erase hset
  rw [List.eraseIdx_set_eq] at herase'
  omega

/-- The leases together are far below the budget. -/
theorem leasedBytes_le {leases : List StagingLease} (h : ∀ lease ∈ leases, lease.bytes ≤ maxCheckpointBytes) :
    leasedBytes leases ≤ leases.length * maxCheckpointBytes := by
  induction leases with
  | nil => exact Nat.zero_le _
  | cons lease leases ih =>
    obtain ⟨hfirst, hrest⟩ := List.forall_mem_cons.mp h
    have hsum : leasedBytes (lease :: leases) = lease.bytes + leasedBytes leases := List.sum_cons
    rw [hsum, List.length_cons, Nat.succ_mul, Nat.add_comm]
    exact Nat.add_le_add (ih hrest) hfirst

theorem leasedBytes_two {leases : List StagingLease} (h : ∀ lease ∈ leases, lease.bytes ≤ maxCheckpointBytes)
    (hlength : leases.length ≤ maxConcurrentCheckpoints) : leasedBytes leases ≤ 2 * maxCheckpointBytes :=
  (leasedBytes_le h).trans (Nat.mul_le_mul_right _ hlength)

section
variable {s : Captures} (hs : Counted s)
include hs

/-- A call waits for one of the captures to end; the budget has room for it. -/
theorem fits_iff {bytes : ℕ} (hcall : bytes ∈ s.waiting) :
    fits bytes s.state = true ↔ s.leases.length < maxConcurrentCheckpoints := by
  have hbytes := hs.call bytes hcall
  have htotal := leasedBytes_le hs.lease
  unfold fits
  rw [Bool.and_eq_true, decide_eq_true_iff, decide_eq_true_iff, hs.active, hs.bytes]
  refine ⟨fun h => h.1, fun hlt => ⟨hlt, ?_⟩⟩
  have hone : leasedBytes s.leases ≤ 1 * maxCheckpointBytes :=
    htotal.trans (Nat.mul_le_mul_right _ (Nat.le_of_lt_succ hlt))
  unfold saturatingAdd checkpointStagingBudgetBytes
  unfold maxCheckpointBytes at hone hbytes
  omega

theorem saturatingAdd_call {bytes : ℕ} (hcall : bytes ∈ s.waiting) :
    saturatingAdd s.state.bytes bytes = s.state.bytes + bytes := by
  have hbytes := hs.call bytes hcall
  have htwo := leasedBytes_two hs.lease hs.concurrent
  rw [← hs.bytes] at htwo
  unfold saturatingAdd maxUsize
  unfold maxCheckpointBytes at htwo hbytes
  omega

theorem bytes_lease {lease : ℕ} {held : StagingLease} (hlease : s.leases[lease]? = some held) :
    held.bytes ≤ s.state.bytes := by
  have herase := leasedBytes_erase hlease
  rw [hs.bytes]
  omega

theorem saturatingAdd_adjust (held : StagingLease) {actual : ℕ} (hactual : actual ≤ maxCheckpointBytes) :
    saturatingAdd (s.state.bytes - held.bytes) actual = s.state.bytes - held.bytes + actual := by
  have htwo := leasedBytes_two hs.lease hs.concurrent
  rw [← hs.bytes] at htwo
  unfold saturatingAdd maxUsize
  unfold maxCheckpointBytes at htwo hactual
  omega

theorem counted_adjust {lease actual : ℕ} {held : StagingLease} (hlease : s.leases[lease]? = some held)
    (hactual : actual ≤ maxCheckpointBytes) :
    Counted { s with
      state := (held.adjust actual s.state).1, leases := s.leases.set lease (held.adjust actual s.state).2 } := by
  have hmem : ∀ other ∈ s.leases.set lease ⟨actual⟩, other.bytes ≤ maxCheckpointBytes := by
    intro other hother
    rcases List.mem_or_eq_of_mem_set hother with hold | rfl
    · exact hs.lease other hold
    · exact hactual
  have hlength : (s.leases.set lease ⟨actual⟩).length = s.leases.length := List.length_set
  have hset := leasedBytes_set hlease ⟨actual⟩
  have hheld := bytes_lease hs hlease
  have htwo := leasedBytes_two hmem (hlength.trans_le hs.concurrent)
  have htotal : s.state.bytes - held.bytes + actual = leasedBytes (s.leases.set lease ⟨actual⟩) := by
    rw [hs.bytes] at hheld ⊢
    dsimp only at hset
    omega
  unfold StagingLease.adjust
  dsimp only
  rw [saturatingAdd_adjust hs held hactual, htotal]
  refine ⟨hs.active.trans hlength.symm, hlength.trans_le hs.concurrent, rfl, Nat.le_max_right _ _, ?_, hmem, hs.call⟩
  refine Nat.max_le.mpr ⟨hs.bounded, htwo.trans ?_⟩
  unfold maxCheckpointBytes checkpointStagingBudgetBytes
  omega

theorem counted_drop {lease : ℕ} {held : StagingLease} (hlease : s.leases[lease]? = some held) :
    Counted { s with state := held.drop s.state, leases := s.leases.eraseIdx lease } := by
  have hlt : lease < s.leases.length := (List.getElem?_eq_some_iff.mp hlease).1
  have hlength : (s.leases.eraseIdx lease).length = s.leases.length - 1 := List.length_eraseIdx_of_lt hlt
  have herase := leasedBytes_erase hlease
  have hconcurrent := hs.concurrent
  have hpeak := hs.peak
  have hmem : ∀ other ∈ s.leases.eraseIdx lease, other.bytes ≤ maxCheckpointBytes := fun other hother =>
    hs.lease other (List.mem_of_mem_eraseIdx hother)
  refine ⟨?_, ?_, ?_, ?_, hs.bounded, hmem, hs.call⟩
  · change s.state.active - 1 = _
    rw [hlength, hs.active]
  · dsimp only
    rw [hlength]
    omega
  · change s.state.bytes - held.bytes = leasedBytes (s.leases.eraseIdx lease)
    rw [hs.bytes]
    omega
  · change s.state.bytes - held.bytes ≤ s.state.peakBytes
    omega

theorem counted_round {call bytes : ℕ} {expired : Bool} {state : StagingState} {admission : Admission}
    (hcall : s.waiting[call]? = some bytes) (hround : admitRound bytes expired s.state = (state, admission)) :
    (∀ lease, admission = .admitted lease → Counted ⟨state, s.waiting.eraseIdx call, s.leases ++ [lease]⟩) ∧
    ((∀ lease, admission ≠ .admitted lease) → ∀ waiting, (∀ other ∈ waiting, other ∈ s.waiting) →
      Counted ⟨state, waiting, s.leases⟩) := by
  have hmem : bytes ∈ s.waiting := List.mem_of_getElem? hcall
  have hrefused : ∀ refused waiting, (∀ other ∈ waiting, other ∈ s.waiting) →
      Counted ⟨{ s.state with refused := refused }, waiting, s.leases⟩ := fun refused waiting hwaiting =>
    ⟨hs.active, hs.concurrent, hs.bytes, hs.peak, hs.bounded, hs.lease, fun other hother =>
      hs.call other (hwaiting other hother)⟩
  unfold admitRound at hround
  split_ifs at hround with hfits hexpired
  · obtain ⟨rfl, rfl⟩ := Prod.mk.inj hround
    refine ⟨fun lease hlease => ?_, fun hnone => absurd rfl (hnone _)⟩
    obtain rfl := Admission.admitted.inj hlease
    have hlt := (fits_iff hs hmem).mp hfits
    have hleases : ∀ lease ∈ s.leases ++ [⟨bytes⟩], lease.bytes ≤ maxCheckpointBytes := by
      intro lease hin
      rcases List.mem_append.mp hin with hold | hnew
      · exact hs.lease lease hold
      · rw [List.mem_singleton.mp hnew]
        exact hs.call bytes hmem
    have hlength : (s.leases ++ [(⟨bytes⟩ : StagingLease)]).length = s.leases.length + 1 := List.length_append
    have hsum : s.state.bytes + bytes = leasedBytes (s.leases ++ [⟨bytes⟩]) := by
      rw [leasedBytes_append, hs.bytes]
    have htwo := leasedBytes_two hleases (hlength.trans_le hlt)
    refine ⟨?_, hlength.trans_le hlt, hsum, Nat.le_max_right _ _, ?_, hleases, fun other hother =>
      hs.call other (List.mem_of_mem_eraseIdx hother)⟩
    · rw [hlength, ← hs.active]
    · refine Nat.max_le.mpr ⟨hs.bounded, ?_⟩
      rw [hsum]
      refine htwo.trans ?_
      unfold maxCheckpointBytes checkpointStagingBudgetBytes
      omega
  · obtain ⟨rfl, rfl⟩ := Prod.mk.inj hround
    exact ⟨(fun lease h => nomatch h), fun _ => hrefused _⟩
  · obtain ⟨rfl, rfl⟩ := Prod.mk.inj hround
    exact ⟨(fun lease h => nomatch h), fun _ => hrefused s.state.refused⟩

theorem counted_step {event : Event} {s' : Captures} (hsized : Sized s event) (hstep : step s event = some s') :
    Counted s' := by
  cases event with
  | callAdmit bytes =>
    unfold step checkLimit at hstep
    dsimp only at hstep
    split_ifs at hstep with hlimit
    · obtain rfl := Option.some.inj hstep
      exact ⟨hs.active, hs.concurrent, hs.bytes, hs.peak, hs.bounded, hs.lease, hs.call⟩
    · obtain rfl := Option.some.inj hstep
      refine ⟨hs.active, hs.concurrent, hs.bytes, hs.peak, hs.bounded, hs.lease, fun other hother => ?_⟩
      rcases List.mem_append.mp hother with hold | hnew
      · exact hs.call other hold
      · rw [List.mem_singleton.mp hnew]
        exact (Nat.le_of_not_lt hlimit).trans (Nat.min_le_left _ _)
  | round call expired =>
    obtain ⟨bytes, hcall, hstep⟩ := Option.bind_eq_some_iff.mp hstep
    cases hround : admitRound bytes expired s.state with
    | mk state admission =>
      have hcounted := counted_round hs hcall hround
      rw [hround] at hstep
      cases admission with
      | admitted lease =>
        obtain rfl := Option.some.inj hstep
        exact hcounted.1 lease rfl
      | refused error =>
        obtain rfl := Option.some.inj hstep
        exact hcounted.2 nofun _ fun other hother => List.mem_of_mem_eraseIdx hother
      | waits =>
        obtain rfl := Option.some.inj hstep
        exact hcounted.2 nofun _ fun other hother => hother
  | adjust lease actual =>
    obtain ⟨held, hlease, hstep⟩ := Option.bind_eq_some_iff.mp hstep
    obtain rfl := Option.some.inj hstep
    exact counted_adjust hs hlease hsized
  | drop lease =>
    obtain ⟨held, hlease, hstep⟩ := Option.bind_eq_some_iff.mp hstep
    obtain rfl := Option.some.inj hstep
    exact counted_drop hs hlease

end

theorem counted_initial : Counted initial :=
  ⟨rfl, Nat.zero_le _, rfl, Nat.le_refl _, Nat.zero_le _, nofun, nofun⟩

theorem counted_reach {s : Captures} (h : Reach step (· = initial) Sized s) : Counted s := by
  refine h.invariant ?_ fun _ _ _ hs => counted_step hs
  rintro s rfl
  exact counted_initial

/-- The counters in every state that is reached, and that no saturating operation of the next step saturates. -/
theorem staging_counted {s : Captures} (h : Reach step (· = initial) Sized s) :
    s.state.active = s.leases.length ∧ s.state.active ≤ maxConcurrentCheckpoints ∧
    s.state.bytes = leasedBytes s.leases ∧ s.state.bytes ≤ checkpointStagingBudgetBytes ∧
    (∀ bytes ∈ s.waiting, saturatingAdd s.state.bytes bytes = s.state.bytes + bytes) ∧
    (∀ (lease : ℕ) (held : StagingLease), s.leases[lease]? = some held →
      held.bytes ≤ s.state.bytes ∧ 1 ≤ s.state.active ∧ ∀ actual ≤ maxCheckpointBytes,
        saturatingAdd (s.state.bytes - held.bytes) actual = s.state.bytes - held.bytes + actual) := by
  have hs := counted_reach h
  refine ⟨hs.active, hs.active ▸ hs.concurrent, hs.bytes, hs.peak.trans hs.bounded,
    fun bytes => saturatingAdd_call hs, fun lease held hlease => ⟨bytes_lease hs hlease, ?_, fun actual =>
      saturatingAdd_adjust hs held⟩⟩
  rw [hs.active]
  exact Nat.zero_lt_of_lt (List.getElem?_eq_some_iff.mp hlease).1

/-- Two captures, the first of which is larger than its estimate, and a third that has to wait. -/
def sampleRun : List Event :=
  [.callAdmit 1024, .round 0 false, .callAdmit 2048, .round 0 false, .adjust 0 4096, .callAdmit 1, .round 0 false, .drop 0]

instance (s : Captures) : ∀ event, Decidable (Sized s event)
  | .callAdmit _ => .isTrue trivial
  | .round _ _ => .isTrue trivial
  | .adjust _ actual => inferInstanceAs (Decidable (actual ≤ maxCheckpointBytes))
  | .drop _ => .isTrue trivial

def sampleEnd : Captures := ⟨⟨1, 2048, 6144, 0⟩, [1], [⟨2048⟩]⟩

theorem reach_sample : Reach step (· = initial) Sized sampleEnd := by
  have hfollow : follow step Sized initial sampleRun = some sampleEnd := by decide +kernel
  have hinit : Reach step (· = initial) Sized initial := .init rfl
  exact hinit.follow sampleRun hfollow

theorem staging_counted_sample : sampleEnd.state.active = sampleEnd.leases.length :=
  (staging_counted reach_sample).1

end Paneflow.Host.Staging
