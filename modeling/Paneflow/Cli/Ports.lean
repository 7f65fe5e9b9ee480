import Mathlib.Data.List.Basic
import Mathlib.Data.List.ReduceOption
import Mathlib.Data.Nat.Notation
import Mathlib.Order.Basic

/-!
# Ports of the panes

`allocate_port_offsets` of cli/up_cmd.rs. Each pane that wants ports gets a stride of ten, at the port base plus a
multiple of ten; the counter of strides goes on from pane to pane, past strides that are not free. The arithmetic is
that of `u16`, whose operations are checked.

* `freeFrom`: the free strides from a stride on;
* `nextCandidate_spec`: the loop finds the first of them and leaves the others;
* `allocate_lowest`: what is allocated, and when there are too few.
-/

namespace Paneflow.Cli.Ports

def portStride : UInt16 := 10

structure CliError where
  message : String
  deriving DecidableEq, Repr

def portExhausted : CliError :=
  ⟨s!"no free {portStride}-port stride is available at or above the configured port_base"⟩

/-- `checked_mul` -/
def checkedMul (a b : UInt16) : Option UInt16 := if a.toNat * b.toNat < UInt16.size then some (a * b) else none

/-- `checked_add` -/
def checkedAdd (a b : UInt16) : Option UInt16 := if a.toNat + b.toNat < UInt16.size then some (a + b) else none

theorem checkedMul_none {a b : UInt16} (h : checkedMul a b = none) : UInt16.size ≤ a.toNat * b.toNat := by
  unfold checkedMul at h
  split_ifs at h with hlt
  exact Nat.le_of_not_lt hlt

theorem checkedAdd_none {a b : UInt16} (h : checkedAdd a b = none) : UInt16.size ≤ a.toNat + b.toNat := by
  unfold checkedAdd at h
  split_ifs at h with hlt
  exact Nat.le_of_not_lt hlt

theorem toNat_of_checkedMul {a b c : UInt16} (h : checkedMul a b = some c) : c.toNat = a.toNat * b.toNat := by
  unfold checkedMul at h
  split_ifs at h with hlt
  obtain rfl := Option.some.inj h
  rw [UInt16.toNat_mul]
  exact Nat.mod_eq_of_lt hlt

theorem toNat_of_checkedAdd {a b c : UInt16} (h : checkedAdd a b = some c) : c.toNat = a.toNat + b.toNat := by
  unfold checkedAdd at h
  split_ifs at h with hlt
  obtain rfl := Option.some.inj h
  rw [UInt16.toNat_add]
  exact Nat.mod_eq_of_lt hlt

section
variable (portBase : UInt16) (isFree : UInt16 → Bool)

def portStrideIsFree (portBase : UInt16) (isFree : UInt16 → Bool) : Bool :=
  (List.range portStride.toNat).all fun offset =>
    (checkedAdd portBase (UInt16.ofNat offset)).any isFree

/-- The loop that looks for the stride of a pane: its first port, and the next stride. -/
def nextCandidate (nextStride : UInt16) : Except CliError (UInt16 × UInt16) :=
  match checkedMul nextStride portStride with
  | none => .error portExhausted
  | some offset =>
    match checkedAdd portBase offset with
    | none => .error portExhausted
    | some candidate =>
      if candidate > 65535 - (portStride - 1) then .error portExhausted
      else
        match _h : checkedAdd nextStride 1 with
        | none => .error portExhausted
        | some next => if portStrideIsFree candidate isFree then .ok (candidate, next) else nextCandidate next
termination_by UInt16.size - nextStride.toNat
decreasing_by
  have hnext := toNat_of_checkedAdd _h
  have hlt := next.toNat_lt_size
  have hone : (1 : UInt16).toNat = 1 := rfl
  omega

/-- The loop over the panes. -/
def allocateFrom : List Bool → UInt16 → Except CliError (List (Option UInt16))
  | [], _ => .ok []
  | false :: refs, nextStride => do
    let offsets ← allocateFrom refs nextStride
    return none :: offsets
  | true :: refs, nextStride => do
    let (candidate, nextStride) ← nextCandidate portBase isFree nextStride
    let offsets ← allocateFrom refs nextStride
    return some candidate :: offsets

def allocatePortOffsets (refs : List Bool) : Except CliError (List (Option UInt16)) :=
  allocateFrom portBase isFree refs 0

/-! ### Free strides -/

/-- The first port of a stride. -/
def base (k : ℕ) : ℕ := portBase.toNat + portStride.toNat * k

/-- The stride is whole and all its ports are free. -/
def FreeStride (k : ℕ) : Prop :=
  base portBase k + portStride.toNat ≤ UInt16.size ∧
    ∀ i < portStride.toNat, isFree (UInt16.ofNat (base portBase k + i)) = true

instance (k : ℕ) : Decidable (FreeStride portBase isFree k) :=
  inferInstanceAs (Decidable (_ ∧ ∀ i < portStride.toNat, _))

/-- No stride from here on is whole. -/
def strideLimit : ℕ := 6554

def freeFrom (n : ℕ) : List ℕ :=
  (List.range' n (strideLimit - n)).filter fun k => FreeStride portBase isFree k

end

section
variable {portBase : UInt16} {isFree : UInt16 → Bool}

theorem FreeStride.lt_limit {k : ℕ} (h : FreeStride portBase isFree k) : k < strideLimit := by
  have hwhole := h.1
  unfold base at hwhole
  have hstride : portStride.toNat = 10 := rfl
  have hsize : UInt16.size = 65536 := rfl
  rw [hstride, hsize] at hwhole
  unfold strideLimit
  omega

theorem mem_freeFrom {n k : ℕ} : k ∈ freeFrom portBase isFree n ↔ n ≤ k ∧ FreeStride portBase isFree k := by
  unfold freeFrom
  rw [List.mem_filter, List.mem_range'_1, decide_eq_true_iff]
  constructor
  · rintro ⟨⟨hle, -⟩, hfree⟩
    exact ⟨hle, hfree⟩
  · rintro ⟨hle, hfree⟩
    have hlt := hfree.lt_limit
    exact ⟨⟨hle, by omega⟩, hfree⟩

theorem sorted_freeFrom (n : ℕ) : (freeFrom portBase isFree n).Pairwise (· < ·) :=
  List.Pairwise.filter _ List.pairwise_lt_range'

theorem freeFrom_of_free {n : ℕ} (h : FreeStride portBase isFree n) :
    freeFrom portBase isFree n = n :: freeFrom portBase isFree (n + 1) := by
  have hlt := h.lt_limit
  unfold freeFrom
  rw [show strideLimit - n = strideLimit - (n + 1) + 1 by omega, List.range'_succ,
    List.filter_cons_of_pos (by simpa using h)]

theorem freeFrom_of_taken {n : ℕ} (h : ¬ FreeStride portBase isFree n) :
    freeFrom portBase isFree n = freeFrom portBase isFree (n + 1) := by
  unfold freeFrom
  by_cases hlt : n < strideLimit
  · rw [show strideLimit - n = strideLimit - (n + 1) + 1 by omega, List.range'_succ,
      List.filter_cons_of_neg (by simpa using h)]
  · rw [show strideLimit - n = 0 by omega, show strideLimit - (n + 1) = 0 by omega]
    rfl

/-- After a stride that is not whole there is none. -/
theorem freeFrom_of_cut {n : ℕ} (h : UInt16.size < base portBase n + portStride.toNat) :
    freeFrom portBase isFree n = [] := by
  refine List.eq_nil_iff_forall_not_mem.mpr fun k hk => ?_
  obtain ⟨hle, hwhole, -⟩ := mem_freeFrom.mp hk
  have hmono : base portBase n ≤ base portBase k := Nat.add_le_add_left (Nat.mul_le_mul_left _ hle) _
  omega

theorem portStrideIsFree_iff {candidate : UInt16} {k : ℕ} (hcandidate : candidate.toNat = base portBase k)
    (hwhole : base portBase k + portStride.toNat ≤ UInt16.size) :
    portStrideIsFree candidate isFree = true ↔ FreeStride portBase isFree k := by
  have hport : ∀ i < portStride.toNat,
      checkedAdd candidate (UInt16.ofNat i) = some (UInt16.ofNat (base portBase k + i)) := by
    intro i hi
    have hlt : base portBase k + i < UInt16.size := by omega
    have hi' : (UInt16.ofNat i).toNat = i := UInt16.toNat_ofNat_of_lt (by omega)
    cases hport : checkedAdd candidate (UInt16.ofNat i) with
    | none =>
      have hover := checkedAdd_none hport
      omega
    | some port =>
      have hport := toNat_of_checkedAdd hport
      rw [hcandidate, hi'] at hport
      rw [← hport, UInt16.ofNat_toNat]
  unfold portStrideIsFree FreeStride
  rw [List.all_eq_true]
  constructor
  · refine fun h => ⟨hwhole, fun i hi => ?_⟩
    have hany := h i (List.mem_range.mpr hi)
    rw [hport i hi] at hany
    exact hany
  · rintro ⟨-, hfree⟩ i hi
    rw [hport i (List.mem_range.mp hi)]
    exact hfree i (List.mem_range.mp hi)

theorem toNat_candidate {nextStride offset candidate : UInt16} (hmul : checkedMul nextStride portStride = some offset)
    (hadd : checkedAdd portBase offset = some candidate) : candidate.toNat = base portBase nextStride.toNat := by
  rw [toNat_of_checkedAdd hadd, toNat_of_checkedMul hmul, base, Nat.mul_comm]

/-- The comparison of the loop says that the stride is whole. -/
theorem whole_iff (candidate : UInt16) :
    ¬ candidate > 65535 - (portStride - 1) ↔ candidate.toNat + portStride.toNat ≤ UInt16.size := by
  have hlast : (65535 - (portStride - 1) : UInt16).toNat = 65526 := rfl
  have hstride : portStride.toNat = 10 := rfl
  have hsize : UInt16.size = 65536 := rfl
  rw [gt_iff_lt, UInt16.lt_iff_toNat_lt, hlast, hstride, hsize]
  omega

/-- The loop finds the first free stride that is left, and leaves those after it. -/
theorem nextCandidate_spec (nextStride : UInt16) :
    (freeFrom portBase isFree nextStride.toNat = [] ∧
      nextCandidate portBase isFree nextStride = .error portExhausted) ∨
    ∃ k candidate next, freeFrom portBase isFree nextStride.toNat = k :: freeFrom portBase isFree (k + 1) ∧
      nextCandidate portBase isFree nextStride = .ok (candidate, next) ∧
      candidate.toNat = base portBase k ∧ next.toNat = k + 1 := by
  fun_induction nextCandidate portBase isFree nextStride with
  | case1 nextStride hmul =>
    refine .inl ⟨freeFrom_of_cut ?_, rfl⟩
    have hover := checkedMul_none hmul
    have hstride : portStride.toNat = 10 := rfl
    rw [base, Nat.mul_comm]
    omega
  | case2 nextStride offset hmul hadd =>
    refine .inl ⟨freeFrom_of_cut ?_, rfl⟩
    have hover := checkedAdd_none hadd
    have hstride : portStride.toNat = 10 := rfl
    rw [toNat_of_checkedMul hmul] at hover
    rw [base, Nat.mul_comm]
    omega
  | case3 nextStride offset hmul candidate hadd hlast =>
    refine .inl ⟨freeFrom_of_cut ?_, rfl⟩
    have hcandidate := toNat_candidate hmul hadd
    have hcut := (whole_iff candidate).not.mp (not_not_intro hlast)
    rw [← hcandidate]
    exact Nat.lt_of_not_le hcut
  | case4 nextStride offset hmul candidate hadd hlast hnext =>
    -- the counter of strides is far below its largest value
    have hwhole := (whole_iff candidate).mp hlast
    have hover := checkedAdd_none hnext
    have hstride : portStride.toNat = 10 := rfl
    rw [toNat_candidate hmul hadd, base, hstride] at hwhole
    have hone : (1 : UInt16).toNat = 1 := rfl
    have hsize : UInt16.size = 65536 := rfl
    omega
  | case5 nextStride offset hmul candidate hadd hlast next hnext hfree =>
    have hcandidate := toNat_candidate hmul hadd
    have hwhole := (whole_iff candidate).mp hlast
    rw [hcandidate] at hwhole
    refine .inr ⟨_, _, _, freeFrom_of_free ((portStrideIsFree_iff hcandidate hwhole).mp hfree), rfl, hcandidate, ?_⟩
    exact toNat_of_checkedAdd hnext
  | case6 nextStride offset hmul candidate hadd hlast next hnext hfree ih =>
    have hcandidate := toNat_candidate hmul hadd
    have hwhole := (whole_iff candidate).mp hlast
    rw [hcandidate] at hwhole
    rw [freeFrom_of_taken fun h => hfree ((portStrideIsFree_iff hcandidate hwhole).mpr h)]
    rw [show next.toNat = nextStride.toNat + 1 from toNat_of_checkedAdd hnext] at ih
    exact ih

/-- The first ports of the panes that have some. -/
def bases (offsets : List (Option UInt16)) : List ℕ := offsets.reduceOption.map UInt16.toNat

theorem allocateFrom_spec (portBase : UInt16) (isFree : UInt16 → Bool) (refs : List Bool) (nextStride : UInt16) :
    ((freeFrom portBase isFree nextStride.toNat).length < refs.count true →
      allocateFrom portBase isFree refs nextStride = .error portExhausted) ∧
    (refs.count true ≤ (freeFrom portBase isFree nextStride.toNat).length →
      ∃ offsets, allocateFrom portBase isFree refs nextStride = .ok offsets ∧
        offsets.map Option.isSome = refs ∧
        bases offsets = ((freeFrom portBase isFree nextStride.toNat).take (refs.count true)).map (base portBase)) := by
  induction refs generalizing nextStride with
  | nil => exact ⟨nofun, fun _ => ⟨[], rfl, rfl, rfl⟩⟩
  | cons wants refs ih =>
    cases wants with
    | false =>
      obtain ⟨herror, hok⟩ := ih nextStride
      rw [allocateFrom, List.count_cons_of_ne Bool.false_ne_true]
      refine ⟨fun hfew => ?_, fun henough => ?_⟩
      · rw [herror hfew]
        rfl
      · obtain ⟨offsets, hoffsets, hsome, hbases⟩ := hok henough
        exact ⟨none :: offsets, by rw [hoffsets]; rfl, congrArg (false :: ·) hsome, hbases⟩
    | true =>
      rw [allocateFrom, List.count_cons_self]
      rcases nextCandidate_spec nextStride with ⟨hnone, herror⟩ | ⟨k, candidate, next, hfree, hok, hcandidate, hnext⟩
      · rw [hnone, herror]
        exact ⟨fun _ => rfl, fun henough => absurd henough (Nat.not_succ_le_zero _)⟩
      · obtain ⟨hfew', henough'⟩ := ih next
        rw [hnext] at hfew' henough'
        rw [hfree, hok, List.length_cons]
        refine ⟨fun hfew => ?_, fun henough => ?_⟩
        · change (do let offsets ← allocateFrom portBase isFree refs next; return some candidate :: offsets) = _
          rw [hfew' (Nat.lt_of_succ_lt_succ hfew)]
          rfl
        · obtain ⟨offsets, hoffsets, hsome, hbases⟩ := henough' (Nat.le_of_succ_le_succ henough)
          refine ⟨some candidate :: offsets, ?_, congrArg (true :: ·) hsome, ?_⟩
          · change (do let offsets ← allocateFrom portBase isFree refs next; return some candidate :: offsets) = _
            rw [hoffsets]
            rfl
          · rw [List.take_succ_cons, List.map_cons, ← hbases, ← hcandidate]
            rfl

/-- The strides are one after the other. -/
theorem pairwise_base {strides : List ℕ} (h : strides.Pairwise (· < ·)) :
    (strides.map (base portBase)).Pairwise fun a b => a + portStride.toNat ≤ b := by
  refine List.pairwise_map.mpr (h.imp fun hlt => ?_)
  unfold base
  rw [Nat.add_assoc, ← Nat.mul_succ]
  exact Nat.add_le_add_left (Nat.mul_le_mul_left _ hlt) _

/-- The panes that want ports get the lowest free strides in their order; it fails if there are too few. -/
theorem allocate_lowest (refs : List Bool) (portBase : UInt16) (isFree : UInt16 → Bool) :
    ∃ strides : List ℕ, strides.Pairwise (· < ·) ∧ (∀ k, k ∈ strides ↔ FreeStride portBase isFree k) ∧
      ((∃ error, allocatePortOffsets portBase isFree refs = .error error) ↔ strides.length < refs.count true) ∧
      ∀ offsets, allocatePortOffsets portBase isFree refs = .ok offsets →
        offsets.map Option.isSome = refs ∧
        bases offsets = (strides.take (refs.count true)).map (base portBase) ∧
        (bases offsets).Pairwise fun a b => a + portStride.toNat ≤ b := by
  obtain ⟨hfew, henough⟩ := allocateFrom_spec portBase isFree refs 0
  have hsorted : (freeFrom portBase isFree 0).Pairwise (· < ·) := sorted_freeFrom 0
  refine ⟨freeFrom portBase isFree 0, hsorted, fun k => ?_, ⟨?_, fun h => ⟨_, hfew h⟩⟩, ?_⟩
  · rw [mem_freeFrom]
    exact ⟨fun h => h.2, fun h => ⟨Nat.zero_le k, h⟩⟩
  · rintro ⟨error, herror⟩
    by_contra hle
    obtain ⟨offsets, hoffsets, -⟩ := henough (Nat.le_of_not_lt hle)
    rw [allocatePortOffsets, hoffsets] at herror
    exact nomatch herror
  · intro offsets hok
    have hle : refs.count true ≤ (freeFrom portBase isFree 0).length := by
      by_contra hlt
      rw [allocatePortOffsets, hfew (Nat.lt_of_not_le hlt)] at hok
      exact nomatch hok
    obtain ⟨offsets', hoffsets, hsome, hbases⟩ := henough hle
    rw [allocatePortOffsets, hoffsets] at hok
    obtain rfl := Except.ok.inj hok
    exact ⟨hsome, hbases, hbases ▸ pairwise_base (hsorted.sublist (List.take_sublist _ _))⟩

end

end Paneflow.Cli.Ports
