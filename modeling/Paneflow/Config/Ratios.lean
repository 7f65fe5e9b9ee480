import Mathlib.Algebra.BigOperators.Group.List.Basic
import Mathlib.Algebra.Order.BigOperators.Group.List
import Mathlib.Algebra.Order.Field.Rat
import Mathlib.Data.Rat.Cast.Order
import Mathlib.Tactic.FieldSimp
import Mathlib.Tactic.Linarith
import Mathlib.Tactic.NormNum
import Mathlib.Tactic.Positivity
import Mathlib.Tactic.Ring

/-!
# The ratios of a split

`legacy_ratios` and `sanitize_ratios` of schema/layout.rs, over the rationals, where every number is
finite. The vector is clamped, divided by its sum and clamped again, so an entry that the division took
below the floor is raised to it and the sum exceeds one: `sum_floored`.
-/

namespace Paneflow.Config.Ratios

def minRatio : ℚ := 1 / 100

def minLegacyRatio : ℚ := 1 / 10

/-- `f64::clamp`. -/
def clamp (r lo hi : ℚ) : ℚ :=
  if r < lo then lo else if hi < r then hi else r

def legacyRatio (ratio : ℚ) : ℚ := clamp ratio minLegacyRatio (1 - minLegacyRatio)

def legacyRatios (ratio : ℚ) : List ℚ := [legacyRatio ratio, 1 - legacyRatio ratio]

/-- `n` equal ratios. -/
def equalRatios (n : ℕ) : List ℚ := List.replicate n (1 / n)

/-- How far a sum may be from one before the ratios are divided by it. -/
def tolerance : ℚ := 1 / 10 ^ 9

/-- The entries of a vector, clamped. -/
def clamped (ratios : List ℚ) : List ℚ := ratios.map fun r => clamp r minRatio 1

def sanitizeRatios (ratios : List ℚ) (n : ℕ) : List ℚ :=
  if ratios.length ≠ n then equalRatios n
  else
    let ratios := clamped ratios
    let sum := ratios.sum
    let ratios := if sum > 0 ∧ |sum - 1| > tolerance then ratios.map (· / sum) else ratios
    clamped ratios

/-! ### Clamping -/

theorem le_clamp {lo hi : ℚ} (h : lo ≤ hi) (r : ℚ) : lo ≤ clamp r lo hi := by
  unfold clamp
  split_ifs with h1 h2
  · exact le_rfl
  · exact h
  · exact not_lt.1 h1

theorem clamp_le {lo hi : ℚ} (h : lo ≤ hi) (r : ℚ) : clamp r lo hi ≤ hi := by
  unfold clamp
  split_ifs with h1 h2
  · exact h
  · exact le_rfl
  · exact not_lt.1 h2

theorem clamp_of_mem {r lo hi : ℚ} (hlo : lo ≤ r) (hhi : r ≤ hi) : clamp r lo hi = r := by
  unfold clamp
  rw [if_neg hlo.not_gt, if_neg hhi.not_gt]

/-- Where the upper bound is kept, clamping raises to the floor. -/
theorem clamp_eq_max {r lo hi : ℚ} (hhi : r ≤ hi) : clamp r lo hi = max lo r := by
  unfold clamp
  split_ifs with h1 h2
  · exact (max_eq_left h1.le).symm
  · exact absurd hhi h2.not_ge
  · exact (max_eq_right (not_lt.1 h1)).symm

/-- The ratios that a split of `n` children may have. -/
structure InRange (n : ℕ) (ratios : List ℚ) : Prop where
  length : ratios.length = n
  bounds : ∀ r ∈ ratios, minRatio ≤ r ∧ r ≤ 1

theorem minRatio_le_one : minRatio ≤ 1 := by norm_num [minRatio]

theorem minRatio_pos : 0 < minRatio := by norm_num [minRatio]

theorem mem_clamped {ratios : List ℚ} {r : ℚ} (h : r ∈ clamped ratios) : minRatio ≤ r ∧ r ≤ 1 := by
  obtain ⟨r', -, rfl⟩ := List.mem_map.1 h
  exact ⟨le_clamp minRatio_le_one r', clamp_le minRatio_le_one r'⟩

theorem inRange_clamped {ratios : List ℚ} {n : ℕ} (hlen : ratios.length = n) :
    InRange n (clamped ratios) :=
  ⟨(List.length_map _).trans hlen, fun _ => mem_clamped⟩

theorem clamped_of_bounds {ratios : List ℚ} (h : ∀ r ∈ ratios, minRatio ≤ r ∧ r ≤ 1) :
    clamped ratios = ratios := by
  unfold clamped
  calc ratios.map (fun r => clamp r minRatio 1) = ratios.map id :=
        List.map_congr_left fun r hr => clamp_of_mem (h r hr).1 (h r hr).2
    _ = ratios := List.map_id _

@[simp]
theorem length_clamped (ratios : List ℚ) : (clamped ratios).length = ratios.length :=
  List.length_map _

@[simp]
theorem clamped_clamped (ratios : List ℚ) : clamped (clamped ratios) = clamped ratios :=
  clamped_of_bounds fun _ => mem_clamped

/-! ### Equal and legacy ratios -/

theorem sum_equalRatios {n : ℕ} (hn : 1 ≤ n) : (equalRatios n).sum = 1 := by
  have : (n : ℚ) ≠ 0 := by exact_mod_cast (by omega : n ≠ 0)
  unfold equalRatios
  rw [List.sum_replicate, nsmul_eq_mul, mul_one_div_cancel this]

theorem inRange_equalRatios {n : ℕ} (hn : 1 ≤ n) (h100 : n ≤ 100) : InRange n (equalRatios n) := by
  refine ⟨List.length_replicate, fun r hr => ?_⟩
  obtain rfl := List.eq_of_mem_replicate hr
  have h1 : (1 : ℚ) ≤ n := by exact_mod_cast hn
  have h2 : (n : ℚ) ≤ 100 := by exact_mod_cast h100
  constructor
  · unfold minRatio
    exact one_div_le_one_div_of_le (by linarith) h2
  · rw [div_le_one (by linarith)]
    exact h1

theorem legacyRatio_bounds (ratio : ℚ) :
    minLegacyRatio ≤ legacyRatio ratio ∧ legacyRatio ratio ≤ 1 - minLegacyRatio := by
  have h : minLegacyRatio ≤ 1 - minLegacyRatio := by norm_num [minLegacyRatio]
  exact ⟨le_clamp h ratio, clamp_le h ratio⟩

theorem legacyRatio_of_bounds {ratio : ℚ} (hlo : minLegacyRatio ≤ ratio)
    (hhi : ratio ≤ 1 - minLegacyRatio) : legacyRatio ratio = ratio :=
  clamp_of_mem hlo hhi

@[simp]
theorem legacyRatio_legacyRatio (ratio : ℚ) : legacyRatio (legacyRatio ratio) = legacyRatio ratio :=
  legacyRatio_of_bounds (legacyRatio_bounds ratio).1 (legacyRatio_bounds ratio).2

theorem sum_legacyRatios (ratio : ℚ) : (legacyRatios ratio).sum = 1 := by
  simp [legacyRatios]

theorem inRange_legacyRatios (ratio : ℚ) : InRange 2 (legacyRatios ratio) := by
  obtain ⟨hlo, hhi⟩ := legacyRatio_bounds ratio
  refine ⟨rfl, ?_⟩
  unfold minLegacyRatio at hlo hhi
  unfold minRatio
  simp only [legacyRatios, List.mem_cons, List.not_mem_nil, or_false, forall_eq_or_imp, forall_eq]
  exact ⟨⟨by linarith, by linarith⟩, by linarith, by linarith⟩

/-! ### The floor -/

theorem sum_div (l : List ℚ) (s : ℚ) : (l.map (· / s)).sum = l.sum / s := by
  induction l with
  | nil => simp
  | cons r l ih => simp [ih, add_div]

/-- Raising to a floor adds less than the floor for each positive entry, and nothing exactly when no
entry is below it. -/
theorem sum_floored (lo : ℚ) (hlo : 0 < lo) {l : List ℚ} (h : ∀ r ∈ l, 0 < r) :
    l.sum ≤ (l.map (max lo)).sum ∧ (l.map (max lo)).sum ≤ l.sum + l.length * lo ∧
      (l ≠ [] → (l.map (max lo)).sum < l.sum + l.length * lo) ∧
      ((l.map (max lo)).sum = l.sum ↔ ∀ r ∈ l, lo ≤ r) := by
  induction l with
  | nil => simp
  | cons r l ih =>
    obtain ⟨hle, hup, -, hiff⟩ := ih fun r hr => h r (List.mem_cons_of_mem _ hr)
    have hr : 0 < r := h r List.mem_cons_self
    have hmax : max lo r < r + lo := max_lt (by linarith) (by linarith)
    have hge : r ≤ max lo r := le_max_right _ _
    simp only [List.map_cons, List.sum_cons, List.length_cons, Nat.cast_add, Nat.cast_one, add_mul,
      one_mul, List.forall_mem_cons]
    refine ⟨by linarith, by linarith, fun _ => by linarith, ?_⟩
    rw [← hiff]
    constructor
    · intro heq
      have hl : (l.map (max lo)).sum = l.sum := by linarith
      exact ⟨max_eq_right_iff.1 (by linarith), hl⟩
    · rintro ⟨hlor, heq⟩
      rw [heq, max_eq_right hlor]

/-- The vector after the division by its sum and the second clamp. -/
theorem clamped_div {l : List ℚ} (h : ∀ r ∈ l, 0 < r) :
    clamped (l.map (· / l.sum)) = (l.map (· / l.sum)).map (max minRatio) := by
  refine List.map_congr_left fun r hr => clamp_eq_max ?_
  obtain ⟨r', hr', rfl⟩ := List.mem_map.1 hr
  have hle := List.single_le_sum (fun r hr => (h r hr).le) r' hr'
  exact div_le_one_of_le₀ hle ((h r' hr').le.trans hle)

/-! ### The sanitized vector -/

theorem clamped_pos {ratios : List ℚ} : ∀ r ∈ clamped ratios, 0 < r :=
  fun _ hr => minRatio_pos.trans_le (mem_clamped hr).1

theorem clamped_sum_pos {ratios : List ℚ} (hne : ratios ≠ []) : 0 < (clamped ratios).sum :=
  List.sum_pos _ clamped_pos (by simpa [clamped] using hne)

theorem inRange_sanitizeRatios (ratios : List ℚ) {n : ℕ} (hn : 1 ≤ n) (h100 : n ≤ 100) :
    InRange n (sanitizeRatios ratios n) := by
  unfold sanitizeRatios
  split_ifs with hlen
  · exact inRange_equalRatios hn h100
  · have hlen' : (clamped ratios).length = n := by simpa using hlen
    dsimp only
    split_ifs
    · exact inRange_clamped (by simpa using hlen')
    · exact inRange_clamped hlen'

/-- A vector whose clamped entries sum to nearly one is only clamped. -/
theorem sanitizeRatios_near {ratios : List ℚ} {n : ℕ} (hlen : ratios.length = n)
    (hnear : |(clamped ratios).sum - 1| ≤ tolerance) : sanitizeRatios ratios n = clamped ratios := by
  unfold sanitizeRatios
  rw [if_neg (by simpa using hlen)]
  dsimp only
  rw [if_neg fun h => h.2.not_ge hnear, clamped_clamped]

theorem sanitizeRatios_far {ratios : List ℚ} {n : ℕ} (hlen : ratios.length = n) (hn : 1 ≤ n)
    (hfar : tolerance < |(clamped ratios).sum - 1|) :
    sanitizeRatios ratios n =
      ((clamped ratios).map (· / (clamped ratios).sum)).map (max minRatio) := by
  have hpos : 0 < (clamped ratios).sum := clamped_sum_pos (List.ne_nil_of_length_pos (by omega))
  unfold sanitizeRatios
  rw [if_neg (by simpa using hlen)]
  dsimp only
  rw [if_pos ⟨hpos, hfar⟩, clamped_div clamped_pos]

/-- The sum after the division, where the floor may have raised some entries. -/
theorem sum_sanitizeRatios_far {ratios : List ℚ} {n : ℕ} (hlen : ratios.length = n) (hn : 1 ≤ n)
    (hfar : tolerance < |(clamped ratios).sum - 1|) :
    1 ≤ (sanitizeRatios ratios n).sum ∧ (sanitizeRatios ratios n).sum < 1 + n * minRatio ∧
      ((sanitizeRatios ratios n).sum = 1 ↔
        ∀ r ∈ clamped ratios, minRatio * (clamped ratios).sum ≤ r) := by
  have hne : clamped ratios ≠ [] := List.ne_nil_of_length_pos (by rw [length_clamped]; omega)
  have hpos : 0 < (clamped ratios).sum := List.sum_pos _ clamped_pos hne
  have hone : ((clamped ratios).map (· / (clamped ratios).sum)).sum = 1 := by
    rw [sum_div, div_self hpos.ne']
  have hentries : ∀ r ∈ (clamped ratios).map (· / (clamped ratios).sum), 0 < r := by
    intro r hr
    obtain ⟨r', hr', rfl⟩ := List.mem_map.1 hr
    exact div_pos (clamped_pos r' hr') hpos
  obtain ⟨hle, -, hlt, hiff⟩ := sum_floored minRatio minRatio_pos hentries
  have hlt := hlt (by simpa using hne)
  rw [hone] at hle hlt hiff
  rw [sanitizeRatios_far hlen hn hfar]
  refine ⟨hle, ?_, hiff.trans ?_⟩
  · simpa [hlen] using hlt
  · simp only [List.forall_mem_map]
    refine forall₂_congr fun r hr => ?_
    rw [le_div_iff₀ hpos]

/-- A vector is left as it is exactly if it is in range and its sum is near one. -/
theorem sanitizeRatios_eq_self {ratios : List ℚ} {n : ℕ} (hn : 1 ≤ n) (h100 : n ≤ 100) :
    sanitizeRatios ratios n = ratios ↔ InRange n ratios ∧ |ratios.sum - 1| ≤ tolerance := by
  constructor
  · intro heq
    have hrange : InRange n ratios := by
      have h := inRange_sanitizeRatios ratios hn h100
      rwa [heq] at h
    refine ⟨hrange, ?_⟩
    by_contra hfar
    rw [not_le] at hfar
    have hcl := clamped_of_bounds hrange.bounds
    rw [← hcl] at hfar
    have hsum := (sum_sanitizeRatios_far hrange.length hn hfar).1
    have hdiv := sanitizeRatios_far hrange.length hn hfar
    rw [heq, hcl] at hdiv
    rw [heq] at hsum
    rw [hcl] at hfar
    -- divided by a sum above one, every entry must have been raised to the floor again
    have hgt : 1 < ratios.sum := by
      refine lt_of_le_of_ne hsum fun h => ?_
      rw [← h, sub_self, abs_zero] at hfar
      norm_num [tolerance] at hfar
    have hmin : ∀ r ∈ ratios, r = minRatio := by
      intro r hr
      have hmap : ratios.map id = ratios.map fun r => max minRatio (r / ratios.sum) := by
        rw [List.map_map] at hdiv
        rw [List.map_id]
        exact hdiv
      have hfix : r = max minRatio (r / ratios.sum) := List.map_inj_left.1 hmap r hr
      have hrpos := minRatio_pos.trans_le (hrange.bounds r hr).1
      have hlt : r / ratios.sum < r := div_lt_self hrpos hgt
      rcases max_choice minRatio (r / ratios.sum) with h | h
      · rw [h] at hfix
        exact hfix
      · rw [h] at hfix
        exact absurd hfix hlt.ne'
    have hrep : ratios.sum = n * minRatio := by
      rw [List.eq_replicate_of_mem hmin, List.sum_replicate, hrange.length, nsmul_eq_mul]
    have : (n : ℚ) ≤ 100 := by exact_mod_cast h100
    unfold minRatio at hrep
    linarith
  · rintro ⟨hrange, hnear⟩
    have hcl := clamped_of_bounds hrange.bounds
    rw [sanitizeRatios_near hrange.length (by rwa [hcl]), hcl]

end Paneflow.Config.Ratios
