import Mathlib.Tactic

/-! # Tilings of two sequences

A *range* is a half-open interval of each of two sequences. A list of ranges *tiles* the stretch from
the cursor `(a₁, a₂)` to `(n₁, n₂)` if it is ordered on both sides and every gap it leaves (before the
first range, between two of them, after the last) satisfies a relation `Q`, read `Q s₁ e₁ s₂ e₂` for
the gap `s₁ … e₁` of the first sequence against `s₂ … e₂` of the second.

The two instances that matter:

* `Gap E`: the gap has the same length on both sides and pairs elements related by `E`. A list of
  changed ranges tiled by `Gap E` is an alignment.
* `Le`: the gap is anything in order. A list of matched blocks is tiled by `Le`.

A relation that holds of empty gaps and of two gaps in a row (`GapRel`) lets ranges be shrunk, dropped
and tilings be put one after the other. `Increasing` is an alignment read as the list of its
pairs, and `foldlM_increasing` the invariant rule for a loop over these pairs that may fail. -/

namespace Paneflow.Alignment.Tiling

/-- A half-open interval of each of two sequences. -/
structure Range where
  start1 : ℕ
  end1 : ℕ
  start2 : ℕ
  end2 : ℕ
deriving DecidableEq, Repr

/-- Nothing on either side. -/
def Range.isEmpty (r : Range) : Bool := r.start1 == r.end1 && r.start2 == r.end2

theorem Range.isEmpty_iff {r : Range} :
    r.isEmpty = true ↔ r.start1 = r.end1 ∧ r.start2 = r.end2 := by
  simp [Range.isEmpty]

theorem Range.isEmpty_false {r : Range} :
    r.isEmpty = false ↔ r.start1 ≠ r.end1 ∨ r.start2 ≠ r.end2 := by
  rw [← Bool.not_eq_true, Range.isEmpty_iff, not_and_or]

theorem Range.mk_isEmpty_iff {a b c d : ℕ} :
    (⟨a, b, c, d⟩ : Range).isEmpty = true ↔ a = b ∧ c = d := Range.isEmpty_iff

theorem Range.mk_isEmpty_false {a b c d : ℕ} (h : a ≠ b ∨ c ≠ d) :
    (⟨a, b, c, d⟩ : Range).isEmpty = false := Range.isEmpty_false.mpr h

/-- Both ends of one range lie strictly before the starts of another. -/
def Range.Before (r s : Range) : Prop := r.end1 < s.start1 ∧ r.end2 < s.start2

/-! ### Relations on gaps -/

/-- A relation on gaps that composes: it holds of empty gaps and of two gaps in a row. -/
structure GapRel (Q : ℕ → ℕ → ℕ → ℕ → Prop) : Prop where
  le1 : ∀ {s1 e1 s2 e2}, Q s1 e1 s2 e2 → s1 ≤ e1
  le2 : ∀ {s1 e1 s2 e2}, Q s1 e1 s2 e2 → s2 ≤ e2
  refl : ∀ a1 a2, Q a1 a1 a2 a2
  trans : ∀ {s1 m1 e1 s2 m2 e2}, Q s1 m1 s2 m2 → Q m1 e1 m2 e2 → Q s1 e1 s2 e2

/-- Any gap in order. -/
def Le (s1 e1 s2 e2 : ℕ) : Prop := s1 ≤ e1 ∧ s2 ≤ e2

theorem gapRel_le : GapRel Le where
  le1 h := h.1
  le2 h := h.2
  refl _ _ := ⟨le_rfl, le_rfl⟩
  trans h h' := ⟨h.1.trans h'.1, h.2.trans h'.2⟩

/-- A gap of the same length on both sides that pairs elements related by `E`. -/
def Gap (E : ℕ → ℕ → Prop) (s1 e1 s2 e2 : ℕ) : Prop :=
  ∃ n, e1 = s1 + n ∧ e2 = s2 + n ∧ ∀ k < n, E (s1 + k) (s2 + k)

section Gap
variable {E E' : ℕ → ℕ → Prop} {s1 m1 e1 s2 m2 e2 : ℕ}

theorem Gap.mono (h : ∀ i j, E i j → E' i j) (hg : Gap E s1 e1 s2 e2) : Gap E' s1 e1 s2 e2 := by
  obtain ⟨n, h1, h2, hn⟩ := hg
  exact ⟨n, h1, h2, fun k hk => h _ _ (hn k hk)⟩

theorem Gap.trans (h : Gap E s1 m1 s2 m2) (h' : Gap E m1 e1 m2 e2) : Gap E s1 e1 s2 e2 := by
  obtain ⟨n, rfl, rfl, hn⟩ := h
  obtain ⟨n', rfl, rfl, hn'⟩ := h'
  refine ⟨n + n', by omega, by omega, fun k hk => ?_⟩
  rcases Nat.lt_or_ge k n with hkn | hkn
  · exact hn k hkn
  · have := hn' (k - n) (by omega)
    rwa [show s1 + n + (k - n) = s1 + k by omega, show s2 + n + (k - n) = s2 + k by omega] at this

theorem gapRel_gap (E : ℕ → ℕ → Prop) : GapRel (Gap E) where
  le1 := by rintro _ _ _ _ ⟨n, rfl, rfl, -⟩; omega
  le2 := by rintro _ _ _ _ ⟨n, rfl, rfl, -⟩; omega
  refl a1 a2 := ⟨0, rfl, rfl, by simp⟩
  trans h h' := h.trans h'

/-- The gap of one related pair. -/
theorem Gap.one {i j : ℕ} (h : E i j) : Gap E i (i + 1) j (j + 1) :=
  ⟨1, rfl, rfl, fun k hk => by obtain rfl : k = 0 := by omega
                               exact h⟩

/-- A gap without its first `d` pairs. -/
theorem Gap.drop (h : Gap E s1 e1 s2 e2) {d : ℕ} (hd : s1 + d ≤ e1) :
    Gap E (s1 + d) e1 (s2 + d) e2 := by
  obtain ⟨n, rfl, rfl, hn⟩ := h
  refine ⟨n - d, by omega, by omega, fun k hk => ?_⟩
  rw [Nat.add_assoc, Nat.add_assoc]
  exact hn (d + k) (by omega)

/-- A gap without its last `d` pairs. -/
theorem Gap.dropEnd (h : Gap E s1 e1 s2 e2) {d : ℕ} (hd : s1 + d ≤ e1) :
    Gap E s1 (e1 - d) s2 (e2 - d) := by
  obtain ⟨n, rfl, rfl, hn⟩ := h
  exact ⟨n - d, by omega, by omega, fun k hk => hn k (by omega)⟩

/-- A gap seen from other origins. -/
theorem Gap.shift {o1 o2 : ℕ} (h : Gap (fun i j => E (o1 + i) (o2 + j)) s1 e1 s2 e2) :
    Gap E (o1 + s1) (o1 + e1) (o2 + s2) (o2 + e2) := by
  obtain ⟨n, rfl, rfl, hn⟩ := h
  refine ⟨n, by omega, by omega, fun k hk => ?_⟩
  rw [Nat.add_assoc, Nat.add_assoc]
  exact hn k hk

end Gap

/-! ### Tilings -/

/-- **The ranges tile the stretch** from `(a₁, a₂)` to `(n₁, n₂)`, with gaps related by `Q`. -/
def Tiled (Q : ℕ → ℕ → ℕ → ℕ → Prop) : ℕ → ℕ → List Range → ℕ → ℕ → Prop
  | a1, a2, [], n1, n2 => Q a1 n1 a2 n2
  | a1, a2, r :: rs, n1, n2 => Q a1 r.start1 a2 r.start2 ∧ r.start1 ≤ r.end1 ∧ r.start2 ≤ r.end2 ∧
      Tiled Q r.end1 r.end2 rs n1 n2

section Tiled
variable {Q Q' : ℕ → ℕ → ℕ → ℕ → Prop} {a1 a2 b1 b2 c1 c2 n1 n2 : ℕ} {rs rs' : List Range}

theorem Tiled.mono (h : ∀ s1 e1 s2 e2, Q s1 e1 s2 e2 → Q' s1 e1 s2 e2) :
    ∀ {rs : List Range} {a1 a2 : ℕ}, Tiled Q a1 a2 rs n1 n2 → Tiled Q' a1 a2 rs n1 n2
  | [], _, _, ht => h _ _ _ _ ht
  | _ :: _, _, _, ⟨h1, h2, h3, h4⟩ => ⟨h _ _ _ _ h1, h2, h3, h4.mono h⟩

theorem Tiled.le (hQ : GapRel Q) :
    ∀ {rs : List Range} {a1 a2 : ℕ}, Tiled Q a1 a2 rs n1 n2 → a1 ≤ n1 ∧ a2 ≤ n2
  | [], _, _, ht => ⟨hQ.le1 ht, hQ.le2 ht⟩
  | _ :: _, _, _, ⟨h1, h2, h3, h4⟩ => by
    have := h4.le hQ
    have := hQ.le1 h1
    have := hQ.le2 h1
    omega

/-- Every range lies in the stretch. -/
theorem Tiled.bounds (hQ : GapRel Q) :
    ∀ {rs : List Range} {a1 a2 : ℕ}, Tiled Q a1 a2 rs n1 n2 → ∀ r ∈ rs,
      a1 ≤ r.start1 ∧ r.start1 ≤ r.end1 ∧ r.end1 ≤ n1 ∧
        a2 ≤ r.start2 ∧ r.start2 ≤ r.end2 ∧ r.end2 ≤ n2
  | [], _, _, _, _, hr => by simp at hr
  | r :: rs, a1, a2, ⟨h1, h2, h3, h4⟩, s, hs => by
    have hr1 := hQ.le1 h1
    have hr2 := hQ.le2 h1
    have hle := h4.le hQ
    rcases List.mem_cons.mp hs with rfl | hs
    · omega
    · have := h4.bounds hQ s hs
      omega

/-- More gap after the last range. -/
theorem Tiled.extend (hQ : GapRel Q) (hg : Q b1 c1 b2 c2) :
    ∀ {rs : List Range} {a1 a2 : ℕ}, Tiled Q a1 a2 rs b1 b2 → Tiled Q a1 a2 rs c1 c2
  | [], _, _, ht => hQ.trans ht hg
  | _ :: _, _, _, ⟨h1, h2, h3, h4⟩ => ⟨h1, h2, h3, h4.extend hQ hg⟩

/-- More gap before the first range. -/
theorem Tiled.prepend (hQ : GapRel Q) (hg : Q a1 b1 a2 b2) :
    ∀ {rs : List Range}, Tiled Q b1 b2 rs n1 n2 → Tiled Q a1 a2 rs n1 n2
  | [], ht => hQ.trans hg ht
  | _ :: _, ⟨h1, h2, h3, h4⟩ => ⟨hQ.trans hg h1, h2, h3, h4⟩

/-- Two tilings in a row. -/
theorem Tiled.append (hQ : GapRel Q) (h' : Tiled Q b1 b2 rs' n1 n2) :
    ∀ {rs : List Range} {a1 a2 : ℕ}, Tiled Q a1 a2 rs b1 b2 → Tiled Q a1 a2 (rs ++ rs') n1 n2
  | [], _, _, ht => h'.prepend hQ ht
  | _ :: _, _, _, ⟨h1, h2, h3, h4⟩ => ⟨h1, h2, h3, Tiled.append hQ h' h4⟩

/-- A tiling of two lists of ranges in a row, taken apart after the last range of the first. -/
theorem Tiled.split (hQ : GapRel Q) :
    ∀ {rs : List Range} {a1 a2 : ℕ}, Tiled Q a1 a2 (rs ++ rs') n1 n2 →
      ∃ b1 b2, Tiled Q a1 a2 rs b1 b2 ∧ Tiled Q b1 b2 rs' n1 n2 ∧
        (rs = [] → b1 = a1 ∧ b2 = a2) ∧
        ∀ l, rs.getLast? = some l → b1 = l.end1 ∧ b2 = l.end2
  | [], a1, a2, ht => ⟨a1, a2, hQ.refl _ _, ht, fun _ => ⟨rfl, rfl⟩, by simp⟩
  | [r], _, _, ⟨h1, h2, h3, h4⟩ => by
    refine ⟨r.end1, r.end2, ⟨h1, h2, h3, hQ.refl _ _⟩, h4, by simp, fun l hl => ?_⟩
    obtain rfl : r = l := by simpa using hl
    exact ⟨rfl, rfl⟩
  | r :: s :: rs, _, _, ⟨h1, h2, h3, h4⟩ => by
    obtain ⟨b1, b2, hb, hb', -, hlast⟩ := (show Tiled Q _ _ ((s :: rs) ++ rs') n1 n2 from h4).split hQ
    exact ⟨b1, b2, ⟨h1, h2, h3, hb⟩, hb', by simp, fun l hl => hlast l (by simpa using hl)⟩

/-- **Refining every range** by ranges that tile it. -/
theorem Tiled.refine (hQ : GapRel Q) :
    ∀ {rs : List Range} {sss : List (List Range)} {a1 a2 : ℕ},
      List.Forall₂ (fun r ss => Tiled Q r.start1 r.start2 ss r.end1 r.end2) rs sss →
      Tiled Q a1 a2 rs n1 n2 → Tiled Q a1 a2 sss.flatten n1 n2
  | _, _, _, _, .nil, ht => ht
  | _ :: _, ss :: _, _, _, .cons hr hrs, ⟨h1, _, _, h4⟩ => by
    rw [List.flatten_cons]
    exact Tiled.append hQ (Tiled.refine hQ hrs h4) (hr.prepend hQ h1)

/-- Refinements of ranges that lie apart lie apart. -/
theorem before_refine (hQ : GapRel Q) :
    ∀ {rs : List Range} {sss : List (List Range)},
      List.Forall₂ (fun r ss => Tiled Q r.start1 r.start2 ss r.end1 r.end2 ∧
        ss.Pairwise Range.Before) rs sss →
      rs.Pairwise Range.Before → sss.flatten.Pairwise Range.Before ∧
        ∀ t ∈ sss.flatten, ∃ r ∈ rs, r.start1 ≤ t.start1 ∧ r.start2 ≤ t.start2
  | _, _, .nil, _ => by simp
  | r :: rs, ss :: sss, .cons ⟨hr, hp⟩ hrs, hb => by
    obtain ⟨hbr, hbrs⟩ := List.pairwise_cons.mp hb
    obtain ⟨ih1, ih2⟩ := before_refine hQ hrs hbrs
    rw [List.flatten_cons]
    refine ⟨List.pairwise_append.mpr ⟨hp, ih1, fun t ht u hu => ?_⟩, fun t ht => ?_⟩
    · obtain ⟨v, hv, hv1, hv2⟩ := ih2 u hu
      have := hr.bounds hQ t ht
      have := hbr v hv
      unfold Range.Before at this ⊢
      omega
    · rcases List.mem_append.mp ht with ht | ht
      · have := hr.bounds hQ t ht
        exact ⟨r, List.mem_cons_self, by omega, by omega⟩
      · obtain ⟨v, hv, hv'⟩ := ih2 t ht
        exact ⟨v, List.mem_cons_of_mem _ hv, hv'⟩

/-- One more range, right at the end of the stretch. -/
theorem Tiled.snoc (hQ : GapRel Q) {r : Range} (ht : Tiled Q a1 a2 rs r.start1 r.start2)
    (h1 : r.start1 ≤ r.end1) (h2 : r.start2 ≤ r.end2) :
    Tiled Q a1 a2 (rs ++ [r]) r.end1 r.end2 := by
  have hr : Tiled Q r.start1 r.start2 [r] r.end1 r.end2 := ⟨hQ.refl _ _, h1, h2, hQ.refl _ _⟩
  exact Tiled.append hQ hr ht

/-- Every range is replaced by a part of it, or dropped, what is cut off being gap. -/
def Shrinks (Q : ℕ → ℕ → ℕ → ℕ → Prop) (r : Range) : Option Range → Prop
  | none => Q r.start1 r.end1 r.start2 r.end2
  | some s => Q r.start1 s.start1 r.start2 s.start2 ∧ s.start1 ≤ s.end1 ∧ s.start2 ≤ s.end2 ∧
      Q s.end1 r.end1 s.end2 r.end2

/-- **Shrinking and dropping ranges** whose cut-off parts are gap keeps a tiling. -/
theorem Tiled.filterMap (hQ : GapRel Q) (f : Range → Option Range) :
    ∀ {rs : List Range} {a1 a2 : ℕ}, (∀ r ∈ rs, Shrinks Q r (f r)) →
      Tiled Q a1 a2 rs n1 n2 → Tiled Q a1 a2 (rs.filterMap f) n1 n2
  | [], _, _, _, ht => ht
  | r :: rs, _, _, hf, ⟨h1, _, _, h4⟩ => by
    have ih := Tiled.filterMap hQ f (fun s hs => hf s (List.mem_cons_of_mem _ hs)) h4
    have hr := hf r List.mem_cons_self
    rw [List.filterMap_cons]
    cases hfr : f r with
    | none =>
      rw [hfr] at hr
      exact ih.prepend hQ (hQ.trans h1 hr)
    | some s =>
      rw [hfr] at hr
      obtain ⟨hs1, hs2, hs3, hs4⟩ := hr
      exact ⟨hQ.trans h1 hs1, hs2, hs3, ih.prepend hQ hs4⟩

/-- Parts of ranges that lie apart lie apart. -/
theorem before_filterMap (hQ : GapRel Q) {f : Range → Option Range}
    (hf : ∀ r ∈ rs, Shrinks Q r (f r)) (h : rs.Pairwise Range.Before) :
    (rs.filterMap f).Pairwise Range.Before := by
  refine (h.imp_of_mem (S := fun r s => r ∈ rs ∧ s ∈ rs ∧ r.Before s)
    fun hr hs hrs => ⟨hr, hs, hrs⟩).filterMap f ?_
  rintro r s ⟨hr, hs, hrs⟩ r' hr' s' hs'
  have h1 := hf r hr
  have h2 := hf s hs
  rw [show f r = some r' from hr'] at h1
  rw [show f s = some s' from hs'] at h2
  have := hQ.le1 h1.2.2.2
  have := hQ.le2 h1.2.2.2
  have := hQ.le1 h2.1
  have := hQ.le2 h2.1
  exact ⟨by have := hrs.1; omega, by have := hrs.2; omega⟩

end Tiled

section TiledGap
variable {E E' : ℕ → ℕ → Prop} {n1 n2 : ℕ}

/-- Cutting the first gap of a tiling at an element `s` of the second sequence. -/
theorem Tiled.cut {rs : List Range} {a1 a2 s : ℕ} (ht : Tiled (Gap E) a1 a2 rs n1 n2) (ha : a2 ≤ s)
    (hr : ∀ r ∈ rs, s ≤ r.start2) (hn : s ≤ n2) :
    Gap E a1 (a1 + (s - a2)) a2 s ∧ Tiled (Gap E) (a1 + (s - a2)) s rs n1 n2 := by
  have hcut : ∀ {e1 e2}, Gap E a1 e1 a2 e2 → s ≤ e2 →
      Gap E a1 (a1 + (s - a2)) a2 s ∧ Gap E (a1 + (s - a2)) e1 s e2 := by
    intro e1 e2 hg hs
    obtain ⟨n, rfl, rfl, hE⟩ := id hg
    refine ⟨⟨s - a2, rfl, by omega, fun k hk => hE k (by omega)⟩, ?_⟩
    have hdrop := hg.drop (d := s - a2) (by omega)
    rwa [show a2 + (s - a2) = s by omega] at hdrop
  cases rs with
  | nil => exact hcut ht hn
  | cons r rs =>
    obtain ⟨h1, h2, h3, h4⟩ := ht
    obtain ⟨hg, hg'⟩ := hcut h1 (hr r List.mem_cons_self)
    exact ⟨hg, hg', h2, h3, h4⟩

/-- Ranges that start after the cursor on the second side do so on the first. -/
theorem Tiled.start_lt : ∀ {rs : List Range} {a1 a2 : ℕ}, Tiled (Gap E) a1 a2 rs n1 n2 →
    (∀ r ∈ rs, a2 < r.start2) → ∀ r ∈ rs, a1 < r.start1
  | r :: rs, a1, a2, ⟨⟨n, h1, h2, _⟩, h3, _, h5⟩, ha, t, ht => by
    have := ha r List.mem_cons_self
    rcases List.mem_cons.mp ht with rfl | ht
    · omega
    · have := h5.bounds (gapRel_gap E) t ht
      omega

/-- Ranges that end before the end on the second side do so on the first. -/
theorem Tiled.end_lt : ∀ {rs : List Range} {a1 a2 : ℕ}, Tiled (Gap E) a1 a2 rs n1 n2 →
    (∀ r ∈ rs, r.end2 < n2) → ∀ r ∈ rs, r.end1 < n1
  | [r], a1, a2, ⟨_, _, _, ⟨n, h1, h2, _⟩⟩, ha, t, ht => by
    obtain rfl := List.mem_singleton.mp ht
    have := ha t List.mem_cons_self
    omega
  | r :: s :: rs, a1, a2, ⟨_, _, _, h4⟩, ha, t, ht => by
    have ih := h4.end_lt fun u hu => ha u (List.mem_cons_of_mem _ hu)
    rcases List.mem_cons.mp ht with rfl | ht
    · have := ih s List.mem_cons_self
      have := h4.bounds (gapRel_gap E) s List.mem_cons_self
      omega
    · exact ih t ht

/-- A tiling of a stretch depends on the pairs before its end only. -/
theorem Tiled.congr_lt {s : ℕ} (hE : ∀ i j, j < s → E i j → E' i j) :
    ∀ {rs : List Range} {a1 a2 : ℕ}, Tiled (Gap E) a1 a2 rs n1 n2 → n2 ≤ s →
      Tiled (Gap E') a1 a2 rs n1 n2
  | [], _, _, ⟨n, h1, h2, h⟩, hs => ⟨n, h1, h2, fun k hk => hE _ _ (by omega) (h k hk)⟩
  | r :: rs, _, _, ⟨⟨n, h1, h2, h⟩, h3, h4, h5⟩, hs => by
    have := h5.le (gapRel_gap E)
    exact ⟨⟨n, h1, h2, fun k hk => hE _ _ (by omega) (h k hk)⟩, h3, h4, h5.congr_lt hE hs⟩

/-- The range seen from other origins. -/
def Range.shift (o1 o2 : ℕ) (r : Range) : Range :=
  ⟨o1 + r.start1, o1 + r.end1, o2 + r.start2, o2 + r.end2⟩

/-- **A tiling seen from other origins.** -/
theorem Tiled.shift {o1 o2 : ℕ} (hE : ∀ i j, i < n1 → j < n2 → E i j → E' (o1 + i) (o2 + j)) :
    ∀ {rs : List Range} {a1 a2 : ℕ}, Tiled (Gap E) a1 a2 rs n1 n2 →
      Tiled (Gap E') (o1 + a1) (o2 + a2) (rs.map (Range.shift o1 o2)) (o1 + n1) (o2 + n2)
  | [], _, _, ⟨n, h1, h2, h⟩ => by
    refine ⟨n, by omega, by omega, fun k hk => ?_⟩
    rw [Nat.add_assoc, Nat.add_assoc]
    exact hE _ _ (by omega) (by omega) (h k hk)
  | r :: rs, _, _, ⟨⟨n, h1, h2, h⟩, h3, h4, h5⟩ => by
    have := h5.le (gapRel_gap E)
    refine ⟨⟨n, by simp only [Range.shift]; omega, by simp only [Range.shift]; omega,
      fun k hk => ?_⟩, Nat.add_le_add_left h3 o1, Nat.add_le_add_left h4 o2, h5.shift hE⟩
    rw [Nat.add_assoc, Nat.add_assoc]
    exact hE _ _ (by omega) (by omega) (h k hk)

theorem before_shift {o1 o2 : ℕ} {rs : List Range} (h : rs.Pairwise Range.Before) :
    (rs.map (Range.shift o1 o2)).Pairwise Range.Before :=
  List.pairwise_map.mpr (h.imp fun h => ⟨Nat.add_lt_add_left h.1 o1, Nat.add_lt_add_left h.2 o2⟩)

/-- The range with the second side moved by replacing `before` earlier elements by `after`. -/
def Range.move2 (before after : ℕ) (r : Range) : Range :=
  ⟨r.start1, r.end1, r.start2 - before + after, r.end2 - before + after⟩

/-- **Replacing earlier elements** of the second sequence moves a tiling. -/
theorem Tiled.move2 {e before after : ℕ} (he : before ≤ e)
    (hE : ∀ i j, e ≤ j → E i j → E' i (j - before + after)) :
    ∀ {rs : List Range} {a1 a2 : ℕ}, Tiled (Gap E) a1 a2 rs n1 n2 → e ≤ a2 →
      Tiled (Gap E') a1 (a2 - before + after) (rs.map (Range.move2 before after)) n1
        (n2 - before + after)
  | [], a1, a2, ⟨n, h1, h2, h⟩, ha => by
    refine ⟨n, h1, by omega, fun k hk => ?_⟩
    have := hE _ _ (by omega) (h k hk)
    rwa [show a2 + k - before + after = a2 - before + after + k by omega] at this
  | r :: rs, a1, a2, ⟨⟨n, h1, h2, h⟩, h3, h4, h5⟩, ha => by
    refine ⟨⟨n, h1, by simp only [Range.move2]; omega, fun k hk => ?_⟩, h3,
      by simp only [Range.move2]; omega, h5.move2 he hE (by omega)⟩
    have := hE _ _ (by omega) (h k hk)
    rwa [show a2 + k - before + after = a2 - before + after + k by omega] at this

/-- A range that begins with the second side begins with the first one. -/
theorem Tiled.start_eq {E : ℕ → ℕ → Prop} {n1 n2 : ℕ} {rs : List Range} {a1 a2 : ℕ}
    (ht : Tiled (Gap E) a1 a2 rs n1 n2) (hapart : rs.Pairwise Range.Before) :
    ∀ r ∈ rs, r.start2 = a2 → r.start1 = a1 := by
  intro r hr hstart
  rcases rs with _ | ⟨first, rs⟩
  · simp at hr
  · obtain ⟨⟨n, h1, h2, -⟩, -, hle, -⟩ := ht
    rcases List.mem_cons.mp hr with rfl | hr
    · omega
    · have hbefore := (List.pairwise_cons.mp hapart).1 r hr
      unfold Range.Before at hbefore
      omega

/-- A range that ends with the second side ends with the first one. -/
theorem Tiled.end_eq {E : ℕ → ℕ → Prop} {n1 n2 : ℕ} :
    ∀ {rs : List Range} {a1 a2 : ℕ}, Tiled (Gap E) a1 a2 rs n1 n2 → rs.Pairwise Range.Before →
      ∀ r ∈ rs, r.end2 = n2 → r.end1 = n1
  | [], _, _, _, _, r, hr, _ => by simp at hr
  | first :: rs, a1, a2, ⟨_, _, _, h4⟩, hapart, r, hr, hend => by
    obtain ⟨hfirst, hrest⟩ := List.pairwise_cons.mp hapart
    rcases List.mem_cons.mp hr with rfl | hr
    · cases rs with
      | nil =>
        obtain ⟨n, h1, h2, -⟩ := h4
        omega
      | cons next rs =>
        have hbefore := hfirst next List.mem_cons_self
        have hbounds := h4.bounds (gapRel_gap E) next List.mem_cons_self
        unfold Range.Before at hbefore
        omega
    · exact h4.end_eq hrest r hr hend

end TiledGap

/-- **An alignment** of the stretch from `(a₁, a₂)` to `(n₁, n₂)`: the changed ranges, none empty and
with at least one pair between two of them, leave gaps that pair related elements. -/
structure Aligned (E : ℕ → ℕ → Prop) (a1 a2 : ℕ) (rs : List Range) (n1 n2 : ℕ) : Prop where
  tiled : Tiled (Gap E) a1 a2 rs n1 n2
  apart : rs.Pairwise Range.Before
  nonempty : ∀ r ∈ rs, r.isEmpty = false

theorem Aligned.mono {E E' : ℕ → ℕ → Prop} {a1 a2 n1 n2 : ℕ} {rs : List Range}
    (h : ∀ i j, E i j → E' i j) (ha : Aligned E a1 a2 rs n1 n2) : Aligned E' a1 a2 rs n1 n2 :=
  ⟨ha.tiled.mono fun _ _ _ _ hg => hg.mono h, ha.apart, ha.nonempty⟩

theorem Aligned.end_le {E : ℕ → ℕ → Prop} {a1 a2 n1 n2 : ℕ} {rs : List Range}
    (h : Aligned E a1 a2 rs n1 n2) : ∀ r ∈ rs, r.end1 ≤ n1 ∧ r.end2 ≤ n2 := fun r hr => by
  have := h.tiled.bounds (gapRel_gap E) r hr
  omega

/-- A range with something on both sides that neither starts nor ends with a related pair. -/
def Sharp (E : ℕ → ℕ → Prop) (r : Range) : Prop :=
  r.start1 < r.end1 → r.start2 < r.end2 →
    ¬ E r.start1 r.start2 ∧ ¬ E (r.end1 - 1) (r.end2 - 1)

/-! ### Matched pairs -/

/-- A nonempty block of pairs related by `E`. -/
def Matched (E : ℕ → ℕ → Prop) (u : Range) : Prop :=
  u.start1 < u.end1 ∧ Gap E u.start1 u.end1 u.start2 u.end2

theorem Matched.lt2 {E : ℕ → ℕ → Prop} {u : Range} (h : Matched E u) : u.start2 < u.end2 := by
  obtain ⟨h1, n, hn1, hn2, -⟩ := h
  omega

theorem Matched.append {E : ℕ → ℕ → Prop} {u : Range} (h : Matched E u) {e1 e2 : ℕ}
    (hg : Gap E u.end1 e1 u.end2 e2) : Matched E ⟨u.start1, e1, u.start2, e2⟩ := by
  have := (gapRel_gap E).le1 hg
  exact ⟨lt_of_lt_of_le h.1 this, h.2.trans hg⟩

theorem Matched.prepend {E : ℕ → ℕ → Prop} {u : Range} (h : Matched E u) {s1 s2 : ℕ}
    (hg : Gap E s1 u.start1 s2 u.start2) : Matched E ⟨s1, u.end1, s2, u.end2⟩ := by
  have := (gapRel_gap E).le1 hg
  exact ⟨lt_of_le_of_lt this h.1, hg.trans h.2⟩

/-- A list of pairs related by `E`, strictly increasing on both sides, between two cursors. -/
def Increasing (E : ℕ → ℕ → Prop) : ℕ → ℕ → List (ℕ × ℕ) → ℕ → ℕ → Prop
  | a1, a2, [], n1, n2 => a1 ≤ n1 ∧ a2 ≤ n2
  | a1, a2, p :: ps, n1, n2 => a1 ≤ p.1 ∧ a2 ≤ p.2 ∧ E p.1 p.2 ∧
      Increasing E (p.1 + 1) (p.2 + 1) ps n1 n2

section Increasing
variable {E : ℕ → ℕ → Prop} {a1 a2 b1 b2 n1 n2 : ℕ} {σ : Type*}

theorem Increasing.le : ∀ {ps : List (ℕ × ℕ)} {a1 a2 : ℕ},
    Increasing E a1 a2 ps n1 n2 → a1 ≤ n1 ∧ a2 ≤ n2
  | [], _, _, h => h
  | _ :: _, _, _, ⟨h1, h2, _, h4⟩ => by
    have := h4.le
    omega

theorem Increasing.prepend (h1 : a1 ≤ b1) (h2 : a2 ≤ b2) :
    ∀ {ps : List (ℕ × ℕ)}, Increasing E b1 b2 ps n1 n2 → Increasing E a1 a2 ps n1 n2
  | [], h => ⟨h1.trans h.1, h2.trans h.2⟩
  | _ :: _, h => ⟨h1.trans h.1, h2.trans h.2.1, h.2.2⟩

/-- The pairs of a block, then more pairs. -/
theorem Increasing.block {ps : List (ℕ × ℕ)} :
    ∀ {n a1 a2 : ℕ}, (∀ k < n, E (a1 + k) (a2 + k)) → Increasing E (a1 + n) (a2 + n) ps n1 n2 →
      Increasing E a1 a2 ((List.range n).map (fun i => (a1 + i, a2 + i)) ++ ps) n1 n2
  | 0, _, _, _, h => h
  | n + 1, a1, a2, hE, h => by
    have hE' : ∀ k < n, E (a1 + 1 + k) (a2 + 1 + k) := by
      intro k hk
      have := hE (k + 1) (by omega)
      rwa [show a1 + (k + 1) = a1 + 1 + k by omega, show a2 + (k + 1) = a2 + 1 + k by omega] at this
    have h' : Increasing E (a1 + 1 + n) (a2 + 1 + n) ps n1 n2 := by
      rwa [show a1 + 1 + n = a1 + (n + 1) by omega, show a2 + 1 + n = a2 + (n + 1) by omega]
    have ih := Increasing.block hE' h'
    rw [List.range_succ_eq_map]
    refine ⟨le_rfl, le_rfl, hE 0 (by omega), ?_⟩
    simpa [List.map_map, Function.comp_def, Nat.add_assoc, Nat.add_comm 1] using ih

/-- **The invariant rule for a loop over matched pairs** that may fail: if no step fails from the
invariant at the cursor, and every step restores it at the cursor after the pair, the loop ends and
the invariant holds at some cursor. -/
theorem foldlM_increasing (f : σ → ℕ × ℕ → Option σ) (Inv : ℕ → ℕ → σ → Prop)
    (hstep : ∀ {a1 a2 s i j}, Inv a1 a2 s → a1 ≤ i → a2 ≤ j → i < n1 → j < n2 → E i j →
      ∃ s', f s (i, j) = some s' ∧ Inv (i + 1) (j + 1) s') :
    ∀ {ps : List (ℕ × ℕ)} {a1 a2 : ℕ} {s : σ}, Increasing E a1 a2 ps n1 n2 → Inv a1 a2 s →
      ∃ s' b1 b2, ps.foldlM f s = some s' ∧ Inv b1 b2 s' ∧ b1 ≤ n1 ∧ b2 ≤ n2
  | [], a1, a2, s, h, hs => ⟨s, a1, a2, rfl, hs, h.1, h.2⟩
  | (i, j) :: ps, a1, a2, s, ⟨h1, h2, h3, h4⟩, hs => by
    have hle := h4.le
    obtain ⟨s', hf, hs'⟩ := hstep hs h1 h2 (by omega) (by omega) h3
    obtain ⟨t, b1, b2, ht, hinv, hb⟩ := foldlM_increasing f Inv hstep h4 hs'
    exact ⟨t, b1, b2, by simp [List.foldlM_cons, hf, ht], hinv, hb⟩

end Increasing

end Paneflow.Alignment.Tiling
