import Paneflow.Textdiff.Text

/-! # Changed ranges and how they are built: `iterable.rs`

`Changes` lists the changed ranges of two sequences. `complement` turns changed ranges into unchanged
ones and back; `ChangeBuilder` and `ExpandChangeBuilder` collect the changed ranges between pairs that
are marked equal from left to right; `lcs` interns the items of two sequences and hands the tokens to
the Myers diff of `imara_diff`, which is a parameter with the law `MyersLaw`.

* `complement_tiled`: the complement of ranges of one kind with gaps of another is the reverse.
* `Built.markEqual`, `Built.finish`: a builder that is marked in order yields an alignment.
* `Expanding.markEqualOne`, `Expanding.finish`: the same for the builder that expands every change, and
  no change it yields starts or ends with an equal pair.
* `lcs_tiled`: `lcs` pairs equal items. -/

namespace Paneflow.Textdiff.Iterable

open Paneflow.Alignment.Tiling Paneflow.Checked Paneflow.Textdiff.Text

/-- The changed ranges of two sequences of the given lengths. -/
structure Changes where
  changed : List Range
  len1 : ℕ
  len2 : ℕ
deriving DecidableEq, Repr

/-! ### The complement of a list of ranges -/

/-- The loop of `complement`, from the ends `last1`, `last2` of the range before. -/
def complementFrom (len1 len2 : ℕ) : ℕ → ℕ → List Range → List Range
  | last1, last2, [] =>
    let tail : Range := ⟨last1, len1, last2, len2⟩
    if tail.isEmpty then [] else [tail]
  | last1, last2, range :: ranges =>
    let gap : Range := ⟨last1, range.start1, last2, range.start2⟩
    if gap.isEmpty then complementFrom len1 len2 range.end1 range.end2 ranges
    else gap :: complementFrom len1 len2 range.end1 range.end2 ranges

def complement (ranges : List Range) (len1 len2 : ℕ) : List Range :=
  complementFrom len1 len2 0 0 ranges

def Changes.fromUnchanged (unchanged : List Range) (len1 len2 : ℕ) : Changes :=
  ⟨complement unchanged len1 len2, len1, len2⟩

def Changes.unchanged (changes : Changes) : List Range :=
  complement changes.changed changes.len1 changes.len2

section Complement
variable {P Q : ℕ → ℕ → ℕ → ℕ → Prop} {n1 n2 : ℕ}

/-- **Complements swap ranges and gaps**: if the ranges are of kind `P` and the gaps of kind `Q`, the
complement consists of nonempty ranges of kind `Q` with gaps of kind `P`. -/
theorem complementFrom_tiled (hP : GapRel P) (hQ : GapRel Q) :
    ∀ {rs : List Range} {a1 a2 c1 c2 : ℕ}, P c1 a1 c2 a2 → Tiled Q a1 a2 rs n1 n2 →
      (∀ r ∈ rs, P r.start1 r.end1 r.start2 r.end2) →
      Tiled P c1 c2 (complementFrom n1 n2 a1 a2 rs) n1 n2 ∧
        ∀ g ∈ complementFrom n1 n2 a1 a2 rs, Q g.start1 g.end1 g.start2 g.end2 ∧ g.isEmpty = false
  | [], a1, a2, c1, c2, hc, ht, _ => by
    simp only [complementFrom]
    split_ifs with h
    · obtain ⟨rfl, rfl⟩ := Range.mk_isEmpty_iff.mp h
      exact ⟨hc, by simp⟩
    · refine ⟨⟨hc, hQ.le1 ht, hQ.le2 ht, hP.refl _ _⟩, fun g hg => ?_⟩
      rw [List.mem_singleton.mp hg]
      exact ⟨ht, by simpa using h⟩
  | r :: rs, a1, a2, c1, c2, hc, ⟨h1, _, _, h4⟩, hr => by
    have hPr := hr r List.mem_cons_self
    have hrs : ∀ s ∈ rs, P s.start1 s.end1 s.start2 s.end2 := fun s hs =>
      hr s (List.mem_cons_of_mem _ hs)
    simp only [complementFrom]
    split_ifs with h
    · obtain ⟨rfl, rfl⟩ := Range.mk_isEmpty_iff.mp h
      exact complementFrom_tiled hP hQ (hP.trans hc hPr) h4 hrs
    · obtain ⟨ih1, ih2⟩ := complementFrom_tiled hP hQ hPr h4 hrs
      refine ⟨⟨hc, hQ.le1 h1, hQ.le2 h1, ih1⟩, fun g hg => ?_⟩
      rcases List.mem_cons.mp hg with rfl | hg
      · exact ⟨h1, by simpa using h⟩
      · exact ih2 g hg

/-- The complement of ranges with something on both sides has something between its ranges. -/
theorem complementFrom_before (hQ : GapRel Q) :
    ∀ {rs : List Range} {a1 a2 : ℕ}, Tiled Q a1 a2 rs n1 n2 →
      (∀ r ∈ rs, r.start1 < r.end1 ∧ r.start2 < r.end2) →
      (complementFrom n1 n2 a1 a2 rs).Pairwise Range.Before ∧
        ∀ g ∈ complementFrom n1 n2 a1 a2 rs, a1 ≤ g.start1 ∧ a2 ≤ g.start2
  | [], a1, a2, _, _ => by
    simp only [complementFrom]
    split_ifs <;> simp
  | r :: rs, a1, a2, ⟨h1, _, _, h4⟩, hr => by
    obtain ⟨ih1, ih2⟩ := complementFrom_before hQ h4 fun s hs => hr s (List.mem_cons_of_mem _ hs)
    have hlt := hr r List.mem_cons_self
    have hle1 := hQ.le1 h1
    have hle2 := hQ.le2 h1
    simp only [complementFrom]
    split_ifs with h
    · exact ⟨ih1, fun g hg => by have := ih2 g hg; omega⟩
    · refine ⟨List.pairwise_cons.mpr ⟨fun g hg => ?_, ih1⟩, fun g hg => ?_⟩
      · have := ih2 g hg
        exact ⟨by show r.start1 < g.start1; omega, by show r.start2 < g.start2; omega⟩
      · rcases List.mem_cons.mp hg with rfl | hg
        · exact ⟨le_rfl, le_rfl⟩
        · have := ih2 g hg
          omega

variable {E : ℕ → ℕ → Prop}

/-- The unchanged ranges of an alignment are matched blocks in order. -/
theorem unchanged_blocks {changes : Changes}
    (h : Tiled (Gap E) 0 0 changes.changed changes.len1 changes.len2) :
    Tiled Le 0 0 changes.unchanged changes.len1 changes.len2 ∧
      ∀ u ∈ changes.unchanged, Matched E u := by
  have hle : ∀ r ∈ changes.changed, Le r.start1 r.end1 r.start2 r.end2 := fun r hr => by
    have := h.bounds (gapRel_gap E) r hr
    exact ⟨by omega, by omega⟩
  obtain ⟨h1, h2⟩ := complementFrom_tiled gapRel_le (gapRel_gap E) (gapRel_le.refl 0 0) h hle
  refine ⟨h1, fun u hu => ?_⟩
  obtain ⟨hg, hne⟩ := h2 u hu
  refine ⟨?_, hg⟩
  obtain ⟨n, hn1, hn2, -⟩ := hg
  have := Range.isEmpty_false.mp hne
  omega

/-- Matched blocks in order are the unchanged ranges of an alignment. -/
theorem fromUnchanged_aligned {us : List Range} (ht : Tiled Le 0 0 us n1 n2)
    (hu : ∀ u ∈ us, Matched E u) :
    Aligned E 0 0 (Changes.fromUnchanged us n1 n2).changed n1 n2 := by
  obtain ⟨h1, h2⟩ := complementFrom_tiled (gapRel_gap E) gapRel_le ((gapRel_gap E).refl 0 0) ht
    fun u hm => (hu u hm).2
  exact ⟨h1, (complementFrom_before gapRel_le ht fun u hm => ⟨(hu u hm).1, (hu u hm).lt2⟩).1,
    fun r hr => (h2 r hr).2⟩

end Complement

/-! ### The pairs of a list of unchanged ranges -/

/-- The index pairs that the loops over unchanged ranges visit: for each range, `count` pairs from its
starts on. -/
def pairs : List Range → Option (List (ℕ × ℕ))
  | [] => some []
  | range :: ranges => do
    let count ← checkedSub range.end1 range.start1
    return (List.range count).map (fun i => (range.start1 + i, range.start2 + i)) ++ (← pairs ranges)

theorem pairs_spec {E : ℕ → ℕ → Prop} {n1 n2 : ℕ} :
    ∀ {us : List Range} {a1 a2 : ℕ}, Tiled Le a1 a2 us n1 n2 → (∀ u ∈ us, Matched E u) →
      ∃ ps, pairs us = some ps ∧ Increasing E a1 a2 ps n1 n2
  | [], _, _, ht, _ => ⟨[], rfl, ht⟩
  | u :: us, a1, a2, ⟨h1, _, _, h4⟩, hu => by
    obtain ⟨ps, hps, hinc⟩ := pairs_spec h4 fun v hv => hu v (List.mem_cons_of_mem _ hv)
    obtain ⟨-, n, hn1, hn2, hE⟩ := hu u List.mem_cons_self
    refine ⟨_, by rw [pairs, hn1, checkedSub_add, hps]; rfl, ?_⟩
    rw [hn1, hn2] at hinc
    exact (Increasing.block hE hinc).prepend h1.1 h1.2

/-! ### The builder of changes -/

structure ChangeBuilder where
  len1 : ℕ
  len2 : ℕ
  index1 : ℕ
  index2 : ℕ
  changes : List Range
deriving DecidableEq, Repr

def ChangeBuilder.new (len1 len2 : ℕ) : ChangeBuilder := ⟨len1, len2, 0, 0, []⟩

def ChangeBuilder.markEqual (builder : ChangeBuilder) (index1 index2 end1 end2 : ℕ) :
    ChangeBuilder :=
  if index1 = end1 ∧ index2 = end2 then builder
  else
    { builder with
      changes :=
        if builder.index1 ≠ index1 ∨ builder.index2 ≠ index2 then
          builder.changes ++ [⟨builder.index1, index1, builder.index2, index2⟩]
        else builder.changes
      index1 := end1
      index2 := end2 }

def ChangeBuilder.markEqualCount (builder : ChangeBuilder) (index1 index2 count : ℕ) :
    ChangeBuilder :=
  builder.markEqual index1 index2 (index1 + count) (index2 + count)

def ChangeBuilder.finish (builder : ChangeBuilder) : Changes where
  changed :=
    if builder.len1 ≠ builder.index1 ∨ builder.len2 ≠ builder.index2 then
      builder.changes ++ [⟨builder.index1, builder.len1, builder.index2, builder.len2⟩]
    else builder.changes
  len1 := builder.len1
  len2 := builder.len2

/-- A list of changes is an alignment up to the cursor, with a pair after the last change. -/
structure UpTo (E : ℕ → ℕ → Prop) (changes : List Range) (index1 index2 : ℕ) : Prop extends
    Aligned E 0 0 changes index1 index2 where
  after : ∀ r ∈ changes, r.end1 < index1 ∧ r.end2 < index2

section UpTo
variable {E : ℕ → ℕ → Prop} {changes : List Range} {index1 index2 i1 i2 e1 e2 : ℕ}

theorem upTo_nil : UpTo E [] 0 0 := by
  refine ⟨⟨(gapRel_gap E).refl 0 0, List.Pairwise.nil, ?_⟩, ?_⟩ <;> simp

/-- A change from the cursor on keeps an alignment. -/
theorem UpTo.push (h : UpTo E changes index1 index2) {r : Range}
    (hs : Gap E index1 r.start1 index2 r.start2) (h1 : r.start1 ≤ r.end1) (h2 : r.start2 ≤ r.end2)
    (hne : r.isEmpty = false) : Aligned E 0 0 (changes ++ [r]) r.end1 r.end2 := by
  refine ⟨(h.tiled.extend (gapRel_gap E) hs).snoc (gapRel_gap E) h1 h2, ?_, ?_⟩
  · refine List.pairwise_append.mpr ⟨h.apart, List.pairwise_singleton _ _, fun s hs' t ht => ?_⟩
    rw [List.mem_singleton.mp ht]
    have := h.after s hs'
    have := (gapRel_gap E).le1 hs
    have := (gapRel_gap E).le2 hs
    exact ⟨by omega, by omega⟩
  · intro s hs'
    rcases List.mem_append.mp hs' with hs' | hs'
    · exact h.nonempty s hs'
    · rw [List.mem_singleton.mp hs']; exact hne

/-- Pairs after the last change move the cursor. -/
theorem UpTo.advance (h : Aligned E 0 0 changes i1 i2) (hg : Gap E i1 e1 i2 e2) (hlt : i1 < e1) :
    UpTo E changes e1 e2 := by
  refine ⟨⟨h.tiled.extend (gapRel_gap E) hg, h.apart, h.nonempty⟩, fun r hr => ?_⟩
  obtain ⟨n, rfl, rfl, -⟩ := hg
  have := h.end_le r hr
  omega

end UpTo

/-- A builder whose changes are an alignment up to its cursor, within the lengths. -/
structure Built (E : ℕ → ℕ → Prop) (n1 n2 : ℕ) (builder : ChangeBuilder) : Prop where
  len1 : builder.len1 = n1
  len2 : builder.len2 = n2
  upTo : UpTo E builder.changes builder.index1 builder.index2

section Built
variable {E : ℕ → ℕ → Prop} {n1 n2 : ℕ} {builder : ChangeBuilder}

theorem built_new (n1 n2 : ℕ) : Built E n1 n2 (ChangeBuilder.new n1 n2) :=
  ⟨rfl, rfl, upTo_nil⟩

/-- **Marking pairs from the cursor on** keeps the alignment; the cursor moves to their end, unless
there are none. -/
theorem Built.markEqual (h : Built E n1 n2 builder) {i1 i2 e1 e2 : ℕ} (h1 : builder.index1 ≤ i1)
    (h2 : builder.index2 ≤ i2) (hg : Gap E i1 e1 i2 e2) :
    Built E n1 n2 (builder.markEqual i1 i2 e1 e2) ∧
      (builder.markEqual i1 i2 e1 e2).index1 ≤ e1 ∧ (builder.markEqual i1 i2 e1 e2).index2 ≤ e2 := by
  have hle1 := (gapRel_gap E).le1 hg
  have hle2 := (gapRel_gap E).le2 hg
  unfold ChangeBuilder.markEqual
  split_ifs with he hc
  · exact ⟨h, by omega, by omega⟩
  · have hlt : i1 < e1 := by
      obtain ⟨n, hn1, hn2, -⟩ := hg
      omega
    have ha := h.upTo.push (r := ⟨builder.index1, i1, builder.index2, i2⟩)
      ((gapRel_gap E).refl _ _) h1 h2 (Range.mk_isEmpty_false hc)
    exact ⟨⟨h.len1, h.len2, UpTo.advance ha hg hlt⟩, le_rfl, le_rfl⟩
  · have hlt : i1 < e1 := by
      obtain ⟨n, hn1, hn2, -⟩ := hg
      omega
    obtain ⟨rfl, rfl⟩ : builder.index1 = i1 ∧ builder.index2 = i2 := by omega
    exact ⟨⟨h.len1, h.len2, UpTo.advance h.upTo.toAligned hg hlt⟩, le_rfl, le_rfl⟩

/-- A loop that marks matched blocks, seen from other origins. -/
theorem Built.foldlM {f : ChangeBuilder → Range → Option ChangeBuilder} {o1 o2 m1 m2 : ℕ}
    (hf : ∀ b u, Matched (fun i j => E (o1 + i) (o2 + j)) u → f b u =
      some (b.markEqual (o1 + u.start1) (o2 + u.start2) (o1 + u.end1) (o2 + u.end2))) :
    ∀ {us : List Range} {a1 a2 : ℕ} {builder : ChangeBuilder}, Tiled Le a1 a2 us m1 m2 →
      (∀ u ∈ us, Matched (fun i j => E (o1 + i) (o2 + j)) u) → Built E n1 n2 builder →
      builder.index1 ≤ o1 + a1 → builder.index2 ≤ o2 + a2 →
      ∃ builder', us.foldlM f builder = some builder' ∧ Built E n1 n2 builder' ∧
        builder'.index1 ≤ o1 + m1 ∧ builder'.index2 ≤ o2 + m2
  | [], _, _, builder, ht, _, hb, h1, h2 => by
    have := ht.1
    have := ht.2
    exact ⟨builder, rfl, hb, by omega, by omega⟩
  | u :: us, a1, a2, builder, ⟨ht1, _, _, ht4⟩, hu, hb, h1, h2 => by
    have hum := hu u List.mem_cons_self
    have hle1 := ht1.1
    have hle2 := ht1.2
    obtain ⟨hb', h1', h2'⟩ := hb.markEqual (by omega) (by omega) hum.2.shift
    rw [List.foldlM_cons, hf builder u hum]
    exact Built.foldlM hf ht4 (fun v hv => hu v (List.mem_cons_of_mem _ hv)) hb' h1' h2'

/-- **The finished builder.** -/
theorem Built.finish (h : Built E n1 n2 builder) (h1 : builder.index1 ≤ n1)
    (h2 : builder.index2 ≤ n2) :
    builder.finish.len1 = n1 ∧ builder.finish.len2 = n2 ∧
      Aligned E 0 0 builder.finish.changed n1 n2 := by
  obtain ⟨rfl, rfl, hup⟩ := h
  refine ⟨rfl, rfl, ?_⟩
  unfold ChangeBuilder.finish
  simp only
  split_ifs with hc
  · exact hup.push (r := ⟨builder.index1, builder.len1, builder.index2, builder.len2⟩)
      ((gapRel_gap E).refl _ _) h1 h2 (Range.mk_isEmpty_false (by omega))
  · obtain ⟨h1, h2⟩ : builder.index1 = builder.len1 ∧ builder.index2 = builder.len2 := by omega
    rw [← h1, ← h2]
    exact hup.toAligned

end Built

/-! ### The builder that expands -/

structure ExpandChangeBuilder (α : Type) where
  items1 : List α
  items2 : List α
  index1 : ℕ
  index2 : ℕ
  changes : List Range

section Expanding
variable {α : Type} [BEq α]

def ExpandChangeBuilder.new (items1 items2 : List α) : ExpandChangeBuilder α :=
  ⟨items1, items2, 0, 0, []⟩

def ExpandChangeBuilder.addChange (builder : ExpandChangeBuilder α) (start1 start2 end1 end2 : ℕ) :
    Option (ExpandChangeBuilder α) := do
  let range ← expand builder.items1 builder.items2 start1 start2 end1 end2
  if range.isEmpty then return builder
  else return { builder with changes := builder.changes ++ [range] }

def ExpandChangeBuilder.markEqualOne (builder : ExpandChangeBuilder α) (index1 index2 : ℕ) :
    Option (ExpandChangeBuilder α) := do
  let builder ←
    if builder.index1 ≠ index1 ∨ builder.index2 ≠ index2 then
      builder.addChange builder.index1 builder.index2 index1 index2
    else some builder
  return { builder with index1 := index1 + 1, index2 := index2 + 1 }

def ExpandChangeBuilder.finish (builder : ExpandChangeBuilder α) : Option Changes := do
  let len1 := builder.items1.length
  let len2 := builder.items2.length
  let builder ←
    if len1 ≠ builder.index1 ∨ len2 ≠ builder.index2 then
      builder.addChange builder.index1 builder.index2 len1 len2
    else some builder
  return ⟨builder.changes, len1, len2⟩

/-- A builder of two sequences whose changes are an alignment up to its cursor, none of them starting
or ending with an equal pair. -/
structure Expanding (items1 items2 : List α) (builder : ExpandChangeBuilder α) : Prop where
  items1_eq : builder.items1 = items1
  items2_eq : builder.items2 = items2
  upTo : UpTo (At (· == ·) items1 items2) builder.changes builder.index1 builder.index2
  sharp : ∀ r ∈ builder.changes, Sharp (At (· == ·) items1 items2) r

variable {items1 items2 : List α} {builder : ExpandChangeBuilder α}

theorem expanding_new (items1 items2 : List α) :
    Expanding items1 items2 (ExpandChangeBuilder.new items1 items2) :=
  ⟨rfl, rfl, upTo_nil, by simp [ExpandChangeBuilder.new]⟩

/-- A change from the cursor on is cut down to what `expand` leaves of it. -/
theorem Expanding.addChange (h : Expanding items1 items2 builder) {end1 end2 : ℕ}
    (h1 : builder.index1 ≤ end1) (h2 : builder.index2 ≤ end2) (hl1 : end1 ≤ items1.length)
    (hl2 : end2 ≤ items2.length) :
    ∃ changes, builder.addChange builder.index1 builder.index2 end1 end2 =
        some { builder with changes := changes } ∧
      Aligned (At (· == ·) items1 items2) 0 0 changes end1 end2 ∧
      ∀ r ∈ changes, Sharp (At (· == ·) items1 items2) r := by
  obtain ⟨rfl, rfl, hup, hsharp⟩ := h
  obtain ⟨r, hr, he⟩ := expand_spec h1 h2 hl1 hl2
  unfold ExpandChangeBuilder.addChange
  rw [hr]
  simp only [Option.bind_eq_bind, Option.bind_some]
  split_ifs with hemp
  · refine ⟨builder.changes, rfl, ⟨?_, hup.apart, hup.nonempty⟩, hsharp⟩
    obtain ⟨he1, he2⟩ := Range.isEmpty_iff.mp hemp
    have hfront := he.front
    rw [he1, he2] at hfront
    exact hup.tiled.extend (gapRel_gap _) (hfront.trans he.back)
  · have ha := hup.push he.front he.le1 he.le2 (by simpa using hemp)
    refine ⟨_, rfl, ⟨ha.tiled.extend (gapRel_gap _) he.back, ha.apart, ha.nonempty⟩, ?_⟩
    intro s hs
    rcases List.mem_append.mp hs with hs | hs
    · exact hsharp s hs
    · rw [List.mem_singleton.mp hs]
      exact he.sharp

/-- **Marking an equal pair at or after the cursor.** -/
theorem Expanding.markEqualOne (h : Expanding items1 items2 builder) {i j : ℕ}
    (h1 : builder.index1 ≤ i) (h2 : builder.index2 ≤ j) (hE : At (· == ·) items1 items2 i j) :
    ∃ builder', builder.markEqualOne i j = some builder' ∧ Expanding items1 items2 builder' ∧
      builder'.index1 = i + 1 ∧ builder'.index2 = j + 1 := by
  unfold ExpandChangeBuilder.markEqualOne
  split_ifs with hne
  · obtain ⟨changes, hadd, ha, hsharp⟩ := h.addChange h1 h2 hE.lt1.le hE.lt2.le
    rw [hadd]
    exact ⟨_, rfl, ⟨h.items1_eq, h.items2_eq, UpTo.advance ha (Gap.one hE) (Nat.lt_succ_self i), hsharp⟩,
      rfl, rfl⟩
  · obtain ⟨rfl, rfl⟩ : builder.index1 = i ∧ builder.index2 = j := by omega
    exact ⟨_, rfl, ⟨h.items1_eq, h.items2_eq,
      UpTo.advance h.upTo.toAligned (Gap.one hE) (Nat.lt_succ_self _), h.sharp⟩, rfl, rfl⟩

/-- **The finished builder.** -/
theorem Expanding.finish (h : Expanding items1 items2 builder)
    (h1 : builder.index1 ≤ items1.length) (h2 : builder.index2 ≤ items2.length) :
    ∃ changes, builder.finish = some ⟨changes, items1.length, items2.length⟩ ∧
      Aligned (At (· == ·) items1 items2) 0 0 changes items1.length items2.length ∧
      ∀ r ∈ changes, Sharp (At (· == ·) items1 items2) r := by
  unfold ExpandChangeBuilder.finish
  rw [h.items1_eq, h.items2_eq]
  simp only
  split_ifs with hne
  · obtain ⟨changes, hadd, ha, hsharp⟩ := h.addChange h1 h2 le_rfl le_rfl
    rw [hadd]
    exact ⟨changes, rfl, ha, hsharp⟩
  · refine ⟨builder.changes, rfl, ?_, h.sharp⟩
    obtain ⟨hi, hj⟩ : builder.index1 = items1.length ∧ builder.index2 = items2.length := by omega
    have ha := h.upTo.toAligned
    rwa [hi, hj] at ha

end Expanding

/-! ### The longest common subsequence -/

/-- The token of an item, new if no item equal to it has one. -/
def intern {α : Type} [BEq α] (table : List α) (item : α) : List α × ℕ :=
  match table.findIdx? (· == item) with
  | some token => (table, token)
  | none => (table ++ [item], table.length)

def internAll {α : Type} [BEq α] : List α → List α → List α × List ℕ
  | table, [] => (table, [])
  | table, item :: items =>
    let (table, token) := intern table item
    let (table, tokens) := internAll table items
    (table, token :: tokens)

/-- The hunks of `imara_diff`'s Myers diff of two token sequences with tokens below a number. -/
abbrev Myers := List ℕ → List ℕ → ℕ → List Range

/-- **What is relied on of the Myers diff**: its hunks are ordered, in bounds and nonempty, and what
lies between them pairs equal tokens. -/
def MyersLaw (myers : Myers) : Prop :=
  ∀ before after numTokens, before ≠ [] → after ≠ [] →
    (∀ token ∈ before, token < numTokens) → (∀ token ∈ after, token < numTokens) →
    Tiled (Gap (At (· == ·) before after)) 0 0 (myers before after numTokens) before.length
        after.length ∧
      ∀ r ∈ myers before after numTokens, r.isEmpty = false

def lcs {α : Type} [BEq α] (myers : Myers) (items1 items2 : List α) : Changes :=
  let (table, before) := internAll [] items1
  let (table, after) := internAll table items2
  let len1 := before.length
  let len2 := after.length
  if len1 = 0 ∨ len2 = 0 then
    let whole : Range := ⟨0, len1, 0, len2⟩
    ⟨if whole.isEmpty then [] else [whole], len1, len2⟩
  else ⟨myers before after table.length, len1, len2⟩

section Lcs
variable {α : Type} [BEq α]

theorem intern_spec [ReflBEq α] (table : List α) (item : α) :
    (∃ ext, (intern table item).1 = table ++ ext) ∧
      ∃ y, (intern table item).1[(intern table item).2]? = some y ∧ (y == item) = true := by
  unfold intern
  cases hf : table.findIdx? (· == item) with
  | some token =>
    obtain ⟨hlt, heq, -⟩ := List.findIdx?_eq_some_iff_getElem.mp hf
    exact ⟨⟨[], by simp⟩, table[token], List.getElem?_eq_getElem hlt, heq⟩
  | none => exact ⟨⟨[item], rfl⟩, item, by simp⟩

theorem internAll_cons (table items : List α) (item : α) :
    internAll table (item :: items) =
      ((internAll (intern table item).1 items).1,
        (intern table item).2 :: (internAll (intern table item).1 items).2) := rfl

/-- Every token of the list stands for an item of the table that is equal to the item there. -/
def Tokens (table : List α) (tokens : List ℕ) (items : List α) : Prop :=
  List.Forall₂ (fun token item => ∃ y, table[token]? = some y ∧ (y == item) = true) tokens items

theorem internAll_spec [ReflBEq α] : ∀ (items table : List α),
    (∃ ext, (internAll table items).1 = table ++ ext) ∧
      Tokens (internAll table items).1 (internAll table items).2 items
  | [], table => ⟨⟨[], by simp [internAll]⟩, List.Forall₂.nil⟩
  | item :: items, table => by
    obtain ⟨⟨ext, hext⟩, y, hy, hyi⟩ := intern_spec table item
    obtain ⟨⟨ext', hext'⟩, hall⟩ := internAll_spec items (intern table item).1
    rw [internAll_cons]
    refine ⟨⟨ext ++ ext', ?_⟩, List.Forall₂.cons ⟨y, ?_, hyi⟩ hall⟩
    · rw [hext', hext, List.append_assoc]
    · rw [hext', List.getElem?_append_left (List.getElem?_eq_some_iff.mp hy).1, hy]

theorem Tokens.extend {table items : List α} {tokens : List ℕ} (h : Tokens table tokens items)
    (ext : List α) : Tokens (table ++ ext) tokens items := by
  refine h.imp fun token item => ?_
  rintro ⟨y, hy, hyi⟩
  exact ⟨y, by rw [List.getElem?_append_left (List.getElem?_eq_some_iff.mp hy).1, hy], hyi⟩

theorem Tokens.lt {table : List α} : ∀ {tokens : List ℕ} {items : List α},
    Tokens table tokens items → ∀ token ∈ tokens, token < table.length
  | _, _, .nil, _, ht => by simp at ht
  | _, _, .cons h hs, token, ht => by
    rcases List.mem_cons.mp ht with rfl | ht
    · obtain ⟨y, hy, -⟩ := h
      exact (List.getElem?_eq_some_iff.mp hy).1
    · exact Tokens.lt hs token ht

/-- Equal tokens stand for equal items. -/
theorem Tokens.at [EquivBEq α] {table items1 items2 : List α} {before after : List ℕ}
    (h1 : Tokens table before items1) (h2 : Tokens table after items2) {i j : ℕ}
    (h : At (· == ·) before after i j) : At (· == ·) items1 items2 i j := by
  obtain ⟨token, token', hi, hj, heq⟩ := h
  obtain rfl : token = token' := by simpa using heq
  obtain ⟨hlt1, heq1⟩ := List.getElem?_eq_some_iff.mp hi
  obtain ⟨hlt2, heq2⟩ := List.getElem?_eq_some_iff.mp hj
  have hi' : i < items1.length := List.Forall₂.length_eq h1 ▸ hlt1
  have hj' : j < items2.length := List.Forall₂.length_eq h2 ▸ hlt2
  obtain ⟨y, hy, hyi⟩ := List.Forall₂.get h1 hlt1 hi'
  obtain ⟨z, hz, hzj⟩ := List.Forall₂.get h2 hlt2 hj'
  simp only [List.get_eq_getElem, heq1, heq2] at hy hz hyi hzj
  rw [hy] at hz
  cases hz
  exact ⟨_, _, List.getElem?_eq_getElem hi', List.getElem?_eq_getElem hj',
    BEq.trans (BEq.symm hyi) hzj⟩

/-- **`lcs` pairs equal items**, and its changes are ordered, in bounds and nonempty. -/
theorem lcs_tiled [EquivBEq α] {myers : Myers} (hm : MyersLaw myers) (items1 items2 : List α) :
    (lcs myers items1 items2).len1 = items1.length ∧
      (lcs myers items1 items2).len2 = items2.length ∧
      Tiled (Gap (At (· == ·) items1 items2)) 0 0 (lcs myers items1 items2).changed items1.length
        items2.length ∧
      ∀ r ∈ (lcs myers items1 items2).changed, r.isEmpty = false := by
  obtain ⟨-, htok1⟩ := internAll_spec items1 []
  obtain ⟨⟨ext, hext⟩, htok2⟩ := internAll_spec items2 (internAll [] items1).1
  have hlen1 := List.Forall₂.length_eq htok1
  have hlen2 := List.Forall₂.length_eq htok2
  unfold lcs
  generalize internAll [] items1 = before at *
  obtain ⟨table1, before⟩ := before
  simp only at *
  generalize internAll table1 items2 = after at *
  obtain ⟨table2, after⟩ := after
  simp only at *
  subst hext
  have htok1' := htok1.extend ext
  split_ifs with hzero hempty
  · refine ⟨hlen1, hlen2, ?_, by simp⟩
    obtain ⟨h1, h2⟩ := Range.mk_isEmpty_iff.mp hempty
    rw [← hlen1, ← hlen2, ← h1, ← h2]
    exact (gapRel_gap _).refl 0 0
  · refine ⟨hlen1, hlen2, ?_, ?_⟩
    · rw [← hlen1, ← hlen2]
      exact ⟨(gapRel_gap _).refl 0 0, Nat.zero_le _, Nat.zero_le _, (gapRel_gap _).refl _ _⟩
    · intro r hr
      rw [List.mem_singleton.mp hr]
      simpa using hempty
  · obtain ⟨ht, hne⟩ := hm before after (table1 ++ ext).length
      (fun h => hzero (Or.inl (by simp [h]))) (fun h => hzero (Or.inr (by simp [h])))
      htok1'.lt htok2.lt
    refine ⟨hlen1, hlen2, ?_, hne⟩
    rw [← hlen1, ← hlen2]
    exact ht.mono fun _ _ _ _ hg => hg.mono fun _ _ => htok1'.at htok2

end Lcs

end Paneflow.Textdiff.Iterable
