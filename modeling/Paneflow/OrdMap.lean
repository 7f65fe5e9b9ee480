import Mathlib

/-!
# Maps ordered by their keys

A map as the list of its entries with strictly increasing keys, the order in which a `BTreeMap` is
walked. The values are described up to permutation: `values_insert` and `values_erase`.
-/

namespace Paneflow.OrdMap

variable {K V : Type} [LinearOrder K]

def insertEntry (k : K) (v : V) : List (K × V) → List (K × V)
  | [] => [(k, v)]
  | e :: es =>
    if k < e.1 then (k, v) :: e :: es
    else if k = e.1 then (k, v) :: es
    else e :: insertEntry k v es

theorem mem_insertEntry {k : K} {v : V} {es : List (K × V)} {e : K × V}
    (h : e ∈ insertEntry k v es) : e = (k, v) ∨ e ∈ es := by
  induction es with
  | nil => simpa [insertEntry] using h
  | cons x xs ih =>
    unfold insertEntry at h
    split_ifs at h
    · simpa using h
    · rcases List.mem_cons.1 h with h | h
      · exact .inl h
      · exact .inr (List.mem_cons_of_mem _ h)
    · rcases List.mem_cons.1 h with h | h
      · exact .inr (by simp [h])
      · exact (ih h).imp_right (List.mem_cons_of_mem _)

theorem pairwise_insertEntry {k : K} {v : V} {es : List (K × V)}
    (h : es.Pairwise fun x y => x.1 < y.1) :
    (insertEntry k v es).Pairwise fun x y => x.1 < y.1 := by
  induction es with
  | nil => simp [insertEntry]
  | cons x xs ih =>
    obtain ⟨hx, hxs⟩ := List.pairwise_cons.1 h
    unfold insertEntry
    split_ifs with hlt heq
    · refine List.pairwise_cons.2 ⟨fun y hy => ?_, h⟩
      rcases List.mem_cons.1 hy with rfl | hy
      · exact hlt
      · exact hlt.trans (hx y hy)
    · refine List.pairwise_cons.2 ⟨fun y hy => ?_, hxs⟩
      rw [heq]
      exact hx y hy
    · refine List.pairwise_cons.2 ⟨fun y hy => ?_, ih hxs⟩
      rcases mem_insertEntry hy with rfl | hy
      · exact lt_of_le_of_ne (not_lt.1 hlt) (Ne.symm heq)
      · exact hx y hy

end Paneflow.OrdMap

/-- A map as the list of its entries, with strictly increasing keys. -/
structure Paneflow.OrdMap (K V : Type) [LinearOrder K] where
  entries : List (K × V)
  sorted : entries.Pairwise fun x y => x.1 < y.1

namespace Paneflow.OrdMap

variable {K V : Type} [LinearOrder K]

instance [DecidableEq V] : DecidableEq (OrdMap K V) := fun m m' =>
  decidable_of_iff (m.entries = m'.entries) ⟨fun h => by cases m; cases m'; simpa using h,
    fun h => by rw [h]⟩

def empty : OrdMap K V := ⟨[], .nil⟩

def get? (m : OrdMap K V) (k : K) : Option V := (m.entries.find? fun e => e.1 = k).map Prod.snd

def insert (m : OrdMap K V) (k : K) (v : V) : OrdMap K V :=
  ⟨insertEntry k v m.entries, pairwise_insertEntry m.sorted⟩

def erase (m : OrdMap K V) (k : K) : OrdMap K V :=
  ⟨m.entries.filter fun e => e.1 ≠ k, m.sorted.filter _⟩

def values (m : OrdMap K V) : List V := m.entries.map Prod.snd

def mapValues {W : Type} (m : OrdMap K V) (f : V → W) : OrdMap K W :=
  ⟨m.entries.map fun e => (e.1, f e.2), List.pairwise_map.2 m.sorted⟩

/-- The entries whose keys pass. -/
def filterKeys (m : OrdMap K V) (p : K → Bool) : OrdMap K V :=
  ⟨m.entries.filter fun e => p e.1, m.sorted.filter _⟩

variable {m : OrdMap K V} {k k' : K} {v : V}

@[simp] theorem get?_empty : (empty : OrdMap K V).get? k = none := rfl

@[simp] theorem values_empty : (empty : OrdMap K V).values = [] := rfl

theorem get?_eq_some : m.get? k = some v ↔ (k, v) ∈ m.entries := by
  obtain ⟨es, hs⟩ := m
  unfold get?
  dsimp only
  induction es with
  | nil => simp
  | cons x xs ih =>
    obtain ⟨hx, hxs⟩ := List.pairwise_cons.1 hs
    by_cases hk : x.1 = k
    · rw [List.find?_cons_of_pos (by simpa using hk), Option.map_some, List.mem_cons]
      constructor
      · intro h
        rw [Option.some.injEq] at h
        exact .inl (by rw [← hk, ← h])
      · rintro (h | h)
        · rw [← h]
        · have := hx _ h
          simp [hk] at this
    · rw [List.find?_cons_of_neg (by simpa using hk), ih hxs, List.mem_cons]
      refine ⟨.inr, ?_⟩
      rintro (h | h)
      · exact absurd (by rw [← h]) hk
      · exact h

theorem mem_values : v ∈ m.values ↔ ∃ k, m.get? k = some v := by
  simp only [values, List.mem_map, Prod.exists, exists_eq_right, get?_eq_some]

theorem mem_insertEntry_iff {es : List (K × V)} {e : K × V}
    (hs : es.Pairwise fun x y => x.1 < y.1) :
    e ∈ insertEntry k v es ↔ e = (k, v) ∨ e ∈ es ∧ e.1 ≠ k := by
  induction es with
  | nil => simp [insertEntry]
  | cons x xs ih =>
    obtain ⟨hx, hxs⟩ := List.pairwise_cons.1 hs
    unfold insertEntry
    split_ifs with hlt heq
    · have hall : ∀ y ∈ x :: xs, y.1 ≠ k := by
        intro y hy
        rcases List.mem_cons.1 hy with rfl | hy
        · exact hlt.ne'
        · exact (hlt.trans (hx y hy)).ne'
      rw [List.mem_cons]
      exact or_congr_right ⟨fun h => ⟨h, hall e h⟩, And.left⟩
    · have hall : ∀ y ∈ xs, y.1 ≠ k := fun y hy => heq ▸ (hx y hy).ne'
      rw [List.mem_cons, List.mem_cons]
      refine or_congr_right ⟨fun h => ⟨.inr h, hall e h⟩, ?_⟩
      rintro ⟨rfl | h, hne⟩
      · exact absurd heq.symm hne
      · exact h
    · rw [List.mem_cons, ih hxs, List.mem_cons]
      constructor
      · rintro (rfl | h | ⟨h, hne⟩)
        · exact .inr ⟨.inl rfl, Ne.symm heq⟩
        · exact .inl h
        · exact .inr ⟨.inr h, hne⟩
      · rintro (h | ⟨rfl | h, hne⟩)
        · exact .inr (.inl h)
        · exact .inl rfl
        · exact .inr (.inr ⟨h, hne⟩)

@[simp] theorem get?_insert : (m.insert k v).get? k' = if k' = k then some v else m.get? k' := by
  ext w
  rw [get?_eq_some, insert, mem_insertEntry_iff m.sorted]
  split_ifs with h
  · subst h
    simp [eq_comm]
  · rw [get?_eq_some]
    simp [h]

@[simp] theorem get?_erase : (m.erase k).get? k' = if k' = k then none else m.get? k' := by
  ext w
  rw [get?_eq_some, erase, List.mem_filter]
  split_ifs with h
  · simp [h]
  · rw [get?_eq_some]
    simp [h]

@[simp] theorem get?_filterKeys (p : K → Bool) :
    (m.filterKeys p).get? k = if p k then m.get? k else none := by
  ext w
  rw [get?_eq_some, filterKeys, List.mem_filter]
  split_ifs with h
  · rw [get?_eq_some]
    simp [h]
  · simp [h]

/-- The keys are all different. -/
theorem nodup_keys (m : OrdMap K V) : (m.entries.map Prod.fst).Nodup :=
  List.pairwise_map.2 (m.sorted.imp fun hlt => hlt.ne)

theorem mem_keys : k ∈ m.entries.map Prod.fst ↔ (m.get? k).isSome = true := by
  rw [Option.isSome_iff_exists, List.mem_map]
  constructor
  · rintro ⟨⟨k', v⟩, he, rfl⟩
    exact ⟨v, get?_eq_some.2 he⟩
  · rintro ⟨v, hv⟩
    exact ⟨(k, v), get?_eq_some.1 hv, rfl⟩

/-- Inserting at a key that is not there adds one value. -/
theorem values_insert (h : m.get? k = none) : (m.insert k v).values.Perm (v :: m.values) := by
  obtain ⟨es, hs⟩ := m
  unfold values insert
  dsimp only
  induction es with
  | nil => exact .refl _
  | cons x xs ih =>
    obtain ⟨hx, hxs⟩ := List.pairwise_cons.1 hs
    have hk : k ≠ x.1 := by
      rintro rfl
      exact Option.some_ne_none x.2 ((get?_eq_some.2 (List.mem_cons_self)).symm.trans h)
    unfold insertEntry
    split_ifs with hlt
    · exact .refl _
    · have hrest : (⟨xs, hxs⟩ : OrdMap K V).get? k = none := by
        rw [Option.eq_none_iff_forall_ne_some] at h ⊢
        intro w hw
        exact h w (get?_eq_some.2 (List.mem_cons_of_mem _ (get?_eq_some.1 hw)))
      rw [List.map_cons, List.map_cons]
      exact ((ih hxs hrest).cons x.2).trans (.swap v x.2 _)

/-- Erasing a key takes its value away. -/
theorem values_erase (h : m.get? k = some v) : m.values.Perm (v :: (m.erase k).values) := by
  obtain ⟨es, hs⟩ := m
  unfold values erase
  dsimp only
  induction es with
  | nil => simp [get?] at h
  | cons x xs ih =>
    obtain ⟨hx, hxs⟩ := List.pairwise_cons.1 hs
    rcases List.mem_cons.1 (get?_eq_some.1 h) with heq | hmem
    · have hall : ∀ y ∈ xs, decide (y.1 ≠ k) = true := by
        intro y hy
        have := hx y hy
        rw [← heq] at this
        simpa using this.ne'
      rw [List.filter_cons_of_neg (by simp [← heq]), List.filter_eq_self.2 hall, List.map_cons,
        ← heq]
    · have hne : x.1 ≠ k := (hx _ hmem).ne
      rw [List.filter_cons_of_pos (by simpa using hne), List.map_cons, List.map_cons]
      exact ((ih hxs (get?_eq_some.2 hmem)).cons x.2).trans (.swap v x.2 _)

/-- Inserting at a key that is there replaces its value. -/
theorem values_insert_of_some {w : V} (h : m.get? k = some w) :
    (m.insert k v).values.Perm (v :: (m.erase k).values) := by
  obtain ⟨es, hs⟩ := m
  unfold values insert erase
  dsimp only
  induction es with
  | nil => simp [get?] at h
  | cons x xs ih =>
    obtain ⟨hx, hxs⟩ := List.pairwise_cons.1 hs
    unfold insertEntry
    rcases List.mem_cons.1 (get?_eq_some.1 h) with heq | hmem
    · have hall : ∀ y ∈ xs, decide (y.1 ≠ k) = true := by
        intro y hy
        have := hx y hy
        rw [← heq] at this
        simpa using this.ne'
      rw [← heq, if_neg (lt_irrefl _), if_pos rfl, List.filter_cons_of_neg (by simp),
        List.filter_eq_self.2 hall, List.map_cons]
    · have hlt : x.1 < k := hx _ hmem
      rw [if_neg hlt.not_gt, if_neg hlt.ne', List.filter_cons_of_pos (by simpa using hlt.ne),
        List.map_cons, List.map_cons]
      exact ((ih hxs (get?_eq_some.2 hmem)).cons x.2).trans (.swap v x.2 _)

/-- Erasing a key that is not there changes nothing. -/
theorem values_erase_none (h : m.get? k = none) : (m.erase k).values = m.values := by
  unfold values erase
  dsimp only
  rw [List.filter_eq_self.2]
  rintro ⟨k', w⟩ he
  have : k' ≠ k := by
    rintro rfl
    exact Option.some_ne_none w ((get?_eq_some.2 he).symm.trans h)
  simpa using this

/-- What an insertion does to a sum over the values. -/
theorem sum_values_insert (g : V → ℕ) :
    ((m.insert k v).values.map g).sum + (m.get? k).elim 0 g = (m.values.map g).sum + g v := by
  cases h : m.get? k with
  | none =>
    rw [((values_insert h).map g).sum_eq, List.map_cons, List.sum_cons, Option.elim_none]
    omega
  | some w =>
    rw [((values_insert_of_some h).map g).sum_eq, ((values_erase h).map g).sum_eq, List.map_cons,
      List.map_cons, List.sum_cons, List.sum_cons, Option.elim_some]
    omega

/-! ### Maps with the same entries -/

variable {m' : OrdMap K V}

/-- A map is what it has under its keys. -/
theorem ext_get? (h : ∀ k, m.get? k = m'.get? k) : m = m' := by
  have hmem (e : K × V) : e ∈ m.entries ↔ e ∈ m'.entries := by
    rw [← get?_eq_some, ← get?_eq_some, h]
  have hnodup (m : OrdMap K V) : m.entries.Nodup :=
    m.sorted.imp fun hlt heq => hlt.ne (congrArg Prod.fst heq)
  have hperm : m.entries.Perm m'.entries :=
    (List.perm_ext_iff_of_nodup (hnodup m) (hnodup m')).2 hmem
  have hentries : m.entries = m'.entries :=
    hperm.eq_of_pairwise (fun x y _ _ hxy hyx => absurd hxy hyx.asymm) m.sorted m'.sorted
  cases m
  cases m'
  simpa using hentries

theorem insert_insert (v' : V) : (m.insert k v).insert k v' = m.insert k v' := by
  refine ext_get? fun other => ?_
  simp only [get?_insert]
  split_ifs <;> rfl

theorem insert_get? (h : m.get? k = some v) : m.insert k v = m := by
  refine ext_get? fun other => ?_
  rw [get?_insert]
  split_ifs with heq
  · rw [heq, h]
  · rfl

@[simp] theorem get?_mapValues {W : Type} (f : V → W) :
    (m.mapValues f).get? k = (m.get? k).map f := by
  unfold get? mapValues
  rw [List.find?_map, Option.map_map, Option.map_map]
  rfl

theorem get?_foldl_insert (es : List (K × V)) (hes : es.Pairwise fun x y => x.1 ≠ y.1) :
    (es.foldl (fun m e => m.insert e.1 e.2) m).get? k =
      ((es.find? fun e => e.1 = k).map Prod.snd).or (m.get? k) := by
  induction es generalizing m with
  | nil => simp
  | cons e es ih =>
    obtain ⟨he, hes⟩ := List.pairwise_cons.1 hes
    rw [List.foldl_cons, ih hes, get?_insert]
    by_cases hk : e.1 = k
    · have hnone : es.find? (fun e => e.1 = k) = none := by
        rw [List.find?_eq_none]
        intro e' he'
        simpa [← hk] using (he e' he').symm
      simp [hk, hnone]
    · simp [hk, Ne.symm hk]

/-- Putting the entries of a map into an empty one gives the map. -/
theorem foldl_insert_entries (m : OrdMap K V) :
    m.entries.foldl (fun m e => m.insert e.1 e.2) empty = m := by
  refine ext_get? fun k => ?_
  rw [get?_foldl_insert _ (m.sorted.imp fun hlt => hlt.ne), get?_empty, Option.or_none]
  rfl

end Paneflow.OrdMap
