import Mathlib.Tactic

/-! # Computations that may panic

A function of the source that can panic (an index out of bounds, a slice off a character boundary, a
subtraction of unsigned integers below zero) returns an `Option`, with `none` for the panic. Indexing
is `xs[i]?`; this file has the subtraction, slices, searches with checked reads and the relation read
off two checked reads. -/

namespace Paneflow.Checked

/-- Subtraction of unsigned integers, `none` on underflow. -/
def checkedSub (a b : ℕ) : Option ℕ := if b ≤ a then some (a - b) else none

@[simp] theorem checkedSub_of_le {a b : ℕ} (h : b ≤ a) : checkedSub a b = some (a - b) := if_pos h

@[simp] theorem checkedSub_add (a b : ℕ) : checkedSub (a + b) a = some b := by
  rw [checkedSub_of_le (Nat.le_add_right a b), Nat.add_sub_cancel_left]

/-- The slice `xs[start..end]`. -/
def slice {α : Type} (xs : List α) (start stop : ℕ) : Option (List α) :=
  if start ≤ stop ∧ stop ≤ xs.length then some ((xs.drop start).take (stop - start)) else none

/-- `xs[i] = x` -/
def store {α : Type} (xs : List α) (i : ℕ) (x : α) : Option (List α) :=
  if i < xs.length then some (xs.set i x) else none

theorem slice_of_le {α : Type} {xs : List α} {start stop : ℕ} (h1 : start ≤ stop)
    (h2 : stop ≤ xs.length) : slice xs start stop = some ((xs.drop start).take (stop - start)) :=
  if_pos ⟨h1, h2⟩

theorem length_slice {α : Type} {xs : List α} {start stop : ℕ} (h : stop ≤ xs.length) :
    ((xs.drop start).take (stop - start)).length = stop - start := by
  simp only [List.length_take, List.length_drop]
  omega

/-- A search whose tests all succeed ends, and finds an element that was searched. -/
theorem findM_spec {α : Type} {p : α → Option Bool} :
    ∀ xs : List α, (∀ x ∈ xs, ∃ b, p x = some b) →
      ∃ r, xs.findM? p = some r ∧ ∀ x, r = some x → x ∈ xs
  | [], _ => ⟨none, rfl, by simp⟩
  | x :: xs, h => by
    obtain ⟨b, hb⟩ := h x List.mem_cons_self
    cases b with
    | true =>
      refine ⟨some x, by simp [List.findM?, hb], ?_⟩
      rintro y ⟨rfl⟩
      exact List.mem_cons_self
    | false =>
      obtain ⟨r, hr, hmem⟩ := findM_spec xs fun y hy => h y (List.mem_cons_of_mem _ hy)
      exact ⟨r, by simp [List.findM?, hb, hr], fun y hy => List.mem_cons_of_mem _ (hmem y hy)⟩

/-- A loop whose rounds all succeed, with a filter after it. -/
theorem mapM_filter {α β : Type} {f : α → Option β} (p : β → Bool) :
    ∀ {xs : List α}, (∀ x ∈ xs, ∃ y, f x = some y) →
      ∃ ys, xs.mapM f = some ys ∧ ys.filter p = xs.filterMap fun x => (f x).filter p
  | [], _ => ⟨[], by simp, rfl⟩
  | x :: xs, h => by
    obtain ⟨y, hy⟩ := h x List.mem_cons_self
    obtain ⟨ys, hys, heq⟩ := mapM_filter p fun z hz => h z (List.mem_cons_of_mem _ hz)
    refine ⟨y :: ys, by simp [List.mapM_cons, hy, hys], ?_⟩
    rw [List.filter_cons, List.filterMap_cons, heq, hy]
    cases hp : p y <;> simp [Option.filter, hp]

theorem mapM_of_forall {α β : Type} {f : α → Option β} {g : α → β} :
    ∀ {xs : List α}, (∀ x ∈ xs, f x = some (g x)) → xs.mapM f = some (xs.map g)
  | [], _ => rfl
  | x :: xs, h => by
    rw [List.mapM_cons, h x List.mem_cons_self,
      mapM_of_forall fun y hy => h y (List.mem_cons_of_mem _ hy)]
    rfl

theorem bind_eq_ok {ε α β : Type} {x : Except ε α} {f : α → Except ε β} {b : β} :
    (x >>= f) = .ok b ↔ ∃ a, x = .ok a ∧ f a = .ok b := by
  cases x with
  | error error => exact ⟨nofun, fun ⟨_, h, _⟩ => nomatch h⟩
  | ok a => exact ⟨fun h => ⟨a, rfl, h⟩, fun ⟨_, h, hf⟩ => Except.ok.inj h ▸ hf⟩

/-- A check that refuses. -/
def throwIf {ε : Type} (c : Prop) [Decidable c] (error : ε) : Except ε Unit := if c then .error error else .ok ()

theorem throwIf_eq_ok {ε : Type} {c : Prop} [Decidable c] {error : ε} {a : Unit} :
    throwIf c error = .ok a ↔ ¬c := by
  unfold throwIf
  split_ifs with h <;> simp [h]

theorem map_eq_ok {ε α β : Type} {f : α → β} {x : Except ε α} {b : β} :
    x.map f = .ok b ↔ ∃ a, x = .ok a ∧ f a = b := by
  cases x with
  | error error => exact ⟨nofun, fun ⟨_, h, _⟩ => nomatch h⟩
  | ok a => exact ⟨fun h => ⟨a, rfl, Except.ok.inj h⟩, fun ⟨_, h, hf⟩ => hf ▸ Except.ok.inj h ▸ rfl⟩

theorem ok_unique {ε α : Type} {x : Except ε α} {a b : α} (ha : x = .ok a) (hb : x = .ok b) : a = b :=
  Except.ok.inj (ha.symm.trans hb)

theorem mapError_eq_ok {ε ε' α : Type} {f : ε → ε'} {x : Except ε α} {a : α} : x.mapError f = .ok a ↔ x = .ok a := by
  cases x with
  | error error => exact ⟨nofun, nofun⟩
  | ok b => exact ⟨fun h => Except.ok.inj h ▸ rfl, fun h => Except.ok.inj h ▸ rfl⟩

/-- The invariant rule for a loop that ended without an error; the invariant knows the items that are left. -/
theorem foldlM_ok {ε σ α : Type} {f : σ → α → Except ε σ} {P : List α → σ → Prop}
    (hstep : ∀ x xs s s', P (x :: xs) s → f s x = .ok s' → P xs s') :
    ∀ {xs : List α} {s s' : σ}, P xs s → xs.foldlM f s = .ok s' → P [] s'
  | [], s, s', hs, h => Except.ok.inj h ▸ hs
  | x :: xs, s, s', hs, h => by
    rw [List.foldlM_cons, bind_eq_ok] at h
    obtain ⟨t, hf, hrest⟩ := h
    exact foldlM_ok hstep (hstep x xs s t hs hf) hrest

/-- A loop that computes something for each item and folds it up. -/
theorem foldlM_bind_ok {ε σ α β : Type} {f : α → Except ε β} {g : σ → β → σ} :
    ∀ {xs : List α} {s s' : σ}, (xs.foldlM (fun s x => f x >>= fun y => pure (g s y)) s = .ok s') →
      ∃ ys, xs.mapM f = .ok ys ∧ ys.foldl g s = s'
  | [], s, s', h => ⟨[], rfl, Except.ok.inj h⟩
  | x :: xs, s, s', h => by
    rw [List.foldlM_cons, bind_eq_ok] at h
    obtain ⟨t, hf, hrest⟩ := h
    obtain ⟨y, hy, ht⟩ := bind_eq_ok.1 hf
    obtain rfl : g s y = t := Except.ok.inj ht
    obtain ⟨ys, hys, hfold⟩ := foldlM_bind_ok hrest
    refine ⟨y :: ys, ?_, hfold⟩
    rw [List.mapM_cons, hy]
    show (xs.mapM f >>= fun ys => pure (y :: ys)) = _
    rw [hys]
    rfl

/-- What the items of a list were mapped to. -/
theorem mapM_ok {ε α β : Type} {f : α → Except ε β} :
    ∀ {xs : List α} {ys : List β}, xs.mapM f = .ok ys → List.Forall₂ (fun x y => f x = .ok y) xs ys
  | [], ys, h => by
    obtain rfl : [] = ys := Except.ok.inj h
    exact .nil
  | x :: xs, ys, h => by
    rw [List.mapM_cons, bind_eq_ok] at h
    obtain ⟨y, hy, hrest⟩ := h
    obtain ⟨ys', hys, hpure⟩ := bind_eq_ok.1 hrest
    obtain rfl : y :: ys' = ys := Except.ok.inj hpure
    exact .cons hy (mapM_ok hys)

theorem mapM_ok_left {ε α β : Type} {f : α → Except ε β} {xs : List α} {ys : List β} (h : xs.mapM f = .ok ys)
    {x : α} (hx : x ∈ xs) : ∃ y ∈ ys, f x = .ok y := by
  have hall := mapM_ok h
  clear h
  induction hall with
  | nil => exact absurd hx List.not_mem_nil
  | @cons x' y xs ys hxy hrest ih =>
    rcases List.mem_cons.1 hx with rfl | hx
    · exact ⟨y, List.mem_cons_self, hxy⟩
    · obtain ⟨y', hy', hf⟩ := ih hx
      exact ⟨y', List.mem_cons_of_mem _ hy', hf⟩

theorem mapM_ok_right {ε α β : Type} {f : α → Except ε β} {xs : List α} {ys : List β} (h : xs.mapM f = .ok ys)
    {y : β} (hy : y ∈ ys) : ∃ x ∈ xs, f x = .ok y := by
  have hall := mapM_ok h
  clear h
  induction hall with
  | nil => exact absurd hy List.not_mem_nil
  | @cons x y' xs ys hxy hrest ih =>
    rcases List.mem_cons.1 hy with rfl | hy
    · exact ⟨x, List.mem_cons_self, hxy⟩
    · obtain ⟨x', hx', hf⟩ := ih hy
      exact ⟨x', List.mem_cons_of_mem _ hx', hf⟩

/-- What can be read back from the results. -/
theorem mapM_ok_map {ε α β : Type} {f : α → Except ε β} {xs : List α} {ys : List β} {g : β → α}
    (h : xs.mapM f = .ok ys) (hg : ∀ x y, f x = .ok y → g y = x) : ys.map g = xs := by
  have hall := mapM_ok h
  clear h
  induction hall with
  | nil => rfl
  | cons hxy hrest ih => rw [List.map_cons, ih, hg _ _ hxy]

/-- **The invariant rule for a loop that may fail.** -/
theorem foldlM_inv {σ α : Type*} {f : σ → α → Option σ} {Inv : σ → Prop} :
    ∀ {xs : List α} {s : σ}, (∀ s, ∀ x ∈ xs, Inv s → ∃ s', f s x = some s' ∧ Inv s') → Inv s →
      ∃ s', xs.foldlM f s = some s' ∧ Inv s'
  | [], s, _, hs => ⟨s, rfl, hs⟩
  | x :: xs, s, h, hs => by
    obtain ⟨s', hf, hs'⟩ := h s x List.mem_cons_self hs
    rw [List.foldlM_cons, hf]
    exact foldlM_inv (fun t y hy => h t y (List.mem_cons_of_mem _ hy)) hs'

/-- The elements at `i` and `j` exist and pass the test. -/
def At {α β : Type*} (test : α → β → Bool) (xs : List α) (ys : List β) (i j : ℕ) : Prop :=
  ∃ x y, xs[i]? = some x ∧ ys[j]? = some y ∧ test x y = true

section At
variable {α β : Type*} {test test' : α → β → Bool} {xs : List α} {ys : List β} {i j : ℕ}

theorem At.mono (h : ∀ x y, test x y = true → test' x y = true) (ha : At test xs ys i j) :
    At test' xs ys i j := by
  obtain ⟨x, y, hx, hy, ht⟩ := ha
  exact ⟨x, y, hx, hy, h x y ht⟩

theorem At.lt1 (h : At test xs ys i j) : i < xs.length := by
  obtain ⟨x, y, hx, -, -⟩ := h
  exact (List.getElem?_eq_some_iff.mp hx).1

theorem At.lt2 (h : At test xs ys i j) : j < ys.length := by
  obtain ⟨x, y, -, hy, -⟩ := h
  exact (List.getElem?_eq_some_iff.mp hy).1

theorem at_iff {x : α} {y : β} (hx : xs[i]? = some x) (hy : ys[j]? = some y) :
    At test xs ys i j ↔ test x y = true := by
  constructor
  · rintro ⟨x', y', hx', hy', ht⟩
    rw [hx] at hx'
    rw [hy] at hy'
    cases hx'
    cases hy'
    exact ht
  · exact fun ht => ⟨x, y, hx, hy, ht⟩

/-- Elements of two slices are elements of the lists. -/
theorem At.of_slice {s1 e1 s2 e2 : ℕ}
    (h : At test ((xs.drop s1).take (e1 - s1)) ((ys.drop s2).take (e2 - s2)) i j) :
    At test xs ys (s1 + i) (s2 + j) := by
  have hi := h.lt1
  have hj := h.lt2
  simp only [List.length_take, List.length_drop] at hi hj
  obtain ⟨x, y, hx, hy, ht⟩ := h
  rw [List.getElem?_take_of_lt (by omega), List.getElem?_drop] at hx hy
  exact ⟨x, y, hx, hy, ht⟩

end At

end Paneflow.Checked
