import Mathlib.Data.List.Basic
import Mathlib.Data.List.Chain
import Mathlib.Data.Nat.Notation
import Mathlib.Logic.Function.Basic
import Mathlib.Logic.Relation

/-!
# Depth-first search with an explicit bound

Two searches over the graph of a function `next : α → List α`, both by recursion on a bound of their depth.

* `visit` colours what it finds, and stops with a cycle where it meets a grey node again. Where it does not stop, what
  it colours black is well-founded under `next` (`visit_ok`), and where it stops, it has found a closed walk
  (`visit_error`): the grey nodes are those of the path.
* `reaches` looks for a target and remembers what it has seen. What it says yes to is reachable (`reaches_sound`), and
  what it says no to is not (`reaches_complete`).

In a finite set of nodes that `next` does not leave, a bound above the number of nodes is never exceeded
(`visit_ne_nil`, `reaches_ne_none`).
-/

namespace Paneflow.Dfs

variable {α : Type} [DecidableEq α]

inductive Mark where
  | white
  | grey
  | black
  deriving DecidableEq

/-- The search from `id`; the error is the cycle, and the empty list where the bound is exceeded. -/
def visit (next : α → List α) : ℕ → (α → Mark) → List α → α → Except (List α) (α → Mark)
  | 0, _, _, _ => .error []
  | fuel + 1, marks, path, id =>
    match marks id with
    | .black => .ok marks
    | .grey => .error (path.drop ((path.findIdx? (· = id)).getD 0) ++ [id])
    | .white => do
      let marks ← (next id).foldlM (fun marks need => visit next fuel marks (path ++ [id]) need)
        (Function.update marks id .grey)
      return Function.update marks id .black

/-- Whether one of `needs` is the target or leads to it; what the search has seen goes along. -/
def anyReaches (target : α) (search : List α → α → Option (Bool × List α)) :
    List α → List α → Option (Bool × List α)
  | seen, [] => some (false, seen)
  | seen, need :: needs =>
    if need = target then some (true, seen)
    else
      match search seen need with
      | none => none
      | some (true, seen) => some (true, seen)
      | some (false, seen) => anyReaches target search seen needs

/-- Whether `next` leads from `id` to the target; nothing where the bound is exceeded. -/
def reaches (next : α → List α) (target : α) : ℕ → List α → α → Option (Bool × List α)
  | 0, _, _ => none
  | fuel + 1, seen, id =>
    if id ∈ seen then some (false, seen)
    else anyReaches target (reaches next target fuel) (id :: seen) (next id)

/-- One step along the edges. -/
def Edge (next : α → List α) (x y : α) : Prop := y ∈ next x

variable {next : α → List α} {marks marks' : α → Mark} {fuel : ℕ} {path : List α} {id target : α}

/-! ### What a search without a cycle has found -/

/-- What the marks say so far: the black nodes are well-founded. -/
def Sound (next : α → List α) (marks : α → Mark) : Prop :=
  ∀ x, marks x = .black → Acc (fun y x => Edge next x y) x

/-- How the marks change in a search. -/
structure Grows (marks marks' : α → Mark) : Prop where
  black : ∀ x, marks x = .black → marks' x = .black
  white : ∀ x, marks' x = .white → marks x = .white

omit [DecidableEq α] in
theorem Grows.refl (marks : α → Mark) : Grows marks marks := ⟨fun _ h => h, fun _ h => h⟩

omit [DecidableEq α] in
theorem Grows.trans {marks'' : α → Mark} (h : Grows marks marks') (h' : Grows marks' marks'') :
    Grows marks marks'' :=
  ⟨fun x hx => h'.black x (h.black x hx), fun x hx => h.white x (h'.white x hx)⟩

theorem Grows.grey (hid : marks id = .white) : Grows marks (Function.update marks id .grey) := by
  refine ⟨fun x hx => ?_, fun x hx => ?_⟩
  · have hne : x ≠ id := by
      rintro rfl
      simp [hid] at hx
    simpa [hne] using hx
  · by_cases hxid : x = id
    · simp [hxid] at hx
    · simpa [hxid] using hx

theorem Grows.finish (marks : α → Mark) (id : α) : Grows marks (Function.update marks id .black) := by
  refine ⟨fun x hx => ?_, fun x hx => ?_⟩ <;> by_cases hxid : x = id <;> simp_all

omit [DecidableEq α] in
/-- What a search that ends well leaves, given what the searches of its nodes leave. -/
theorem foldlM_grows {search : (α → Mark) → α → Except (List α) (α → Mark)}
    (hsearch : ∀ marks marks' need, search marks need = .ok marks' →
      Grows marks marks' ∧ marks' need = .black ∧ (Sound next marks → Sound next marks'))
    {needs : List α} (h : needs.foldlM search marks = .ok marks') :
    Grows marks marks' ∧ (∀ need ∈ needs, marks' need = .black) ∧ (Sound next marks → Sound next marks') := by
  induction needs generalizing marks with
  | nil =>
    cases h
    exact ⟨.refl _, nofun, fun hs => hs⟩
  | cons need needs ih =>
    rw [List.foldlM_cons] at h
    rcases hone : search marks need with cycle | marks1
    · rw [hone] at h
      exact nomatch h
    · rw [hone] at h
      obtain ⟨hgrows, hblack, hsound⟩ := hsearch _ _ _ hone
      obtain ⟨hgrows', hblack', hsound'⟩ := ih h
      refine ⟨hgrows.trans hgrows', fun x hx => ?_, fun hs => hsound' (hsound hs)⟩
      rcases List.mem_cons.1 hx with rfl | hx
      · exact hgrows'.black _ hblack
      · exact hblack' x hx

/-- What a search from one node leaves: the node is black, and the black nodes are still well-founded. -/
theorem visit_ok (h : visit next fuel marks path id = .ok marks') :
    Grows marks marks' ∧ marks' id = .black ∧ (Sound next marks → Sound next marks') := by
  induction fuel generalizing marks marks' path id with
  | zero => exact nomatch h
  | succ fuel ih =>
    unfold visit at h
    rcases hmark : marks id with _ | _ | _ <;> rw [hmark] at h
    · rcases hfold : (next id).foldlM (fun marks need => visit next fuel marks (path ++ [id]) need)
          (Function.update marks id .grey) with cycle | marks1
      · dsimp only at h
        rw [hfold] at h
        exact nomatch h
      · dsimp only at h
        rw [hfold] at h
        cases h
        obtain ⟨hgrows, hneeds, hsound⟩ := foldlM_grows (fun _ _ _ h => ih h) hfold
        refine ⟨((Grows.grey hmark).trans hgrows).trans (.finish _ _), by simp, fun hs => ?_⟩
        have hgrey : Sound next (Function.update marks id .grey) := by
          intro x hx
          by_cases hxid : x = id
          · simp [hxid] at hx
          · exact hs x (by simpa [hxid] using hx)
        intro x hx
        by_cases hxid : x = id
        · -- every node behind this one is black by now
          subst hxid
          exact ⟨_, fun y hy => hsound hgrey y (hneeds y hy)⟩
        · exact hsound hgrey x (by simpa [hxid] using hx)
    · exact nomatch h
    · cases h
      exact ⟨.refl _, hmark, fun hs => hs⟩

/-- **No cycle**: the nodes that searches one after the other end well from are well-founded. -/
theorem acc_of_visits {roots : List α}
    (h : roots.foldlM (fun marks id => visit next fuel marks [] id) (fun _ => .white) = .ok marks) :
    ∀ id ∈ roots, Acc (fun y x => Edge next x y) id := by
  obtain ⟨-, hblack, hsound⟩ := foldlM_grows (fun _ _ _ h => visit_ok h) h
  exact fun id hid => hsound (fun _ h => nomatch h) id (hblack id hid)

omit [DecidableEq α] in
/-- A well-founded node is on no cycle. -/
theorem not_cycle_of_acc {x : α} (h : Acc (fun y x => Edge next x y) x) : ¬ Relation.TransGen (Edge next) x x := by
  induction h with
  | intro x _ ih =>
    intro hcycle
    obtain ⟨y, hedge, hback⟩ := Relation.TransGen.head'_iff.mp hcycle
    exact ih y hedge (Relation.TransGen.tail' hback hedge)

/-! ### The cycle that a search has found -/

/-- A walk along the edges that ends where it begins. -/
structure ClosedWalk (next : α → List α) (walk : List α) : Prop where
  edges : walk.IsChain (Edge next)
  length : 2 ≤ walk.length
  closed : walk.head? = walk.getLast?

omit [DecidableEq α] in
theorem ClosedWalk.cycle {walk : List α} (h : ClosedWalk next walk) : ∃ x, Relation.TransGen (Edge next) x x := by
  obtain ⟨hedges, hlength, hclosed⟩ := h
  match walk, hlength with
  | x :: y :: rest, _ =>
    obtain ⟨hfirst, hrest⟩ := List.isChain_cons_cons.mp hedges
    rw [List.getLast?_cons_cons, List.getLast?_eq_getLast_of_ne_nil (List.cons_ne_nil y rest)] at hclosed
    have hback := List.relationReflTransGen_of_exists_isChain_cons rest hrest (Option.some.inj hclosed).symm
    exact ⟨x, Relation.TransGen.head'_iff.mpr ⟨y, hfirst, hback⟩⟩

/-- What the path of a search is: a walk, with the grey nodes on it. -/
structure Trail (next : α → List α) (marks : α → Mark) (path : List α) : Prop where
  edges : path.IsChain (Edge next)
  grey : ∀ x, marks x = .grey → x ∈ path

omit [DecidableEq α] in
/-- What every search that ends well keeps holds where one stops. -/
theorem foldlM_error {I : (α → Mark) → Prop} {search : (α → Mark) → α → Except (List α) (α → Mark)}
    (hsearch : ∀ marks marks' need, search marks need = .ok marks' → I marks → I marks') {needs cycle : List α}
    (h : needs.foldlM search marks = .error cycle) (hmarks : I marks) :
    ∃ need ∈ needs, ∃ marks', I marks' ∧ search marks' need = .error cycle := by
  induction needs generalizing marks with
  | nil => exact nomatch h
  | cons need needs ih =>
    rw [List.foldlM_cons] at h
    rcases hone : search marks need with found | marks1
    · rw [hone] at h
      obtain rfl := Except.error.inj h
      exact ⟨need, List.mem_cons_self, marks, hmarks, hone⟩
    · rw [hone] at h
      obtain ⟨other, hother, hstop⟩ := ih h (hsearch _ _ _ hone hmarks)
      exact ⟨other, List.mem_cons_of_mem _ hother, hstop⟩

omit [DecidableEq α] in
theorem foldlM_ok {I : (α → Mark) → Prop} {search : (α → Mark) → α → Except (List α) (α → Mark)}
    (hsearch : ∀ marks marks' need, search marks need = .ok marks' → I marks → I marks') {needs : List α}
    (h : needs.foldlM search marks = .ok marks') (hmarks : I marks) : I marks' := by
  induction needs generalizing marks with
  | nil =>
    cases h
    exact hmarks
  | cons need needs ih =>
    rw [List.foldlM_cons] at h
    rcases hone : search marks need with found | marks1
    · rw [hone] at h
      exact nomatch h
    · rw [hone] at h
      exact ih h (hsearch _ _ _ hone hmarks)

/-- A search that ends well leaves the same nodes grey. -/
theorem visit_grey (h : visit next fuel marks path id = .ok marks') (x : α) :
    marks' x = .grey ↔ marks x = .grey := by
  induction fuel generalizing marks marks' path id with
  | zero => exact nomatch h
  | succ fuel ih =>
    unfold visit at h
    rcases hmark : marks id with _ | _ | _ <;> rw [hmark] at h
    · rcases hfold : (next id).foldlM (fun marks need => visit next fuel marks (path ++ [id]) need)
          (Function.update marks id .grey) with cycle | marks1
      · dsimp only at h
        rw [hfold] at h
        exact nomatch h
      · dsimp only at h
        rw [hfold] at h
        cases h
        have hfolded := foldlM_ok (I := fun later => later x = .grey ↔ Function.update marks id .grey x = .grey)
          (fun _ _ _ hok hsame => (ih hok).trans hsame) hfold Iff.rfl
        by_cases hxid : x = id
        · subst hxid
          simp [hmark]
        · simpa [hxid] using hfolded
    · exact nomatch h
    · cases h
      exact Iff.rfl

/-- **A cycle**: where a search stops within its bound, it has found a closed walk. -/
theorem visit_error {cycle : List α} (htrail : Trail next marks path)
    (hedge : ∀ last ∈ path.getLast?, Edge next last id) (h : visit next fuel marks path id = .error cycle)
    (hcycle : cycle ≠ []) : ClosedWalk next cycle := by
  induction fuel generalizing marks path id with
  | zero => exact absurd (Except.error.inj h).symm hcycle
  | succ fuel ih =>
    have hchain : (path ++ [id]).IsChain (Edge next) :=
      List.isChain_append.mpr ⟨htrail.edges, .singleton id, fun last hlast x hx =>
        Option.some.inj hx ▸ hedge last hlast⟩
    unfold visit at h
    rcases hmark : marks id with _ | _ | _ <;> rw [hmark] at h
    · rcases hfold : (next id).foldlM (fun marks need => visit next fuel marks (path ++ [id]) need)
          (Function.update marks id .grey) with found | marks1
      · dsimp only at h
        rw [hfold] at h
        obtain rfl := Except.error.inj h
        have hgrey : Trail next (Function.update marks id .grey) (path ++ [id]) := by
          refine ⟨hchain, fun x hx => ?_⟩
          by_cases hxid : x = id
          · exact hxid ▸ List.mem_append_right _ List.mem_cons_self
          · exact List.mem_append_left _ (htrail.grey x (by simpa [hxid] using hx))
        -- the searches of the needs before leave the grey nodes as they are
        obtain ⟨need, hneed, marks1, htrail1, hstop⟩ := foldlM_error
          (I := fun marks => Trail next marks (path ++ [id]))
          (fun _ _ _ hok htrail => ⟨htrail.edges, fun x hx => htrail.grey x ((visit_grey hok x).mp hx)⟩) hfold hgrey
        refine ih htrail1 (fun last hlast => ?_) hstop
        rw [List.getLast?_concat] at hlast
        exact Option.some.inj hlast ▸ hneed
      · dsimp only at h
        rw [hfold] at h
        exact nomatch h
    · -- the walk goes from where the node stands on the path to its end, and back
      obtain rfl := Except.error.inj h
      obtain ⟨i, hfound⟩ : ∃ i, path.findIdx? (· = id) = some i := by
        refine Option.isSome_iff_exists.mp (List.findIdx?_isSome.trans (List.any_eq_true.mpr ?_))
        exact ⟨id, htrail.grey id hmark, decide_eq_true rfl⟩
      obtain ⟨hi, hat, -⟩ := List.findIdx?_eq_some_iff_getElem.mp hfound
      have hwalk : path.drop i ++ [id] = id :: (path.drop (i + 1) ++ [id]) := by
        rw [List.drop_eq_getElem_cons hi, of_decide_eq_true hat]
        rfl
      have hedges : (path.drop i ++ [id]).IsChain (Edge next) := by
        rw [← List.drop_append_of_le_length (Nat.le_of_lt hi)]
        exact hchain.drop i
      rw [hfound, Option.getD_some]
      refine ⟨hedges, ?_, ?_⟩
      · rw [hwalk, List.length_cons, List.length_append, List.length_singleton]
        omega
      · rw [List.getLast?_concat, hwalk]
        rfl
    · exact nomatch h

/-- Searches one after the other that stop have found a closed walk. -/
theorem visits_error {roots cycle : List α}
    (h : roots.foldlM (fun marks id => visit next fuel marks [] id) (fun _ => .white) = .error cycle)
    (hcycle : cycle ≠ []) : ClosedWalk next cycle := by
  obtain ⟨id, -, marks, htrail, hstop⟩ := foldlM_error (I := fun marks => Trail next marks [])
    (fun _ _ _ hok htrail => ⟨.nil, fun x hx => htrail.grey x ((visit_grey hok x).mp hx)⟩) h ⟨.nil, nofun⟩
  exact visit_error htrail nofun hstop hcycle

/-! ### The bound -/

/-- How many of the nodes are still white. -/
def whites (nodes : List α) (marks : α → Mark) : ℕ := nodes.countP fun x => marks x = .white

omit [DecidableEq α] in
theorem Grows.whites_le (h : Grows marks marks') (nodes : List α) : whites nodes marks' ≤ whites nodes marks :=
  List.countP_mono_left fun x _ hx => by simpa using h.white x (by simpa using hx)

theorem whites_grey_lt {nodes : List α} (hmem : id ∈ nodes) (hid : marks id = .white) :
    whites nodes (Function.update marks id .grey) < whites nodes marks := by
  induction nodes with
  | nil => exact absurd hmem (by simp)
  | cons x nodes ih =>
    have hle := (Grows.grey hid).whites_le nodes
    simp only [whites, List.countP_cons] at hle ih ⊢
    by_cases hx : x = id
    · subst hx
      simp only [Function.update_self, hid]
      simp
      omega
    · have htail := ih ((List.mem_cons.1 hmem).resolve_left (Ne.symm hx))
      simp only [Function.update_of_ne hx]
      omega

omit [DecidableEq α] in
theorem foldlM_ne_nil (nodes : List α) (fuel : ℕ) {search : (α → Mark) → α → Except (List α) (α → Mark)}
    {needs : List α}
    (hok : ∀ marks marks' need, search marks need = .ok marks' → Grows marks marks')
    (hne : ∀ marks need, need ∈ needs → whites nodes marks ≤ fuel → search marks need ≠ .error [])
    (hfuel : whites nodes marks ≤ fuel) : needs.foldlM search marks ≠ .error [] := by
  induction needs generalizing marks with
  | nil => exact nofun
  | cons need needs ih =>
    rw [List.foldlM_cons]
    rcases hone : search marks need with cycle | marks1
    · intro h
      cases h
      exact hne marks need (by simp) hfuel hone
    · have hle := (hok _ _ _ hone).whites_le nodes
      exact ih (fun marks need hneed => hne marks need (by simp [hneed])) (Nat.le_trans hle hfuel)

/-- A bound above the number of white nodes is not exceeded: the error is a cycle. -/
theorem visit_ne_nil {nodes : List α} (hclosed : ∀ x ∈ nodes, next x ⊆ nodes) (hid : id ∈ nodes)
    (hfuel : whites nodes marks < fuel) : visit next fuel marks path id ≠ .error [] := by
  induction fuel generalizing marks path id with
  | zero => omega
  | succ fuel ih =>
    unfold visit
    rcases hmark : marks id with _ | _ | _
    · have hlt := whites_grey_lt hid hmark
      have hfold : (next id).foldlM (fun marks need => visit next fuel marks (path ++ [id]) need)
          (Function.update marks id .grey) ≠ .error [] :=
        foldlM_ne_nil nodes (fuel - 1) (fun _ _ _ h => (visit_ok h).1)
          (fun marks need hneed hle => ih (hclosed id hid hneed) (by omega)) (by omega)
      rcases h : (next id).foldlM (fun marks need => visit next fuel marks (path ++ [id]) need)
          (Function.update marks id .grey) with cycle | marks1
      · intro hnil
        cases hnil
        exact hfold h
      · exact nofun
    · intro h
      simpa using Except.error.inj h
    · exact nofun

theorem visits_ne_nil {nodes roots : List α} (hclosed : ∀ x ∈ nodes, next x ⊆ nodes) (hroots : roots ⊆ nodes)
    (hfuel : nodes.length < fuel) :
    roots.foldlM (fun marks id => visit next fuel marks [] id) (fun _ => .white) ≠ .error [] :=
  foldlM_ne_nil nodes nodes.length (fun _ _ _ h => (visit_ok h).1)
    (fun _ _ hneed _ => visit_ne_nil hclosed (hroots hneed) (by omega)) List.countP_le_length

/-! ### Reachability -/

theorem anyReaches_sound {search : List α → α → Option (Bool × List α)}
    (hsearch : ∀ seen seen' need, search seen need = some (true, seen') →
      Relation.TransGen (Edge next) need target)
    {seen seen' needs : List α} (h : anyReaches target search seen needs = some (true, seen')) :
    ∃ need ∈ needs, need = target ∨ Relation.TransGen (Edge next) need target := by
  induction needs generalizing seen with
  | nil => exact nomatch h
  | cons need needs ih =>
    unfold anyReaches at h
    by_cases hneed : need = target
    · exact ⟨need, by simp, .inl hneed⟩
    · rw [if_neg hneed] at h
      rcases hone : search seen need with _ | ⟨_ | _, seen1⟩ <;> rw [hone] at h
      · exact nomatch h
      · obtain ⟨x, hx, hreach⟩ := ih h
        exact ⟨x, by simp [hx], hreach⟩
      · exact ⟨need, by simp, .inr (hsearch _ _ _ hone)⟩

/-- A yes of the search: the edges lead to the target. -/
theorem reaches_sound {seen seen' : List α} (h : reaches next target fuel seen id = some (true, seen')) :
    Relation.TransGen (Edge next) id target := by
  induction fuel generalizing seen seen' id with
  | zero => exact nomatch h
  | succ fuel ih =>
    unfold reaches at h
    by_cases hseen : id ∈ seen
    · rw [if_pos hseen] at h
      exact nomatch h
    · rw [if_neg hseen] at h
      obtain ⟨need, hneed, rfl | hreach⟩ := anyReaches_sound (fun _ _ _ h => ih h) h
      · exact .single hneed
      · exact .head hneed hreach

/-- How many of the nodes a search has not seen. -/
def unseen (nodes seen : List α) : ℕ := nodes.countP fun x => x ∉ seen

theorem unseen_mono (nodes : List α) {seen seen' : List α} (h : seen ⊆ seen') : unseen nodes seen' ≤ unseen nodes seen :=
  List.countP_mono_left fun x _ hx => by
    have hnot : x ∉ seen' := by simpa using hx
    simpa using fun hmem => hnot (h hmem)

theorem unseen_cons_lt {nodes seen : List α} (hmem : id ∈ nodes) (hid : id ∉ seen) :
    unseen nodes (id :: seen) < unseen nodes seen := by
  induction nodes with
  | nil => exact absurd hmem (by simp)
  | cons x nodes ih =>
    have hle := unseen_mono nodes (List.subset_cons_self id seen)
    simp only [unseen, List.countP_cons] at hle ih ⊢
    by_cases hx : x = id
    · subst hx
      have hhead : (decide (x ∉ x :: seen)) = false := by simp
      simp only [hhead, hid]
      simp only [not_false_eq_true, decide_true, if_true, Bool.false_eq_true, if_false]
      omega
    · have htail := ih ((List.mem_cons.1 hmem).resolve_left (Ne.symm hx))
      have hsame : (x ∉ id :: seen) = (x ∉ seen) := by simp [hx]
      simp only [hsame]
      omega

theorem anyReaches_ne_none (nodes : List α) (fuel : ℕ) {search : List α → α → Option (Bool × List α)}
    {needs seen : List α}
    (hgrows : ∀ seen seen' need found, search seen need = some (found, seen') → seen ⊆ seen')
    (hne : ∀ seen need, need ∈ needs → unseen nodes seen ≤ fuel → search seen need ≠ none)
    (hfuel : unseen nodes seen ≤ fuel) : anyReaches target search seen needs ≠ none := by
  induction needs generalizing seen with
  | nil => exact nofun
  | cons need needs ih =>
    unfold anyReaches
    by_cases hneed : need = target
    · rw [if_pos hneed]
      exact nofun
    · rw [if_neg hneed]
      rcases hone : search seen need with _ | ⟨_ | _, seen1⟩
      · exact absurd hone (hne seen need (by simp) hfuel)
      · have hle := unseen_mono nodes (hgrows _ _ _ _ hone)
        exact ih (fun seen need hneed => hne seen need (by simp [hneed])) (Nat.le_trans hle hfuel)
      · exact nofun

theorem anyReaches_grows {search : List α → α → Option (Bool × List α)} {needs seen seen' : List α} {found : Bool}
    (hgrows : ∀ seen seen' need found, search seen need = some (found, seen') → seen ⊆ seen')
    (h : anyReaches target search seen needs = some (found, seen')) : seen ⊆ seen' := by
  induction needs generalizing seen with
  | nil =>
    cases h
    exact List.Subset.refl _
  | cons need needs ih =>
    unfold anyReaches at h
    by_cases hneed : need = target
    · rw [if_pos hneed] at h
      cases h
      exact List.Subset.refl _
    · rw [if_neg hneed] at h
      rcases hone : search seen need with _ | ⟨_ | _, seen1⟩ <;> rw [hone] at h
      · exact nomatch h
      · exact List.Subset.trans (hgrows _ _ _ _ hone) (ih h)
      · cases h
        exact hgrows _ _ _ _ hone

theorem reaches_grows {seen seen' : List α} {found : Bool}
    (h : reaches next target fuel seen id = some (found, seen')) : seen ⊆ seen' := by
  induction fuel generalizing seen seen' id found with
  | zero => exact nomatch h
  | succ fuel ih =>
    unfold reaches at h
    by_cases hseen : id ∈ seen
    · rw [if_pos hseen] at h
      cases h
      exact List.Subset.refl _
    · rw [if_neg hseen] at h
      exact List.Subset.trans (List.subset_cons_self id seen) (anyReaches_grows (fun _ _ _ _ h => ih h) h)

/-- A bound above the number of nodes not yet seen is not exceeded; nodes that lead nowhere need not be counted. -/
theorem reaches_ne_none {nodes seen : List α} (hinner : ∀ x, x ∉ nodes → next x = [])
    (hfuel : unseen nodes seen < fuel) : reaches next target fuel seen id ≠ none := by
  induction fuel generalizing seen id with
  | zero => omega
  | succ fuel ih =>
    unfold reaches
    by_cases hseen : id ∈ seen
    · rw [if_pos hseen]
      exact nofun
    · rw [if_neg hseen]
      by_cases hid : id ∈ nodes
      · have hlt := unseen_cons_lt hid hseen
        exact anyReaches_ne_none nodes (fuel - 1) (fun _ _ _ _ h => reaches_grows h)
          (fun seen need _ hle => ih (by omega)) (by omega)
      · rw [hinner id hid]
        exact nofun

/-- What a search that says no has seen: from what is new in it, no edge leads to the target or out of it. -/
structure Searched (next : α → List α) (target : α) (seen seen' : List α) : Prop where
  grows : seen ⊆ seen'
  closed : ∀ x ∈ seen', x ∉ seen → ∀ y ∈ next x, y ≠ target ∧ y ∈ seen'

omit [DecidableEq α] in
theorem Searched.trans {seen seen' seen'' : List α} (h : Searched next target seen seen')
    (h' : Searched next target seen' seen'') : Searched next target seen seen'' := by
  refine ⟨fun x hx => h'.grows (h.grows hx), fun x hx hnew y hy => ?_⟩
  by_cases hx' : x ∈ seen'
  · obtain ⟨hne, hmem⟩ := h.closed x hx' hnew y hy
    exact ⟨hne, h'.grows hmem⟩
  · exact h'.closed x hx hx' y hy

theorem anyReaches_false {search : List α → α → Option (Bool × List α)}
    (hsearch : ∀ seen seen' need, search seen need = some (false, seen') →
      Searched next target seen seen' ∧ need ∈ seen')
    {seen seen' needs : List α} (h : anyReaches target search seen needs = some (false, seen')) :
    Searched next target seen seen' ∧ ∀ need ∈ needs, need ≠ target ∧ need ∈ seen' := by
  induction needs generalizing seen with
  | nil =>
    cases h
    exact ⟨⟨List.Subset.refl _, fun x hx hnew => absurd hx hnew⟩, nofun⟩
  | cons need needs ih =>
    unfold anyReaches at h
    by_cases hneed : need = target
    · rw [if_pos hneed] at h
      exact nomatch h
    · rw [if_neg hneed] at h
      rcases hone : search seen need with _ | ⟨_ | _, seen1⟩ <;> rw [hone] at h
      · exact nomatch h
      · obtain ⟨hfirst, hmem⟩ := hsearch _ _ _ hone
        obtain ⟨hrest, hneeds⟩ := ih h
        exact ⟨hfirst.trans hrest, List.forall_mem_cons.mpr ⟨⟨hneed, hrest.grows hmem⟩, hneeds⟩⟩
      · exact nomatch h

theorem reaches_false {seen seen' : List α} (h : reaches next target fuel seen id = some (false, seen')) :
    Searched next target seen seen' ∧ id ∈ seen' := by
  induction fuel generalizing seen seen' id with
  | zero => exact nomatch h
  | succ fuel ih =>
    unfold reaches at h
    by_cases hseen : id ∈ seen
    · rw [if_pos hseen] at h
      cases h
      exact ⟨⟨List.Subset.refl _, fun x hx hnew => absurd hx hnew⟩, hseen⟩
    · rw [if_neg hseen] at h
      obtain ⟨hsearched, hneeds⟩ := anyReaches_false (fun _ _ _ h => ih h) h
      refine ⟨⟨fun x hx => hsearched.grows (List.mem_cons_of_mem _ hx), fun x hx hnew y hy => ?_⟩,
        hsearched.grows List.mem_cons_self⟩
      by_cases hxid : x = id
      · -- a node that is seen again was left to a search that is still going on
        subst hxid
        exact hneeds y hy
      · refine hsearched.closed x hx (fun hmem => ?_) y hy
        exact (List.mem_cons.mp hmem).elim hxid hnew

/-- **A no of the search**, from the beginning: the edges do not lead to the target. -/
theorem reaches_complete {seen' : List α} (h : reaches next target fuel [] id = some (false, seen')) :
    ¬ Relation.TransGen (Edge next) id target := by
  obtain ⟨hsearched, hid⟩ := reaches_false h
  intro hreach
  have hstep : ∀ x y, Edge next x y → x ∈ seen' → y ≠ target ∧ y ∈ seen' := fun x y hedge hx =>
    hsearched.closed x hx List.not_mem_nil y hedge
  have hall : ∀ y, Relation.TransGen (Edge next) id y → y ≠ target ∧ y ∈ seen' := by
    intro y hy
    induction hy with
    | single hedge => exact hstep _ _ hedge hid
    | tail _ hedge ih => exact hstep _ _ hedge ih.2
  exact (hall target hreach).1 rfl

end Paneflow.Dfs
