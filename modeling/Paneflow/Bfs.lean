import Mathlib.Data.List.Perm.Subperm
import Mathlib.Logic.Relation

/-!
# Breadth-first walk

A walk over the graph of a function `next : α → List α` with a queue and the nodes that have been seen, by recursion on
a bound of the nodes that are taken from the queue. It comes by every node that can be reached from the roots, once
(`walk_spec`), and in a finite set of nodes that `next` does not leave the bound is not exceeded.
-/

namespace Paneflow.Bfs

variable {α : Type} [DecidableEq α]

/-- The nodes that are not among the seen ones, each once. -/
def fresh (seen nodes : List α) : List α :=
  nodes.foldl (fun found node => if node ∈ seen ++ found then found else found ++ [node]) []

def walkFrom (next : α → List α) : (fuel : ℕ) → (pending seen : List α) → Option (List α)
  | _, [], _ => some []
  | 0, _ :: _, _ => none
  | fuel + 1, node :: pending, seen =>
    (walkFrom next fuel (pending ++ fresh seen (next node)) (seen ++ fresh seen (next node))).map (node :: ·)

/-- The nodes that the roots lead to, or nothing where the bound is exceeded. -/
def walk (next : α → List α) (fuel : ℕ) (roots : List α) : Option (List α) :=
  walkFrom next fuel (fresh [] roots) (fresh [] roots)

/-! ### New nodes -/

theorem foldl_fresh (seen nodes found : List α) (hfound : (seen ++ found).Nodup) :
    (seen ++ nodes.foldl (fun found node => if node ∈ seen ++ found then found else found ++ [node]) found).Nodup ∧
      ∀ node, node ∈ seen ++ nodes.foldl (fun found node => if node ∈ seen ++ found then found else found ++ [node])
        found ↔ node ∈ seen ++ found ∨ node ∈ nodes := by
  induction nodes generalizing found with
  | nil => exact ⟨hfound, fun node => by simp⟩
  | cons first nodes ih =>
    rw [List.foldl_cons]
    split_ifs with hmem
    · obtain ⟨hnodup, hiff⟩ := ih found hfound
      refine ⟨hnodup, fun node => ?_⟩
      rw [hiff, List.mem_cons]
      constructor
      · rintro (h | h)
        · exact .inl h
        · exact .inr (.inr h)
      · rintro (h | rfl | h)
        · exact .inl h
        · exact .inl hmem
        · exact .inr h
    · have hgrown : (seen ++ (found ++ [first])).Nodup := by
        rw [← List.append_assoc, List.nodup_append]
        refine ⟨hfound, List.pairwise_singleton _ first, fun x hx y hy heq => ?_⟩
        rw [List.mem_singleton.mp hy] at heq
        exact hmem (heq ▸ hx)
      obtain ⟨hnodup, hiff⟩ := ih _ hgrown
      refine ⟨hnodup, fun node => ?_⟩
      rw [hiff, ← List.append_assoc, List.mem_append, List.mem_singleton, List.mem_cons, or_assoc]

/-- What is new is not seen, comes once, and is all that was not seen. -/
theorem fresh_spec {seen : List α} (hseen : seen.Nodup) (nodes : List α) :
    (seen ++ fresh seen nodes).Nodup ∧ ∀ node, node ∈ seen ++ fresh seen nodes ↔ node ∈ seen ∨ node ∈ nodes := by
  obtain ⟨hnodup, hiff⟩ := foldl_fresh seen nodes [] (by rwa [List.append_nil])
  refine ⟨hnodup, fun node => ?_⟩
  rw [fresh, hiff, List.append_nil]

theorem mem_of_mem_fresh {seen nodes : List α} (hseen : seen.Nodup) {node : α} (h : node ∈ fresh seen nodes) :
    node ∈ nodes := by
  obtain ⟨hnodup, hiff⟩ := fresh_spec hseen nodes
  rcases (hiff node).mp (List.mem_append_right _ h) with hold | hnew
  · exact absurd h ((List.nodup_append.mp hnodup).2.2 node hold node · rfl)
  · exact hnew

/-! ### The walk -/

/-- One step along the edges. -/
def Edge (next : α → List α) (x y : α) : Prop := y ∈ next x

variable {next : α → List α}

/-- What a walk comes by, from a queue of nodes that are seen. -/
structure Walked (next : α → List α) (pending seen nodes : List α) : Prop where
  nodup : nodes.Nodup
  pending_mem : ∀ node ∈ pending, node ∈ nodes
  unseen : ∀ node ∈ nodes, node ∈ pending ∨ node ∉ seen
  reached : ∀ node ∈ nodes, ∃ root ∈ pending, Relation.ReflTransGen (Edge next) root node
  closed : ∀ node ∈ nodes, ∀ child ∈ next node, child ∈ seen ∨ child ∈ nodes

theorem walkFrom_walked {fuel : ℕ} {pending seen nodes : List α} (hpending : pending.Nodup) (hseen : seen.Nodup)
    (hsub : ∀ node ∈ pending, node ∈ seen) (h : walkFrom next fuel pending seen = some nodes) :
    Walked next pending seen nodes := by
  induction fuel generalizing pending seen nodes with
  | zero =>
    cases pending with
    | nil =>
      cases h
      exact ⟨.nil, nofun, nofun, nofun, nofun⟩
    | cons node pending => cases h
  | succ fuel ih =>
    cases pending with
    | nil =>
      cases h
      exact ⟨.nil, nofun, nofun, nofun, nofun⟩
    | cons node pending =>
      obtain ⟨rest, hrest, rfl⟩ := Option.map_eq_some_iff.mp h
      obtain ⟨hnode, hpending⟩ := List.nodup_cons.mp hpending
      obtain ⟨hgrown, hiff⟩ := fresh_spec hseen (next node)
      obtain ⟨-, hfresh, hapart⟩ := List.nodup_append.mp hgrown
      have hqueue : (pending ++ fresh seen (next node)).Nodup := List.nodup_append.mpr
        ⟨hpending, hfresh, fun x hx y hy => hapart x (hsub x (List.mem_cons_of_mem _ hx)) y hy⟩
      have hqueued : ∀ x ∈ pending ++ fresh seen (next node), x ∈ seen ++ fresh seen (next node) := fun x hx => by
        rcases List.mem_append.mp hx with hx | hx
        · exact List.mem_append_left _ (hsub x (List.mem_cons_of_mem _ hx))
        · exact List.mem_append_right _ hx
      have hwalked := ih hqueue hgrown hqueued hrest
      have hseenNode : node ∈ seen := hsub node List.mem_cons_self
      refine ⟨List.nodup_cons.mpr ⟨fun hmem => ?_, hwalked.nodup⟩, fun x hx => ?_, fun x hx => ?_, fun x hx => ?_,
        fun x hx child hchild => ?_⟩
      · -- the node is seen and not in the queue any more
        rcases hwalked.unseen node hmem with hmem | hmem
        · rcases List.mem_append.mp hmem with hmem | hmem
          · exact hnode hmem
          · exact hapart node hseenNode node hmem rfl
        · exact hmem (List.mem_append_left _ hseenNode)
      · rcases List.mem_cons.mp hx with rfl | hx
        · exact List.mem_cons_self
        · exact List.mem_cons_of_mem _ (hwalked.pending_mem x (List.mem_append_left _ hx))
      · rcases List.mem_cons.mp hx with rfl | hx
        · exact .inl List.mem_cons_self
        · rcases hwalked.unseen x hx with hx | hx
          · rcases List.mem_append.mp hx with hx | hx
            · exact .inl (List.mem_cons_of_mem _ hx)
            · exact .inr fun hmem => hapart x hmem x hx rfl
          · exact .inr fun hmem => hx (List.mem_append_left _ hmem)
      · rcases List.mem_cons.mp hx with rfl | hx
        · exact ⟨x, List.mem_cons_self, .refl⟩
        · obtain ⟨root, hroot, hreached⟩ := hwalked.reached x hx
          rcases List.mem_append.mp hroot with hroot | hroot
          · exact ⟨root, List.mem_cons_of_mem _ hroot, hreached⟩
          · exact ⟨node, List.mem_cons_self, .head (mem_of_mem_fresh hseen hroot) hreached⟩
      · have hchild : child ∈ seen ++ fresh seen (next node) ∨ child ∈ rest := by
          rcases List.mem_cons.mp hx with rfl | hx
          · exact .inl ((hiff child).mpr (.inr hchild))
          · exact hwalked.closed x hx child hchild
        rcases hchild with hchild | hchild
        · rcases List.mem_append.mp hchild with hchild | hchild
          · exact .inl hchild
          · exact .inr (List.mem_cons_of_mem _ (hwalked.pending_mem child (List.mem_append_right _ hchild)))
        · exact .inr (List.mem_cons_of_mem _ hchild)

/-- In a set of nodes that the walk does not leave, it takes no more than these from its queue. -/
theorem walkFrom_isSome {nodes : List α} (hclosed : ∀ node ∈ nodes, ∀ child ∈ next node, child ∈ nodes) {fuel : ℕ}
    {pending seen : List α} (hseen : seen.Nodup) (hsub : ∀ node ∈ pending, node ∈ seen)
    (hnodes : ∀ node ∈ seen, node ∈ nodes) (hfuel : nodes.length + pending.length ≤ fuel + seen.length) :
    (walkFrom next fuel pending seen).isSome = true := by
  induction fuel generalizing pending seen with
  | zero =>
    cases pending with
    | nil => rfl
    | cons node pending =>
      have hle := (List.Nodup.subperm hseen hnodes).length_le
      rw [List.length_cons] at hfuel
      omega
  | succ fuel ih =>
    cases pending with
    | nil => rfl
    | cons node pending =>
      obtain ⟨hgrown, hiff⟩ := fresh_spec hseen (next node)
      rw [walkFrom, Option.isSome_map]
      refine ih hgrown (fun x hx => ?_) (fun x hx => ?_) ?_
      · rcases List.mem_append.mp hx with hx | hx
        · exact List.mem_append_left _ (hsub x (List.mem_cons_of_mem _ hx))
        · exact List.mem_append_right _ hx
      · rcases (hiff x).mp hx with hx | hx
        · exact hnodes x hx
        · exact hclosed node (hnodes node (hsub node List.mem_cons_self)) x hx
      · rw [List.length_append, List.length_append]
        rw [List.length_cons] at hfuel
        omega

/-- **A walk comes once by each node that the roots lead to.** -/
theorem walk_spec {fuel : ℕ} {roots nodes : List α} (h : walk next fuel roots = some nodes) :
    nodes.Nodup ∧ ∀ node, node ∈ nodes ↔ ∃ root ∈ roots, Relation.ReflTransGen (Edge next) root node := by
  obtain ⟨hnodup, hiff⟩ := fresh_spec List.nodup_nil roots
  rw [List.nil_append] at hnodup
  have hroots : ∀ node, node ∈ fresh [] roots ↔ node ∈ roots := fun node => by
    have := hiff node
    rwa [List.nil_append, or_iff_right List.not_mem_nil] at this
  have hwalked := walkFrom_walked hnodup hnodup (fun _ hx => hx) h
  refine ⟨hwalked.nodup, fun node => ⟨fun hnode => ?_, ?_⟩⟩
  · obtain ⟨root, hroot, hreached⟩ := hwalked.reached node hnode
    exact ⟨root, (hroots root).mp hroot, hreached⟩
  · rintro ⟨root, hroot, hreached⟩
    induction hreached with
    | refl => exact hwalked.pending_mem root ((hroots root).mpr hroot)
    | tail _ hedge ih =>
      rcases hwalked.closed _ ih _ hedge with hseen | hmem
      · exact hwalked.pending_mem _ hseen
      · exact hmem

theorem walk_isSome {nodes : List α} (hclosed : ∀ node ∈ nodes, ∀ child ∈ next node, child ∈ nodes) {roots : List α}
    (hroots : ∀ root ∈ roots, root ∈ nodes) {fuel : ℕ} (hfuel : nodes.length ≤ fuel) :
    (walk next fuel roots).isSome = true := by
  obtain ⟨hnodup, -⟩ := fresh_spec List.nodup_nil roots
  rw [List.nil_append] at hnodup
  exact walkFrom_isSome hclosed hnodup (fun _ hx => hx)
    (fun x hx => hroots x (mem_of_mem_fresh List.nodup_nil hx)) (Nat.add_le_add_right hfuel _)

end Paneflow.Bfs
