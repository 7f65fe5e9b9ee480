import Mathlib.Data.List.Basic
import Mathlib.Data.List.Count
import Mathlib.Data.Nat.Notation
import Mathlib.Tactic.SplitIfs

/-!
# Text between delimiters that are doubled inside of it

`content` reads a text up to its closing delimiter. There may be several delimiters; two in a row that go together
(`doubles`) stand for the second of them.

A text in which one delimiter was doubled is read back if and only if it has no other delimiter
(`content_doubled_iff`): every pair that is read makes the text shorter, and only the pairs that were written make up
for it (`content_length`).
-/

namespace Paneflow.Delimited

variable {α : Type*}

/-- The content of a text behind its opening delimiter, and what follows its closing one. -/
def content (isQuote : α → Bool) (doubles : α → α → Bool) : List α → Option (List α × List α)
  | [] => none
  | [c] => if isQuote c then some ([], []) else none
  | c :: d :: rest =>
    if isQuote c then
      if doubles c d then (content isQuote doubles rest).map fun (inside, after) => (d :: inside, after)
      else some ([], d :: rest)
    else (content isQuote doubles (d :: rest)).map fun (inside, after) => (c :: inside, after)

/-- The text with each `q` twice. -/
def double [DecidableEq α] (q : α) (text : List α) : List α := text.flatMap fun c => if c = q then [q, q] else [c]

variable {isQuote : α → Bool} {doubles : α → α → Bool}

theorem content_cons {c : α} {text : List α} (hc : isQuote c = false) :
    content isQuote doubles (c :: text) =
      (content isQuote doubles text).map fun (inside, after) => (c :: inside, after) := by
  cases text with
  | nil =>
    change (if isQuote c then some ([], []) else none) = _
    rw [hc]
    rfl
  | cons d rest =>
    rw [content, hc]
    rfl

theorem content_pair {c d : α} {rest : List α} (hc : isQuote c = true) (hpair : doubles c d = true) :
    content isQuote doubles (c :: d :: rest) =
      (content isQuote doubles rest).map fun (inside, after) => (d :: inside, after) := by
  rw [content, hc, hpair]
  rfl

/-- Each pair that was read is one character of the content. -/
theorem content_length (hpairs : ∀ c d, doubles c d = true → isQuote d = true) {text inside : List α}
    (h : content isQuote doubles text = some (inside, [])) :
    2 * text.length = 2 * inside.length + text.countP isQuote + 1 := by
  fun_induction content isQuote doubles text generalizing inside with
  | case1 => exact nomatch h
  | case2 c hc =>
    obtain rfl := congrArg Prod.fst (Option.some.inj h)
    rw [List.countP_cons_of_pos hc]
    rfl
  | case3 c hc => exact nomatch h
  | case4 c d rest hc hpair ih =>
    obtain ⟨⟨inside', after⟩, hrest, heq⟩ := Option.map_eq_some_iff.mp h
    obtain ⟨rfl, rfl⟩ := Prod.mk.inj heq
    have hlength := ih hrest
    rw [List.countP_cons_of_pos hc, List.countP_cons_of_pos (hpairs c d hpair)]
    simp only [List.length_cons]
    omega
  | case5 c d rest hc hpair => exact nomatch (Prod.mk.inj (Option.some.inj h)).2
  | case6 c d rest hc ih =>
    obtain ⟨⟨inside', after⟩, hrest, heq⟩ := Option.map_eq_some_iff.mp h
    obtain ⟨rfl, rfl⟩ := Prod.mk.inj heq
    have hlength := ih hrest
    rw [List.countP_cons_of_neg hc]
    rw [List.length_cons (a := c)]
    simp only [List.length_cons] at hlength ⊢
    omega

variable [DecidableEq α] {q : α}

theorem double_cons (c : α) (text : List α) :
    double q (c :: text) = (if c = q then [q, q] else [c]) ++ double q text := List.flatMap_cons

theorem length_double (q : α) (text : List α) : (double q text).length = text.length + text.count q := by
  induction text with
  | nil => rfl
  | cons c text ih =>
    rw [double_cons, List.length_append, ih, List.length_cons, List.count_cons]
    by_cases hc : c = q
    · rw [if_pos hc, if_pos (by simpa using hc)]
      simp only [List.length_cons, List.length_nil]
      omega
    · rw [if_neg hc, if_neg (by simpa using hc)]
      simp only [List.length_cons, List.length_nil]
      omega

theorem countP_double (hq : isQuote q = true) (text : List α) :
    (double q text).countP isQuote = text.countP isQuote + text.count q := by
  induction text with
  | nil => rfl
  | cons c text ih =>
    rw [double_cons, List.countP_append, ih, List.countP_cons, List.count_cons]
    by_cases hc : c = q
    · rw [if_pos hc, if_pos (show (c == q) = true by simpa using hc), hc, if_pos hq,
        List.countP_cons_of_pos hq, List.countP_cons_of_pos hq, List.countP_nil]
      omega
    · rw [if_neg hc, if_neg (show ¬ (c == q) = true by simpa using hc), List.countP_singleton]
      omega

theorem content_doubled (hq : isQuote q = true) (hsame : doubles q q = true) {text : List α}
    (h : ∀ c ∈ text, isQuote c = true → c = q) :
    content isQuote doubles (double q text ++ [q]) = some (text, []) := by
  induction text with
  | nil =>
    change content isQuote doubles [q] = _
    rw [content, if_pos hq]
  | cons c text ih =>
    obtain ⟨hc, htext⟩ := List.forall_mem_cons.mp h
    rw [double_cons]
    by_cases hquote : c = q
    · rw [if_pos hquote, hquote]
      change content isQuote doubles (q :: q :: (double q text ++ [q])) = _
      rw [content_pair hq hsame, ih htext]
      rfl
    · rw [if_neg hquote]
      change content isQuote doubles (c :: (double q text ++ [q])) = _
      rw [content_cons (Bool.eq_false_iff.mpr fun hin => hquote (hc hin)), ih htext]
      rfl

/-- What was doubled is read back if and only if there is no other delimiter in it. -/
theorem content_doubled_iff (hpairs : ∀ c d, doubles c d = true → isQuote d = true) (hq : isQuote q = true)
    (hsame : doubles q q = true) (text : List α) :
    content isQuote doubles (double q text ++ [q]) = some (text, []) ↔ ∀ c ∈ text, isQuote c = true → c = q := by
  refine ⟨fun hread => ?_, content_doubled hq hsame⟩
  have hlength := content_length hpairs hread
  rw [List.length_append, length_double, List.countP_append, countP_double hq, List.countP_singleton, if_pos hq,
    List.length_singleton] at hlength
  -- no delimiter is left when those that were doubled are taken out
  have hsplit := List.countP_eq_countP_filter_add text isQuote (· == q)
  have hdoubled : (text.filter (· == q)).countP isQuote = text.count q := by
    rw [List.count_eq_length_filter]
    refine List.countP_eq_length.mpr fun c hc => ?_
    rw [beq_iff_eq.mp (List.mem_filter.mp hc).2]
    exact hq
  have hnone : (text.filter fun c => !(c == q)).countP isQuote = 0 := by omega
  intro c hc hquote
  by_contra hne
  have hin : c ∈ text.filter fun c => !(c == q) := List.mem_filter.mpr ⟨hc, by simpa using hne⟩
  exact List.countP_eq_zero.mp hnone c hin hquote

end Paneflow.Delimited
