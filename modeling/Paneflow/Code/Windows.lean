import Paneflow.Code.DocRows

/-!
# The windows of a splice

`tracker_window` of code/edit.rs says which lines an edit replaces, for the tracker of the changed blocks. `Describes`
says that some numbers describe the step from one text to another line by line.

* `rawSplice_windows`: the window of each part of a splice holds, as unsigned 32-bit integers, numbers that describe the
  part exactly; below 2^32 lines the window itself does.
* `not_rawSplice_exact`: above, it need not.
-/

namespace Paneflow.Code.Windows

open Paneflow.Code.Document Paneflow.Code.Edit Paneflow.Code.Points Paneflow.Code.DocRows Paneflow.Rows Paneflow.Trace
open Paneflow.Utf8

/-- The lines of `y` are those of `x` with `before` lines from `start` on replaced by `after` lines. -/
def Describes (start before after : ℕ) (x y : Str) : Prop :=
  ∃ P M M' Q, x.splitOn '\n' = P ++ M ++ Q ∧ y.splitOn '\n' = P ++ M' ++ Q ∧ P.length = start ∧ M.length = before ∧
    M'.length = after

/-- The window describes the step exactly. -/
def Exact (window : TrackerWindow) (x y : Str) : Prop :=
  Describes window.startLine window.beforeLen window.afterLen x y

/-- The window holds numbers that describe the step exactly, cut to 32 bits. -/
def Truncated (window : TrackerWindow) (x y : Str) : Prop :=
  ∃ start before after, Describes start before after x y ∧ window = ⟨asU32 start, asU32 before, asU32 after⟩

variable {p q r s x y : Str} {start before after : ℕ} {doc doc' : CodeDocument}

theorem Describes.symm (h : Describes start before after x y) : Describes start after before y x := by
  obtain ⟨P, M, M', Q, hx, hy, hP, hM, hM'⟩ := h
  exact ⟨P, M', M, Q, hy, hx, hP, hM', hM⟩

theorem Describes.le (h : Describes start before after x y) :
    start + before ≤ (x.splitOn '\n').length ∧ start + after ≤ (y.splitOn '\n').length := by
  obtain ⟨P, M, M', Q, hx, hy, hP, hM, hM'⟩ := h
  rw [hx, hy]
  simp only [List.length_append]
  omega

theorem asU32_of_lt {n : ℕ} (h : n < 2 ^ 32) : asU32 n = n := Nat.mod_eq_of_lt h

/-- Below 2^32 lines nothing is cut off. -/
theorem Truncated.exact {window : TrackerWindow} (h : Truncated window x y) (hx : (x.splitOn '\n').length < 2 ^ 32)
    (hy : (y.splitOn '\n').length < 2 ^ 32) : Exact window x y := by
  obtain ⟨start, before, after, hdescribes, rfl⟩ := h
  have hle := hdescribes.le
  unfold Exact
  dsimp only
  rw [asU32_of_lt (by omega), asU32_of_lt (by omega), asU32_of_lt (by omega)]
  exact hdescribes

/-! ### The lines that a change of a part touches -/

/-- In general: the lines of the part, and one more. -/
theorem describes_part (p r s q : Str) :
    Describes (p.count '\n') (r.count '\n' + 1) (s.count '\n' + 1) (p ++ r ++ q) (p ++ s ++ q) := by
  obtain ⟨P, a, hp⟩ := exists_concat '\n' p
  obtain ⟨b, Q, hq⟩ := exists_cons '\n' q
  have hlength := length_splitOn '\n' p
  rw [hp] at hlength
  obtain ⟨M, hx, hM⟩ := splitOn_part hp hq r
  obtain ⟨M', hy, hM'⟩ := splitOn_part hp hq s
  exact ⟨P, M, M', Q, hx, hy, by simpa using hlength, hM, hM'⟩

/-- At the start of a line. -/
def LineStart (p : Str) : Prop := p = [] ∨ p.getLast? = some '\n'

/-- At the end of a line. -/
def LineEnd (q : Str) : Prop := q = [] ∨ q.head? = some '\n'

theorem splitOn_lineStart (h : LineStart p) : ∃ P, p.splitOn '\n' = P ++ [[]] ∧ P.length = p.count '\n' := by
  have hlength := length_splitOn '\n' p
  rcases h with rfl | h
  · exact ⟨[], by simp, by simp⟩
  · rw [← List.dropLast_append_getLast? _ h, splitOn_concat] at hlength ⊢
    exact ⟨_, rfl, by simpa using hlength⟩

theorem splitOn_lineEnd (h : LineEnd q) : ∃ Q, q.splitOn '\n' = [] :: Q ∧ Q.length = q.count '\n' := by
  have hlength := length_splitOn '\n' q
  rcases h with rfl | h
  · exact ⟨[], by simp, by simp⟩
  · obtain ⟨tail, rfl⟩ : ∃ tail, q = '\n' :: tail := by
      cases q with
      | nil => exact nomatch h
      | cons c tail => exact ⟨tail, by rw [Option.some.inj h]⟩
    rw [splitOn_cons_self] at hlength ⊢
    exact ⟨_, rfl, by simpa using hlength⟩

/-- Whole lines that are put in at the start of a line. -/
theorem describes_before (hp : LineStart p) (hs : s.getLast? = some '\n') (q : Str) :
    Describes (p.count '\n') 0 (s.count '\n') (p ++ q) (p ++ s ++ q) := by
  obtain ⟨P, hP, hlength⟩ := splitOn_lineStart hp
  obtain ⟨S, hS, hcount⟩ := splitOn_lineStart (.inr hs)
  obtain ⟨b, Q, hq⟩ := exists_cons '\n' q
  have hps : (p ++ s).splitOn '\n' = P ++ S ++ [[]] := by
    obtain ⟨c, R, hR⟩ := exists_cons '\n' s
    rw [splitOn_append hP hR, List.nil_append, ← hR, hS, List.append_assoc]
  refine ⟨P, [], S, b :: Q, ?_, ?_, hlength, rfl, hcount⟩
  · rw [splitOn_append hP hq]
    simp
  · rw [splitOn_append hps hq]
    simp

/-- Whole lines that are put in at the end of a line. -/
theorem describes_after (hq : LineEnd q) (hs : s.head? = some '\n') (p : Str) :
    Describes (p.count '\n' + 1) 0 (s.count '\n') (p ++ q) (p ++ s ++ q) := by
  obtain ⟨Q, hQ, -⟩ := splitOn_lineEnd hq
  obtain ⟨S, hS, hcount⟩ := splitOn_lineEnd (.inr hs)
  obtain ⟨P, a, hp⟩ := exists_concat '\n' p
  have hlength := length_splitOn '\n' p
  rw [hp] at hlength
  have hsq : (s ++ q).splitOn '\n' = [] :: S ++ Q := by
    obtain ⟨R, c, hR⟩ := exists_concat '\n' s
    rw [splitOn_append hR hQ, List.append_nil, ← hS, hR]
    simp
  refine ⟨P ++ [a], [], S, Q, ?_, ?_, by simpa using hlength, rfl, hcount⟩
  · rw [splitOn_append hp hQ]
    simp
  · rw [List.append_assoc, splitOn_append hp hsq]
    simp

/-! ### The conditions of `tracker_window` -/

theorem newlineBefore_iff (h : doc.text = p ++ q) : newlineBefore doc (size p) = true ↔ LineStart p := by
  unfold newlineBefore LineStart
  rcases List.eq_nil_or_concat p with rfl | ⟨front, c, hp⟩
  · simp
  · rw [List.concat_eq_append] at hp
    subst hp
    rw [Bool.or_eq_true, decide_eq_true_iff, decide_eq_true_iff, size_eq_zero, h, List.getLast?_concat]
    refine or_congr Iff.rfl ?_
    by_cases hc : c = '\n'
    · subst hc
      simp only [iff_true]
      exact getElem?_bytes_concat q (by decide)
    · have hne := @getElem?_bytes_concat_ne front c '\n' q (by decide) hc
      simp only [Option.some.injEq, hc, iff_false]
      exact hne

theorem newlineAfter_iff (h : doc.text = p ++ q) : newlineAfter doc (size p) = true ↔ LineEnd q := by
  unfold newlineAfter LineEnd CodeDocument.lenBytes
  rw [Bool.or_eq_true, decide_eq_true_iff, decide_eq_true_iff, h, size_append]
  have hget : (bytes (p ++ q))[size p]? = (bytes q)[0]? := by
    rw [bytes_append]
    show (bytes p ++ bytes q)[(bytes p).length]? = _
    rw [List.getElem?_append_right (Nat.le_refl _), Nat.sub_self]
  rw [hget]
  refine or_congr ⟨fun hle => size_eq_zero.1 (by omega), by rintro rfl; simp⟩ ?_
  cases q with
  | nil => simp
  | cons c q =>
    rw [bytes_cons, List.head?_cons]
    by_cases hc : c = '\n'
    · subst hc
      exact iff_of_true rfl rfl
    · simp only [Option.some.injEq, hc, iff_false]
      intro hten
      have hpos : 0 < (String.utf8EncodeChar c).length := by
        rw [String.length_utf8EncodeChar]
        exact c.utf8Size_pos
      rw [List.getElem?_append_left hpos] at hten
      exact notMem_encode hc (List.mem_of_getElem? hten)

/-- The window of an insertion. -/
theorem truncated_insert (hnew : doc'.text = p ++ s ++ q) (hs : s ≠ []) {fragment : Str}
    (hhead : fragment.head? = some '\n' → s.head? = some '\n')
    (hlast : fragment.getLast? = some '\n' → s.getLast? = some '\n') :
    Truncated (trackerWindow doc' ⟨size p, size p, size p + size s, pointOf (p ++ q) (size p), pointOf (p ++ q) (size p),
      pointOf (p ++ s ++ q) (size p + size s)⟩ fragment) (p ++ q) (p ++ s ++ q) := by
  have hpos : size s ≠ 0 := fun h => hs (size_eq_zero.1 h)
  have hbefore : newlineBefore doc' (size p) = true ↔ LineStart p :=
    newlineBefore_iff (by rw [hnew, List.append_assoc])
  have hafter : newlineAfter doc' (size p + size s) = true ↔ LineEnd q := by
    rw [← size_append]
    exact newlineAfter_iff hnew
  have hrow := pointOf_row p q
  have hend := pointOf_row (p ++ s) q
  rw [size_append, List.count_append] at hend
  have hpart := describes_part p [] s q
  rw [List.append_nil, List.count_nil, Nat.zero_add] at hpart
  unfold trackerWindow
  simp only [hrow, hend, Nat.sub_self, Nat.add_sub_cancel_left, if_true, if_neg hpos, beq_self_eq_true,
    beq_eq_false_iff_ne.2 hpos, Bool.true_bne, Bool.not_false, Bool.true_and]
  split_ifs with h1 h2
  · rw [Bool.and_eq_true, beq_iff_eq, hbefore] at h1
    exact ⟨_, _, _, describes_before h1.2 (hlast h1.1) q, by congr 2; omega⟩
  · rw [Bool.and_eq_true, beq_iff_eq, hafter] at h2
    exact ⟨_, _, _, describes_after h2.2 (hhead h2.1) p, by congr 2; omega⟩
  · exact ⟨_, _, _, hpart, by congr 2; omega⟩

/-- The window of a removal. -/
theorem truncated_remove (hnew : doc'.text = p ++ q) (hr : r ≠ []) :
    Truncated (trackerWindow doc' ⟨size p, size p + size r, size p, pointOf (p ++ r ++ q) (size p),
      pointOf (p ++ r ++ q) (size p + size r), pointOf (p ++ r ++ q) (size p)⟩ r) (p ++ r ++ q) (p ++ q) := by
  have hpos : size r ≠ 0 := fun h => hr (size_eq_zero.1 h)
  have hbefore : newlineBefore doc' (size p) = true ↔ LineStart p := newlineBefore_iff hnew
  have hafter : newlineAfter doc' (size p) = true ↔ LineEnd q := newlineAfter_iff hnew
  have hrow : (pointOf (p ++ r ++ q) (size p)).row = p.count '\n' := by
    rw [List.append_assoc]
    exact pointOf_row p (r ++ q)
  have hend := pointOf_row (p ++ r) q
  rw [size_append, List.count_append] at hend
  have hpart := (describes_part p [] r q).symm
  rw [List.append_nil, List.count_nil, Nat.zero_add] at hpart
  unfold trackerWindow
  simp only [hrow, hend, Nat.sub_self, Nat.add_sub_cancel_left, if_true, if_neg hpos, beq_self_eq_true,
    beq_eq_false_iff_ne.2 hpos, Bool.false_bne, Bool.true_and]
  split_ifs with h1 h2
  · rw [Bool.and_eq_true, beq_iff_eq, hbefore] at h1
    exact ⟨_, _, _, (describes_before h1.2 h1.1 q).symm, by congr 2; omega⟩
  · rw [Bool.and_eq_true, beq_iff_eq, hafter] at h2
    exact ⟨_, _, _, (describes_after h2.2 h2.1 p).symm, by congr 2; omega⟩
  · exact ⟨_, _, _, hpart, by congr 2; omega⟩

/-! ### The windows of a splice -/

/-- A sub-edit with its window: the edit leads from `x` to `y`, and the window describes it. -/
def Windowed (change : DocChange) (x y : Str) : Prop :=
  Applies change.edit x y ∧ Truncated change.window x y ∧
    ((x.splitOn '\n').length < 2 ^ 32 → (y.splitOn '\n').length < 2 ^ 32 → Exact change.window x y)

theorem Windowed.of_truncated {change : DocChange} (happlies : Applies change.edit x y)
    (h : Truncated change.window x y) : Windowed change x y :=
  ⟨happlies, h, h.exact⟩

theorem removing_windows (doc : CodeDocument) (start stop : ℕ) :
    Path Windowed (removing doc start stop (doc.sliceString start stop)).2 doc.text
      (removing doc start stop (doc.sliceString start stop)).1.text := by
  unfold removing
  split_ifs with hlt
  · by_cases hnone : doc.isReadOnly = true ∨ doc.snapToBoundary stop ≤ doc.snapToBoundary start
    · have heq : doc.remove start stop = (doc, none) := by
        unfold CodeDocument.remove
        rcases hnone with h | h <;> simp [h]
      rw [heq]
      rfl
    · obtain ⟨hro, hmore⟩ := not_or.1 hnone
      obtain ⟨p, r, q, htext, hp, hr⟩ := boundary_split (@snapToBoundary_boundary doc start)
        (@snapToBoundary_boundary doc stop) (by omega)
      have hne : r ≠ [] := by
        rintro rfl
        simp at hr
        omega
      have hslice : doc.sliceString start stop = r := by
        have hself := sliceString_append htext
        unfold CodeDocument.sliceString at hself ⊢
        obtain ⟨hsp, hsr, -, -⟩ := offsets_append htext
        rw [Nat.max_eq_left (Nat.le_add_right _ _), hsp, hsr] at hself
        rw [Nat.max_eq_left (by omega), ← hp, ← hr]
        exact hself
      obtain ⟨doc', hnew, -, heq⟩ := remove_at (by simpa [CodeDocument.isReadOnly] using hro) htext hp.symm hr.symm hne
      have hwindow := @truncated_remove p q r doc' hnew hne
      rw [heq, hslice]
      refine path_singleton.2 (.of_truncated (applies_remove htext hnew) ?_)
      rw [← htext, ← hnew] at hwindow
      exact hwindow
  · rfl

theorem head?_normalizeNewlines {text : Str} (h : text.head? = some '\n') :
    (normalizeNewlines text).head? = some '\n' := by
  cases text with
  | nil => exact nomatch h
  | cons c text =>
    obtain rfl : c = '\n' := Option.some.inj h
    simp [normalizeNewlines]

theorem getLast?_normalizeNewlines (text : Str) : (normalizeNewlines text).getLast? = text.getLast? := by
  induction text with
  | nil => rfl
  | cons c text ih =>
    unfold normalizeNewlines
    split_ifs with hcr
    · rw [ih, List.getLast?_cons]
      cases text with
      | nil => simp at hcr
      | cons d text => simp [List.getLast?_cons]
    · rw [List.getLast?_cons, List.getLast?_cons, ih]

theorem inserting_windows (doc : CodeDocument) (start : ℕ) (inserted : Str) :
    Path Windowed (inserting doc start inserted).2 doc.text (inserting doc start inserted).1.text := by
  unfold inserting
  split_ifs with hempty
  · rfl
  · by_cases hro : doc.isReadOnly = true
    · have heq : doc.insert start inserted = (doc, none) := by
        unfold CodeDocument.insert
        simp [hro]
      rw [heq]
      rfl
    · have hne : normalizeNewlines inserted ≠ [] := by simpa [normalizeNewlines_eq_nil] using hempty
      obtain ⟨p, q, htext, hsize⟩ := @snapToBoundary_boundary doc start
      obtain ⟨doc', hnew, -, heq⟩ :=
        insert_at (by simpa [CodeDocument.isReadOnly] using hro) htext hsize.symm hne
      have hwindow := @truncated_insert p q _ doc' hnew hne inserted head?_normalizeNewlines
        (by rw [getLast?_normalizeNewlines]; exact id)
      rw [heq]
      refine path_singleton.2 (.of_truncated (applies_insert htext hnew) ?_)
      rw [← htext, ← hnew] at hwindow
      exact hwindow

/-- **The windows of a splice**, its removal and its insertion: each describes its own part exactly, as far as its
numbers of 32 bits go. -/
theorem rawSplice_windows (doc : CodeDocument) (start stop : ℕ) (inserted : Str) :
    Path Windowed (rawSplice doc start stop (doc.sliceString start stop) inserted).2 doc.text
      (rawSplice doc start stop (doc.sliceString start stop) inserted).1.text := by
  show Path Windowed (_ ++ _) doc.text _
  exact path_append.2 ⟨_, removing_windows doc start stop, inserting_windows _ start inserted⟩

/-- A document of `n` empty lines and the one after them. -/
def blankDocument (n : ℕ) : CodeDocument := ⟨List.replicate n '\n', .lf, none, 0, 0, false⟩

/-- The window of a letter that is typed at its end. -/
theorem blankDocument_window (n : ℕ) :
    (rawSplice (blankDocument n) n n ((blankDocument n).sliceString n n) ['a']).2.map DocChange.window =
      [⟨asU32 n, asU32 1, asU32 1⟩] ∧
    (rawSplice (blankDocument n) n n ((blankDocument n).sliceString n n) ['a']).1.text =
      List.replicate n '\n' ++ ['a'] := by
  have hsize : size (List.replicate n '\n') = n := by
    induction n with
    | zero => rfl
    | succ n ih =>
      rw [List.replicate_succ, size_newline, ih]
      omega
  have hcount : (List.replicate n '\n').count '\n' = n := List.count_replicate_self
  have htext : (blankDocument n).text = List.replicate n '\n' ++ [] := by simp [blankDocument]
  have hsnap := snapToBoundary_append htext
  rw [hsize] at hsnap
  obtain ⟨doc', hnew, -, heq⟩ := insert_at (show (blankDocument n).readOnly = none from rfl) htext
    (hsnap.trans hsize.symm) (show normalizeNewlines ['a'] ≠ [] by decide)
  rw [List.append_nil, show normalizeNewlines ['a'] = ['a'] from rfl] at hnew
  rw [show normalizeNewlines ['a'] = ['a'] from rfl, show size ['a'] = 1 from rfl, hsize] at heq
  have hstart := pointOf_row (List.replicate n '\n') []
  rw [List.append_nil, hsize, hcount] at hstart
  have hend := pointOf_row (List.replicate n '\n' ++ ['a']) []
  rw [List.append_nil, size_append, hsize, List.count_append, hcount, show (['a'] : Str).count '\n' = 0 by decide,
    show size ['a'] = 1 from rfl, ← hnew] at hend
  unfold rawSplice removing inserting
  rw [if_neg (Nat.lt_irrefl n)]
  dsimp only
  rw [if_neg (by decide), heq]
  refine ⟨?_, hnew⟩
  unfold trackerWindow
  have hold : (blankDocument n).text = List.replicate n '\n' := rfl
  simp [hold, hstart, hend]

/-- **Beyond 32 bits** the window of a splice does not describe it: it names the first line for the last one. -/
theorem not_rawSplice_exact : ¬ ∀ (doc : CodeDocument) (start stop : ℕ) (inserted : Str),
    Path (fun change x y => Applies change.edit x y ∧ Exact change.window x y)
      (rawSplice doc start stop (doc.sliceString start stop) inserted).2 doc.text
      (rawSplice doc start stop (doc.sliceString start stop) inserted).1.text := by
  intro hall
  generalize hn : 2 ^ 32 = n
  have hzero : asU32 n = 0 := hn ▸ Nat.mod_self _
  have hone : asU32 1 = 1 := asU32_of_lt (by norm_num)
  have hpath := hall (blankDocument n) n n ['a']
  obtain ⟨hwindow, htext⟩ := blankDocument_window n
  rw [hzero, hone] at hwindow
  rw [htext] at hpath
  obtain ⟨change, hchanges, hnumbers⟩ := List.map_eq_singleton_iff.1 hwindow
  rw [hchanges] at hpath
  obtain ⟨-, P, M, M', Q, hx, hy, hP, hM, -⟩ := path_singleton.1 hpath
  rw [hnumbers] at hP hM
  -- the last line is empty before and holds the letter after
  have hpos : 0 < n := by omega
  have hstart : LineStart (List.replicate n '\n') := .inr (by simp [List.getLast?_replicate]; omega)
  obtain ⟨R, hR, hlength⟩ := splitOn_lineStart hstart
  rw [List.count_replicate_self] at hlength
  have hx' : (blankDocument n).text.splitOn '\n' = R ++ [[]] := hR
  have hy' : (List.replicate n '\n' ++ ['a']).splitOn '\n' = R ++ [['a']] :=
    splitOn_append hR (show ['a'].splitOn '\n' = ['a'] :: [] from List.splitOn_eq_singleton (by decide))
  have hQ : Q ≠ [] := by
    rintro rfl
    have hcount := congrArg List.length (hx'.symm.trans hx)
    simp only [List.length_append, List.length_singleton, List.length_nil] at hcount hP hM
    omega
  have hlast := congrArg List.getLast? (hx'.symm.trans hx)
  have hlast' := congrArg List.getLast? (hy'.symm.trans hy)
  rw [List.getLast?_concat, List.getLast?_append_of_ne_nil _ hQ] at hlast hlast'
  exact absurd (hlast.trans hlast'.symm) (by decide)

end Paneflow.Code.Windows
