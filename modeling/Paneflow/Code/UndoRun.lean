import Paneflow.Code.History

/-!
# Runs of edits, undo and redo

A document with its history, edited by splices whose records are pushed in any grouping, and undone
and redone in any order. For each transaction the session remembers the text before its first edit.

`Faithful` says what undo and redo owe the user. It is not kept by every run
(`not_reach_faithful`): a text with a carriage return before a CR LF pair is normalized once for the
record and twice for the document. It is kept by every run of stable splices: `reach_faithful`.
-/

namespace Paneflow.Code.UndoRun

open Paneflow.Code.Document Paneflow.Code.Edit Paneflow.Code.History Paneflow.Trace Paneflow.Utf8

/-- A byte range and the text for it. -/
structure SpliceOp where
  start : ℕ
  stop : ℕ
  text : Str
  deriving DecidableEq, Repr

/-- The splices of `splice_all`, with the records and windows of those that changed something. -/
def spliceAll (doc : CodeDocument) : List SpliceOp → CodeDocument × List AppliedEdit × List TrackerWindow
  | [] => (doc, [], [])
  | op :: ops =>
    match splice doc op.start op.stop op.text with
    | (doc, none) => spliceAll doc ops
    | (doc, some applied) =>
      let (doc, records, changes) := spliceAll doc ops
      (doc, applied.record :: records, applied.windows ++ changes)

/-- Every splice is stable in the document that it is applied to. -/
def StableAll (doc : CodeDocument) : List SpliceOp → Prop
  | [] => True
  | op :: ops =>
    Stable doc op.start op.stop op.text ∧ StableAll (splice doc op.start op.stop op.text).1 ops

theorem spliceAll_path {doc : CodeDocument} (hro : doc.readOnly = none) {ops : List SpliceOp}
    (hs : StableAll doc ops) : ∃ doc' records changes, spliceAll doc ops = (doc', records, changes) ∧
      Path Edits records doc.text doc'.text ∧ Advanced doc doc' changes.length := by
  induction ops generalizing doc with
  | nil => exact ⟨doc, [], [], rfl, rfl, .refl doc⟩
  | cons op ops ih =>
    obtain ⟨hop, hops⟩ := hs
    unfold spliceAll
    rcases splice_edits hro hop with heq | ⟨doc1, applied, heq, hedit, hadv⟩
    · rw [heq] at hops ⊢
      exact ih hro hops
    · rw [heq] at hops ⊢
      obtain ⟨doc', records, changes, heq', hpath, hadv'⟩ := ih (hadv.readOnly.trans hro) hops
      simp only [heq']
      refine ⟨doc', _, _, rfl, ⟨doc1.text, hedit, hpath⟩, ?_⟩
      rw [List.length_append]
      exact hadv.trans hadv'

/-- A document, its history and, for each transaction, the text before its first edit. -/
structure Session where
  doc : CodeDocument
  history : UndoHistory
  before : ℕ → Str

def Session.new (raw : Str) : Session := ⟨.new raw, .default, fun _ => []⟩

/-- An edit: splices and one push of their records. The next transaction, if the push starts it, has
its first edit now. -/
def Session.edit (s : Session) (ops : List SpliceOp) (selection after : CodeSelection)
    (group : EditGroup) (now : ℕ) : Session :=
  let (doc, records, _) := spliceAll s.doc ops
  ⟨doc, s.history.push records selection after group now,
    Function.update s.before s.history.nextId s.doc.text⟩

def Session.undo (s : Session) : Session :=
  let (history, doc, _) := s.history.undoStep s.doc
  { s with history := history, doc := doc }

def Session.redo (s : Session) : Session :=
  let (history, doc, _) := s.history.redoStep s.doc
  { s with history := history, doc := doc }

/-- The sessions that runs reach whose edits all satisfy `cond` in the document they are made to. -/
inductive Reach (cond : CodeDocument → List SpliceOp → Prop) : Session → Prop
  | new (raw : Str) : Reach cond (.new raw)
  | edit {s : Session} (ops : List SpliceOp) (selection after : CodeSelection) (group : EditGroup)
    (now : ℕ) : Reach cond s → cond s.doc ops → Reach cond (s.edit ops selection after group now)
  | closeGroup {s : Session} : Reach cond s →
    Reach cond { s with history := s.history.closeGroup }
  | undo {s : Session} : Reach cond s → Reach cond s.undo
  | redo {s : Session} : Reach cond s → Reach cond s.redo

/-- Undo restores the text before the first edit of the transaction on top, a redo right after it the
text before the undo, and undoing and redoing every retained transaction changes no text. -/
def Faithful (s : Session) : Prop :=
  (∀ t, s.history.undo.getLast? = some t →
    s.undo.doc.text = s.before t.id ∧ s.undo.redo.doc.text = s.doc.text) ∧
  (Session.redo^[s.history.undo.length] (Session.undo^[s.history.undo.length] s)).doc.text =
    s.doc.text

/-! ### The invariant -/

/-- A transaction leads from the text before its first edit. -/
def StartsAt (before : ℕ → Str) (t : Transaction) (x y : Str) : Prop :=
  before t.id = x ∧ Leads t x y

structure Inv (s : Session) : Prop where
  writable : s.doc.readOnly = none
  timeline : Timeline (StartsAt s.before) (fun _ _ => True) s.history s.doc.text
  ids : Ids s.history

theorem inv_new (raw : Str) : Inv (.new raw) :=
  ⟨rfl, ⟨⟨_, trivial, rfl⟩, _, rfl⟩, ids_default⟩

theorem startsAt_leads (before : ℕ → Str) (t : Transaction) (x y : Str)
    (h : StartsAt before t x y) : Leads t x y := h.2

theorem Inv.edit {s : Session} (h : Inv s) {ops : List SpliceOp} (hs : StableAll s.doc ops)
    (selection after : CodeSelection) (group : EditGroup) (now : ℕ) :
    Inv (s.edit ops selection after group now) := by
  obtain ⟨doc', records, changes, heq, hpath, hadv⟩ := spliceAll_path h.writable hs
  -- the transactions so far are older than the one whose first edit is remembered now
  have htl : Timeline (StartsAt (Function.update s.before s.history.nextId s.doc.text))
      (fun _ _ => True) s.history s.doc.text := by
    refine h.timeline.mono ?_ fun _ h => h
    rintro t ht x y ⟨rfl, hl⟩
    have hlt := h.ids.below t (by simpa using ht)
    exact ⟨Function.update_of_ne hlt.ne _ _, hl⟩
  have hro := hadv.readOnly.trans h.writable
  have hids := ids_push h.ids records selection after group now
  unfold Session.edit
  rw [heq]
  dsimp only
  by_cases hne : records = []
  · subst hne
    have htext : s.doc.text = doc'.text := hpath
    exact ⟨hro, htext ▸ htl, hids⟩
  obtain ⟨base, -, hpast⟩ := htl.past
  rcases hj : s.history.topToJoin group now with _ | top
  · -- a new transaction
    obtain ⟨hp, hnext, -⟩ := push_new selection after hne hj
    refine ⟨hro, timeline_of_pushed hp trivial (path_concat.2 ⟨_, hpast, ?_, hpath⟩) (by simp), hids⟩
    exact Function.update_self _ _ _
  · -- typing joins the transaction on top
    obtain ⟨u, hu⟩ := topToJoin_some hj
    obtain ⟨hp, hnext⟩ := push_join selection after hne hj hu
    rw [hu] at hpast
    obtain ⟨x, hpast, hstart, hlead⟩ := path_concat.1 hpast
    exact ⟨hro, timeline_of_pushed hp trivial
      (path_concat.2 ⟨x, hpast, hstart, path_append.2 ⟨_, hlead, hpath⟩⟩) (by simp), hids⟩

theorem Inv.undo {s : Session} (h : Inv s) : Inv s.undo := by
  unfold Session.undo
  rcases timeline_undo h.timeline (startsAt_leads _) h.writable with
    ⟨-, heq⟩ | ⟨u, t, x, h', doc', step, hu, -, heq, htext, hadv, hundo, hredo, hmark, hnext, -, htl⟩
  · rw [heq]
    exact ⟨h.writable, ⟨h.timeline.past, h.timeline.future⟩, h.ids.congr rfl rfl rfl⟩
  · rw [heq]
    refine ⟨hadv.readOnly.trans h.writable, htext ▸ htl, h.ids.congr ?_ hnext hmark⟩
    simp [hundo, hredo, hu]

theorem Inv.redo {s : Session} (h : Inv s) : Inv s.redo := by
  unfold Session.redo
  rcases timeline_redo h.timeline (startsAt_leads _) h.writable with
    ⟨-, heq⟩ | ⟨r, t, y, h', doc', step, hr, -, heq, htext, hadv, hundo, hredo, hmark, hnext, -, htl⟩
  · rw [heq]
    exact ⟨h.writable, ⟨h.timeline.past, h.timeline.future⟩, h.ids.congr rfl rfl rfl⟩
  · rw [heq]
    refine ⟨hadv.readOnly.trans h.writable, htext ▸ htl, h.ids.congr ?_ hnext hmark⟩
    simp [hundo, hredo, hr]

theorem Reach.inv {s : Session} (h : Reach StableAll s) : Inv s := by
  induction h with
  | new raw => exact inv_new raw
  | edit ops selection after group now _ hs ih => exact ih.edit hs selection after group now
  | closeGroup _ ih => exact ⟨ih.writable, ⟨ih.timeline.past, ih.timeline.future⟩, ih.ids.congr rfl rfl rfl⟩
  | undo _ ih => exact ih.undo
  | redo _ ih => exact ih.redo

/-! ### Walking back and forth -/

/-- Undoing the last transactions, one after the other. -/
theorem undo_walk {s : Session} {u v : List Transaction} {x : Str} (hro : s.doc.readOnly = none)
    (hu : s.history.undo = u ++ v) (hpath : Path Leads v x s.doc.text) :
    (Session.undo^[v.length] s).doc.text = x ∧
      (Session.undo^[v.length] s).doc.readOnly = none ∧
      (Session.undo^[v.length] s).history.redo = s.history.redo ++ v.reverse := by
  induction v using List.reverseRecOn generalizing s with
  | nil => exact ⟨(show x = s.doc.text from hpath).symm, hro, by simp⟩
  | append_singleton v t ih =>
    obtain ⟨w, hv, ht⟩ := path_concat.1 hpath
    rw [← List.append_assoc] at hu
    obtain ⟨h', doc', step, heq, htext, hadv, hundo, hredo, -⟩ := undoStep_eq hu ht hro
    have hs : s.undo = ⟨doc', h', s.before⟩ := by
      unfold Session.undo
      rw [heq]
    have := ih (s := s.undo) (by rw [hs]; exact hadv.readOnly.trans hro) (by rw [hs]; exact hundo)
      (by rw [hs]; exact htext ▸ hv)
    rw [List.length_append, List.length_singleton, Function.iterate_succ_apply]
    refine ⟨this.1, this.2.1, this.2.2.trans ?_⟩
    rw [hs]
    simp [hredo]

/-- Redoing the transactions on top, one after the other. -/
theorem redo_walk {s : Session} {r v : List Transaction} {y : Str} (hro : s.doc.readOnly = none)
    (hr : s.history.redo = r ++ v.reverse) (hpath : Path Leads v s.doc.text y) :
    (Session.redo^[v.length] s).doc.text = y := by
  induction v generalizing s with
  | nil => exact hpath
  | cons t v ih =>
    obtain ⟨w, ht, hv⟩ := hpath
    rw [List.reverse_cons, ← List.append_assoc] at hr
    obtain ⟨h', doc', step, heq, htext, hadv, hundo, hredo, -⟩ := redoStep_eq hr ht hro
    have hs : s.redo = ⟨doc', h', s.before⟩ := by
      unfold Session.redo
      rw [heq]
    rw [List.length_cons, Function.iterate_succ_apply]
    exact ih (by rw [hs]; exact hadv.readOnly.trans hro) (by rw [hs]; exact hredo)
      (by rw [hs]; exact htext ▸ hv)

theorem Inv.faithful {s : Session} (h : Inv s) : Faithful s := by
  obtain ⟨base, -, hpast⟩ := h.timeline.past
  have hleads : Path Leads s.history.undo base s.doc.text :=
    hpast.mono fun t _ x y ht => ht.2
  constructor
  · intro t ht
    obtain ⟨u, hu⟩ := List.getLast?_eq_some_iff.1 ht
    rw [hu] at hpast
    obtain ⟨x, -, hstart, hlead⟩ := path_concat.1 hpast
    obtain ⟨htext, hro, hredo⟩ := undo_walk h.writable hu (path_singleton.2 hlead)
    refine ⟨htext.trans hstart.symm, ?_⟩
    exact redo_walk (v := [t]) hro hredo (htext.symm ▸ path_singleton.2 hlead)
  · obtain ⟨htext, hro, hredo⟩ := undo_walk (u := []) h.writable rfl hleads
    exact redo_walk hro hredo (htext.symm ▸ hleads)

/-- **Undo and redo** are faithful in every session that a run of stable splices reaches. -/
theorem reach_faithful {s : Session} (h : Reach StableAll s) : Faithful s := h.inv.faithful

/-- One insertion into a two-letter document. -/
theorem reach_faithful_one_edit :
    Faithful ((Session.new ['a', 'b']).edit [⟨1, 1, ['c']⟩] ⟨1, 1⟩ ⟨2, 2⟩ .typing 0) :=
  reach_faithful (.edit _ _ _ _ _ (.new _) ⟨by decide, trivial⟩)

/-- Undo is not faithful in every run: the text CR CR LF is recorded as CR LF and inserted as LF, so
that undoing it removes a byte too much. -/
theorem not_reach_faithful : ¬ ∀ s, Reach (fun _ _ => True) s → Faithful s := by
  intro h
  have hf := h ((Session.new ['a', 'b']).edit [⟨1, 1, ['\r', '\r', '\n']⟩] ⟨1, 1⟩ ⟨2, 2⟩ .typing 0)
    (.edit _ _ _ _ _ (.new _) trivial)
  have hundo := (hf.1 ⟨0, [⟨1, [], ['\r', '\n']⟩], ⟨1, 1⟩, ⟨2, 2⟩⟩ (by decide)).1
  revert hundo
  decide

end Paneflow.Code.UndoRun
