import Paneflow.Code.DiskSync

/-!
# Runs of the editor

Saves and reloads finish asynchronously: `Editor` holds the view with the save and the reloads in
flight, and two things that only the proofs look at, the text that was last saved to disk or adopted
from it and the number of changes made to the document so far.

`is_dirty` only compares marks. In every run whose steps are `Safe` a view that is not dirty holds the
last text saved or adopted: `reach_clean`. In general it does not (`not_reach_clean`): a reload that
changes nothing makes the current mark the saved one and leaves the typing group open.
-/

namespace Paneflow.Code.EditorRun

open Paneflow.Code.Document Paneflow.Code.Edit Paneflow.Code.History Paneflow.Code.UndoRun
open Paneflow.Alignment.Tiling Paneflow.Code.DiskSplices Paneflow.Code.DiskSync Paneflow.Trace

/-! ### The editor with its tasks in flight -/

/-- A save in flight, with the text of the document when it started. -/
structure PendingSave where
  contents : Str
  expected : Option FileStamp
  mark : HistoryMark
  text : Str
  deriving DecidableEq, Repr

/-- A reload in flight, with the number of changes made to the document when its rope was taken. -/
structure Reload where
  diff : DiskDiff
  incoming : Str
  facts : DiskFacts
  force : Bool
  attempt : ℕ
  clock : ℕ
  deriving DecidableEq, Repr

structure Editor where
  view : CodeView
  save : Option PendingSave
  reloads : List Reload
  saved : Str
  clock : ℕ
  deriving DecidableEq, Repr

def reloadDiffAttempts : ℕ := 2

inductive Op where
  | edit (ops : List SpliceOp) (before after : CodeSelection) (group : EditGroup) (now : ℕ)
  | undo
  | redo
  | endTypingGroup
  | startSave (defer : Bool)
  | finishSave (outcome : SaveOutcome)
  | beginReload (stamp : Option FileStamp) (present force : Bool) (incoming : Str) (facts : DiskFacts)
  | finishReload (index : ℕ) (before after : CodeSelection) (now : ℕ)
  | resolveKeepMine

/-- A save that a step started is in flight from then on. -/
def Editor.launch (e : Editor) (start : Option SaveStart) : Editor :=
  match start with
  | some (.started contents expected mark) =>
    { e with save := some ⟨contents, expected, mark, e.view.doc.text⟩ }
  | _ => e

def Editor.edit (e : Editor) (ops : List SpliceOp) (before after : CodeSelection)
    (group : EditGroup) (now : ℕ) : Editor :=
  let (view, _, changes) := e.view.spliceAll ops before after group now
  { e with view := view, clock := e.clock + changes.length }

def Editor.travel (e : Editor) (redo : Bool) : Editor :=
  let (view, changes) := e.view.timeTravel redo
  { e with view := view, clock := e.clock + changes.length }

def Editor.startSave (e : Editor) (defer : Bool) : Editor :=
  let (view, start) := e.view.startSave defer
  { e with view := view }.launch (some start)

def Editor.finishSave (e : Editor) (outcome : SaveOutcome) : Option Editor := do
  let pending ← e.save
  return { e with
    view := e.view.finishSave outcome pending.mark
    save := none
    saved := match outcome with
      | .ok _ => pending.text
      | _ => e.saved }

def Editor.beginReload (e : Editor) (stamp : Option FileStamp) (present force : Bool) (incoming : Str)
    (facts : DiskFacts) : Editor :=
  let (view, diff) := e.view.beginDiskReload stamp present force
  { e with
    view := view
    reloads := e.reloads ++ (diff.map fun diff => ⟨diff, incoming, facts, force, 0, e.clock⟩).toList }

/-- The reload `r` with its splices, and what is left to be tried again. -/
def Editor.finishDiff (e : Editor) (r : Reload) (rest : List Reload) (splices : List SpliceOp)
    (before after : CodeSelection) (now : ℕ) : Editor :=
  let info := { r.diff.diskMeta with facts := some r.facts }
  let retry := decide (r.attempt + 1 < reloadDiffAttempts)
  let (view, again, start, changes) :=
    e.view.finishDiskReload info splices retry r.force before after now
  let again := again.map fun diff => { r with diff, attempt := r.attempt + 1, clock := e.clock }
  { e with
    view := view
    reloads := rest ++ again.toList
    saved := if e.view.adopts info r.force then normalizeNewlines r.incoming else e.saved
    clock := e.clock + changes.length }.launch start

def Editor.finishReload (histogram : Histogram) (e : Editor) (index : ℕ)
    (before after : CodeSelection) (now : ℕ) : Option Editor := do
  let r ← e.reloads[index]?
  let splices ← diskSplices histogram r.diff.rope r.incoming
  return e.finishDiff r (e.reloads.eraseIdx index) splices before after now

/-- One step; `none` where nothing is in flight to finish, or on a panic. -/
def Editor.step (histogram : Histogram) (e : Editor) : Op → Option Editor
  | .edit ops before after group now => some (e.edit ops before after group now)
  | .undo => some (e.travel false)
  | .redo => some (e.travel true)
  | .endTypingGroup => some { e with view := e.view.endTypingGroup }
  | .startSave defer => some (e.startSave defer)
  | .finishSave outcome => e.finishSave outcome
  | .beginReload stamp present force incoming facts =>
    some (e.beginReload stamp present force incoming facts)
  | .finishReload index before after now => e.finishReload histogram index before after now
  | .resolveKeepMine => some { e with view := e.view.resolveKeepMine }

/-- A view that was just loaded from the text `raw` of its file. -/
def Editor.load (name : String) (raw : Str) (readOnly : Option ReadOnlyReason)
    (stamp : Option FileStamp) : Editor :=
  let doc := { CodeDocument.new raw with readOnly := readOnly }
  ⟨⟨name, doc, .default, .baseline, stamp, stamp, 0, false, false, .inSync, none, false⟩, none, [],
    doc.text, 0⟩

/-- The editors that runs reach whose steps all satisfy `cond`. -/
inductive Reach (histogram : Histogram) (cond : Editor → Op → Prop) : Editor → Prop
  | load (name : String) (raw : Str) (readOnly : Option ReadOnlyReason) (stamp : Option FileStamp) :
    Reach histogram cond (.load name raw readOnly stamp)
  | step {e e' : Editor} (op : Op) : Reach histogram cond e → cond e op →
    e.step histogram op = some e' → Reach histogram cond e'

/-- A view that is not dirty holds the text last saved to disk or adopted from it. -/
def Clean (e : Editor) : Prop := e.view.isDirty = false → e.view.doc.text = e.saved

/-- Splices are stable, typing does not join the transaction that the saved mark names, and a reload
that is adopted holds no carriage return before its newlines once normalized and belongs to the current
turn of the revision counter. -/
def Safe (histogram : Histogram) (e : Editor) : Op → Prop
  | .edit ops _ _ group now => e.view.doc.readOnly = none →
    StableAll e.view.doc ops ∧
      ((spliceAll e.view.doc ops).2.1 ≠ [] → e.view.history.topToJoin group now ≠ none →
        e.view.history.mark ≠ e.view.savedMark)
  | .finishReload index _ _ _ => ∀ r, e.reloads[index]? = some r →
    e.view.adopts r.diff.diskMeta r.force = true →
      e.clock < r.clock + 2 ^ 64 ∧ crlfFree (normalizeNewlines r.incoming) = true ∧
      ∀ ops, diskSplices histogram r.diff.rope r.incoming = some ops →
        StableAll { e.view.doc with readOnly := none } ops
  | _ => True

/-! ### Marks and texts -/

/-- A transaction leads to the text of its mark. -/
def EndsAt (T : HistoryMark → Str) (t : Transaction) (x y : Str) : Prop :=
  T (.transaction t.id) = y ∧ Leads t x y

def Shows (T : HistoryMark → Str) (mark : HistoryMark) (x : Str) : Prop := T mark = x

/-- `T` gives the text of every mark on the way through the history to `text`. -/
structure Marked (T : HistoryMark → Str) (h : UndoHistory) (text : Str) : Prop where
  timeline : Timeline (EndsAt T) (Shows T) h text
  ids : Ids h

theorem Marked.mark {T : HistoryMark → Str} {h : UndoHistory} {text : Str} (hm : Marked T h text) :
    T h.mark = text := by
  obtain ⟨base, hbase, hpath⟩ := hm.timeline.past
  exact mark_of_path (B := Shows T) hbase hpath fun t _ x y ht => ht.1

theorem mark_old {h : UndoHistory} (hids : Ids h) : Old h.nextId h.mark := by
  unfold UndoHistory.mark
  rcases List.eq_nil_or_concat h.undo with hu | ⟨u, t, hu⟩
  · rw [hu]
    exact hids.old
  · rw [hu, List.concat_eq_append, markAfter_concat]
    rintro id ⟨⟩
    exact hids.below t (by simp [hu])

/-- A push gives a text to one mark only: a new one, or the one of the transaction that it joins. -/
theorem Marked.push {T : HistoryMark → Str} {h : UndoHistory} {text text' : Str}
    (hm : Marked T h text) {records : List AppliedEdit} (hpath : Path Edits records text text')
    (before after : CodeSelection) (group : EditGroup) (now : ℕ) :
    ∃ T', Marked T' (h.push records before after group now) text' ∧
      ∀ m, Old h.nextId m → (records ≠ [] → h.topToJoin group now ≠ none → h.mark ≠ m) →
        T' m = T m := by
  have hids := ids_push hm.ids records before after group now
  by_cases hne : records = []
  · subst hne
    obtain rfl : text = text' := hpath
    exact ⟨T, hm, fun _ _ _ => rfl⟩
  obtain ⟨base, hbase, hpast⟩ := hm.timeline.past
  rcases hj : h.topToJoin group now with _ | top
  · -- a new transaction, with a mark that was not used before
    obtain ⟨hp, -, -⟩ := push_new before after hne hj
    refine ⟨Function.update T (.transaction h.nextId) text', ⟨?_, hids⟩, fun m hold _ => ?_⟩
    · have hkeep : ∀ m, Old h.nextId m → Function.update T (.transaction h.nextId) text' m = T m := by
        intro m hold
        refine Function.update_of_ne (fun heq => ?_) _ _
        exact lt_irrefl _ (hold h.nextId heq)
      have hbase' : Shows (Function.update T (.transaction h.nextId) text') h.baseMark base :=
        (hkeep _ hm.ids.old).trans hbase
      refine timeline_of_pushed hp hbase' (path_concat.2 ⟨text, ?_, ?_, hpath⟩) fun t _ x y ht => ht.1
      · refine hpast.mono fun t ht x y hxy => ⟨(hkeep _ ?_).trans hxy.1, hxy.2⟩
        rintro id ⟨⟩
        exact hm.ids.below t (by simp [ht])
      · exact Function.update_self _ _ _
    · refine Function.update_of_ne (fun heq => ?_) _ _
      exact lt_irrefl _ (hold h.nextId heq)
  · -- the transaction on top goes on, and only its mark changes its text
    obtain ⟨u, hu⟩ := topToJoin_some hj
    obtain ⟨hp, -⟩ := push_join before after hne hj hu
    have hmark : h.mark = .transaction top.id := by
      rw [UndoHistory.mark, hu, markAfter_concat]
    refine ⟨Function.update T (.transaction top.id) text', ⟨?_, hids⟩, fun m _ hm' => ?_⟩
    · have hsorted := (List.pairwise_append.1 hm.ids.sorted).1
      rw [hu, List.pairwise_append] at hsorted
      rw [hu] at hpast
      obtain ⟨x, hpast, hend, hlead⟩ := path_concat.1 hpast
      have hbase' : Shows (Function.update T (.transaction top.id) text') h.baseMark base := by
        refine (Function.update_of_ne (fun heq => ?_) _ _).trans hbase
        exact lt_irrefl _ (hm.ids.base top (by simp [hu]) top.id heq)
      refine timeline_of_pushed hp hbase'
        (path_concat.2 ⟨x, ?_, ?_, path_append.2 ⟨text, hlead, hpath⟩⟩) fun t _ x y ht => ht.1
      · refine hpast.mono fun t ht x y hxy => ⟨?_, hxy.2⟩
        refine (Function.update_of_ne (fun heq => ?_) _ _).trans hxy.1
        have hlt := hsorted.2.2 t ht top (by simp)
        rw [HistoryMark.transaction.injEq] at heq
        omega
      · exact Function.update_self _ _ _
    · refine Function.update_of_ne (fun heq => ?_) _ _
      exact hm' hne (by simp) (hmark.trans heq.symm)

/-- While a typing group is open after a push, its mark is not one that was closed before. -/
theorem push_mark_ne {h : UndoHistory} {m : HistoryMark} (hold : Old h.nextId m)
    (hopen : h.isOpen = true → h.mark ≠ m) (records : List AppliedEdit)
    (before after : CodeSelection) (group : EditGroup) (now : ℕ)
    (hopen' : (h.push records before after group now).isOpen = true) :
    (h.push records before after group now).mark ≠ m := by
  by_cases hne : records = []
  · subst hne
    exact hopen hopen'
  rcases hj : h.topToJoin group now with _ | top
  · obtain ⟨hp, -, -⟩ := push_new before after hne hj
    rw [hp.mark, markAfter_concat]
    rintro rfl
    exact lt_irrefl _ (hold _ rfl)
  · obtain ⟨u, hu⟩ := topToJoin_some hj
    obtain ⟨hp, -⟩ := push_join before after hne hj hu
    have hmark := hopen (isOpen_of_topToJoin (by rw [hj]; simp))
    rw [UndoHistory.mark, hu, markAfter_concat] at hmark
    rw [hp.mark, markAfter_concat]
    exact hmark

theorem push_nextId (h : UndoHistory) (records : List AppliedEdit) (before after : CodeSelection)
    (group : EditGroup) (now : ℕ) : h.nextId ≤ (h.push records before after group now).nextId := by
  by_cases hne : records = []
  · subst hne
    exact le_rfl
  rcases hj : h.topToJoin group now with _ | top
  · rw [(push_new before after hne hj).2.1]
    exact Nat.le_succ _
  · obtain ⟨u, hu⟩ := topToJoin_some hj
    rw [(push_join before after hne hj hu).2]

/-! ### The invariant -/

/-- The marks that the view and a save in flight remember, with their texts. -/
structure Marks (T : HistoryMark → Str) (h : UndoHistory) (text : Str) (savedMark : HistoryMark)
    (saved : Str) (save : Option PendingSave) : Prop where
  marked : Marked T h text
  saved : T savedMark = saved
  savedOld : Old h.nextId savedMark
  saveText : ∀ p, save = some p → T p.mark = p.text
  saveOld : ∀ p, save = some p → Old h.nextId p.mark
  saveClosed : ∀ p, save = some p → h.isOpen = true → h.mark ≠ p.mark

/-- The revision counts the changes, and a reload whose count is current has the current text. -/
structure Clock (doc : CodeDocument) (clock : ℕ) (reloads : List Reload) : Prop where
  revision : doc.revision ≡ clock [MOD 2 ^ 64]
  reload : ∀ r ∈ reloads, r.diff.diskMeta.revision ≡ r.clock [MOD 2 ^ 64] ∧ r.clock ≤ clock ∧
    (r.clock = clock → r.diff.rope = doc.text)

structure Inv (e : Editor) : Prop where
  marks : ∃ T, Marks T e.view.history e.view.doc.text e.view.savedMark e.saved e.save
  clock : Clock e.view.doc e.clock e.reloads

theorem Clock.advance {doc doc' : CodeDocument} {clock n : ℕ} {reloads : List Reload}
    (h : Clock doc clock reloads) (hadv : Advanced doc doc' n) : Clock doc' (clock + n) reloads := by
  refine ⟨hadv.revision.trans (h.revision.add_right n), fun r hr => ?_⟩
  obtain ⟨hrev, hle, htext⟩ := h.reload r hr
  refine ⟨hrev, hle.trans (Nat.le_add_right _ _), fun heq => ?_⟩
  have hn : n = 0 := by omega
  rw [htext (by omega), hadv.still hn]

/-- Only the revision and the text of the document matter. -/
theorem Clock.congr {doc doc' : CodeDocument} {clock : ℕ} {reloads : List Reload}
    (h : Clock doc clock reloads) (hrev : doc'.revision = doc.revision) (ht : doc'.text = doc.text) :
    Clock doc' clock reloads := by
  refine ⟨hrev ▸ h.revision, fun r hr => ?_⟩
  rw [ht]
  exact h.reload r hr

theorem Clock.sub {doc : CodeDocument} {clock : ℕ} {reloads reloads' : List Reload}
    (h : Clock doc clock reloads) (hsub : ∀ r ∈ reloads', r ∈ reloads) : Clock doc clock reloads' :=
  ⟨h.revision, fun r hr => h.reload r (hsub r hr)⟩

/-- A reload taken from the current document. -/
theorem Clock.append {doc : CodeDocument} {clock : ℕ} {reloads : List Reload}
    (h : Clock doc clock reloads) {r : Reload} (hclock : r.clock = clock)
    (hrev : r.diff.diskMeta.revision = doc.revision) (hrope : r.diff.rope = doc.text) :
    Clock doc clock (reloads ++ [r]) := by
  refine ⟨h.revision, fun s hs => ?_⟩
  rcases List.mem_append.1 hs with hs | hs
  · exact h.reload s hs
  · rw [List.mem_singleton.1 hs, hrev, hclock]
    exact ⟨h.revision, le_rfl, fun _ => hrope⟩

section Marks
variable {T : HistoryMark → Str} {h : UndoHistory} {text : Str} {savedMark : HistoryMark} {saved : Str}
  {save : Option PendingSave}

/-- **Clean marks are clean texts.** -/
theorem Marks.clean (hm : Marks T h text savedMark saved save) (hmark : h.mark = savedMark) :
    text = saved := by
  rw [← hm.marked.mark, hmark, hm.saved]

theorem Marks.push (hm : Marks T h text savedMark saved save) {records : List AppliedEdit}
    {text' : Str} (hpath : Path Edits records text text') (before after : CodeSelection)
    (group : EditGroup) (now : ℕ)
    (hjoin : records ≠ [] → h.topToJoin group now ≠ none → h.mark ≠ savedMark) :
    ∃ T', Marks T' (h.push records before after group now) text' savedMark saved save := by
  obtain ⟨T', hmarked, hkeep⟩ := hm.marked.push hpath before after group now
  have hold : ∀ {m}, Old h.nextId m → Old (h.push records before after group now).nextId m :=
    fun hm id hid => (hm id hid).trans_le (push_nextId h records before after group now)
  refine ⟨T', hmarked, ?_, hold hm.savedOld, fun p hp => ?_, fun p hp => hold (hm.saveOld p hp),
    fun p hp => ?_⟩
  · rw [hkeep savedMark hm.savedOld hjoin, hm.saved]
  · rw [hkeep p.mark (hm.saveOld p hp) fun _ htop => ?_, hm.saveText p hp]
    -- a transaction that is joined is open, and the save closed its own
    exact hm.saveClosed p hp (isOpen_of_topToJoin htop)
  · exact push_mark_ne (hm.saveOld p hp) (hm.saveClosed p hp) records before after group now

/-- Undo, redo and closing the group move along the history and leave the group closed. -/
theorem Marks.move (hm : Marks T h text savedMark saved save) {h' : UndoHistory} {text' : Str}
    (htl : Timeline (EndsAt T) (Shows T) h' text') (hids : Ids h') (hnext : h'.nextId = h.nextId)
    (hopen : h'.isOpen = false) : Marks T h' text' savedMark saved save :=
  ⟨⟨htl, hids⟩, hm.saved, hnext ▸ hm.savedOld, hm.saveText, fun p hp => hnext ▸ hm.saveOld p hp,
    fun p hp ho => by simp [hopen] at ho⟩

theorem Marks.closeGroup (hm : Marks T h text savedMark saved save) :
    Marks T h.closeGroup text savedMark saved save :=
  hm.move ⟨hm.marked.timeline.past, hm.marked.timeline.future⟩ (hm.marked.ids.congr rfl rfl rfl) rfl
    rfl

theorem Marks.undo {doc : CodeDocument} (hm : Marks T h doc.text savedMark saved save)
    (hro : doc.readOnly = none) : ∃ h' doc' step, h.undoStep doc = (h', doc', step) ∧
      Advanced doc doc' ((step.map HistoryStep.edits).getD []).length ∧
      Marks T h' doc'.text savedMark saved save := by
  rcases timeline_undo hm.marked.timeline (fun _ _ _ ht => ht.2) hro with ⟨-, heq⟩ |
    ⟨u, t, x, h', doc', step, hu, -, heq, htext, hadv, hundo, hredo, hmark, hnext, hopen, htl⟩
  · exact ⟨_, _, _, heq, .refl doc, hm.closeGroup⟩
  · refine ⟨_, _, _, heq, hadv, ?_⟩
    rw [htext]
    exact hm.move htl (hm.marked.ids.congr (by simp [hundo, hredo, hu]) hnext hmark) hnext hopen

theorem Marks.redo {doc : CodeDocument} (hm : Marks T h doc.text savedMark saved save)
    (hro : doc.readOnly = none) : ∃ h' doc' step, h.redoStep doc = (h', doc', step) ∧
      Advanced doc doc' ((step.map HistoryStep.edits).getD []).length ∧
      Marks T h' doc'.text savedMark saved save := by
  rcases timeline_redo hm.marked.timeline (fun _ _ _ ht => ht.2) hro with ⟨-, heq⟩ |
    ⟨r, t, y, h', doc', step, hr, -, heq, htext, hadv, hundo, hredo, hmark, hnext, hopen, htl⟩
  · exact ⟨_, _, _, heq, .refl doc, hm.closeGroup⟩
  · refine ⟨_, _, _, heq, hadv, ?_⟩
    rw [htext]
    exact hm.move htl (hm.marked.ids.congr (by simp [hundo, hredo, hr]) hnext hmark) hnext hopen

/-- Adopting the current text: its mark becomes the saved one. -/
theorem Marks.adopt (hm : Marks T h text savedMark saved save) : Marks T h text h.mark text save :=
  ⟨hm.marked, hm.marked.mark, mark_old hm.marked.ids, hm.saveText, hm.saveOld, hm.saveClosed⟩

/-- A save starts: it remembers the current mark and text, and the group is closed. -/
theorem Marks.launch (hm : Marks T h text savedMark saved save) (contents : Str)
    (expected : Option FileStamp) :
    Marks T h.closeGroup text savedMark saved (some ⟨contents, expected, h.mark, text⟩) := by
  refine ⟨hm.closeGroup.marked, hm.saved, hm.savedOld, ?_, ?_, ?_⟩
  · rintro p ⟨⟩
    exact hm.marked.mark
  · rintro p ⟨⟩
    exact (mark_old hm.marked.ids : Old h.nextId h.mark)
  · rintro p ⟨⟩ hopen
    simp [UndoHistory.closeGroup] at hopen

/-- A save has finished: its mark and text are the saved ones. -/
theorem Marks.finish (hm : Marks T h text savedMark saved save) {p : PendingSave}
    (hp : save = some p) : Marks T h text p.mark p.text none :=
  ⟨hm.marked, hm.saveText p hp, hm.saveOld p hp, by simp, by simp, by simp⟩

/-- A save has failed. -/
theorem Marks.forget (hm : Marks T h text savedMark saved save) :
    Marks T h text savedMark saved none :=
  ⟨hm.marked, hm.saved, hm.savedOld, by simp, by simp, by simp⟩

end Marks

/-! ### The steps -/

/-- What starting a save does to a view: nothing that matters, or it closes the typing group and
remembers the current mark. -/
def Starts (view view' : CodeView) (start : Option SaveStart) : Prop :=
  view'.doc = view.doc ∧ view'.savedMark = view.savedMark ∧
    ((view'.history = view.history ∧ ∀ c x m, start ≠ some (.started c x m)) ∨
      (view'.history = view.history.closeGroup ∧
        ∃ c x, start = some (.started c x view.history.mark)))

theorem startSave_starts (view : CodeView) (defer : Bool) :
    Starts view (view.startSave defer).1 (some (view.startSave defer).2) := by
  unfold CodeView.startSave
  split_ifs
  · exact ⟨rfl, rfl, .inl ⟨rfl, by simp⟩⟩
  · exact ⟨rfl, rfl, .inl ⟨rfl, by simp⟩⟩
  · exact ⟨rfl, rfl, .inl ⟨rfl, by simp⟩⟩
  · exact ⟨rfl, rfl, .inl ⟨rfl, by simp⟩⟩
  · exact ⟨rfl, rfl, .inl ⟨rfl, by simp⟩⟩
  · exact ⟨rfl, rfl, .inl ⟨rfl, by simp⟩⟩
  · exact ⟨rfl, rfl, .inr ⟨rfl, _, _, rfl⟩⟩

theorem endDiskReload_starts (view : CodeView) :
    Starts view view.endDiskReload.1 view.endDiskReload.2 := by
  unfold CodeView.endDiskReload
  dsimp only
  split_ifs
  · exact startSave_starts { view with reloading := false, saveAfterReload := false } true
  · exact ⟨rfl, rfl, .inl ⟨rfl, by simp⟩⟩

theorem Inv.launch {e : Editor} (h : Inv e) {view : CodeView} {start : Option SaveStart}
    (hs : Starts e.view view start) : Inv ({ e with view := view }.launch start) := by
  obtain ⟨⟨T, hm⟩, hclock⟩ := h
  obtain ⟨hdoc, hmark, ⟨hh, hstart⟩ | ⟨hh, c, x, rfl⟩⟩ := hs
  · have hl : ({ e with view := view } : Editor).launch start = { e with view := view } := by
      unfold Editor.launch
      split
      · exact absurd rfl (hstart _ _ _)
      · rfl
    rw [hl]
    exact ⟨⟨T, by rw [hh, hdoc, hmark]; exact hm⟩, by rw [hdoc]; exact hclock⟩
  · refine ⟨⟨T, ?_⟩, hclock.congr (congrArg _ hdoc) (congrArg _ hdoc)⟩
    show Marks T view.history view.doc.text view.savedMark e.saved
      (some ⟨c, x, e.view.history.mark, view.doc.text⟩)
    rw [hh, hdoc, hmark]
    exact hm.launch c x

/-- `splice_all` of stable splices in a document that can be edited. -/
theorem Marks.spliceAll {T : HistoryMark → Str} {view : CodeView} {savedMark : HistoryMark}
    {saved : Str} {save : Option PendingSave}
    (hm : Marks T view.history view.doc.text savedMark saved save) (hro : view.doc.readOnly = none)
    {ops : List SpliceOp} (hs : StableAll view.doc ops) (before after : CodeSelection)
    (group : EditGroup) (now : ℕ)
    (hjoin : (spliceAll view.doc ops).2.1 ≠ [] → view.history.topToJoin group now ≠ none →
      view.history.mark ≠ savedMark) :
    ∃ h' ok changes T', view.spliceAll ops before after group now =
        ({ view with doc := (spliceAll view.doc ops).1, history := h' }, ok, changes) ∧
      Advanced view.doc (spliceAll view.doc ops).1 changes.length ∧
      Marks T' h' (spliceAll view.doc ops).1.text savedMark saved save := by
  obtain ⟨doc', records, changes, heq, hpath, hadv⟩ := spliceAll_path hro hs
  rw [heq] at hjoin
  obtain ⟨T', hm'⟩ := hm.push hpath before after group now hjoin
  refine ⟨_, !records.isEmpty, changes, T', ?_, by rw [heq]; exact hadv, by rw [heq]; exact hm'⟩
  unfold CodeView.spliceAll
  rw [if_neg (by simp [CodeDocument.isReadOnly, hro]), heq]
  cases records with
  | nil => rfl
  | cons r rs => rfl

theorem Inv.edit {e : Editor} (h : Inv e) {ops : List SpliceOp} {before after : CodeSelection}
    {group : EditGroup} {now : ℕ} {histogram : Histogram}
    (hs : Safe histogram e (.edit ops before after group now)) :
    Inv (e.edit ops before after group now) := by
  obtain ⟨⟨T, hm⟩, hclock⟩ := h
  unfold Editor.edit
  by_cases hro : e.view.doc.readOnly = none
  · obtain ⟨hst, hjoin⟩ := hs hro
    obtain ⟨h', ok, changes, T', heq, hadv, hm'⟩ := hm.spliceAll hro hst before after group now hjoin
    rw [heq]
    exact ⟨⟨T', hm'⟩, hclock.advance hadv⟩
  · unfold CodeView.spliceAll
    rw [if_pos (by simpa [CodeDocument.isReadOnly, Option.isSome_iff_ne_none] using hro)]
    exact ⟨⟨T, hm⟩, hclock⟩

theorem Inv.travel {e : Editor} (h : Inv e) (redo : Bool) : Inv (e.travel redo) := by
  obtain ⟨⟨T, hm⟩, hclock⟩ := h
  unfold Editor.travel CodeView.timeTravel
  by_cases hro : e.view.doc.readOnly = none
  · rw [if_neg (by simp [CodeDocument.isReadOnly, hro])]
    cases redo with
    | false =>
      obtain ⟨h', doc', step, heq, hadv, hm'⟩ := hm.undo hro
      simp only [Bool.false_eq_true, if_false, heq]
      exact ⟨⟨T, hm'⟩, hclock.advance hadv⟩
    | true =>
      obtain ⟨h', doc', step, heq, hadv, hm'⟩ := hm.redo hro
      simp only [if_true, heq]
      exact ⟨⟨T, hm'⟩, hclock.advance hadv⟩
  · rw [if_pos (by simpa [CodeDocument.isReadOnly, Option.isSome_iff_ne_none] using hro)]
    exact ⟨⟨T, hm⟩, hclock⟩

theorem Inv.finishSave {e e' : Editor} (h : Inv e) {outcome : SaveOutcome}
    (he : e.finishSave outcome = some e') : Inv e' := by
  obtain ⟨⟨T, hm⟩, hclock⟩ := h
  unfold Editor.finishSave at he
  rcases hp : e.save with _ | p
  · simp [hp] at he
  · simp only [hp, Option.bind_eq_bind, Option.bind_some, Option.pure_def, Option.some.injEq] at he
    subst he
    cases outcome with
    | ok stamp => exact ⟨⟨T, hm.finish hp⟩, hclock⟩
    | write message => exact ⟨⟨T, hm.forget⟩, hclock⟩
    | changedOnDisk observed => exact ⟨⟨T, hm.forget⟩, hclock⟩

/-- Beginning a reload keeps the document, the history and the saved mark, and takes its rope from the
current document. -/
theorem beginDiskReload_spec (view : CodeView) (stamp : Option FileStamp) (present force : Bool) :
    (view.beginDiskReload stamp present force).1.doc = view.doc ∧
    (view.beginDiskReload stamp present force).1.history = view.history ∧
    (view.beginDiskReload stamp present force).1.savedMark = view.savedMark ∧
    ∀ diff, (view.beginDiskReload stamp present force).2 = some diff →
      diff.rope = view.doc.text ∧ diff.diskMeta.revision = view.doc.revision := by
  unfold CodeView.beginDiskReload
  split
  · exact ⟨rfl, rfl, rfl, by simp⟩
  · dsimp only
    split_ifs
    · exact ⟨rfl, rfl, rfl, by simp⟩
    · exact ⟨rfl, rfl, rfl, by simp⟩
    · exact ⟨rfl, rfl, rfl, by simp⟩
    · refine ⟨rfl, rfl, rfl, ?_⟩
      rintro diff ⟨⟩
      exact ⟨rfl, rfl⟩

theorem Inv.beginReload {e : Editor} (h : Inv e) (stamp : Option FileStamp) (present force : Bool)
    (incoming : Str) (facts : DiskFacts) :
    Inv (e.beginReload stamp present force incoming facts) := by
  obtain ⟨⟨T, hm⟩, hclock⟩ := h
  obtain ⟨hdoc, hh, hmark, hdiff⟩ := beginDiskReload_spec e.view stamp present force
  unfold Editor.beginReload
  generalize e.view.beginDiskReload stamp present force = begun at hdoc hh hmark hdiff ⊢
  obtain ⟨view, diff⟩ := begun
  dsimp only at hdoc hh hmark hdiff ⊢
  refine ⟨⟨T, by dsimp only; rw [hdoc, hh, hmark]; exact hm⟩, ?_⟩
  dsimp only
  rw [hdoc]
  cases diff with
  | none => simpa using hclock
  | some diff =>
    obtain ⟨hrope, hrev⟩ := hdiff diff rfl
    exact hclock.append rfl hrev hrope

/-! ### Finishing a reload -/

/-- Disk splices are one transaction of their own. -/
theorem topToJoin_atomic (h : UndoHistory) (now : ℕ) : h.topToJoin .atomic now = none := by
  unfold UndoHistory.topToJoin UndoHistory.joinable
  simp

theorem Marks.applyDiskSplices {T : HistoryMark → Str} {view : CodeView} {savedMark : HistoryMark}
    {saved : Str} {save : Option PendingSave}
    (hm : Marks T view.history view.doc.text savedMark saved save) {ops : List SpliceOp}
    (hs : StableAll { view.doc with readOnly := none } ops) (before after : CodeSelection)
    (now : ℕ) :
    ∃ h' doc' changes T', view.applyDiskSplices ops before after now =
        ({ view with doc := doc', history := h' }, changes) ∧
      Advanced view.doc doc' changes.length ∧
      doc'.text = (UndoRun.spliceAll { view.doc with readOnly := none } ops).1.text ∧
      Marks T' h' doc'.text savedMark saved save := by
  unfold CodeView.applyDiskSplices
  by_cases hops : ops = []
  · subst hops
    exact ⟨_, _, _, T, rfl, .refl view.doc, rfl, hm⟩
  · let writable : CodeView := { view with doc := { view.doc with readOnly := none } }
    have hmw : Marks T writable.history writable.doc.text savedMark saved save := hm
    obtain ⟨h', ok, changes, T', heq, hadv, hm'⟩ := hmw.spliceAll rfl hs before after .atomic now
      fun _ hj => absurd (topToJoin_atomic _ _) hj
    rw [if_neg (by simpa using hops)]
    dsimp only
    rw [heq]
    exact ⟨_, _, _, T', rfl, ⟨hadv.revision, rfl, hadv.still⟩, rfl, hm'⟩

/-- Revisions that agree belong to the same count of changes, within one turn of the counter. -/
theorem Clock.current {doc : CodeDocument} {clock : ℕ} {reloads : List Reload}
    (h : Clock doc clock reloads) {r : Reload} (hr : r ∈ reloads)
    (hrev : doc.revision = r.diff.diskMeta.revision) (hturn : clock < r.clock + 2 ^ 64) :
    r.diff.rope = doc.text := by
  obtain ⟨hmod, hle, htext⟩ := h.reload r hr
  refine htext ?_
  have heq : clock ≡ r.clock [MOD 2 ^ 64] := (h.revision.symm.trans (hrev ▸ Nat.ModEq.refl _)).trans hmod
  have hdvd : 2 ^ 64 ∣ clock - r.clock := (Nat.modEq_iff_dvd' hle).1 heq.symm
  have := Nat.eq_zero_of_dvd_of_lt hdvd (by omega)
  omega

/-- A reload that is not adopted: it is tried again with the current text, or it ends in a conflict. -/
theorem Inv.rejectReload {e : Editor} (h : Inv e) {r : Reload} {rest : List Reload}
    (hrest : ∀ s ∈ rest, s ∈ e.reloads) (splices : List SpliceOp) (before after : CodeSelection)
    (now : ℕ) (hadopt : e.view.adopts r.diff.diskMeta r.force = false) :
    Inv (e.finishDiff r rest splices before after now) := by
  have hclock := h.clock.sub hrest
  have hconflict : Inv ({ e with view := { e.view with disk := .conflict }.endDiskReload.1, reloads := rest }.launch
      { e.view with disk := .conflict }.endDiskReload.2) :=
    Inv.launch (e := { e with view := { e.view with disk := .conflict }, reloads := rest })
      ⟨h.marks, hclock⟩ (endDiskReload_starts _)
  unfold Editor.finishDiff CodeView.finishDiskReload
  dsimp only
  have hkept : ¬ e.view.adopts ⟨r.diff.diskMeta.revision, r.diff.diskMeta.stamp, some r.facts⟩
      r.force = true := by
    rw [Bool.not_eq_true]
    exact hadopt
  rw [if_neg hkept]
  by_cases hrev : e.view.doc.revision = r.diff.diskMeta.revision
  · have hdirty : r.force = false ∧ e.view.isDirty = true := by
      simpa [CodeView.adopts, hrev] using hadopt
    rw [if_neg (by simpa using hrev), if_pos hdirty]
    simpa using hconflict
  · rw [if_pos hrev]
    by_cases hretry : r.attempt + 1 < reloadDiffAttempts
    · rw [if_pos (by simpa using hretry)]
      exact ⟨h.marks, hclock.append rfl rfl rfl⟩
    · rw [if_neg (by simpa using hretry)]
      simpa using hconflict

/-- A reload that is adopted: the text becomes the incoming one, and its mark the saved one. -/
theorem Inv.adoptReload {histogram : Histogram} (hl : HistogramLaw histogram) {e : Editor} (h : Inv e)
    {r : Reload} (hr : r ∈ e.reloads) {rest : List Reload} (hrest : ∀ s ∈ rest, s ∈ e.reloads)
    {splices : List SpliceOp} (hsplices : diskSplices histogram r.diff.rope r.incoming = some splices)
    (before after : CodeSelection) (now : ℕ)
    (hadopt : e.view.adopts r.diff.diskMeta r.force = true) (hturn : e.clock < r.clock + 2 ^ 64)
    (hfree : crlfFree (normalizeNewlines r.incoming) = true)
    (hst : StableAll { e.view.doc with readOnly := none } splices) :
    Inv (e.finishDiff r rest splices before after now) := by
  obtain ⟨⟨T, hm⟩, hclock⟩ := h
  obtain ⟨hrev, hkeep⟩ : e.view.doc.revision = r.diff.diskMeta.revision ∧
      (r.force = true ∨ e.view.isDirty = false) := by
    simpa [CodeView.adopts] using hadopt
  obtain ⟨h', doc', changes, T', heq, hadv, htext, hm'⟩ := hm.applyDiskSplices hst before after now
  -- the splices were computed from the current text
  obtain ⟨ops, hops, happly⟩ := spliceAll_diskSplices hl hfree
  obtain rfl : ops = splices := Option.some.inj (hops.symm.trans hsplices)
  have hnew := htext.trans (happly _ rfl (hclock.current hr hrev hturn).symm)
  have hclock' : Clock doc' (e.clock + changes.length) rest := (hclock.sub hrest).advance hadv
  unfold Editor.finishDiff CodeView.finishDiskReload
  dsimp only
  have hsaved : e.view.adopts ⟨r.diff.diskMeta.revision, r.diff.diskMeta.stamp, some r.facts⟩
      r.force = true := hadopt
  rw [if_neg (by simpa using hrev), if_neg (by rcases hkeep with hk | hk <;> simp [hk]), heq,
    if_pos hsaved]
  refine Inv.launch (e := ⟨_, e.save, rest ++ [], _, e.clock + changes.length⟩) ?_
    (endDiskReload_starts _)
  refine ⟨⟨T', ?_⟩, ?_⟩
  · rw [← hnew]
    exact hm'.adopt
  · rw [List.append_nil]
    exact hclock'.congr rfl rfl

theorem Inv.finishReload {histogram : Histogram} (hl : HistogramLaw histogram) {e e' : Editor}
    (h : Inv e) {index : ℕ} {before after : CodeSelection} {now : ℕ}
    (hs : Safe histogram e (.finishReload index before after now))
    (he : e.finishReload histogram index before after now = some e') : Inv e' := by
  unfold Editor.finishReload at he
  rcases hr : e.reloads[index]? with _ | r
  · simp [hr] at he
  rcases hsplices : diskSplices histogram r.diff.rope r.incoming with _ | splices
  · simp [hr, hsplices] at he
  simp only [hr, hsplices, Option.bind_eq_bind, Option.bind_some, Option.pure_def,
    Option.some.injEq] at he
  subst he
  have hrest : ∀ s ∈ e.reloads.eraseIdx index, s ∈ e.reloads := fun s => List.mem_of_mem_eraseIdx
  rcases hadopt : e.view.adopts r.diff.diskMeta r.force
  · exact h.rejectReload hrest splices before after now hadopt
  · obtain ⟨hturn, hfree, hst⟩ := hs r hr hadopt
    exact h.adoptReload hl (List.mem_of_getElem? hr) hrest hsplices before after now hadopt hturn
      hfree (hst splices hsplices)

/-! ### Whole runs -/

theorem inv_load (name : String) (raw : Str) (readOnly : Option ReadOnlyReason)
    (stamp : Option FileStamp) : Inv (.load name raw readOnly stamp) := by
  have hmarked : Marked (fun _ => (CodeDocument.new raw).text) .default (CodeDocument.new raw).text :=
    ⟨⟨⟨_, rfl, rfl⟩, _, rfl⟩, ids_default⟩
  have hbase : Old UndoHistory.default.nextId .baseline := by
    rintro id ⟨⟩
  refine ⟨⟨_, hmarked, rfl, hbase, ?_, ?_, ?_⟩, Nat.ModEq.refl _, ?_⟩
  · rintro p ⟨⟩
  · rintro p ⟨⟩
  · rintro p ⟨⟩
  · rintro r ⟨⟩

theorem Inv.step {histogram : Histogram} (hl : HistogramLaw histogram) {e e' : Editor} (h : Inv e)
    {op : Op} (hs : Safe histogram e op) (he : e.step histogram op = some e') : Inv e' := by
  cases op with
  | edit ops before after group now =>
    cases he
    exact h.edit hs
  | undo =>
    cases he
    exact h.travel false
  | redo =>
    cases he
    exact h.travel true
  | endTypingGroup =>
    cases he
    obtain ⟨⟨T, hm⟩, hclock⟩ := h
    exact ⟨⟨T, hm.closeGroup⟩, hclock⟩
  | startSave defer =>
    cases he
    exact h.launch (startSave_starts e.view defer)
  | finishSave outcome => exact h.finishSave he
  | beginReload stamp present force incoming facts =>
    cases he
    exact h.beginReload stamp present force incoming facts
  | finishReload index before after now => exact h.finishReload hl hs he
  | resolveKeepMine =>
    cases he
    exact ⟨h.marks, h.clock⟩

theorem Reach.inv {histogram : Histogram} (hl : HistogramLaw histogram) {e : Editor}
    (h : Reach histogram (Safe histogram) e) : Inv e := by
  induction h with
  | load name raw readOnly stamp => exact inv_load name raw readOnly stamp
  | step op _ hs he ih => exact ih.step hl hs he

/-- **Clean means saved**: in every run of safe steps, a view that is not dirty holds the text last
saved to disk or adopted from it. -/
theorem reach_clean {histogram : Histogram} (hl : HistogramLaw histogram) {e : Editor}
    (h : Reach histogram (Safe histogram) e) : Clean e := by
  intro hdirty
  obtain ⟨T, hm⟩ := (h.inv hl).marks
  refine hm.clean ?_
  simpa [CodeView.isDirty] using hdirty

/-- A file that is changed from outside while its view is clean. -/
theorem reach_clean_reload : ∃ e : Editor, e.view.isDirty = false ∧ e.view.doc.text = ['a', 'b'] ∧
    Reach replaceAll (Safe replaceAll) e ∧ Clean e := by
  have hload : Reach replaceAll (Safe replaceAll) (.load "a.txt" ['a'] none (some ⟨none, 1⟩)) :=
    .load _ _ _ _
  have hbegin := hload.step (.beginReload (some ⟨none, 2⟩) true false ['a', 'b'] ⟨none, .lf⟩)
    trivial rfl
  have hfinish := hbegin.step (.finishReload 0 ⟨0, 0⟩ ⟨0, 0⟩ 0) ?_ rfl
  · exact ⟨_, by decide, by decide, hfinish, reach_clean histogramLaw_replaceAll hfinish⟩
  · rintro r ⟨⟩ -
    refine ⟨by decide, by decide, ?_⟩
    rintro ops hops
    obtain rfl : [⟨0, 1, ['a', 'b']⟩] = ops := Option.some.inj hops
    exact ⟨by decide, trivial⟩

/-- A view that is not dirty does not hold the text last saved or adopted in every run: the reload of
a text that equals the typed one marks it as saved, and further typing joins its transaction. -/
theorem not_reach_clean : ¬ ∀ e, Reach replaceAll (fun _ _ => True) e → Clean e := by
  intro h
  have hload : Reach replaceAll (fun _ _ => True) (.load "a.txt" ['a'] none (some ⟨none, 1⟩)) :=
    .load _ _ _ _
  have htype := hload.step (.edit [⟨1, 1, ['b']⟩] ⟨1, 1⟩ ⟨2, 2⟩ .typing 0) trivial rfl
  have hbegin := htype.step (.beginReload (some ⟨none, 2⟩) true true ['a', 'b'] ⟨none, .lf⟩)
    trivial rfl
  have hfinish := hbegin.step (.finishReload 0 ⟨2, 2⟩ ⟨2, 2⟩ 0) trivial rfl
  have hjoin := hfinish.step (.edit [⟨2, 2, ['c']⟩] ⟨2, 2⟩ ⟨3, 3⟩ .typing 100) trivial rfl
  have hclean := h _ hjoin (by decide)
  revert hclean
  decide

end Paneflow.Code.EditorRun
