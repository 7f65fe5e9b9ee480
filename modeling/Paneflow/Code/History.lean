import Paneflow.Code.Edit

/-!
# The undo history

`UndoHistory` of code/edit.rs: transactions to undo and to redo, typing that joins the transaction on
top, eviction of the oldest transactions by number and by bytes, and the mark that names the state.

`Timeline` says that the transactions to undo lead from some base text to the text of the document and
those to redo lead on from there. Every operation keeps it (`timeline_push`, `timeline_undo`,
`timeline_redo`) whatever else the steps of the two paths are required to say.
-/

namespace Paneflow.Code.History

open Paneflow.Code.Document Paneflow.Code.Edit Paneflow.Trace Paneflow.Utf8

inductive EditGroup where
  | typing
  | atomic
  deriving DecidableEq, Repr

inductive HistoryMark where
  | baseline
  | transaction (id : ℕ)
  deriving DecidableEq, Repr

/-- `usize::saturating_add` -/
def saturatingAdd (a b : ℕ) : ℕ := min (a + b) (2 ^ 64 - 1)

/-- The bytes that records keep. -/
def recordBytes (edits : List AppliedEdit) : ℕ :=
  edits.foldl (fun total edit =>
    saturatingAdd total (saturatingAdd (size edit.removed) (size edit.inserted))) 0

structure Transaction where
  id : ℕ
  edits : List AppliedEdit
  before : CodeSelection
  after : CodeSelection
  deriving DecidableEq, Repr

def Transaction.bytes (t : Transaction) : ℕ := recordBytes t.edits

structure HistoryStep where
  edits : List DocChange
  selection : CodeSelection
  deriving DecidableEq, Repr

/-- The oldest transaction to undo comes first, the next one to redo last. -/
structure UndoHistory where
  undo : List Transaction
  redo : List Transaction
  undoBytes : ℕ
  redoBytes : ℕ
  baseMark : HistoryMark
  nextId : ℕ
  isOpen : Bool
  lastEditAt : Option ℕ
  maxBytes : ℕ
  deriving DecidableEq, Repr

def UndoHistory.default : UndoHistory :=
  ⟨[], [], 0, 0, .baseline, 0, false, none, maxUndoBytes⟩

/-- The loop of `trim_undo` over the transactions to undo and what it changes with them. -/
def trimLoop (maxBytes : ℕ) : List Transaction → ℕ → HistoryMark → List Transaction × ℕ × HistoryMark
  | [], undoBytes, baseMark => ([], undoBytes, baseMark)
  | t :: ts, undoBytes, baseMark =>
    if (t :: ts).length > maxUndoTransactions ∨ (undoBytes > maxBytes ∧ (t :: ts).length > 1) then
      trimLoop maxBytes ts (undoBytes - t.bytes) (.transaction t.id)
    else (t :: ts, undoBytes, baseMark)

def UndoHistory.trimUndo (h : UndoHistory) : UndoHistory :=
  let (undo, undoBytes, baseMark) := trimLoop h.maxBytes h.undo h.undoBytes h.baseMark
  { h with undo := undo, undoBytes := undoBytes, baseMark := baseMark }

/-- Typing joins the open transaction while the pause is short. -/
def UndoHistory.joinable (h : UndoHistory) (group : EditGroup) (now : ℕ) : Bool :=
  group = .typing && h.isOpen && h.lastEditAt.any fun last => now - last ≤ undoGroupInterval

/-- The transaction on top with further edits. -/
def Transaction.extend (top : Transaction) (edits : List AppliedEdit) (after : CodeSelection) :
    Transaction :=
  { top with edits := top.edits ++ edits, after := after }

/-- The transaction that further edits join. -/
def UndoHistory.topToJoin (h : UndoHistory) (group : EditGroup) (now : ℕ) : Option Transaction :=
  if h.joinable group now then h.undo.getLast? else none

def UndoHistory.joinTop (h : UndoHistory) (top : Transaction) (edits : List AppliedEdit)
    (after : CodeSelection) (now : ℕ) : UndoHistory :=
  let h := { h with
    undo := h.undo.dropLast ++ [top.extend edits after]
    undoBytes := saturatingAdd h.undoBytes (recordBytes edits) }
  { h.trimUndo with lastEditAt := some now }

def UndoHistory.startTransaction (h : UndoHistory) (edits : List AppliedEdit)
    (before after : CodeSelection) (group : EditGroup) (now : ℕ) : UndoHistory :=
  let transaction : Transaction := ⟨h.nextId, edits, before, after⟩
  let h := { h with
    nextId := h.nextId + 1
    undoBytes := saturatingAdd h.undoBytes transaction.bytes
    undo := h.undo ++ [transaction] }
  { h.trimUndo with isOpen := group = .typing, lastEditAt := some now }

def UndoHistory.push (h : UndoHistory) (edits : List AppliedEdit) (before after : CodeSelection)
    (group : EditGroup) (now : ℕ) : UndoHistory :=
  if edits.isEmpty then h
  else
    let h := { h with redo := [], redoBytes := 0 }
    match h.topToJoin group now with
    | some top => h.joinTop top edits after now
    | none => h.startTransaction edits before after group now

def UndoHistory.closeGroup (h : UndoHistory) : UndoHistory := { h with isOpen := false }

/-- Applies records one after the other. -/
def replay (apply : CodeDocument → AppliedEdit → CodeDocument × List DocChange)
    (doc : CodeDocument) (records : List AppliedEdit) : CodeDocument × List DocChange :=
  records.foldl (fun (s : CodeDocument × List DocChange) record =>
    let (doc, changes) := apply s.1 record
    (doc, s.2 ++ changes)) (doc, [])

def UndoHistory.undoStep (h : UndoHistory) (doc : CodeDocument) :
    UndoHistory × CodeDocument × Option HistoryStep :=
  let h := { h with isOpen := false }
  match h.undo.getLast? with
  | none => (h, doc, none)
  | some transaction =>
    let bytes := transaction.bytes
    let (doc, edits) := replay applyReverse doc transaction.edits.reverse
    ({ h with
        undo := h.undo.dropLast
        undoBytes := h.undoBytes - bytes
        redo := h.redo ++ [transaction]
        redoBytes := saturatingAdd h.redoBytes bytes }, doc, some ⟨edits, transaction.before⟩)

def UndoHistory.redoStep (h : UndoHistory) (doc : CodeDocument) :
    UndoHistory × CodeDocument × Option HistoryStep :=
  let h := { h with isOpen := false }
  match h.redo.getLast? with
  | none => (h, doc, none)
  | some transaction =>
    let bytes := transaction.bytes
    let (doc, edits) := replay applyForward doc transaction.edits
    ({ h with
        redo := h.redo.dropLast
        redoBytes := h.redoBytes - bytes
        undo := h.undo ++ [transaction]
        undoBytes := saturatingAdd h.undoBytes bytes }, doc, some ⟨edits, transaction.after⟩)

/-- The mark after transactions that start from a mark. -/
def markAfter (base : HistoryMark) (ts : List Transaction) : HistoryMark :=
  match ts.getLast? with
  | some transaction => .transaction transaction.id
  | none => base

def UndoHistory.mark (h : UndoHistory) : HistoryMark := markAfter h.baseMark h.undo

/-! ### Following a transaction -/

/-- The edits of a transaction lead from `x` to `y`. -/
def Leads (t : Transaction) (x y : Str) : Prop := Path Edits t.edits x y

/-- Replaying records along a path of texts, when each application follows its step. -/
theorem replay_path (apply : CodeDocument → AppliedEdit → CodeDocument × List DocChange)
    (step : AppliedEdit → Str → Str → Prop)
    (happly : ∀ (doc : CodeDocument) (record : AppliedEdit) (x y : Str), doc.readOnly = none →
      step record x y → doc.text = x → ∃ doc' changes, apply doc record = (doc', changes) ∧
        doc'.text = y ∧ Advanced doc doc' changes.length)
    {records : List AppliedEdit} {x y : Str} (h : Path step records x y) {doc : CodeDocument}
    (hro : doc.readOnly = none) (hx : doc.text = x) :
    ∃ doc' changes, replay apply doc records = (doc', changes) ∧ doc'.text = y ∧
      Advanced doc doc' changes.length := by
  have hstep : ∀ (s : CodeDocument × List DocChange) (record : AppliedEdit) (x y : Str),
      step record x y → Advanced doc s.1 s.2.length → s.1.text = x →
      Advanced doc (apply s.1 record).1 (s.2 ++ (apply s.1 record).2).length ∧
        (apply s.1 record).1.text = y := by
    intro s record x y hrec hadv hs
    obtain ⟨doc', changes, heq, ht, hadv'⟩ := happly s.1 record x y (hadv.readOnly.trans hro) hrec hs
    rw [heq, List.length_append]
    exact ⟨hadv.trans hadv', ht⟩
  obtain ⟨hadv, ht⟩ := h.replay (fun s : CodeDocument × List DocChange =>
    Advanced doc s.1 s.2.length) (fun s => s.1.text)
    (f := fun s record => ((apply s.1 record).1, s.2 ++ (apply s.1 record).2)) hstep
    (d := (doc, [])) (.refl doc) hx
  exact ⟨_, _, rfl, ht, hadv⟩

theorem replay_forward {t : Transaction} {x y : Str} (h : Leads t x y) {doc : CodeDocument}
    (hro : doc.readOnly = none) (hx : doc.text = x) :
    ∃ doc' changes, replay applyForward doc t.edits = (doc', changes) ∧ doc'.text = y ∧
      Advanced doc doc' changes.length :=
  replay_path applyForward Edits (fun _ _ _ _ hro hrec hx => applyForward_edits hro hrec hx) h hro hx

theorem replay_reverse {t : Transaction} {x y : Str} (h : Leads t x y) {doc : CodeDocument}
    (hro : doc.readOnly = none) (hy : doc.text = y) :
    ∃ doc' changes, replay applyReverse doc t.edits.reverse = (doc', changes) ∧ doc'.text = x ∧
      Advanced doc doc' changes.length :=
  replay_path applyReverse (fun record x y => Edits record y x)
    (fun _ _ _ _ hro hrec hy => applyReverse_edits hro hrec hy) h.reverse hro hy

/-- **One undo** of the transaction on top. -/
theorem undoStep_eq {h : UndoHistory} {doc : CodeDocument} {u : List Transaction} {t : Transaction}
    {x : Str} (hu : h.undo = u ++ [t]) (ht : Leads t x doc.text) (hro : doc.readOnly = none) :
    ∃ h' doc' step, h.undoStep doc = (h', doc', some step) ∧ doc'.text = x ∧
      Advanced doc doc' step.edits.length ∧ h'.undo = u ∧ h'.redo = h.redo ++ [t] ∧
      h'.baseMark = h.baseMark ∧ h'.nextId = h.nextId ∧ h'.isOpen = false := by
  obtain ⟨doc', changes, heq, ht', hadv⟩ := replay_reverse ht hro rfl
  unfold UndoHistory.undoStep
  simp only [hu, List.getLast?_concat, heq, List.dropLast_concat]
  exact ⟨_, _, _, rfl, ht', hadv, rfl, rfl, rfl, rfl, rfl⟩

/-- **One redo** of the transaction undone last. -/
theorem redoStep_eq {h : UndoHistory} {doc : CodeDocument} {r : List Transaction} {t : Transaction}
    {y : Str} (hr : h.redo = r ++ [t]) (ht : Leads t doc.text y) (hro : doc.readOnly = none) :
    ∃ h' doc' step, h.redoStep doc = (h', doc', some step) ∧ doc'.text = y ∧
      Advanced doc doc' step.edits.length ∧ h'.undo = h.undo ++ [t] ∧ h'.redo = r ∧
      h'.baseMark = h.baseMark ∧ h'.nextId = h.nextId ∧ h'.isOpen = false := by
  obtain ⟨doc', changes, heq, ht', hadv⟩ := replay_forward ht hro rfl
  unfold UndoHistory.redoStep
  simp only [hr, List.getLast?_concat, heq, List.dropLast_concat]
  exact ⟨_, _, _, rfl, ht', hadv, rfl, rfl, rfl, rfl, rfl⟩

/-! ### Pushing a transaction -/

@[simp]
theorem markAfter_nil (base : HistoryMark) : markAfter base [] = base := rfl

@[simp]
theorem markAfter_concat (base : HistoryMark) (ts : List Transaction) (t : Transaction) :
    markAfter base (ts ++ [t]) = .transaction t.id := by
  simp [markAfter]

theorem markAfter_append (base : HistoryMark) (as bs : List Transaction) :
    markAfter base (as ++ bs) = markAfter (markAfter base as) bs := by
  rcases List.eq_nil_or_concat bs with rfl | ⟨bs, t, rfl⟩
  · simp
  · rw [List.concat_eq_append, ← List.append_assoc, markAfter_concat, markAfter_concat]

/-- Eviction drops the oldest transactions, never the last one, and moves the base mark along. -/
theorem trimLoop_spec (maxBytes : ℕ) (ts : List Transaction) (hne : ts ≠ []) (undoBytes : ℕ)
    (base : HistoryMark) : ∃ dropped kept bytes,
      trimLoop maxBytes ts undoBytes base = (kept, bytes, markAfter base dropped) ∧
      ts = dropped ++ kept ∧ kept ≠ [] := by
  induction ts generalizing undoBytes base with
  | nil => exact absurd rfl hne
  | cons t ts ih =>
    unfold trimLoop
    split_ifs with h
    · have hts : ts ≠ [] := by
        rintro rfl
        simp [maxUndoTransactions] at h
      obtain ⟨dropped, kept, bytes, heq, rfl, hkept⟩ :=
        ih hts (undoBytes - t.bytes) (.transaction t.id)
      refine ⟨t :: dropped, kept, bytes, ?_, rfl, hkept⟩
      rw [heq, ← List.singleton_append, markAfter_append]
      rfl
    · exact ⟨[], t :: ts, undoBytes, rfl, rfl, by simp⟩

/-- A history after a push: what is left of the transactions `ts`, and nothing to redo. -/
structure Pushed (h h' : UndoHistory) (ts : List Transaction) : Prop where
  kept : ∃ dropped, ts = dropped ++ h'.undo ∧ h'.undo ≠ [] ∧
    h'.baseMark = markAfter h.baseMark dropped
  redo : h'.redo = []

theorem Pushed.mark {h h' : UndoHistory} {ts : List Transaction} (hp : Pushed h h' ts) :
    h'.mark = markAfter h.baseMark ts := by
  obtain ⟨dropped, hts, -, hbase⟩ := hp.kept
  rw [UndoHistory.mark, hbase, hts, markAfter_append]

/-- A push that joins the transaction on top. -/
theorem push_join {h : UndoHistory} {edits : List AppliedEdit} (before after : CodeSelection)
    {group : EditGroup} {now : ℕ} {u : List Transaction} {top : Transaction} (hne : edits ≠ [])
    (hj : h.topToJoin group now = some top) (hu : h.undo = u ++ [top]) :
    Pushed h (h.push edits before after group now) (u ++ [top.extend edits after]) ∧
      (h.push edits before after group now).nextId = h.nextId := by
  have hj' : ({ h with redo := [], redoBytes := 0 } : UndoHistory).topToJoin group now = some top := hj
  obtain ⟨dropped, kept, bytes, heq, hts, hkept⟩ := trimLoop_spec h.maxBytes
    (u ++ [top.extend edits after]) (by simp) (saturatingAdd h.undoBytes (recordBytes edits))
    h.baseMark
  unfold UndoHistory.push
  rw [if_neg (by simpa using hne)]
  dsimp only
  rw [hj']
  simp only [UndoHistory.joinTop, hu, List.dropLast_concat, UndoHistory.trimUndo, heq, and_true]
  exact ⟨⟨dropped, hts, hkept, rfl⟩, rfl⟩

/-- A push that starts a transaction. -/
theorem push_new {h : UndoHistory} {edits : List AppliedEdit} (before after : CodeSelection)
    {group : EditGroup} {now : ℕ} (hne : edits ≠ []) (hj : h.topToJoin group now = none) :
    Pushed h (h.push edits before after group now) (h.undo ++ [⟨h.nextId, edits, before, after⟩]) ∧
      (h.push edits before after group now).nextId = h.nextId + 1 ∧
      (h.push edits before after group now).isOpen = decide (group = .typing) := by
  have hj' : ({ h with redo := [], redoBytes := 0 } : UndoHistory).topToJoin group now = none := hj
  obtain ⟨dropped, kept, bytes, heq, hts, hkept⟩ := trimLoop_spec h.maxBytes
    (h.undo ++ [⟨h.nextId, edits, before, after⟩]) (by simp)
    (saturatingAdd h.undoBytes (recordBytes edits)) h.baseMark
  unfold UndoHistory.push
  rw [if_neg (by simpa using hne)]
  dsimp only
  rw [hj']
  simp only [UndoHistory.startTransaction, UndoHistory.trimUndo, Transaction.bytes, heq, and_true]
  exact ⟨⟨dropped, hts, hkept, rfl⟩, rfl⟩

theorem topToJoin_some {h : UndoHistory} {group : EditGroup} {now : ℕ} {top : Transaction}
    (hj : h.topToJoin group now = some top) : ∃ u, h.undo = u ++ [top] := by
  unfold UndoHistory.topToJoin at hj
  split_ifs at hj
  exact List.getLast?_eq_some_iff.1 hj

/-- Only an open transaction is joined. -/
theorem isOpen_of_topToJoin {h : UndoHistory} {group : EditGroup} {now : ℕ}
    (hj : h.topToJoin group now ≠ none) : h.isOpen = true := by
  unfold UndoHistory.topToJoin UndoHistory.joinable at hj
  split_ifs at hj with hjoin
  · simp only [Bool.and_eq_true] at hjoin
    exact hjoin.1.2
  · exact absurd rfl hj

theorem push_nil {h : UndoHistory} {before after : CodeSelection} {group : EditGroup} {now : ℕ} :
    h.push [] before after group now = h := rfl

/-! ### The order of ids -/

/-- A mark that names a transaction names one before `n`. -/
def Old (n : ℕ) (mark : HistoryMark) : Prop := ∀ id, mark = .transaction id → id < n

/-- The ids grow along the transactions to undo and on to redo, from the base mark to the next id. -/
structure Ids (h : UndoHistory) : Prop where
  sorted : (h.undo ++ h.redo.reverse).Pairwise fun s t => s.id < t.id
  below : ∀ t ∈ h.undo ++ h.redo.reverse, t.id < h.nextId
  old : Old h.nextId h.baseMark
  base : ∀ t ∈ h.undo ++ h.redo.reverse, Old t.id h.baseMark

theorem ids_default : Ids .default :=
  ⟨by simp [UndoHistory.default], by simp [UndoHistory.default], by simp [Old, UndoHistory.default],
    by simp [UndoHistory.default]⟩

/-- Moving the border between undo and redo changes no order. -/
theorem Ids.congr {h h' : UndoHistory} (hids : Ids h)
    (hl : h'.undo ++ h'.redo.reverse = h.undo ++ h.redo.reverse) (hn : h'.nextId = h.nextId)
    (hb : h'.baseMark = h.baseMark) : Ids h' := by
  obtain ⟨h1, h2, h3, h4⟩ := hids
  exact ⟨hl ▸ h1, hl ▸ hn ▸ h2, hn ▸ hb ▸ h3, hl ▸ hb ▸ h4⟩

theorem ids_of_pushed {h h' : UndoHistory} {ts : List Transaction} (hp : Pushed h h' ts)
    (hs : ts.Pairwise fun s t => s.id < t.id) (hb : ∀ t ∈ ts, t.id < h'.nextId)
    (hold : Old h'.nextId h.baseMark) (hbase : ∀ t ∈ ts, Old t.id h.baseMark) : Ids h' := by
  obtain ⟨dropped, rfl, -, hmark⟩ := hp.kept
  have hl : h'.undo ++ h'.redo.reverse = h'.undo := by rw [hp.redo]; simp
  rw [List.pairwise_append] at hs
  have hmarks : ∀ n, Old n h.baseMark → (∀ d ∈ dropped, d.id < n) → Old n h'.baseMark := by
    intro n hn hd
    rw [hmark]
    rcases List.eq_nil_or_concat dropped with rfl | ⟨ds, d, rfl⟩
    · exact hn
    · rw [List.concat_eq_append, markAfter_concat]
      rintro id ⟨⟩
      exact hd d (by simp)
  constructor
  · rw [hl]
    exact hs.2.1
  · rw [hl]
    exact fun t ht => hb t (by simp [ht])
  · exact hmarks _ hold fun d hd => hb d (by simp [hd])
  · rw [hl]
    exact fun t ht => hmarks _ (hbase t (by simp [ht])) fun d hd => hs.2.2 d hd t ht

theorem ids_push {h : UndoHistory} (hids : Ids h) (edits : List AppliedEdit)
    (before after : CodeSelection) (group : EditGroup) (now : ℕ) :
    Ids (h.push edits before after group now) := by
  obtain ⟨hs, hb, hold, hbase⟩ := hids
  have hsu := (List.pairwise_append.1 hs).1
  have hbu : ∀ t ∈ h.undo, t.id < h.nextId := fun t ht => hb t (by simp [ht])
  have hbaseu : ∀ t ∈ h.undo, Old t.id h.baseMark := fun t ht => hbase t (by simp [ht])
  by_cases hne : edits = []
  · subst hne
    exact ⟨hs, hb, hold, hbase⟩
  rcases hj : h.topToJoin group now with _ | top
  · obtain ⟨hp, hnext, -⟩ := push_new before after hne hj
    refine ids_of_pushed hp ?_ ?_ ?_ ?_
    · rw [List.pairwise_append]
      exact ⟨hsu, by simp, fun t ht u hu => by rw [List.mem_singleton.1 hu]; exact hbu t ht⟩
    · intro t ht
      rw [hnext]
      rcases List.mem_append.1 ht with ht | ht
      · exact (hbu t ht).trans (Nat.lt_succ_self _)
      · rw [List.mem_singleton.1 ht]
        exact Nat.lt_succ_self _
    · rw [hnext]
      exact fun id hid => (hold id hid).trans (Nat.lt_succ_self _)
    · intro t ht
      rcases List.mem_append.1 ht with ht | ht
      · exact hbaseu t ht
      · rw [List.mem_singleton.1 ht]
        exact hold
  · obtain ⟨u, hu⟩ := topToJoin_some hj
    obtain ⟨hp, hnext⟩ := push_join before after hne hj hu
    rw [hu] at hsu hbu hbaseu
    have hid : (u ++ [top.extend edits after]).map Transaction.id =
        (u ++ [top]).map Transaction.id := by simp [Transaction.extend]
    have hmem : ∀ {P : ℕ → Prop}, (∀ t ∈ u ++ [top], P t.id) →
        ∀ t ∈ u ++ [top.extend edits after], P t.id := by
      intro P hP t ht
      have ht' : t.id ∈ (u ++ [top]).map Transaction.id := hid ▸ List.mem_map_of_mem ht
      obtain ⟨t', ht', heq⟩ := List.mem_map.1 ht'
      exact heq ▸ hP t' ht'
    refine ids_of_pushed hp ?_ ?_ ?_ (hmem (P := fun n => Old n h.baseMark) hbaseu)
    · rw [← List.pairwise_map (f := Transaction.id) (R := (· < ·)), hid, List.pairwise_map]
      exact hsu
    · rw [hnext]
      exact hmem (P := fun n => n < h.nextId) hbu
    · rw [hnext]
      exact hold

/-! ### Timelines -/

section Timeline
variable {R : Transaction → Str → Str → Prop} {B : HistoryMark → Str → Prop}

/-- The transactions to undo lead from a base text to `text`, those to redo lead on from it. -/
structure Timeline (R : Transaction → Str → Str → Prop) (B : HistoryMark → Str → Prop)
    (h : UndoHistory) (text : Str) : Prop where
  past : ∃ base, B h.baseMark base ∧ Path R h.undo base text
  future : ∃ tip, Path R h.redo.reverse text tip

theorem Timeline.mono {R' : Transaction → Str → Str → Prop} {B' : HistoryMark → Str → Prop}
    {h : UndoHistory} {text : Str} (htl : Timeline R B h text)
    (hR : ∀ t ∈ h.undo ++ h.redo, ∀ x y, R t x y → R' t x y)
    (hB : ∀ x, B h.baseMark x → B' h.baseMark x) : Timeline R' B' h text := by
  obtain ⟨⟨base, hbase, hpast⟩, tip, hfut⟩ := htl
  refine ⟨⟨base, hB base hbase, ?_⟩, tip, ?_⟩
  · exact hpast.mono fun t ht => hR t (by simp [ht])
  · exact hfut.mono fun t ht => hR t (by simp at ht; simp [ht])

/-- The text after transactions belongs to the mark after them. -/
theorem mark_of_path {ts : List Transaction} {base : HistoryMark} {x y : Str} (hx : B base x)
    (h : Path R ts x y) (hB : ∀ t ∈ ts, ∀ x y, R t x y → B (.transaction t.id) y) :
    B (markAfter base ts) y := by
  rcases List.eq_nil_or_concat ts with rfl | ⟨ts, t, rfl⟩
  · exact (show x = y from h) ▸ hx
  · rw [List.concat_eq_append] at h hB ⊢
    obtain ⟨w, -, ht⟩ := path_concat.1 h
    rw [markAfter_concat]
    exact hB t (by simp) w y ht

/-- A push keeps a timeline when its transactions lead to the new text. -/
theorem timeline_of_pushed {h h' : UndoHistory} {ts : List Transaction} {base text : Str}
    (hp : Pushed h h' ts) (hbase : B h.baseMark base) (hpath : Path R ts base text)
    (hB : ∀ t ∈ ts, ∀ x y, R t x y → B (.transaction t.id) y) : Timeline R B h' text := by
  obtain ⟨dropped, rfl, -, hmark⟩ := hp.kept
  obtain ⟨mid, hd, hk⟩ := path_append.1 hpath
  refine ⟨⟨mid, ?_, hk⟩, text, by rw [hp.redo]; rfl⟩
  rw [hmark]
  exact mark_of_path hbase hd fun t ht => hB t (by simp [ht])

/-- Undo on a timeline: nothing to undo, or one transaction back along it. -/
theorem timeline_undo {h : UndoHistory} {doc : CodeDocument} (htl : Timeline R B h doc.text)
    (hR : ∀ t x y, R t x y → Leads t x y) (hro : doc.readOnly = none) :
    (h.undo = [] ∧ h.undoStep doc = ({ h with isOpen := false }, doc, none)) ∨
    ∃ u t x h' doc' step, h.undo = u ++ [t] ∧ R t x doc.text ∧
      h.undoStep doc = (h', doc', some step) ∧ doc'.text = x ∧
      Advanced doc doc' step.edits.length ∧ h'.undo = u ∧ h'.redo = h.redo ++ [t] ∧
      h'.baseMark = h.baseMark ∧ h'.nextId = h.nextId ∧ h'.isOpen = false ∧
      Timeline R B h' x := by
  rcases List.eq_nil_or_concat h.undo with hu | ⟨u, t, hu⟩
  · left
    exact ⟨hu, by simp [UndoHistory.undoStep, hu]⟩
  · right
    rw [List.concat_eq_append] at hu
    obtain ⟨⟨base, hbase, hpath⟩, tip, hfut⟩ := htl
    rw [hu] at hpath
    obtain ⟨x, hpast, ht⟩ := path_concat.1 hpath
    obtain ⟨h', doc', step, heq, htext, hadv, hundo, hredo, hmark, hnext, hopen⟩ :=
      undoStep_eq hu (hR _ _ _ ht) hro
    refine ⟨u, t, x, h', doc', step, hu, ht, heq, htext, hadv, hundo, hredo, hmark, hnext, hopen,
      ⟨base, hmark ▸ hbase, hundo ▸ hpast⟩, tip, ?_⟩
    rw [hredo, List.reverse_concat]
    exact ⟨_, ht, hfut⟩

/-- Redo on a timeline: nothing to redo, or one transaction forward along it. -/
theorem timeline_redo {h : UndoHistory} {doc : CodeDocument} (htl : Timeline R B h doc.text)
    (hR : ∀ t x y, R t x y → Leads t x y) (hro : doc.readOnly = none) :
    (h.redo = [] ∧ h.redoStep doc = ({ h with isOpen := false }, doc, none)) ∨
    ∃ r t y h' doc' step, h.redo = r ++ [t] ∧ R t doc.text y ∧
      h.redoStep doc = (h', doc', some step) ∧ doc'.text = y ∧
      Advanced doc doc' step.edits.length ∧ h'.undo = h.undo ++ [t] ∧ h'.redo = r ∧
      h'.baseMark = h.baseMark ∧ h'.nextId = h.nextId ∧ h'.isOpen = false ∧
      Timeline R B h' y := by
  rcases List.eq_nil_or_concat h.redo with hr | ⟨r, t, hr⟩
  · left
    exact ⟨hr, by simp [UndoHistory.redoStep, hr]⟩
  · right
    rw [List.concat_eq_append] at hr
    obtain ⟨⟨base, hbase, hpast⟩, tip, hfut⟩ := htl
    rw [hr, List.reverse_concat] at hfut
    obtain ⟨y, ht, hfut⟩ := hfut
    obtain ⟨h', doc', step, heq, htext, hadv, hundo, hredo, hmark, hnext, hopen⟩ :=
      redoStep_eq hr (hR _ _ _ ht) hro
    refine ⟨r, t, y, h', doc', step, hr, ht, heq, htext, hadv, hundo, hredo, hmark, hnext, hopen,
      ⟨base, hmark ▸ hbase, ?_⟩, tip, hredo ▸ hfut⟩
    rw [hundo]
    exact path_concat.2 ⟨_, hpast, ht⟩

end Timeline

end Paneflow.Code.History
