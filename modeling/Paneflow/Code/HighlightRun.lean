import Paneflow.Code.Highlight
import Paneflow.Transition

/-!
# The contract of the parser

What the parser is given, over the runs of the code view. The splices of a batch are ordered by their rows in the text
before the first of them; the edits they make are then in order too (`spliceLoop_descends`), so that the batch is taken.
A replay of several changes is not: each of them is recorded on the trees beside the text behind all of them
(`replaceUndone_breaks`).

`Good` is the invariant of the highlighter and `Ready` what is known of a parse that is to come back; `Moved` says what an
edit of the view does to both. `contract_holds` is the result over runs.
-/

namespace Paneflow.Code.HighlightRun

open Paneflow.Code.Document Paneflow.Code.Edit Paneflow.Code.History Paneflow.Code.UndoRun Paneflow.Code.Points
open Paneflow.Code.Highlight Paneflow.Trace Paneflow.Transition Paneflow.Utf8

/-! ### The edits of a batch -/

def SpliceOp.widen (op : SpliceOp) : SpliceOp := { op with stop := max op.stop op.start }

/-- The splices that remove or insert something, with every end behind the start. -/
def effective (ops : List SpliceOp) : List SpliceOp :=
  (ops.filter fun op => op.text ≠ [] ∨ op.start < op.stop).map SpliceOp.widen

theorem le_of_mem_effective {ops : List SpliceOp} {op : SpliceOp} (h : op ∈ effective ops) : op.start ≤ op.stop := by
  obtain ⟨op, -, rfl⟩ := List.mem_map.1 h
  exact Nat.le_max_right _ _

theorem descends_pairwise {doc : CodeDocument} {ops : List SpliceOp} (hle : ∀ op ∈ ops, op.start ≤ op.stop)
    (h : opsDescendByRow doc ops = true) :
    ops.Pairwise fun a b => byteToLine doc.text b.stop < byteToLine doc.text a.start := by
  induction ops with
  | nil => exact .nil
  | cons first ops ih =>
    rcases ops with _ | ⟨second, ops⟩
    · exact List.pairwise_singleton _ _
    · unfold opsDescendByRow CodeDocument.lenBytes at h
      rw [byteToLine_min, byteToLine_min, Bool.and_eq_true, decide_eq_true_eq] at h
      have hrest := ih (fun op hop => hle op (List.mem_cons_of_mem _ hop)) h.2
      refine List.pairwise_cons.2 ⟨fun op hop => ?_, hrest⟩
      rcases List.mem_cons.1 hop with rfl | hop
      · exact h.1
      · have hsecond : byteToLine doc.text second.start ≤ byteToLine doc.text second.stop :=
          byteToLine_mono _ (hle second (by simp))
        have hop := (List.pairwise_cons.1 hrest).1 op hop
        omega

theorem applies_rows {edit : CodeEdit} {x y : Str} (h : Applies edit x y) :
    (∀ byte ≤ edit.startByte, byteToLine y byte = byteToLine x byte) ∧
      edit.startPoint.row = byteToLine x edit.startByte ∧ edit.oldEndPoint.row = byteToLine x edit.oldEndByte := by
  obtain ⟨p, r, s, q, rfl, rfl, rfl⟩ := h
  refine ⟨fun byte hbyte => ?_, ?_, ?_⟩
  · rw [List.append_assoc, List.append_assoc, byteToLine_append p _ hbyte, byteToLine_append p _ hbyte]
  · exact byteToLine_min _ _
  · exact byteToLine_min _ _

/-- A byte on an earlier row stands before the boundary of the byte. -/
theorem lt_snapToBoundary {doc : CodeDocument} {a b : ℕ} (h : byteToLine doc.text a < byteToLine doc.text b) :
    a < doc.snapToBoundary b := by
  by_contra hle
  have hrow := byteToLine_mono doc.text (Nat.le_of_not_lt hle)
  rw [byteToLine_snapToBoundary] at hrow
  omega

theorem snapToBoundary_le (doc : CodeDocument) (byte : ℕ) : doc.snapToBoundary byte ≤ byte :=
  (charToByte_byteToChar_le _ _).trans (Nat.min_le_left _ _)

/-- A splice that neither removes nor inserts gives no edit. -/
theorem splice_nothing (doc : CodeDocument) {op : SpliceOp} (h : ¬(op.text ≠ [] ∨ op.start < op.stop)) :
    splice doc op.start op.stop op.text = (doc, none) := by
  obtain ⟨htext, hstop⟩ := not_or.1 h
  unfold splice
  split_ifs with hreadOnly
  · rfl
  · rw [Nat.max_eq_right (Nat.le_of_not_lt hstop), not_not.1 htext]
    simp [CodeDocument.sliceString, normalizeNewlines]

theorem effective_cons_nothing {op : SpliceOp} (h : ¬(op.text ≠ [] ∨ op.start < op.stop)) (ops : List SpliceOp) :
    effective (op :: ops) = effective ops := by
  unfold effective
  rw [List.filter_cons_of_neg (by simpa using h)]

theorem effective_cons {op : SpliceOp} (h : op.text ≠ [] ∨ op.start < op.stop) (ops : List SpliceOp) :
    effective (op :: ops) = SpliceOp.widen op :: effective ops := by
  unfold effective
  rw [List.filter_cons_of_pos (by simpa using h), List.map_cons]

variable {view : CodeView}

/-- In a batch only the document changes. -/
theorem spliceLoop_batched (view : CodeView) (ops : List (SpliceOp × Outcome)) :
    ∃ doc records edits, CodeView.spliceLoop true view ops = ({ view with doc }, records, edits, none) ∧
      doc.readOnly = view.doc.readOnly ∧ Path Applies edits view.doc.text doc.text := by
  induction ops generalizing view with
  | nil => exact ⟨view.doc, [], [], rfl, rfl, rfl⟩
  | cons entry ops ih =>
    obtain ⟨op, outcome⟩ := entry
    unfold CodeView.spliceLoop
    obtain ⟨doc, applied, heq, hreadOnly, hedit⟩ := splice_applies view.doc op.start op.stop op.text
    rw [heq]
    obtain ⟨doc', records, edits, hloop, hreadOnly', hpath⟩ := ih { view with doc }
    rcases applied with _ | applied
    · refine ⟨doc', records, edits, hloop, hreadOnly'.trans hreadOnly, ?_⟩
      rwa [show doc.text = view.doc.text from hedit] at hpath
    · dsimp only
      rw [if_pos rfl, hloop]
      exact ⟨doc', _, _, rfl, hreadOnly'.trans hreadOnly, doc.text, hedit.1, hpath⟩

/-- The edits are in the order of the splices: `text` is the text before the batch, and the rows up to the splices that
are left are still those of it. -/
theorem spliceLoop_pairwise {text : Str} {ops : List (SpliceOp × Outcome)} (view : CodeView)
    (horder : (effective (ops.map Prod.fst)).Pairwise fun a b => byteToLine text b.stop < byteToLine text a.start)
    (hrows : ∀ op ∈ effective (ops.map Prod.fst), ∀ byte ≤ op.stop,
      byteToLine view.doc.text byte = byteToLine text byte) :
    ((CodeView.spliceLoop true view ops).2.2.1.Pairwise fun a b =>
        b.oldEndPoint.row < a.startPoint.row ∧ b.oldEndByte ≤ a.startByte) ∧
      ∀ edit ∈ (CodeView.spliceLoop true view ops).2.2.1, ∃ op ∈ effective (ops.map Prod.fst),
        edit.oldEndPoint.row = byteToLine text op.stop ∧ edit.oldEndByte ≤ op.stop := by
  induction ops generalizing view with
  | nil => exact ⟨.nil, nofun⟩
  | cons entry ops ih =>
    obtain ⟨op, outcome⟩ := entry
    unfold CodeView.spliceLoop
    by_cases hop : op.text ≠ [] ∨ op.start < op.stop
    swap
    · rw [List.map_cons, effective_cons_nothing hop] at horder hrows ⊢
      rw [splice_nothing view.doc hop]
      exact ih view horder hrows
    rw [List.map_cons, effective_cons hop] at horder hrows ⊢
    obtain ⟨hfirst, horder⟩ := List.pairwise_cons.1 horder
    obtain ⟨hhead, hrows⟩ := List.forall_mem_cons.1 hrows
    obtain ⟨doc, applied, heq, -, hedit⟩ := splice_applies view.doc op.start op.stop op.text
    rw [heq]
    rcases applied with _ | applied
    · obtain ⟨hpairwise, hall⟩ := ih { view with doc } horder fun later hlater byte hbyte => by
        rw [← hrows later hlater byte hbyte]
        exact congrArg (byteToLine · byte) hedit
      exact ⟨hpairwise, fun edit hmem => (hall edit hmem).imp fun later h => ⟨List.mem_cons_of_mem _ h.1, h.2⟩⟩
    · obtain ⟨happlies, hstart, hstop⟩ := hedit
      obtain ⟨hbefore, hstartRow, hstopRow⟩ := applies_rows happlies
      have hstartEq : applied.edit.startPoint.row = byteToLine text op.start := by
        rw [hstartRow, hstart, byteToLine_snapToBoundary]
        exact hhead _ (Nat.le_max_right _ _)
      have hstopEq : applied.edit.oldEndPoint.row = byteToLine text (max op.stop op.start) := by
        rw [hstopRow, hstop, byteToLine_snapToBoundary]
        exact hhead _ (Nat.le_refl _)
      -- the splices that are left end before the start of this one, also in the text they meet
      have hlt : ∀ later ∈ effective (ops.map Prod.fst), later.stop < applied.edit.startByte := by
        intro later hlater
        rw [hstart]
        refine lt_snapToBoundary ?_
        rw [hrows later hlater _ (Nat.le_refl _), hhead op.start (Nat.le_max_right _ _)]
        exact hfirst later hlater
      obtain ⟨hpairwise, hall⟩ := ih { view with doc } horder fun later hlater byte hbyte => by
        rw [← hrows later hlater byte hbyte]
        exact hbefore byte (hbyte.trans (hlt later hlater).le)
      dsimp only
      rw [if_pos rfl]
      refine ⟨List.pairwise_cons.2 ⟨fun edit hmem => ?_, hpairwise⟩, List.forall_mem_cons.2 ⟨?_, fun edit hmem => ?_⟩⟩
      · obtain ⟨later, hlater, hrow, hbyte⟩ := hall edit hmem
        refine ⟨?_, hbyte.trans (hlt later hlater).le⟩
        rw [hrow, hstartEq]
        exact hfirst later hlater
      · refine ⟨_, List.mem_cons_self, hstopEq, ?_⟩
        rw [hstop]
        exact snapToBoundary_le _ _
      · exact (hall edit hmem).imp fun later h => ⟨List.mem_cons_of_mem _ h.1, h.2⟩

theorem descendsWithoutOverlap_of_pairwise {edits : List CodeEdit} (h : edits.Pairwise fun a b =>
    b.oldEndPoint.row < a.startPoint.row ∧ b.oldEndByte ≤ a.startByte) : descendsWithoutOverlap edits = true := by
  induction edits with
  | nil => rfl
  | cons first edits ih =>
    obtain ⟨hfirst, hrest⟩ := List.pairwise_cons.1 h
    rcases edits with _ | ⟨second, edits⟩
    · rfl
    · unfold descendsWithoutOverlap
      obtain ⟨hrow, hbyte⟩ := hfirst second (by simp)
      simp only [hrow, hbyte, decide_true, Bool.and_true, Bool.true_and]
      exact ih hrest

/-- Splices that descend by their rows make edits that do. -/
theorem spliceLoop_descends {ops : List (SpliceOp × Outcome)}
    (h : opsDescendByRow view.doc (effective (ops.map Prod.fst)) = true) :
    descendsWithoutOverlap (CodeView.spliceLoop true view ops).2.2.1 = true :=
  descendsWithoutOverlap_of_pairwise (spliceLoop_pairwise view
    (descends_pairwise (fun _ => le_of_mem_effective) h) fun _ _ _ _ => rfl).1

/-! ### The highlighter -/

/-- The trees of the highlighter lead to the text of the document, and all that was given or taken was right. -/
structure Good (view : CodeView) : Prop where
  on : view.hl.enabled = true ↔ view.hl.passes ≠ []
  trees : ∀ tree, some tree ∈ view.hl.passes → tree.Leads view.doc.text
  generation : view.hl.generation = view.clock % 2 ^ 64
  handed : ∀ given ∈ view.handed, given.1.Leads given.2
  accepted : ∀ taken ∈ view.accepted, taken.1 = .parsed taken.2

/-- A parse with this stamp is of the text of the document, unless there were edits since. -/
structure Ready (view : CodeView) (generation clock : ℕ) (rope : Str) (passes : List (Option Tree)) : Prop where
  stamp : generation = clock % 2 ^ 64
  past : clock ≤ view.clock
  nonempty : passes ≠ []
  current : view.hl.enabled = true → clock = view.clock → rope = view.doc.text

/-- What an edit of the view does, with the parse it defers. -/
structure Moved (view view' : CodeView) (deferred : Option DeferredParse) : Prop where
  good : Good view'
  ready : ∀ generation clock rope passes, Ready view generation clock rope passes →
    Ready view' generation clock rope passes
  made : ∀ parse ∈ deferred, Ready view' parse.generation parse.clock parse.rope parse.passes
  running : view'.running = view.running
  finished : view'.finished = view.finished

theorem Moved.refl (h : Good view) : Moved view view none := ⟨h, fun _ _ _ _ hready => hready, nofun, rfl, rfl⟩

theorem Moved.trans {view' view'' : CodeView} {deferred deferred' : Option DeferredParse} (h : Moved view view' deferred)
    (h' : Moved view' view'' deferred') : Moved view view'' (deferred'.or deferred) := by
  refine ⟨h'.good, fun _ _ _ _ hready => h'.ready _ _ _ _ (h.ready _ _ _ _ hready), fun parse hparse => ?_,
    h'.running.trans h.running, h'.finished.trans h.finished⟩
  rcases deferred' with _ | later
  · exact h'.ready _ _ _ _ (h.made parse hparse)
  · exact h'.made parse hparse

/-- The document is replaced by one with the same text. -/
theorem Moved.sameText {doc : CodeDocument} (h : Good view) (htext : doc.text = view.doc.text) :
    Moved view { view with doc } none := by
  refine ⟨⟨h.on, fun tree htree => ?_, h.generation, h.handed, h.accepted⟩, fun _ _ _ _ hready => ?_, nofun, rfl, rfl⟩
  · show tree.Leads doc.text
    rw [htext]
    exact h.trees tree htree
  · exact ⟨hready.stamp, hready.past, hready.nonempty, fun hon hclock => (hready.current hon hclock).trans htext.symm⟩

/-- A highlighter that is off has no trees, and takes no parse. -/
theorem Moved.off (h : Good view) (hoff : view.hl.enabled = false) (doc : CodeDocument) :
    Moved view { view with doc } none := by
  have hpasses : view.hl.passes = [] := by
    by_contra hne
    exact absurd (h.on.2 hne) (by simp [hoff])
  refine ⟨⟨h.on, fun tree htree => ?_, h.generation, h.handed, h.accepted⟩, fun _ _ _ _ hready => ?_, nofun, rfl, rfl⟩
  · exact absurd (hpasses ▸ htree : some tree ∈ ([] : List (Option Tree))) List.not_mem_nil
  · exact ⟨hready.stamp, hready.past, hready.nonempty, fun hon => absurd (hoff ▸ hon) (by simp)⟩

theorem editBatch_off (view : CodeView) (hoff : view.hl.enabled = false) (edits : List CodeEdit) (outcome : Outcome) :
    view.editBatch edits outcome = (view, none) := by
  unfold CodeView.editBatch
  rw [hoff]
  split_ifs <;> first | rfl | simp_all

theorem edits_foldl (edits : List CodeEdit) (tree : Tree) :
    edits.foldl Tree.edit tree = ⟨tree.base, tree.edits ++ edits⟩ := by
  induction edits generalizing tree with
  | nil => simp
  | cons edit edits ih =>
    rw [List.foldl_cons, ih]
    simp [Tree.edit]

theorem leads_append {tree : Tree} {x y : Str} {edits : List CodeEdit} (h : tree.Leads x)
    (hedits : Path Applies edits x y) : (edits.foldl Tree.edit tree).Leads y := by
  rw [edits_foldl]
  exact path_append.2 ⟨x, h, hedits⟩

theorem parsed_leads (text : Str) : (Tree.parsed text).Leads text := rfl

theorem parsePasses_leads {text : Str} {finishes : ℕ → Bool} {passes : List (Option Tree)}
    (h : ∀ tree, some tree ∈ passes → tree.Leads text) {tree : Tree}
    (htree : some tree ∈ parsePasses text finishes passes) : tree.Leads text := by
  obtain ⟨i, hi, heq⟩ := List.mem_mapIdx.1 htree
  split_ifs at heq
  · obtain rfl := Option.some.inj heq
    exact parsed_leads text
  · exact h tree (heq ▸ List.getElem_mem hi)

theorem oldTrees_leads {text : Str} {passes : List (Option Tree)} (h : ∀ tree, some tree ∈ passes → tree.Leads text)
    {given : Tree × Str} (hgiven : given ∈ oldTrees text passes) : given.1.Leads given.2 := by
  obtain ⟨tree, htree, rfl⟩ := List.mem_map.1 hgiven
  refine h tree ?_
  simpa [List.mem_filterMap] using htree

theorem length_parsePasses (text : Str) (finishes : ℕ → Bool) (passes : List (Option Tree)) :
    (parsePasses text finishes passes).length = passes.length := List.length_mapIdx

/-- What `edit_batch` does once it has taken the batch, if the edits lead all trees to the text. -/
theorem editBatch_spec {hl : CodeHighlighter} {text : Str} {edits : List CodeEdit} (cancel clock : ℕ) (outcome : Outcome)
    (htrees : ∀ tree, some tree ∈ hl.passes → (edits.foldl Tree.edit tree).Leads text) :
    ∃ hl' deferred handed, hl.editBatch text edits cancel clock outcome = ⟨hl', deferred, handed⟩ ∧
      hl'.enabled = hl.enabled ∧ hl'.passes.length = hl.passes.length ∧ hl'.generation = nextRevision hl.generation ∧
      (∀ tree, some tree ∈ hl'.passes → tree.Leads text) ∧ (∀ given ∈ handed, given.1.Leads given.2) ∧
      ∀ parse ∈ deferred, parse.generation = nextRevision hl.generation ∧ parse.clock = clock ∧ parse.rope = text ∧
        parse.passes.length = hl.passes.length := by
  have hedited : ∀ tree, some tree ∈ hl.passes.map (Option.map fun tree => edits.foldl Tree.edit tree) →
      tree.Leads text := by
    intro tree htree
    obtain ⟨old, hold, heq⟩ := List.mem_map.1 htree
    obtain ⟨tree', rfl, rfl⟩ := Option.map_eq_some_iff.1 heq
    exact htrees tree' hold
  have hparsed := fun tree => @parsePasses_leads text (outcome.getD fun _ => false) _ hedited tree
  have hlength : (parsePasses text (outcome.getD fun _ => false)
      (hl.passes.map (Option.map fun tree => edits.foldl Tree.edit tree))).length = hl.passes.length := by
    rw [length_parsePasses, List.length_map]
  have htried : ∀ given ∈ (if outcome.isSome then
      oldTrees text (hl.passes.map (Option.map fun tree => edits.foldl Tree.edit tree)) else []),
      given.1.Leads given.2 := by
    intro given hgiven
    split_ifs at hgiven
    · exact oldTrees_leads hedited hgiven
    · exact absurd hgiven List.not_mem_nil
  unfold CodeHighlighter.editBatch
  dsimp only
  generalize (if outcome.isSome then
    oldTrees text (hl.passes.map (Option.map fun tree => edits.foldl Tree.edit tree)) else []) = tried at htried ⊢
  split_ifs with hall
  · exact ⟨_, _, _, rfl, rfl, hlength, rfl, hparsed, htried, nofun⟩
  · refine ⟨_, _, _, rfl, rfl, hlength, rfl, hparsed, fun given hgiven => ?_, fun parse hparse => ?_⟩
    · rcases List.mem_append.1 hgiven with hgiven | hgiven
      · exact htried given hgiven
      · exact oldTrees_leads hparsed hgiven
    · obtain rfl := Option.some.inj hparse
      exact ⟨rfl, rfl, rfl, hlength⟩

theorem nextRevision_mod (clock : ℕ) : nextRevision (clock % 2 ^ 64) = (clock + 1) % 2 ^ 64 := by
  unfold nextRevision
  omega

theorem ne_nil_of_length {A B : Type} {xs : List A} {ys : List B} (h : xs.length = ys.length) (hys : ys ≠ []) :
    xs ≠ [] := by
  rintro rfl
  exact hys (List.length_eq_zero_iff.1 h.symm)

/-- `edit_batch` gives the parser right trees if the edits lead all trees to the text of the document. -/
theorem editBatch_moved (h : Good view) {doc : CodeDocument} {edits : List CodeEdit} (outcome : Outcome)
    (horder : descendsWithoutOverlap edits = true) (hsame : edits = [] → doc.text = view.doc.text)
    (htrees : ∀ tree, some tree ∈ view.hl.passes → (edits.foldl Tree.edit tree).Leads doc.text) :
    Moved view (({ view with doc } : CodeView).editBatch edits outcome).1
      (({ view with doc } : CodeView).editBatch edits outcome).2 := by
  unfold CodeView.editBatch
  rw [horder]
  dsimp only
  rw [if_neg (by simp)]
  split_ifs with hnone
  · rcases Bool.or_eq_true_iff.1 hnone with hoff | hempty
    · exact .off h (by simpa using hoff) doc
    · exact .sameText h (hsame (List.isEmpty_iff.1 hempty))
  · obtain ⟨hon, -⟩ : view.hl.enabled = true ∧ edits ≠ [] := by simpa using hnone
    have hpasses := h.on.1 hon
    obtain ⟨hl, deferred, handed, heq, henabled, hlength, hgeneration, hleads, hhanded, hdeferred⟩ :=
      editBatch_spec view.flags (view.clock + 1) outcome htrees
    rw [heq]
    have hclock : nextRevision view.hl.generation = (view.clock + 1) % 2 ^ 64 := by
      rw [h.generation, nextRevision_mod]
    refine ⟨⟨?_, hleads, hgeneration.trans hclock, ?_, h.accepted⟩, fun _ _ _ _ hready => ?_, fun parse hparse => ?_, rfl,
      rfl⟩
    · show hl.enabled = true ↔ hl.passes ≠ []
      rw [henabled]
      exact ⟨fun _ => ne_nil_of_length hlength hpasses, fun _ => hon⟩
    · exact fun given hgiven => (List.mem_append.1 hgiven).elim (hhanded given) (h.handed given)
    · refine ⟨hready.stamp, Nat.le_succ_of_le hready.past, hready.nonempty, fun _ hnow => ?_⟩
      -- the stamp of an earlier parse is not the present one
      have hpast := hready.past
      replace hnow : _ = view.clock + 1 := hnow
      omega
    · obtain ⟨hstamp, hparseClock, hrope, hparsePasses⟩ := hdeferred parse hparse
      refine ⟨?_, hparseClock.le, ne_nil_of_length hparsePasses hpasses, fun _ _ => hrope⟩
      rw [hstamp, hparseClock, hclock]

/-- `edit_batch` with the edits that led to the document. -/
theorem editBatch_path (h : Good view) {doc : CodeDocument} {edits : List CodeEdit} (outcome : Outcome)
    (horder : descendsWithoutOverlap edits = true) (hpath : Path Applies edits view.doc.text doc.text) :
    Moved view (({ view with doc } : CodeView).editBatch edits outcome).1
      (({ view with doc } : CodeView).editBatch edits outcome).2 := by
  refine editBatch_moved h outcome horder (fun hnil => ?_) fun tree htree => leads_append (h.trees tree htree) hpath
  subst hnil
  exact hpath.symm

/-- Outside of a batch every splice is parsed with the document behind it. -/
theorem spliceLoop_single (h : Good view) (ops : List (SpliceOp × Outcome)) :
    Moved view (CodeView.spliceLoop false view ops).1 (CodeView.spliceLoop false view ops).2.2.2 := by
  induction ops generalizing view with
  | nil => exact .refl h
  | cons entry ops ih =>
    obtain ⟨op, outcome⟩ := entry
    unfold CodeView.spliceLoop
    obtain ⟨doc, applied, heq, -, hedit⟩ := splice_applies view.doc op.start op.stop op.text
    rw [heq]
    rcases applied with _ | applied
    · have hsame : Moved view { view with doc } none := .sameText h hedit
      have hrest := hsame.trans (ih hsame.good)
      rwa [Option.or_none] at hrest
    · have hbatch := editBatch_path h outcome rfl (path_singleton.2 hedit.1)
      exact hbatch.trans (ih hbatch.good)

/-! ### The steps of the view -/

/-- The parses that are under way or have come back. -/
structure Inv (view : CodeView) : Prop where
  good : Good view
  running : ∀ parse ∈ view.running, Ready view parse.generation parse.clock parse.rope parse.passes
  finished : ∀ parsed ∈ view.finished, Ready view parsed.generation parsed.clock parsed.rope parsed.passes
  trees : ∀ parsed ∈ view.finished, ∀ tree, some tree ∈ parsed.passes → tree = .parsed parsed.rope

theorem Moved.inv {view' : CodeView} {deferred : Option DeferredParse} (h : Moved view view' deferred) (hinv : Inv view) :
    Inv view' := by
  refine ⟨h.good, fun parse hparse => ?_, fun parsed hparsed => ?_, fun parsed hparsed => ?_⟩
  · rw [h.running] at hparse
    exact h.ready _ _ _ _ (hinv.running parse hparse)
  · rw [h.finished] at hparsed
    exact h.ready _ _ _ _ (hinv.finished parsed hparsed)
  · rw [h.finished] at hparsed
    exact hinv.trees parsed hparsed

theorem Ready.congr {generation clock : ℕ} {rope : Str} {passes : List (Option Tree)}
    (h : Ready view generation clock rope passes) (view' : CodeView) (hon : view'.hl.enabled = view.hl.enabled)
    (hclock : view'.clock = view.clock) (hdoc : view'.doc.text = view.doc.text) :
    Ready view' generation clock rope passes :=
  ⟨h.stamp, hclock ▸ h.past, h.nonempty, fun hon' hclock' => hdoc ▸ h.current (hon ▸ hon') (hclock ▸ hclock')⟩

theorem Moved.finishEdit {view' : CodeView} {deferred : Option DeferredParse} (h : Moved view view' deferred)
    (hinv : Inv view) : Inv (view'.finishEdit deferred) := by
  have hinv' := h.inv hinv
  refine ⟨⟨hinv'.good.on, hinv'.good.trees, hinv'.good.generation, hinv'.good.handed, hinv'.good.accepted⟩,
    fun parse hparse => ?_, fun parsed hparsed => (hinv'.finished parsed hparsed).congr _ rfl rfl rfl, hinv'.trees⟩
  rcases List.mem_append.1 hparse with hparse | hparse
  · exact (hinv'.running parse hparse).congr _ rfl rfl rfl
  · exact (h.made parse (Option.mem_toList.1 hparse)).congr _ rfl rfl rfl

theorem Moved.history {view' : CodeView} {deferred : Option DeferredParse} (h : Moved view view' deferred)
    (history : UndoHistory) : Moved view { view' with history } deferred :=
  ⟨⟨h.good.on, h.good.trees, h.good.generation, h.good.handed, h.good.accepted⟩,
    fun _ _ _ _ hready => (h.ready _ _ _ _ hready).congr _ rfl rfl rfl,
    fun parse hparse => (h.made parse hparse).congr _ rfl rfl rfl, h.running, h.finished⟩

/-- A batch is taken. -/
def Ordered (view : CodeView) (ops : List (SpliceOp × Outcome)) : Prop :=
  view.hl.enabled = true → opsDescendByRow view.doc (ops.map Prod.fst) = true →
    opsDescendByRow view.doc (effective (ops.map Prod.fst)) = true

/-- `splice_all`, by what the loop and the batch leave. -/
theorem spliceAll_moved (h : Good view) {ops : List (SpliceOp × Outcome)} (hordered : Ordered view ops)
    (outcome : Outcome) (before after : CodeSelection) (group : EditGroup) (now : ℕ) :
    ∃ view' deferred, Moved view view' deferred ∧
      (view.spliceAll ops outcome before after group now = view' ∨ ∃ history,
        view.spliceAll ops outcome before after group now = ({ view' with history } : CodeView).finishEdit deferred) := by
  have hfinish : ∀ (view' : CodeView) (records : List AppliedEdit) (deferred : Option DeferredParse),
      (if records.isEmpty then view'
        else ({ view' with history := view'.history.push records before after group now } : CodeView).finishEdit deferred)
          = view' ∨ ∃ history, (if records.isEmpty then view'
        else ({ view' with history := view'.history.push records before after group now } : CodeView).finishEdit deferred)
          = ({ view' with history } : CodeView).finishEdit deferred := by
    intro view' records deferred
    split_ifs
    · exact .inl rfl
    · exact .inr ⟨_, rfl⟩
  unfold CodeView.spliceAll
  dsimp only
  rcases hbatched : opsDescendByRow view.doc (ops.map Prod.fst) with _ | _
  · exact ⟨_, _, spliceLoop_single h ops, hfinish _ _ _⟩
  · obtain ⟨doc, records, edits, heq, -, hpath⟩ := spliceLoop_batched view ops
    rcases hon : view.hl.enabled with _ | _
    · rw [heq]
      dsimp only
      rw [if_pos rfl, editBatch_off { view with doc } hon]
      exact ⟨_, none, .off h hon doc, hfinish _ _ _⟩
    · have horder := spliceLoop_descends (hordered hon hbatched)
      rw [heq] at horder ⊢
      exact ⟨_, _, editBatch_path h outcome horder hpath, hfinish _ _ _⟩

theorem spliceAll_inv (h : Inv view) {ops : List (SpliceOp × Outcome)} (hordered : Ordered view ops) (outcome : Outcome)
    (before after : CodeSelection) (group : EditGroup) (now : ℕ) :
    Inv (view.spliceAll ops outcome before after group now) := by
  obtain ⟨view', deferred, hmoved, heq | ⟨history, heq⟩⟩ := spliceAll_moved h.good hordered outcome before after group now
  · exact heq ▸ hmoved.inv h
  · exact heq ▸ (hmoved.history history).finishEdit h

/-- How many changes a record makes at most: a removal and an insertion. -/
def recordChanges (record : AppliedEdit) : ℕ :=
  (if record.removed = [] then 0 else 1) + if record.inserted = [] then 0 else 1

def changeCount (records : List AppliedEdit) : ℕ := (records.map recordChanges).sum

theorem removing_length (doc : CodeDocument) (start : ℕ) (removed fragment : Str) :
    (removing doc start (start + size removed) fragment).2.length ≤ if removed = [] then 0 else 1 := by
  unfold removing
  by_cases hempty : removed = []
  · simp [hempty]
  · rw [if_neg hempty]
    split_ifs
    · rcases doc.remove start (start + size removed) with ⟨doc, _ | edit⟩ <;> simp
    · simp

theorem inserting_length (doc : CodeDocument) (start : ℕ) (inserted : Str) :
    (inserting doc start inserted).2.length ≤ if inserted = [] then 0 else 1 := by
  unfold inserting
  by_cases hempty : inserted = []
  · simp [hempty]
  · rw [if_neg hempty]
    split_ifs
    · simp
    · rcases doc.insert start inserted with ⟨doc, _ | edit⟩ <;> simp

theorem rawSplice_length (doc : CodeDocument) (start : ℕ) (removed inserted : Str) :
    (rawSplice doc start (start + size removed) removed inserted).2.length ≤
      (if removed = [] then 0 else 1) + if inserted = [] then 0 else 1 := by
  have hremoving := removing_length doc start removed removed
  have hinserting := inserting_length (removing doc start (start + size removed) removed).1 start inserted
  unfold rawSplice
  rw [List.length_append]
  exact Nat.add_le_add hremoving hinserting

theorem replay_length {apply : CodeDocument → AppliedEdit → CodeDocument × List DocChange} {bound : AppliedEdit → ℕ}
    (happly : ∀ doc record, (apply doc record).2.length ≤ bound record) (doc : CodeDocument) (records : List AppliedEdit) :
    (replay apply doc records).2.length ≤ (records.map bound).sum := by
  unfold replay
  suffices hfold : ∀ (changes : List DocChange), (records.foldl (fun (s : CodeDocument × List DocChange) record =>
      ((apply s.1 record).1, s.2 ++ (apply s.1 record).2)) (doc, changes)).2.length ≤
        changes.length + (records.map bound).sum from
    Nat.le_trans (hfold []) (Nat.zero_add _).le
  induction records generalizing doc with
  | nil => simp
  | cons record records ih =>
    intro changes
    have hrest := ih (apply doc record).1 (changes ++ (apply doc record).2)
    have hrecord := happly doc record
    rw [List.length_append] at hrest
    rw [List.foldl_cons, List.map_cons, List.sum_cons]
    exact hrest.trans (by omega)

/-- The transaction that an undo or a redo replays. -/
def top (view : CodeView) (redo : Bool) : Option Transaction :=
  if redo then view.history.redo.getLast? else view.history.undo.getLast?

theorem undoStep_length (view : CodeView) {found : HistoryStep}
    (h : (view.history.undoStep view.doc).2.2 = some found) :
    ∃ transaction ∈ top view false, found.edits.length ≤ changeCount transaction.edits := by
  unfold UndoHistory.undoStep at h
  unfold top
  dsimp only at h
  rw [if_neg (by simp)]
  rcases hlast : view.history.undo.getLast? with _ | transaction <;> rw [hlast] at h
  · cases h
  · obtain rfl := Option.some.inj h
    refine ⟨transaction, rfl, ?_⟩
    have hlength := replay_length (fun doc record => (rawSplice_length doc record.start record.inserted record.removed).trans
      (Nat.le_of_eq (Nat.add_comm _ _)) : ∀ doc record, (applyReverse doc record).2.length ≤ recordChanges record)
      view.doc transaction.edits.reverse
    rwa [List.map_reverse, List.sum_reverse] at hlength

theorem redoStep_length (view : CodeView) {found : HistoryStep}
    (h : (view.history.redoStep view.doc).2.2 = some found) :
    ∃ transaction ∈ top view true, found.edits.length ≤ changeCount transaction.edits := by
  unfold UndoHistory.redoStep at h
  unfold top
  dsimp only at h
  rw [if_pos rfl]
  rcases hlast : view.history.redo.getLast? with _ | transaction <;> rw [hlast] at h
  · cases h
  · obtain rfl := Option.some.inj h
    exact ⟨transaction, rfl, replay_length (fun doc record => rawSplice_length doc record.start record.removed
      record.inserted) view.doc transaction.edits⟩

/-- What a step through the history does to the document. -/
theorem travel_chain (view : CodeView) (redo : Bool) : ∃ history doc step,
    (if redo then view.history.redoStep view.doc else view.history.undoStep view.doc) = (history, doc, step) ∧
      Chain ((step.map HistoryStep.edits).getD []) view.doc doc ∧
      ∀ found ∈ step, ∃ transaction ∈ top view redo, found.edits.length ≤ changeCount transaction.edits := by
  cases redo
  · exact ⟨_, _, _, rfl, undoStep_chain view.history view.doc, fun found => undoStep_length view⟩
  · exact ⟨_, _, _, rfl, redoStep_chain view.history view.doc, fun found => redoStep_length view⟩

/-- A replay is of one change, or there is no tree before the last change is parsed. -/
def Alone (view : CodeView) (redo : Bool) (outcomes : ℕ → Outcome) : Prop :=
  view.hl.enabled = true → ∀ transaction ∈ top view redo, 2 ≤ changeCount transaction.edits →
    view.hl.hasTree = false ∧ ∀ i pass, i + 1 < changeCount transaction.edits →
      (outcomes i).getD (fun _ => false) pass = false

theorem replayed_off (view : CodeView) (hoff : view.hl.enabled = false) (changes : List (CodeEdit × Outcome)) :
    view.replayed changes = (view, none) := by
  induction changes with
  | nil => rfl
  | cons change changes ih =>
    unfold CodeView.replayed
    rw [editBatch_off view hoff]
    dsimp only
    rw [ih]
    rfl

def Blank (view : CodeView) : Prop := ∀ tree, some tree ∉ view.hl.passes

theorem blank_of_hasTree (h : view.hl.hasTree = false) : Blank view := by
  intro tree htree
  exact absurd (List.any_eq_false.1 h _ htree) (by simp)

theorem parsePasses_blank {text : Str} {finishes : ℕ → Bool} (hfinishes : ∀ pass, finishes pass = false)
    (passes : List (Option Tree)) : parsePasses text finishes passes = passes := by
  unfold parsePasses
  refine List.ext_getElem (by simp) fun i _ _ => ?_
  simp [hfinishes]

theorem editBatch_passes (hl : CodeHighlighter) (text : Str) (edits : List CodeEdit) (cancel clock : ℕ)
    (outcome : Outcome) : (hl.editBatch text edits cancel clock outcome).hl.passes =
      parsePasses text (outcome.getD fun _ => false)
        (hl.passes.map (Option.map fun tree => edits.foldl Tree.edit tree)) := by
  unfold CodeHighlighter.editBatch
  dsimp only
  split_ifs <;> rfl

/-- A parse that does not finish makes no tree. -/
theorem editBatch_blank (view : CodeView) (h : Blank view) (edits : List CodeEdit) {outcome : Outcome}
    (houtcome : ∀ pass, outcome.getD (fun _ => false) pass = false) : Blank (view.editBatch edits outcome).1 := by
  unfold CodeView.editBatch
  split_ifs
  · exact h
  · exact h
  · unfold Blank
    dsimp only
    rw [editBatch_passes, parsePasses_blank houtcome]
    intro tree htree
    obtain ⟨old, hold, heq⟩ := List.mem_map.1 htree
    obtain ⟨tree', rfl, -⟩ := Option.map_eq_some_iff.1 heq
    exact h tree' hold

/-- Without trees the changes of a replay are parsed as if they were one, up to the last. -/
theorem replayed_blank (h : Good view) (hblank : Blank view) {doc : CodeDocument} {changes : List (CodeEdit × Outcome)}
    (hsame : changes = [] → doc.text = view.doc.text)
    (hout : ∀ entry ∈ changes.dropLast, ∀ pass, entry.2.getD (fun _ => false) pass = false) :
    Moved view (CodeView.replayed { view with doc } changes).1 (CodeView.replayed { view with doc } changes).2 := by
  induction changes generalizing view doc with
  | nil => exact .sameText h (hsame rfl)
  | cons entry changes ih =>
    obtain ⟨edit, outcome⟩ := entry
    have hfirst : Moved view (({ view with doc } : CodeView).editBatch [edit] outcome).1
        (({ view with doc } : CodeView).editBatch [edit] outcome).2 :=
      editBatch_moved h outcome rfl nofun fun tree htree => absurd htree (hblank tree)
    rcases changes with _ | ⟨next, changes⟩
    · exact hfirst
    · have hblank' := editBatch_blank { view with doc } hblank [edit] (hout (edit, outcome) (by simp))
      exact hfirst.trans (ih hfirst.good hblank' (fun _ => rfl) fun entry hentry =>
        hout entry (List.mem_cons_of_mem _ hentry))

theorem timeTravel_inv (h : Inv view) {redo : Bool} {outcomes : ℕ → Outcome} (halone : Alone view redo outcomes) :
    Inv (view.timeTravel redo outcomes) := by
  unfold CodeView.timeTravel
  by_cases hreadOnly : view.doc.isReadOnly = true
  · rw [if_pos hreadOnly]
    exact h
  obtain ⟨history, doc, step, heq, hchain, hlength⟩ := travel_chain view redo
  have hhistory := ((Moved.refl h.good).history history).inv h
  rw [if_neg hreadOnly, heq]
  rcases step with _ | step
  · have htext : doc.text = view.doc.text := hchain.2.symm
    exact (Moved.sameText hhistory.good htext).inv hhistory
  obtain ⟨transaction, htransaction, hcount⟩ := hlength step rfl
  refine Moved.finishEdit ?_ hhistory
  rcases hon : view.hl.enabled with _ | _
  · rw [replayed_off { view with history, doc } hon]
    exact .off hhistory.good hon doc
  have hpath : Path Applies (step.edits.map (·.edit)) view.doc.text doc.text := hchain.2
  rcases step with ⟨_ | ⟨change, _ | ⟨next, changes⟩⟩, selection⟩
  · exact .sameText hhistory.good hpath.symm
  · exact editBatch_path hhistory.good (outcomes 0) rfl hpath
  · obtain ⟨hblank, hout⟩ := halone hon transaction htransaction (le_trans (by simp) hcount)
    refine replayed_blank hhistory.good (blank_of_hasTree hblank) (by simp) fun entry hentry => ?_
    obtain ⟨i, hi, rfl⟩ := List.getElem_of_mem hentry
    have hbound : i + 1 < changeCount transaction.edits := by
      rw [List.length_dropLast, List.length_mapIdx] at hi
      exact lt_of_lt_of_le (Nat.add_lt_of_lt_sub hi) hcount
    rw [List.getElem_dropLast, List.getElem_mapIdx]
    exact fun pass => hout i pass hbound

theorem opsDescendByRow_congr {doc doc' : CodeDocument} (h : doc'.text = doc.text) (ops : List SpliceOp) :
    opsDescendByRow doc' ops = opsDescendByRow doc ops := by
  induction ops with
  | nil => rfl
  | cons first ops ih =>
    rcases ops with _ | ⟨second, ops⟩
    · rfl
    · unfold opsDescendByRow CodeDocument.lenBytes
      rw [h, ih]

theorem setReadOnly_inv (h : Inv view) (reason : Option ReadOnlyReason) :
    Inv { view with doc := { view.doc with readOnly := reason } } :=
  (@Moved.sameText view { view.doc with readOnly := reason } h.good rfl).inv h

theorem applyDiskSplices_inv (h : Inv view) {ops : List (SpliceOp × Outcome)} (hordered : Ordered view ops)
    (outcome : Outcome) (before after : CodeSelection) (now : ℕ) :
    Inv (view.applyDiskSplices ops outcome before after now) := by
  unfold CodeView.applyDiskSplices
  split_ifs
  · exact h
  · have hordered' : Ordered { view with doc := { view.doc with readOnly := none } } ops := by
      intro hon hops
      have hsame := @opsDescendByRow_congr view.doc { view.doc with readOnly := none } rfl
      exact (hsame _).trans (hordered hon ((hsame _).symm.trans hops))
    exact setReadOnly_inv (spliceAll_inv (setReadOnly_inv h none) hordered' outcome before after .atomic now) _

theorem initialParse_inv (h : Inv view) : Inv view.initialParse := by
  unfold CodeView.initialParse
  split_ifs with hnone
  · exact h
  · obtain ⟨hon, -⟩ : view.hl.enabled = true ∧ view.hl.hasTree = false := by simpa using hnone
    refine ⟨⟨h.good.on, h.good.trees, h.good.generation, h.good.handed, h.good.accepted⟩, fun parse hparse => ?_,
      fun parsed hparsed => (h.finished parsed hparsed).congr _ rfl rfl rfl, h.trees⟩
    rcases List.mem_append.1 hparse with hparse | hparse
    · exact (h.running parse hparse).congr _ rfl rfl rfl
    · obtain rfl := List.mem_singleton.1 hparse
      refine ⟨h.good.generation, Nat.le_refl _, ?_, fun _ _ => rfl⟩
      simpa using h.good.on.1 hon

theorem finishParse_inv (h : Inv view) {index : ℕ} {finishes : ℕ → Bool} {timedOut : Bool} {view' : CodeView}
    (hstep : view.finishParse index finishes timedOut = some view') : Inv view' := by
  obtain ⟨parse, hparse, heq⟩ := Option.bind_eq_some_iff.1 hstep
  obtain rfl := Option.some.inj heq
  have hready := h.running parse (List.mem_of_getElem? hparse)
  refine ⟨⟨h.good.on, h.good.trees, h.good.generation, h.good.handed, h.good.accepted⟩, fun other hother => ?_,
    fun parsed hparsed => ?_, fun parsed hparsed => ?_⟩
  · exact (h.running other (List.mem_of_mem_eraseIdx hother)).congr _ rfl rfl rfl
  · rcases List.mem_append.1 hparsed with hparsed | hparsed
    · exact (h.finished parsed hparsed).congr _ rfl rfl rfl
    · obtain rfl := List.mem_singleton.1 hparsed
      refine ⟨hready.stamp, hready.past, ?_, hready.current⟩
      exact ne_nil_of_length List.length_mapIdx hready.nonempty
  · rcases List.mem_append.1 hparsed with hparsed | hparsed
    · exact h.trees parsed hparsed
    · obtain rfl := List.mem_singleton.1 hparsed
      intro tree htree
      obtain ⟨i, hi, heq⟩ := List.mem_mapIdx.1 htree
      split_ifs at heq
      exact (Option.some.inj heq).symm

/-- The result of a parse is refused, or its stamp is that of the highlighter. -/
theorem applyParsed_cases (hl : CodeHighlighter) (text : Str) (parsed : ParsedTrees) :
    hl.applyParsed text parsed = (hl, []) ∨
      parsed.generation = hl.generation ∧ parsed.passes.length = hl.passes.length ∧
        (hl.applyParsed text parsed =
          ({ hl with deferredCancel := none, enabled := false, tooComplex := true, passes := [] }, []) ∨
        hl.applyParsed text parsed = ({ hl with
          deferredCancel := none
          passes := List.zipWith (fun old new => new.or old) hl.passes parsed.passes }, parsed.passes.filterMap id)) := by
  unfold CodeHighlighter.applyParsed
  split_ifs with hrefused hlength htimedOut
  · exact .inl rfl
  · exact .inl rfl
  · exact .inr ⟨by simpa using (not_or.1 (not_or.1 hrefused).2).1, not_not.1 hlength, .inl rfl⟩
  · exact .inr ⟨by simpa using (not_or.1 (not_or.1 hrefused).2).1, not_not.1 hlength, .inr rfl⟩

/-- The highlighter after a result came back. -/
theorem Inv.back (h : Inv view) {hl : CodeHighlighter} (hgeneration : hl.generation = view.hl.generation)
    (hon : hl.enabled = true ↔ hl.passes ≠ []) (henabled : hl.enabled = true → view.hl.enabled = true)
    (htrees : ∀ tree, some tree ∈ hl.passes → tree.Leads view.doc.text) {trees : List Tree}
    (htaken : ∀ tree ∈ trees, tree = .parsed view.doc.text) (index : ℕ) :
    Inv { view with
      hl
      finished := view.finished.eraseIdx index
      accepted := (trees.map fun tree => (tree, view.doc.text)) ++ view.accepted } := by
  refine ⟨⟨hon, htrees, hgeneration.trans h.good.generation, h.good.handed, fun taken hmem => ?_⟩, fun parse hparse => ?_,
    fun parsed hparsed => ?_, fun parsed hparsed => h.trees parsed (List.mem_of_mem_eraseIdx hparsed)⟩
  · rcases List.mem_append.1 hmem with hmem | hmem
    · obtain ⟨tree, htree, rfl⟩ := List.mem_map.1 hmem
      exact htaken tree htree
    · exact h.good.accepted taken hmem
  · have hready := h.running parse hparse
    exact ⟨hready.stamp, hready.past, hready.nonempty, fun hon' => hready.current (henabled hon')⟩
  · have hready := h.finished parsed (List.mem_of_mem_eraseIdx hparsed)
    exact ⟨hready.stamp, hready.past, hready.nonempty, fun hon' => hready.current (henabled hon')⟩

theorem eq_of_mod {a b m : ℕ} (hle : a ≤ b) (hlt : b < a + m) (h : a % m = b % m) : a = b := by
  have hdiff : (b - a) % m = 0 := Nat.sub_mod_eq_zero_of_mod_eq h.symm
  rw [Nat.mod_eq_of_lt (by omega)] at hdiff
  omega

/-- A result that is taken is of the text of the document, if the generations did not wrap around since. -/
theorem applyParsed_inv (h : Inv view) {index : ℕ}
    (hclock : ∀ parsed ∈ view.finished[index]?, view.clock < parsed.clock + 2 ^ 64) {view' : CodeView}
    (hstep : view.applyParsed index = some view') : Inv view' := by
  obtain ⟨parsed, hparsed, heq⟩ := Option.bind_eq_some_iff.1 hstep
  have hmem := List.mem_of_getElem? hparsed
  have hready := h.finished parsed hmem
  rcases applyParsed_cases view.hl view.doc.text parsed with hresult | ⟨hgeneration, hlength, hresult | hresult⟩
  · rw [hresult] at heq
    obtain rfl := Option.some.inj heq
    refine h.back ?_ h.good.on id h.good.trees ?_ index
    · rfl
    · exact fun _ => nofun
  · rw [hresult] at heq
    obtain rfl := Option.some.inj heq
    refine h.back ?_ ?_ ?_ ?_ ?_ index
    · rfl
    · simp
    · simp
    · exact fun _ => nofun
    · exact fun _ => nofun
  · have hpasses : view.hl.passes ≠ [] := ne_nil_of_length hlength.symm hready.nonempty
    have hon := h.good.on.2 hpasses
    rw [hready.stamp, h.good.generation] at hgeneration
    have hrope := hready.current hon (eq_of_mod hready.past (hclock parsed hparsed) hgeneration)
    have hnew : ∀ tree, some tree ∈ parsed.passes → tree = .parsed view.doc.text := by
      rw [← hrope]
      exact h.trees parsed hmem
    rw [hresult] at heq
    obtain rfl := Option.some.inj heq
    refine h.back ?_ ?_ (fun _ => hon) (fun tree htree => ?_) (fun tree htree => ?_) index
    · rfl
    · refine ⟨fun _ => ne_nil_of_length ?_ hpasses, fun _ => hon⟩
      rw [List.length_zipWith, hlength, Nat.min_self]
    · obtain ⟨i, hi, hor⟩ := List.getElem_of_mem htree
      rw [List.getElem_zipWith, Option.or_eq_some_iff] at hor
      rcases hor with hor | ⟨-, hor⟩
      · rw [hnew tree (hor ▸ List.getElem_mem _)]
        exact parsed_leads _
      · exact h.good.trees tree (hor ▸ List.getElem_mem _)
    · exact hnew tree (by simpa using htree)

/-! ### Runs -/

/-- What makes the edits of the view keep the trees in step with the text. -/
def Safe (view : CodeView) : Label → Prop
  | .spliceAll ops _ _ _ _ _ | .applyDiskSplices ops _ _ _ _ => Ordered view ops
  | .timeTravel redo outcomes => Alone view redo outcomes
  | .apply index => ∀ parsed ∈ view.finished[index]?, view.clock < parsed.clock + 2 ^ 64
  | _ => True

/-- The parser is called within its contract, and only trees of the text of the document are taken. -/
def Contract (view : CodeView) : Prop :=
  (∀ given ∈ view.handed, given.1.Leads given.2) ∧ ∀ taken ∈ view.accepted, taken.1 = .parsed taken.2

def Loaded (view : CodeView) : Prop := ∃ raw grammars, view = .load raw grammars

theorem load_inv (raw : Str) (grammars : ℕ) : Inv (.load raw grammars) := by
  refine ⟨⟨?_, fun tree htree => ?_, rfl, nofun, nofun⟩, nofun, nofun, nofun⟩
  · simp [CodeView.load, CodeHighlighter.new]
  · exact absurd (List.eq_of_mem_replicate htree) (by simp)

theorem step_inv (h : Inv view) {label : Label} (hsafe : Safe view label) {view' : CodeView}
    (hstep : view.step label = some view') : Inv view' := by
  cases label with
  | spliceAll ops outcome before after group now =>
    unfold CodeView.step at hstep
    split_ifs at hstep
    · exact Option.some.inj hstep ▸ h
    · exact Option.some.inj hstep ▸ spliceAll_inv h hsafe outcome before after group now
  | timeTravel redo outcomes => exact Option.some.inj hstep ▸ timeTravel_inv h hsafe
  | applyDiskSplices ops outcome before after now =>
    exact Option.some.inj hstep ▸ applyDiskSplices_inv h hsafe outcome before after now
  | setReadOnly reason => exact Option.some.inj hstep ▸ setReadOnly_inv h reason
  | endTypingGroup => exact Option.some.inj hstep ▸ ((Moved.refl h.good).history _).inv h
  | initialParse => exact Option.some.inj hstep ▸ initialParse_inv h
  | run index finishes timedOut => exact finishParse_inv h hstep
  | apply index => exact applyParsed_inv h hsafe hstep

/-- The parser gets only trees that were edited along with the text, in every run whose replays are of one change each
and whose batches are in order. -/
theorem contract_holds {view : CodeView} (h : Reach CodeView.step Loaded Safe view) : Contract view := by
  have hinv : Inv view := by
    refine h.invariant (I := Inv) ?_ fun view label view' hinv hsafe hstep => step_inv hinv hsafe hstep
    rintro _ ⟨raw, grammars, rfl⟩
    exact load_inv raw grammars
  exact ⟨hinv.good.handed, hinv.good.accepted⟩

/-- A file is parsed, a character is put in, and its insertion is undone. -/
def insertUndone : List Label :=
  [.initialParse, .run 0 (fun _ => true) false, .apply 0,
    .spliceAll [(⟨1, 1, ['b']⟩, some fun _ => true)] (some fun _ => true) ⟨1, 1⟩ ⟨2, 2⟩ .typing 0,
    .timeTravel false fun _ => some fun _ => true]

theorem contract_holds_insertUndone : ∃ view, Path (fun label view view' => Safe view label ∧
      view.step label = some view') insertUndone (.load ['a'] 1) view ∧
    view.handed.map Prod.snd = [['a'], ['a', 'b']] ∧ view.accepted = [(.parsed ['a'], ['a'])] ∧ Contract view := by
  have hpath : ∃ view, Path (fun label view view' => Safe view label ∧ view.step label = some view') insertUndone
      (.load ['a'] 1) view ∧ view.handed.map Prod.snd = [['a'], ['a', 'b']] ∧
      view.accepted = [(.parsed ['a'], ['a'])] := by
    refine ⟨_, ⟨_, ⟨trivial, rfl⟩, _, ⟨trivial, rfl⟩, _, ⟨?_, rfl⟩, _, ⟨?_, rfl⟩, _, ⟨?_, rfl⟩, rfl⟩, ?_, ?_⟩
    · intro parsed hparsed
      obtain rfl := Option.some.inj hparsed
      decide
    · exact fun _ _ => rfl
    · intro _ transaction htransaction hcount
      obtain rfl := Option.some.inj htransaction
      exact absurd hcount (by decide)
    · rfl
    · rfl
  obtain ⟨view, hpath, hhanded, haccepted⟩ := hpath
  exact ⟨view, hpath, hhanded, haccepted, contract_holds (Reach.path (.init ⟨_, _, rfl⟩) hpath)⟩

/-- A file is parsed, a character of it is replaced, and the replacement is undone. -/
def replaceUndone : List Label :=
  [.initialParse, .run 0 (fun _ => true) false, .apply 0,
    .spliceAll [(⟨0, 1, ['b']⟩, some fun _ => true)] (some fun _ => true) ⟨0, 0⟩ ⟨1, 1⟩ .typing 0,
    .timeTravel false fun _ => some fun _ => true]

/-- The removal of the new character is on the tree that is handed over for the old text. -/
theorem replaceUndone_breaks : ∃ view, Path (fun label view view' => view.step label = some view') replaceUndone
    (.load ['a'] 1) view ∧ ¬Contract view := by
  refine ⟨_, ⟨_, rfl, _, rfl, _, rfl, _, rfl, _, rfl, rfl⟩, fun hcontract => ?_⟩
  have hleads : Tree.Leads ⟨['b'], [⟨0, 1, 0, ⟨0, 0⟩, ⟨0, 1⟩, ⟨0, 0⟩⟩]⟩ ['a'] :=
    hcontract.1 (⟨['b'], [⟨0, 1, 0, ⟨0, 0⟩, ⟨0, 1⟩, ⟨0, 0⟩⟩]⟩, ['a']) (by decide)
  exact absurd (path_singleton.1 hleads).size_eq (by decide)

end Paneflow.Code.HighlightRun
