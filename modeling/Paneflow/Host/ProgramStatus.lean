import Paneflow.Table
import Mathlib

/-!
# The statuses of programs

program_status.rs of the host. A program reports statuses under ids, which a slash divides into a hierarchy; the
empty id is its root. At most 256 records are held, and what is published is one of them.

`run_records`: what holds of the records after every run.
-/

namespace Paneflow.Host

inductive ProgramStatusState where
  | idle
  | working
  | done
  | blocked
  | error
  | clear
  deriving DecidableEq, Repr

inductive ProgramStatusKind where
  | permission
  | question
  | auth
  deriving DecidableEq, Repr

structure ProgramStatusReport where
  state : ProgramStatusState
  kind : Option ProgramStatusKind
  progress : Option ℕ
  id : List Char
  app : List Char
  title : List Char
  message : List Char
  deriving DecidableEq, Repr

structure Record where
  report : ProgramStatusReport
  updated : ℕ
  deriving DecidableEq, Repr

structure ProgramStatusRecords where
  records : List Record
  clock : ℕ
  deriving DecidableEq, Repr

def maxProgramStatusRecords : ℕ := 256

/-- `id.strip_prefix(subtree)`, and what is left is empty or begins with a slash. -/
def isWithin (id subtree : List Char) : Bool :=
  subtree.isPrefixOf id && match id.drop subtree.length with
    | [] => true
    | ch :: _ => ch = '/'

/-- `swap_remove` -/
def swapRemove {α : Type} (xs : List α) (index : ℕ) : List α :=
  match xs.getLast? with
  | none => xs
  | some last => (xs.set index last).dropLast

/-- The part before the last slash, or nothing. -/
def parentId (id : List Char) : List Char := ((id.reverse.dropWhile (· ≠ '/')).drop 1).reverse

theorem length_parentId_lt {id : List Char} (h : id ≠ []) : (parentId id).length < id.length := by
  have hle := (List.dropWhile_sublist (fun ch => decide (ch ≠ '/')) (l := id.reverse)).length_le
  have hpos := List.length_pos_iff.2 h
  unfold parentId
  rw [List.length_reverse, List.length_drop]
  rw [List.length_reverse] at hle
  omega

namespace ProgramStatusRecords

def default : ProgramStatusRecords := ⟨[], 0⟩

def clear (records : ProgramStatusRecords) : ProgramStatusRecords := { records with records := [] }

def clearSubtree (records : ProgramStatusRecords) (id : List Char) : ProgramStatusRecords :=
  if id.isEmpty then records.clear
  else { records with
    records := records.records.filter fun record => !isWithin record.report.id id }

/-- The index of the record that was updated first. -/
def stalest (records : List Record) : Option ℕ :=
  (records.zipIdx.argmin fun entry => entry.1.updated).map Prod.snd

def apply (records : ProgramStatusRecords) (report : ProgramStatusReport) : ProgramStatusRecords :=
  if report.state = .clear then records.clearSubtree report.id
  else
    let updated := (records.clock + 1) % 2 ^ 64
    match records.records.findIdx? fun record => record.report.id = report.id with
    | some index => ⟨records.records.set index ⟨report, updated⟩, updated⟩
    | none =>
      let kept := if records.records.length ≥ maxProgramStatusRecords then
          match stalest records.records with
          | some index => swapRemove records.records index
          | none => records.records
        else records.records
      ⟨kept ++ [⟨report, updated⟩], updated⟩

def finished (report : ProgramStatusReport) : Bool := report.state = .done || report.state = .error

def releaseFinishedProgram (records : ProgramStatusRecords) : ProgramStatusRecords :=
  { records with records := records.records.filter fun record => finished record.report }

def acknowledgeSeen (records : ProgramStatusRecords) : ProgramStatusRecords :=
  { records with records := records.records.filter fun record => !finished record.report }

/-- `current`; of the records that were updated last the last one is taken. -/
def current (records : ProgramStatusRecords) : Option ProgramStatusReport :=
  ((records.records.find? fun record => record.report.id.isEmpty).or
    (records.records.reverse.argmax Record.updated)).map Record.report

def inheritedApp (records : List Record) (id : List Char) : Option (List Char) :=
  if _h : id = [] then none
  else
    let ancestor := parentId id
    match records.find? fun record => record.report.id = ancestor && !record.report.app.isEmpty with
    | some record => some record.report.app
    | none => inheritedApp records ancestor
termination_by id.length
decreasing_by exact length_parentId_lt _h

def published (records : ProgramStatusRecords) : Option ProgramStatusReport :=
  records.current.map fun report =>
    if report.app.isEmpty then
      { report with app := (inheritedApp records.records report.id).getD [] }
    else report

end ProgramStatusRecords

/-! ### Ids -/

/-- The id is the other one, or below it. -/
def Below (id subtree : List Char) : Prop := id = subtree ∨ ∃ rest, id = subtree ++ '/' :: rest

theorem isWithin_iff {id subtree : List Char} : isWithin id subtree = true ↔ Below id subtree := by
  unfold isWithin Below
  rw [Bool.and_eq_true, List.isPrefixOf_iff_prefix]
  constructor
  · rintro ⟨⟨rest, rfl⟩, hrest⟩
    rw [List.drop_left] at hrest
    match rest, hrest with
    | [], _ => exact .inl (List.append_nil subtree)
    | ch :: rest, hrest =>
      have hslash : ch = '/' := of_decide_eq_true hrest
      exact .inr ⟨rest, by rw [hslash]⟩
  · rintro (rfl | ⟨rest, rfl⟩)
    · exact ⟨List.prefix_refl id, by rw [List.drop_length]⟩
    · refine ⟨List.prefix_append .., ?_⟩
      rw [List.drop_left]
      rfl

/-- The first id is properly below the second one. -/
def Ancestor (id ancestor : List Char) : Prop := ∃ rest, id = ancestor ++ '/' :: rest

theorem parentId_of_slash (parent : List Char) {rest : List Char} (h : '/' ∉ rest) :
    parentId (parent ++ '/' :: rest) = parent := by
  have hrest : ∀ ch ∈ rest.reverse, decide (ch ≠ '/') = true := by
    intro ch hch
    rw [decide_eq_true_eq]
    rintro rfl
    exact h (List.mem_reverse.1 hch)
  have hreverse : (parent ++ '/' :: rest).reverse = rest.reverse ++ '/' :: parent.reverse := by simp
  unfold parentId
  rw [hreverse, List.dropWhile_append_of_pos hrest, List.dropWhile_cons_of_neg (by simp),
    List.drop_one, List.tail_cons, List.reverse_reverse]

theorem parentId_of_no_slash {id : List Char} (h : '/' ∉ id) : parentId id = [] := by
  have hid : id.reverse.dropWhile (fun ch => decide (ch ≠ '/')) = [] := by
    rw [List.dropWhile_eq_nil_iff]
    intro ch hch
    rw [decide_eq_true_eq]
    rintro rfl
    exact h (List.mem_reverse.1 hch)
  unfold parentId
  rw [hid]
  rfl

/-- What stands behind the last slash. -/
theorem exists_last_slash {id : List Char} (h : '/' ∈ id) :
    ∃ parent rest, id = parent ++ '/' :: rest ∧ '/' ∉ rest := by
  induction id with
  | nil => cases h
  | cons ch id ih =>
    by_cases hid : '/' ∈ id
    · obtain ⟨parent, rest, rfl, hrest⟩ := ih hid
      exact ⟨ch :: parent, rest, rfl, hrest⟩
    · have hslash : '/' = ch := by
        rcases List.mem_cons.1 h with hslash | hmem
        · exact hslash
        · exact absurd hmem hid
      exact ⟨[], id, by rw [hslash, List.nil_append], hid⟩

/-- The ancestors of an id are its parent and the ancestors of that. -/
theorem ancestor_iff {id other : List Char} (h : '/' ∈ id) :
    Ancestor id other ↔ other = parentId id ∨ Ancestor (parentId id) other := by
  obtain ⟨parent, rest, rfl, hrest⟩ := exists_last_slash h
  rw [parentId_of_slash parent hrest]
  constructor
  · rintro ⟨rest', heq⟩
    rcases List.append_eq_append_iff.1 heq with ⟨more, hother, hmore⟩ | ⟨more, hparent, hmore⟩
    · left
      cases more with
      | nil => rw [hother, List.append_nil]
      | cons ch more =>
        obtain ⟨-, hrest'⟩ := List.cons.inj hmore
        exact absurd (by rw [hrest']; simp) hrest
    · cases more with
      | nil => exact .inl (by rw [hparent, List.append_nil])
      | cons ch more =>
        obtain ⟨hslash, -⟩ := List.cons.inj hmore
        exact .inr ⟨more, by rw [hparent, ← hslash]⟩
  · rintro (rfl | ⟨more, rfl⟩)
    · exact ⟨rest, rfl⟩
    · exact ⟨more ++ '/' :: rest, by simp⟩

theorem not_ancestor_of_no_slash {id other : List Char} (h : '/' ∉ id) : ¬ Ancestor id other := by
  rintro ⟨rest, rfl⟩
  exact h (by simp)

/-- The record is the nearest ancestor of the id that has an app. -/
structure Nearest (records : List Record) (id : List Char) (record : Record) : Prop where
  mem : record ∈ records
  ancestor : Ancestor id record.report.id
  app : record.report.app ≠ []
  nearest : ∀ other ∈ records, Ancestor id other.report.id → other.report.app ≠ [] →
    Below record.report.id other.report.id

/-- Without a root record, the app is that of the nearest ancestor that has one. -/
theorem inheritedApp_spec {records : List Record} (hroot : ∀ record ∈ records, record.report.id ≠ [])
    (id : List Char) :
    (∃ record, Nearest records id record ∧
      ProgramStatusRecords.inheritedApp records id = some record.report.app) ∨
    (∀ record ∈ records, Ancestor id record.report.id → record.report.app = []) ∧
      ProgramStatusRecords.inheritedApp records id = none := by
  induction id using ProgramStatusRecords.inheritedApp.induct records with
  | case1 =>
    right
    refine ⟨?_, by rw [ProgramStatusRecords.inheritedApp]; rfl⟩
    intro record _ hancestor
    exact absurd hancestor (not_ancestor_of_no_slash List.not_mem_nil)
  | case2 id hid ancestor record hfind =>
    left
    have hmem := List.mem_of_find?_eq_some hfind
    have hfound := List.find?_some hfind
    rw [Bool.and_eq_true, decide_eq_true_eq] at hfound
    have happ : record.report.app ≠ [] := by simpa using hfound.2
    have hslash : '/' ∈ id := by
      by_contra hno
      exact hroot record hmem (hfound.1.trans (parentId_of_no_slash hno))
    refine ⟨record, ⟨hmem, (ancestor_iff hslash).2 (.inl hfound.1), happ, ?_⟩, ?_⟩
    · intro other _ hother _
      rw [hfound.1]
      rcases (ancestor_iff hslash).1 hother with heq | hancestor
      · exact .inl heq.symm
      · exact .inr hancestor
    · rw [ProgramStatusRecords.inheritedApp, dif_neg hid]
      dsimp only
      rw [hfind]
  | case3 id hid ancestor hfind ih =>
    have hstep : ProgramStatusRecords.inheritedApp records id =
        ProgramStatusRecords.inheritedApp records (parentId id) := by
      rw [ProgramStatusRecords.inheritedApp, dif_neg hid]
      dsimp only
      rw [hfind]
    rw [hstep]
    by_cases hslash : '/' ∈ id
    · -- the parent has no app, so it is no candidate
      have hparent : ∀ record ∈ records, record.report.id = parentId id → record.report.app = [] := by
        intro record hmem hrecord
        have hnot := List.find?_eq_none.1 hfind record hmem
        rw [Bool.and_eq_true, decide_eq_true_eq] at hnot
        by_contra happ
        exact hnot ⟨hrecord, by simpa using happ⟩
      rcases ih with ⟨record, hnearest, heq⟩ | ⟨hnone, heq⟩
      · left
        refine ⟨record, ⟨hnearest.mem, (ancestor_iff hslash).2 (.inr hnearest.ancestor), hnearest.app, ?_⟩, heq⟩
        intro other hmem hother happ
        rcases (ancestor_iff hslash).1 hother with hother | hother
        · exact absurd (hparent other hmem hother) happ
        · exact hnearest.nearest other hmem hother happ
      · right
        refine ⟨?_, heq⟩
        intro record hmem hancestor
        rcases (ancestor_iff hslash).1 hancestor with hrecord | hancestor
        · exact hparent record hmem hrecord
        · exact hnone record hmem hancestor
    · right
      refine ⟨fun record _ hancestor => absurd hancestor (not_ancestor_of_no_slash hslash), ?_⟩
      rw [parentId_of_no_slash hslash, ProgramStatusRecords.inheritedApp]
      rfl

/-! ### Runs -/

inductive StatusOp where
  | apply (report : ProgramStatusReport)
  | releaseFinishedProgram
  | acknowledgeSeen
  | clear
  deriving DecidableEq, Repr

def StatusOp.run (records : ProgramStatusRecords) : StatusOp → ProgramStatusRecords
  | .apply report => records.apply report
  | .releaseFinishedProgram => records.releaseFinishedProgram
  | .acknowledgeSeen => records.acknowledgeSeen
  | .clear => records.clear

def runStatus (ops : List StatusOp) : ProgramStatusRecords := ops.foldl StatusOp.run .default

/-- The report that an operation stores. -/
def StatusOp.update : StatusOp → Option ProgramStatusReport
  | .apply report => if report.state = .clear then none else some report
  | _ => none

/-- The reports that were stored, in their order. -/
def updates (ops : List StatusOp) : List ProgramStatusReport := ops.filterMap StatusOp.update

/-- The record holds the last update of its id, under the number of that update. -/
def LastUpdate (history : List ProgramStatusReport) (record : Record) : Prop :=
  ∃ before after, history = before ++ record.report :: after ∧ record.updated = before.length + 1 ∧
    ∀ later ∈ after, later.id ≠ record.report.id

theorem LastUpdate.unique {history : List ProgramStatusReport} {record other : Record}
    (h : LastUpdate history record) (h' : LastUpdate history other)
    (heq : record.updated = other.updated) : record = other := by
  obtain ⟨before, after, hsplit, hupdated, -⟩ := h
  obtain ⟨before', after', hsplit', hupdated', -⟩ := h'
  have hlength : before.length = before'.length := by omega
  obtain ⟨-, htail⟩ := List.append_inj (hsplit.symm.trans hsplit') hlength
  obtain ⟨hreport, -⟩ := List.cons.inj htail
  rcases record with ⟨report, updated⟩
  rcases other with ⟨report', updated'⟩
  have hreport : report = report' := hreport
  have heq : updated = updated' := heq
  rw [hreport, heq]

theorem LastUpdate.append {history : List ProgramStatusReport} {record : Record}
    {report : ProgramStatusReport} (h : LastUpdate history record)
    (hne : report.id ≠ record.report.id) : LastUpdate (history ++ [report]) record := by
  obtain ⟨before, after, rfl, hupdated, hafter⟩ := h
  refine ⟨before, after ++ [report], by simp, hupdated, ?_⟩
  intro later hlater
  rcases List.mem_append.1 hlater with hlater | hlater
  · exact hafter later hlater
  · rw [List.mem_singleton.1 hlater]
    exact hne

theorem lastUpdate_append_self (history : List ProgramStatusReport) (report : ProgramStatusReport) :
    LastUpdate (history ++ [report]) ⟨report, history.length + 1⟩ :=
  ⟨history, [], rfl, rfl, fun _ h => absurd h List.not_mem_nil⟩

/-- The records after the updates. -/
structure Tracks (history : List ProgramStatusReport) (records : ProgramStatusRecords) : Prop where
  clock : records.clock = history.length
  ids : (records.records.map (·.report.id)).Nodup
  length : records.records.length ≤ maxProgramStatusRecords
  last : ∀ record ∈ records.records, LastUpdate history record

/-- Records may be left out. -/
theorem Tracks.sublist {history : List ProgramStatusReport} {records : ProgramStatusRecords}
    (h : Tracks history records) {kept : List Record} (hkept : kept.Sublist records.records) :
    Tracks history { records with records := kept } where
  clock := h.clock
  ids := h.ids.sublist (hkept.map _)
  length := hkept.length_le.trans h.length
  last record hrecord := h.last record (hkept.subset hrecord)

theorem swapRemove_perm {α : Type} {xs : List α} {index : ℕ} {x : α} (h : xs[index]? = some x) :
    xs.Perm (x :: swapRemove xs index) := by
  obtain ⟨front, back, rfl, rfl⟩ : ∃ front back, xs = front ++ x :: back ∧ front.length = index := by
    obtain ⟨hlt, hget⟩ := List.getElem?_eq_some_iff.1 h
    refine ⟨xs.take index, xs.drop (index + 1), ?_, by rw [List.length_take]; omega⟩
    rw [← hget, ← List.drop_eq_getElem_cons hlt, List.take_append_drop]
  rcases List.eq_nil_or_concat back with rfl | ⟨middle, last, rfl⟩
  · have hswap : swapRemove (front ++ [x]) front.length = front := by simp [swapRemove]
    rw [hswap]
    exact List.perm_append_singleton x front
  · have hswap : swapRemove (front ++ x :: middle.concat last) front.length =
        front ++ last :: middle := by
      have hlast : (front ++ x :: (middle ++ [last])).getLast? = some last := by
        rw [← List.cons_append, ← List.append_assoc, List.getLast?_concat]
      have hset : (front ++ x :: (middle ++ [last])).set front.length last =
          (front ++ last :: middle) ++ [last] := by simp
      unfold swapRemove
      rw [List.concat_eq_append, hlast]
      dsimp only
      rw [hset, List.dropLast_concat]
    rw [hswap, List.concat_eq_append]
    have hmiddle : (middle ++ [last]).Perm (last :: middle) := List.perm_append_singleton last middle
    exact (List.perm_middle.trans ((hmiddle.append_left front).cons x))

theorem stalest_eq_some {records : List Record} {index : ℕ}
    (h : ProgramStatusRecords.stalest records = some index) :
    ∃ record, records[index]? = some record ∧ ∀ other ∈ records, record.updated ≤ other.updated := by
  obtain ⟨⟨record, place⟩, hmin, rfl⟩ := Option.map_eq_some_iff.1 h
  refine ⟨record, List.mem_zipIdx_iff_getElem?.1 (List.argmin_mem hmin), ?_⟩
  intro other hother
  obtain ⟨place', hplace'⟩ := List.getElem?_of_mem hother
  have hentry : (other, place') ∈ records.zipIdx := List.mem_zipIdx_iff_getElem?.2 hplace'
  have hle := List.le_of_mem_argmin hentry hmin
  exact hle

theorem stalest_ne_none {records : List Record} (h : records ≠ []) :
    ProgramStatusRecords.stalest records ≠ none := by
  intro hnone
  have hnil := List.argmin_eq_none.1 (Option.map_eq_none_iff.1 hnone)
  exact h (by simpa using hnil)

/-- A report is stored over the record of its id, behind the others, or in the place of the record that was updated
first. -/
theorem apply_cases (records : ProgramStatusRecords) {report : ProgramStatusReport}
    (hstate : report.state ≠ .clear) :
    (∃ index old, records.records[index]? = some old ∧ old.report.id = report.id ∧
      records.apply report = ⟨records.records.set index ⟨report, (records.clock + 1) % 2 ^ 64⟩,
        (records.clock + 1) % 2 ^ 64⟩) ∨
    ((∀ record ∈ records.records, record.report.id ≠ report.id) ∧
      records.records.length < maxProgramStatusRecords ∧
      records.apply report = ⟨records.records ++ [⟨report, (records.clock + 1) % 2 ^ 64⟩],
        (records.clock + 1) % 2 ^ 64⟩) ∨
    ((∀ record ∈ records.records, record.report.id ≠ report.id) ∧
      maxProgramStatusRecords ≤ records.records.length ∧
      ∃ oldest kept, records.records.Perm (oldest :: kept) ∧
        (∀ record ∈ records.records, oldest.updated ≤ record.updated) ∧
        records.apply report = ⟨kept ++ [⟨report, (records.clock + 1) % 2 ^ 64⟩],
          (records.clock + 1) % 2 ^ 64⟩) := by
  unfold ProgramStatusRecords.apply
  rw [if_neg hstate]
  dsimp only
  rcases hfind : records.records.findIdx? (fun record => record.report.id = report.id) with _ | index
  · have hnew : ∀ record ∈ records.records, record.report.id ≠ report.id := by
      intro record hrecord
      simpa using List.findIdx?_eq_none_iff.1 hfind record hrecord
    by_cases hfull : maxProgramStatusRecords ≤ records.records.length
    · have hne : records.records ≠ [] := by
        intro hnil
        rw [hnil] at hfull
        exact absurd hfull (by decide)
      obtain ⟨index, hindex⟩ := Option.ne_none_iff_exists'.1 (stalest_ne_none hne)
      obtain ⟨oldest, hget, hleast⟩ := stalest_eq_some hindex
      refine .inr (.inr ⟨hnew, hfull, oldest, swapRemove records.records index, swapRemove_perm hget, hleast, ?_⟩)
      rw [hfind, if_pos hfull, hindex]
    · refine .inr (.inl ⟨hnew, Nat.lt_of_not_le hfull, ?_⟩)
      rw [hfind, if_neg hfull]
  · obtain ⟨hlt, hid, -⟩ := List.findIdx?_eq_some_iff_getElem.1 hfind
    exact .inl ⟨index, records.records.get ⟨index, hlt⟩, List.getElem?_eq_getElem hlt,
      of_decide_eq_true hid, by rw [hfind]⟩

/-- The fresh record, with records that are of other ids. -/
theorem Tracks.store {history : List ProgramStatusReport} {records : ProgramStatusRecords}
    (h : Tracks history records) {report : ProgramStatusReport} {stored kept : List Record}
    (hstored : stored.Perm (⟨report, history.length + 1⟩ :: kept)) (hkept : kept ⊆ records.records)
    (hids : (kept.map (·.report.id)).Nodup) (hnew : ∀ record ∈ kept, record.report.id ≠ report.id)
    (hlength : kept.length < maxProgramStatusRecords) :
    Tracks (history ++ [report]) ⟨stored, history.length + 1⟩ where
  clock := by rw [List.length_append, List.length_singleton]
  ids := by
    have hperm := hstored.map (·.report.id)
    refine hperm.nodup_iff.2 (List.nodup_cons.2 ⟨?_, hids⟩)
    intro hmem
    obtain ⟨record, hrecord, hid⟩ := List.mem_map.1 hmem
    exact hnew record hrecord hid
  length := by
    have hcount := hstored.length_eq
    rw [List.length_cons] at hcount
    exact hcount.le.trans hlength
  last record hrecord := by
    rcases List.mem_cons.1 (hstored.subset hrecord) with rfl | hmem
    · exact lastUpdate_append_self history report
    · exact (h.last record (hkept hmem)).append (hnew record hmem).symm

theorem Tracks.apply {history : List ProgramStatusReport} {records : ProgramStatusRecords}
    (h : Tracks history records) {report : ProgramStatusReport} (hstate : report.state ≠ .clear)
    (hcount : history.length + 1 < 2 ^ 64) :
    Tracks (history ++ [report]) (records.apply report) := by
  have hclock : (records.clock + 1) % 2 ^ 64 = history.length + 1 := by
    rw [h.clock, Nat.mod_eq_of_lt hcount]
  rcases apply_cases records hstate with ⟨index, old, hget, hid, heq⟩ |
    ⟨hnew, hroom, heq⟩ | ⟨hnew, hfull, oldest, kept, hperm, -, heq⟩
  · rw [heq, hclock]
    obtain ⟨others, hothers, hset⟩ := Table.set_perm hget ⟨report, history.length + 1⟩
    have hnodup := (hothers.map (·.report.id)).nodup_iff.1 h.ids
    obtain ⟨hout, hids⟩ := List.nodup_cons.1 hnodup
    refine h.store hset (fun record hrecord => hothers.symm.subset (List.mem_cons_of_mem old hrecord)) hids ?_ ?_
    · intro record hrecord hsame
      exact hout (List.mem_map.2 ⟨record, hrecord, hsame.trans hid.symm⟩)
    · have hlength := hothers.length_eq
      rw [List.length_cons] at hlength
      have hbound := h.length
      omega
  · rw [heq, hclock]
    exact h.store (List.perm_append_singleton _ _) (List.Subset.refl _) h.ids hnew hroom
  · rw [heq, hclock]
    have hkept : kept ⊆ records.records :=
      fun record hrecord => hperm.symm.subset (List.mem_cons_of_mem oldest hrecord)
    have hnodup := (hperm.map (·.report.id)).nodup_iff.1 h.ids
    refine h.store (List.perm_append_singleton _ _) hkept (List.nodup_cons.1 hnodup).2
      (fun record hrecord => hnew record (hkept hrecord)) ?_
    have hlength := hperm.length_eq
    rw [List.length_cons] at hlength
    have hbound := h.length
    omega

theorem clearSubtree_sublist (records : ProgramStatusRecords) (id : List Char) :
    ∃ kept, kept.Sublist records.records ∧
      records.clearSubtree id = { records with records := kept } := by
  unfold ProgramStatusRecords.clearSubtree
  split
  · exact ⟨[], List.nil_sublist _, rfl⟩
  · exact ⟨_, List.filter_sublist, rfl⟩

theorem Tracks.step {history : List ProgramStatusReport} {records : ProgramStatusRecords}
    (h : Tracks history records) (op : StatusOp)
    (hcount : (history ++ op.update.toList).length < 2 ^ 64) :
    Tracks (history ++ op.update.toList) (op.run records) := by
  rcases op with report | _ | _ | _
  · by_cases hstate : report.state = .clear
    · have hupdate : (StatusOp.apply report).update = none := if_pos hstate
      have happly : records.apply report = records.clearSubtree report.id := if_pos hstate
      obtain ⟨kept, hkept, hclear⟩ := clearSubtree_sublist records report.id
      rw [hupdate, Option.toList_none, List.append_nil]
      show Tracks history (records.apply report)
      rw [happly, hclear]
      exact h.sublist hkept
    · have hupdate : (StatusOp.apply report).update = some report := if_neg hstate
      rw [hupdate, Option.toList_some] at hcount ⊢
      rw [List.length_append, List.length_singleton] at hcount
      exact h.apply hstate hcount
  · rw [show StatusOp.releaseFinishedProgram.update = none from rfl, Option.toList_none, List.append_nil]
    exact h.sublist List.filter_sublist
  · rw [show StatusOp.acknowledgeSeen.update = none from rfl, Option.toList_none, List.append_nil]
    exact h.sublist List.filter_sublist
  · rw [show StatusOp.clear.update = none from rfl, Option.toList_none, List.append_nil]
    exact h.sublist (List.nil_sublist _)

theorem updates_concat (ops : List StatusOp) (op : StatusOp) :
    updates (ops ++ [op]) = updates ops ++ op.update.toList := by
  unfold updates
  rw [List.filterMap_append]
  cases hop : op.update <;> simp [hop]

theorem run_tracks {ops : List StatusOp} (hcount : (updates ops).length < 2 ^ 64) :
    Tracks (updates ops) (runStatus ops) := by
  induction ops using List.reverseRecOn with
  | nil => exact ⟨rfl, List.nodup_nil, Nat.zero_le _, fun _ h => absurd h List.not_mem_nil⟩
  | append_singleton ops op ih =>
    rw [updates_concat] at hcount ⊢
    have hbefore : (updates ops).length < 2 ^ 64 := by
      rw [List.length_append] at hcount
      omega
    have hrun : runStatus (ops ++ [op]) = op.run (runStatus ops) := by
      unfold runStatus
      rw [List.foldl_append]
      rfl
    rw [hrun]
    exact (ih hbefore).step op hcount

/-! ### What is held and published -/

/-- What a clear of the subtree takes away: the root stands over all ids. -/
def InSubtree (id subtree : List Char) : Prop := subtree = [] ∨ Below id subtree

theorem mem_clearSubtree {records : ProgramStatusRecords} {id : List Char} {record : Record} :
    record ∈ (records.clearSubtree id).records ↔
      record ∈ records.records ∧ ¬ InSubtree record.report.id id := by
  unfold ProgramStatusRecords.clearSubtree InSubtree
  by_cases hid : id = []
  · rw [if_pos (List.isEmpty_iff.2 hid)]
    show record ∈ [] ↔ _
    simp [hid]
  · have hne : ¬ id.isEmpty = true := fun h => hid (List.isEmpty_iff.1 h)
    rw [if_neg hne]
    show record ∈ records.records.filter _ ↔ _
    rw [List.mem_filter, Bool.not_eq_true', ← Bool.not_eq_true, isWithin_iff]
    simp [hid]

/-- The record was updated before all others that are held. -/
def Oldest (records : List Record) (record : Record) : Prop :=
  record ∈ records ∧ ∀ other ∈ records, other ≠ record → record.updated < other.updated

/-- The record was updated after all others that are held. -/
def Newest (records : List Record) (record : Record) : Prop :=
  record ∈ records ∧ ∀ other ∈ records, other ≠ record → other.updated < record.updated

theorem Tracks.lt_of_le {history : List ProgramStatusReport} {records : ProgramStatusRecords}
    (h : Tracks history records) {record other : Record} (hrecord : record ∈ records.records)
    (hother : other ∈ records.records) (hle : record.updated ≤ other.updated) (hne : other ≠ record) :
    record.updated < other.updated := by
  refine Nat.lt_of_le_of_ne hle fun heq => hne ?_
  exact (h.last other hother).unique (h.last record hrecord) heq.symm

theorem Tracks.evicts {history : List ProgramStatusReport} {records : ProgramStatusRecords}
    (h : Tracks history records) {report : ProgramStatusReport} (hstate : report.state ≠ .clear)
    (hnew : ∀ record ∈ records.records, record.report.id ≠ report.id)
    (hfull : records.records.length = maxProgramStatusRecords) :
    ∃ oldest kept updated, Oldest records.records oldest ∧ records.records.Perm (oldest :: kept) ∧
      (records.apply report).records = kept ++ [⟨report, updated⟩] := by
  rcases apply_cases records hstate with ⟨index, old, hget, hid, -⟩ |
    ⟨-, hroom, -⟩ | ⟨-, -, oldest, kept, hperm, hleast, heq⟩
  · exact absurd hid (hnew old (List.mem_of_getElem? hget))
  · exact absurd hfull hroom.ne
  · have hmem : oldest ∈ records.records := hperm.symm.subset List.mem_cons_self
    refine ⟨oldest, kept, _, ⟨hmem, ?_⟩, hperm, congrArg ProgramStatusRecords.records heq⟩
    intro other hother hne
    exact h.lt_of_le hmem hother (hleast other hother) hne

theorem current_of_root {records : ProgramStatusRecords} {record : Record}
    (hids : (records.records.map (·.report.id)).Nodup) (hmem : record ∈ records.records)
    (hroot : record.report.id = []) : records.current = some record.report := by
  have hfound : (records.records.find? fun record => record.report.id.isEmpty) = some record := by
    rcases hfind : records.records.find? (fun record => record.report.id.isEmpty) with _ | other
    · have hnot := List.find?_eq_none.1 hfind record hmem
      exact absurd (List.isEmpty_iff.2 hroot) hnot
    · have hempty := List.find?_some hfind
      have hother : other.report.id = [] := List.isEmpty_iff.1 hempty
      have hsame := List.inj_on_of_nodup_map hids (List.mem_of_find?_eq_some hfind) hmem
        (hother.trans hroot.symm)
      rw [hfind, hsame]
  unfold ProgramStatusRecords.current
  rw [hfound]
  rfl

theorem Tracks.current_of_no_root {history : List ProgramStatusReport} {records : ProgramStatusRecords}
    (h : Tracks history records) (hroot : ∀ record ∈ records.records, record.report.id ≠ [])
    (hne : records.records ≠ []) :
    ∃ newest, Newest records.records newest ∧ records.current = some newest.report := by
  have hnone : (records.records.find? fun record => record.report.id.isEmpty) = none := by
    refine List.find?_eq_none.2 fun record hrecord hempty => ?_
    exact hroot record hrecord (List.isEmpty_iff.1 hempty)
  obtain ⟨newest, hnewest⟩ : ∃ newest, records.records.reverse.argmax Record.updated = some newest := by
    refine Option.ne_none_iff_exists'.1 fun hargmax => hne ?_
    exact List.reverse_eq_nil_iff.1 (List.argmax_eq_none.1 hargmax)
  have hmem : newest ∈ records.records := List.mem_reverse.1 (List.argmax_mem hnewest)
  refine ⟨newest, ⟨hmem, ?_⟩, ?_⟩
  · intro other hother hdiffer
    have hle : other.updated ≤ newest.updated :=
      List.le_of_mem_argmax (List.mem_reverse.2 hother) hnewest
    exact h.lt_of_le hother hmem hle hdiffer.symm
  · unfold ProgramStatusRecords.current
    rw [hnone, hnewest]
    rfl

/-- The app that is published for a record: its own, or that of the nearest ancestor with one. -/
def PublishedApp (records : List Record) (report : ProgramStatusReport) (app : List Char) : Prop :=
  (report.app ≠ [] ∧ app = report.app) ∨
  (report.app = [] ∧ ∃ record, Nearest records report.id record ∧ app = record.report.app) ∨
  (report.app = [] ∧ (∀ record ∈ records, Ancestor report.id record.report.id → record.report.app = []) ∧
    app = [])

theorem published_app {records : ProgramStatusRecords} {report : ProgramStatusReport}
    (hcurrent : records.current = some report)
    (hroot : report.id = [] ∨ ∀ record ∈ records.records, record.report.id ≠ []) :
    ∃ app, PublishedApp records.records report app ∧
      records.published = some { report with app := app } := by
  have hpublished : records.published = some (if report.app.isEmpty then
      { report with app := (ProgramStatusRecords.inheritedApp records.records report.id).getD [] }
      else report) := by
    unfold ProgramStatusRecords.published
    rw [hcurrent]
    rfl
  rw [hpublished]
  by_cases happ : report.app = []
  · rw [if_pos (List.isEmpty_iff.2 happ)]
    rcases hroot with hid | hroot
    · have hinherited : ProgramStatusRecords.inheritedApp records.records report.id = none := by
        rw [hid, ProgramStatusRecords.inheritedApp]
        rfl
      refine ⟨[], .inr (.inr ⟨happ, ?_, rfl⟩), by rw [hinherited]; rfl⟩
      intro record _ hancestor
      rw [hid] at hancestor
      exact absurd hancestor (not_ancestor_of_no_slash List.not_mem_nil)
    · rcases inheritedApp_spec hroot report.id with ⟨record, hnearest, heq⟩ | ⟨hnone, heq⟩
      · exact ⟨record.report.app, .inr (.inl ⟨happ, record, hnearest, rfl⟩), by rw [heq]; rfl⟩
      · exact ⟨[], .inr (.inr ⟨happ, hnone, rfl⟩), by rw [heq]; rfl⟩
  · have hne : ¬ report.app.isEmpty = true := fun h => happ (List.isEmpty_iff.1 h)
    rw [if_neg hne]
    exact ⟨report.app, .inl ⟨happ, rfl⟩, rfl⟩

/-- The record that is current: the root's, or the newest when the root has none. -/
def IsCurrent (records : List Record) (record : Record) : Prop :=
  record ∈ records ∧ (record.report.id = [] ∨
    (∀ other ∈ records, other.report.id ≠ []) ∧ Newest records record)

theorem Tracks.current {history : List ProgramStatusReport} {records : ProgramStatusRecords}
    (h : Tracks history records) (hne : records.records ≠ []) :
    ∃ record, IsCurrent records.records record ∧ records.current = some record.report := by
  by_cases hroot : ∃ record ∈ records.records, record.report.id = []
  · obtain ⟨record, hmem, hid⟩ := hroot
    exact ⟨record, ⟨hmem, .inl hid⟩, current_of_root h.ids hmem hid⟩
  · push Not at hroot
    obtain ⟨newest, hnewest, heq⟩ := h.current_of_no_root hroot hne
    exact ⟨newest, ⟨hnewest.1, .inr ⟨hroot, hnewest⟩⟩, heq⟩

/-- After every run of less than 2^64 stored reports the ids of the records are distinct, at most 256 of them are held,
and each record has the number of the last update of its id. The report that is stored into the full records takes the
place of the one that was updated least recently. A clear takes away the ids of its subtree and no others. What is
published is the record of the root or else the one that was updated last, with its own app or that of its nearest
ancestor that has one. -/
theorem run_records {ops : List StatusOp} (hcount : (updates ops).length < 2 ^ 64) :
    ((runStatus ops).records.map (·.report.id)).Nodup ∧
    (runStatus ops).records.length ≤ maxProgramStatusRecords ∧
    (∀ record ∈ (runStatus ops).records, LastUpdate (updates ops) record) ∧
    (∀ report : ProgramStatusReport, report.state ≠ .clear →
      (∀ record ∈ (runStatus ops).records, record.report.id ≠ report.id) →
      (runStatus ops).records.length = maxProgramStatusRecords →
      ∃ oldest kept updated, Oldest (runStatus ops).records oldest ∧
        (runStatus ops).records.Perm (oldest :: kept) ∧
        (runStatus (ops ++ [.apply report])).records = kept ++ [⟨report, updated⟩]) ∧
    (∀ report : ProgramStatusReport, report.state = .clear → ∀ record,
      record ∈ (runStatus (ops ++ [.apply report])).records ↔
        record ∈ (runStatus ops).records ∧ ¬ InSubtree record.report.id report.id) ∧
    ((runStatus ops).records = [] ∧ (runStatus ops).published = none ∨
      ∃ record app, IsCurrent (runStatus ops).records record ∧
        (runStatus ops).current = some record.report ∧
        PublishedApp (runStatus ops).records record.report app ∧
        (runStatus ops).published = some { record.report with app := app }) := by
  have htracks := run_tracks hcount
  have hrun : ∀ op, runStatus (ops ++ [op]) = op.run (runStatus ops) := by
    intro op
    unfold runStatus
    rw [List.foldl_append]
    rfl
  refine ⟨htracks.ids, htracks.length, htracks.last, ?_, ?_, ?_⟩
  · intro report hstate hnew hfull
    rw [hrun]
    exact htracks.evicts hstate hnew hfull
  · intro report hstate record
    have hclear : runStatus (ops ++ [.apply report]) = (runStatus ops).clearSubtree report.id := by
      rw [hrun]
      exact if_pos hstate
    rw [hclear, mem_clearSubtree]
  · by_cases hempty : (runStatus ops).records = []
    · refine .inl ⟨hempty, ?_⟩
      unfold ProgramStatusRecords.published ProgramStatusRecords.current
      rw [hempty]
      rfl
    · obtain ⟨record, hcurrent, heq⟩ := htracks.current hempty
      obtain ⟨app, happ, hpublished⟩ := published_app heq (hcurrent.2.imp id And.left)
      exact .inr ⟨record, app, hcurrent, heq, happ, hpublished⟩

/-- A build under a suite: the suite's app is inherited through the id in between that has no record. -/
def nestedOps : List StatusOp :=
  [.apply ⟨.working, none, none, "ci".toList, "runner".toList, [], []⟩,
    .apply ⟨.working, none, some 40, "ci/unit/fast".toList, [], [], []⟩]

theorem run_records_nested :
    ((runStatus nestedOps).records.map (·.report.id)).Nodup ∧
      (runStatus nestedOps).published =
        some ⟨.working, none, some 40, "ci/unit/fast".toList, "runner".toList, [], []⟩ := by
  refine ⟨(@run_records nestedOps (by decide +kernel)).1, by decide +kernel⟩

end Paneflow.Host
