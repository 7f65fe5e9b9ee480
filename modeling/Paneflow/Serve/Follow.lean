import Paneflow.Json
import Paneflow.OrdMap
import Mathlib.Data.String.Basic
import Mathlib.Tactic.SplitIfs

/-!
# Following the worker

controller.rs and `Worker::publish` of server.rs. A follower keeps, for each session, the fingerprint of the
row that it was last shown: a full row replaces it, and an event puts its fields over it. When it comes back
after a lost link it shows the rows of the new bootstrap that are not as it has them.

`fresh_rows`: this is right in every run in which no event empties a field of the fingerprint.
-/

namespace Paneflow.Serve

open Paneflow.Json

/-! ### The follower -/

def rowFields : List String :=
  ["session", "title", "lifecycle", "live", "status", "activity_source", "outcome", "runtime_id",
    "unread", "restart_recommended"]

def rowActivityFields : List String := ["tool", "state"]

abbrev Fingerprint := OrdMap String Value

/-- What the loops of `row_fingerprint` look up, under the names that they give it. -/
def rowEntries (session : Value) : List (String × Option Value) :=
  let activity := (session.get "activity").or (session.get "agent")
  rowFields.map (fun field => (field, session.get field)) ++
    rowActivityFields.map fun field =>
      ("activity." ++ field, activity.bind fun activity => activity.get field)

/-- An entry of a fingerprint, unless it is missing or null. -/
def insertEntry (fingerprint : Fingerprint) (entry : String × Option Value) : Fingerprint :=
  match entry.2.filter fun value => !value.isNull with
  | some value => fingerprint.insert entry.1 value
  | none => fingerprint

def rowFingerprint (session : Value) : Fingerprint :=
  (rowEntries session).foldl insertEntry .empty

/-- The fingerprints that a `FollowSession` keeps; its other fields are the link. -/
structure FollowSession where
  published : OrdMap String Fingerprint

def sessionKey (session : Value) : Option String := (session.index "session").asStr

namespace FollowSession

def start : FollowSession := ⟨.empty⟩

def alreadyPublished (follow : FollowSession) (session : Value) : Bool :=
  match sessionKey session with
  | none => false
  | some key => follow.published.get? key = some (rowFingerprint session)

def remember (follow : FollowSession) (session : Value) : FollowSession :=
  match sessionKey session with
  | none => follow
  | some key => ⟨follow.published.insert key (rowFingerprint session)⟩

def rememberEvent (follow : FollowSession) (event : Value) : FollowSession :=
  match sessionKey event with
  | none => follow
  | some key =>
    let held := (follow.published.get? key).getD (OrdMap.empty.insert "session" (.string key))
    ⟨follow.published.insert key ((rowFingerprint event).entries.foldl
      (fun held entry => held.insert entry.1 entry.2) held)⟩

/-- The fresh list of a bootstrap, as `record_bootstrap` leaves it. -/
def fresh (follow : FollowSession) (sessions : List Value) (resumed : Bool) : List Value :=
  if resumed then sessions.filter fun session => !follow.alreadyPublished session else sessions

/-- What `record_bootstrap` keeps of a bootstrap. -/
def recordBootstrap (follow : FollowSession) (sessions : List Value) : FollowSession :=
  sessions.foldl remember follow

end FollowSession

/-- The event that `Worker::publish` broadcasts for a row that has changed. -/
def publish (session source notify : Value) : Value :=
  .object [
    ("type", .string "event"),
    ("session", session.index "session"),
    ("title", session.index "title"),
    ("kind", source.index "kind"),
    ("tool", source.index "tool"),
    ("pid", source.index "pid"),
    ("tool_name", source.index "tool_name"),
    ("exit_code", source.index "exit_code"),
    ("emitted_at_ms", source.index "emitted_at_ms"),
    ("event_source", source.index "event_source"),
    ("hook_payload", source.index "hook_payload"),
    ("agent", session.index "activity"),
    ("activity_source", session.index "activity_source"),
    ("status", session.index "status"),
    ("outcome", session.index "outcome"),
    ("runtime_id", session.index "runtime_id"),
    ("foreground_runtime_id", session.index "foreground_runtime_id"),
    ("unread", session.index "unread"),
    ("declared_status", session.index "declared_status"),
    ("program_status_capable", session.index "program_status_capable"),
    ("updated_at_ms", session.index "updated_at_ms"),
    ("notify", notify)]

/-- What a follower receives: a bootstrap, at first and after each lost link, a snapshot, and an event for a
row of the worker. -/
inductive Frame where
  | bootstrap (sessions : List Value)
  | snapshot (sessions : List Value)
  | event (session source notify : Value)

def FollowSession.classify (follow : FollowSession) : Frame → FollowSession
  | .bootstrap sessions => follow.recordBootstrap sessions
  | .snapshot sessions => sessions.foldl remember follow
  | .event session source notify => follow.rememberEvent (publish session source notify)

/-- The follower after the frames. -/
def followed (frames : List Frame) : FollowSession := frames.foldl .classify .start

/-! ### What the stream has carried -/

/-- A row with the fields of an event in place of its own; what an event calls the agent is the activity. -/
def overlay (row event : Value) : Value :=
  .object (event.fields.map
      (fun field => (if field.1 = "agent" then "activity" else field.1, field.2)) ++ row.fields)

/-- What is known of a session before its first row. -/
def keyOnly (key : String) : Value := .object [("session", .string key)]

/-- The last state of each session. -/
abbrev Carried := OrdMap String Value

namespace Carried

def carryRow (carried : Carried) (row : Value) : Carried :=
  match sessionKey row with
  | none => carried
  | some key => carried.insert key row

def carryEvent (carried : Carried) (event : Value) : Carried :=
  match sessionKey event with
  | none => carried
  | some key =>
    carried.insert key
      (overlay ((carried.get? key).getD (keyOnly key)) event)

def carry (carried : Carried) : Frame → Carried
  | .bootstrap sessions => sessions.foldl carryRow carried
  | .snapshot sessions => sessions.foldl carryRow carried
  | .event session source notify => carried.carryEvent (publish session source notify)

end Carried

/-- The last states that the frames carry. -/
def carriedBy (frames : List Frame) : Carried := frames.foldl .carry .empty

/-- The row is not as the stream has carried it last. -/
def Moved (carried : Carried) (row : Value) : Prop :=
  ((sessionKey row).bind carried.get?).map rowFingerprint ≠ some (rowFingerprint row)

instance (carried : Carried) (row : Value) : Decidable (Moved carried row) :=
  inferInstanceAs (Decidable (_ ≠ _))

/-! ### Fingerprints -/

/-- What a fingerprint of the value has under the name. -/
def entry (session : Value) (name : String) : Option Value :=
  ((rowEntries session).find? fun entry => entry.1 = name).bind fun entry =>
    entry.2.filter fun value => !value.isNull

theorem get?_foldl_insertEntry (entries : List (String × Option Value)) (held : Fingerprint)
    (hentries : entries.Pairwise fun x y => x.1 ≠ y.1) (name : String) :
    (entries.foldl insertEntry held).get? name =
      ((entries.find? fun entry => entry.1 = name).bind fun entry =>
        entry.2.filter fun value => !value.isNull).or (held.get? name) := by
  induction entries generalizing held with
  | nil => simp
  | cons entry entries ih =>
    obtain ⟨hentry, hentries⟩ := List.pairwise_cons.1 hentries
    rw [List.foldl_cons, ih _ hentries]
    unfold insertEntry
    by_cases hname : entry.1 = name
    · have hnone : entries.find? (fun entry => entry.1 = name) = none := by
        rw [List.find?_eq_none]
        intro other hother
        simpa [← hname] using (hentry other hother).symm
      rw [hnone, List.find?_cons_of_pos (by simpa using hname)]
      rw [Option.bind_some, Option.bind_none, Option.none_or]
      cases entry.2.filter fun value => !value.isNull with
      | none => rw [Option.none_or]
      | some value => rw [OrdMap.get?_insert, if_pos hname.symm, Option.some_or]
    · rw [List.find?_cons_of_neg (by simpa using hname)]
      cases entry.2.filter fun value => !value.isNull with
      | none => rfl
      | some value => rw [OrdMap.get?_insert, if_neg (Ne.symm hname)]

/-- The names in a fingerprint. -/
def names : List String := rowFields ++ rowActivityFields.map ("activity." ++ ·)

theorem rowEntries_names (session : Value) : (rowEntries session).map Prod.fst = names := by
  simp [rowEntries, names, Function.comp_def]

theorem entry_eq_none {name : String} (h : name ∉ names) (session : Value) :
    entry session name = none := by
  have hnone : (rowEntries session).find? (fun entry => entry.1 = name) = none := by
    rw [List.find?_eq_none]
    intro entry hentry hname
    refine h ?_
    rw [← rowEntries_names session, ← of_decide_eq_true hname]
    exact List.mem_map_of_mem hentry
  unfold entry
  rw [hnone, Option.bind_none]

theorem get?_rowFingerprint (session : Value) (name : String) :
    (rowFingerprint session).get? name = entry session name := by
  have hnames : (rowEntries session).Pairwise fun x y => x.1 ≠ y.1 := by
    rw [← List.pairwise_map (f := Prod.fst), rowEntries_names]
    decide
  unfold rowFingerprint entry
  rw [get?_foldl_insertEntry _ _ hnames, OrdMap.get?_empty, Option.or_none]

/-- The names are looked up one after the other. -/
theorem entry_eq (session : Value) (name : String) :
    entry session name =
      (match rowFields.find? (fun field => field = name) with
        | some field => (session.get field).filter fun value => !value.isNull
        | none =>
          (rowActivityFields.find? fun field => "activity." ++ field = name).bind fun field =>
            (((session.get "activity").or (session.get "agent")).bind fun activity =>
              activity.get field).filter fun value => !value.isNull) := by
  unfold entry rowEntries
  rw [List.find?_append, List.find?_map, List.find?_map]
  cases hrow : rowFields.find? (fun field => field = name) with
  | some field =>
    simp only [Function.comp_def, hrow, Option.map_some, Option.some_or, Option.bind_some]
  | none =>
    simp only [Function.comp_def, hrow, Option.map_none, Option.none_or]
    cases rowActivityFields.find? fun field => "activity." ++ field = name with
    | none => rfl
    | some field => rfl

theorem get_overlay (row event : Value) {key : String} (hagent : key ≠ "agent")
    (hactivity : key ≠ "activity") : (overlay row event).get key = (event.get key).or (row.get key) := by
  have hsame : (fun field : String × Value => decide
      ((if field.1 = "agent" then "activity" else field.1) = key)) =
        fun field => decide (field.1 = key) := by
    funext field
    by_cases hfield : field.1 = "agent"
    · simp [hfield, hagent.symm, hactivity.symm]
    · simp [hfield]
  unfold overlay
  rw [Value.get_object, List.find?_append, List.find?_map, Function.comp_def]
  dsimp only
  rw [hsame, Value.get_eq_fields, Value.get_eq_fields]
  cases event.fields.find? fun field => decide (field.1 = key) with
  | none => rfl
  | some field => rfl

theorem get_overlay_activity (row session source notify : Value) :
    (overlay row (publish session source notify)).get "activity" = some (session.index "activity") := by
  simp [overlay, publish, Value.get, Value.fields]

/-- An event and the row under it have all that is in the overlay, where the event has it or says nothing. -/
theorem entry_overlay (row session source notify : Value) (name : String) :
    entry (overlay row (publish session source notify)) name =
        entry (publish session source notify) name ∨
      (entry (publish session source notify) name = none ∧
        entry (overlay row (publish session source notify)) name = entry row name) := by
  have hactivity := get_overlay_activity row session source notify
  have hevent : (publish session source notify).get "activity" = none := by
    simp [publish, Value.get]
  have hagent : (publish session source notify).get "agent" = some (session.index "activity") := by
    simp [publish, Value.get]
  rw [entry_eq, entry_eq, entry_eq]
  cases hrow : rowFields.find? (fun field => field = name) with
  | some field =>
    have hfield : field ∈ rowFields := List.mem_of_find?_eq_some hrow
    have hfields : ∀ field ∈ rowFields, field ≠ "agent" ∧ field ≠ "activity" := by decide
    have hnot := hfields field hfield
    dsimp only
    rw [get_overlay _ _ hnot.1 hnot.2]
    cases (publish session source notify).get field with
    | none => exact .inr ⟨rfl, rfl⟩
    | some value => exact .inl rfl
  | none =>
    left
    dsimp only
    rw [hactivity, hevent, hagent]
    rfl

/-! ### Runs -/

/-- The frame leaves no field of a fingerprint empty that the last state of its session had. -/
def Keeps (carried : Carried) : Frame → Prop
  | .event session source notify =>
    ∀ key row, sessionKey (publish session source notify) = some key → carried.get? key = some row →
      ∀ name ∈ names, entry (overlay row (publish session source notify)) name = none →
        entry row name = none
  | _ => True

/-- Each of the frames does, after those before it. -/
def Steady : Carried → List Frame → Prop
  | _, [] => True
  | carried, frame :: frames => Keeps carried frame ∧ Steady (carried.carry frame) frames

/-- The follower has the fingerprints of the last states. -/
def Held (follow : FollowSession) (carried : Carried) : Prop :=
  ∀ key, follow.published.get? key = (carried.get? key).map rowFingerprint

variable {follow : FollowSession} {carried : Carried}

theorem Held.remember (h : Held follow carried) (row : Value) :
    Held (follow.remember row) (carried.carryRow row) := by
  intro key
  unfold FollowSession.remember Carried.carryRow
  cases sessionKey row with
  | none => exact h key
  | some key' =>
    dsimp only
    rw [OrdMap.get?_insert, OrdMap.get?_insert]
    split_ifs
    · rfl
    · exact h key

theorem Held.rememberRows (h : Held follow carried) (rows : List Value) :
    Held (rows.foldl .remember follow) (rows.foldl .carryRow carried) := by
  induction rows generalizing follow carried with
  | nil => exact h
  | cons row rows ih => exact ih (h.remember row)

/-- What `remember_event` makes of a fingerprint. -/
theorem get?_foldl_fresh (held fresh : Fingerprint) (name : String) :
    (fresh.entries.foldl (fun held entry => held.insert entry.1 entry.2) held).get? name =
      (fresh.get? name).or (held.get? name) :=
  OrdMap.get?_foldl_insert fresh.entries (fresh.sorted.imp fun hlt => hlt.ne)

theorem overlay_fingerprint (row session source notify : Value)
    (h : ∀ name ∈ names, entry (overlay row (publish session source notify)) name = none →
      entry row name = none) :
    (rowFingerprint (publish session source notify)).entries.foldl
        (fun held entry => held.insert entry.1 entry.2) (rowFingerprint row) =
      rowFingerprint (overlay row (publish session source notify)) := by
  refine OrdMap.ext_get? fun name => ?_
  rw [get?_foldl_fresh, get?_rowFingerprint, get?_rowFingerprint, get?_rowFingerprint]
  by_cases hname : name ∈ names
  swap
  · rw [entry_eq_none hname, entry_eq_none hname, entry_eq_none hname, Option.none_or]
  rcases entry_overlay row session source notify name with heq | ⟨hnone, heq⟩
  · cases hentry : entry (publish session source notify) name with
    | none => rw [heq, hentry, h name hname (heq.trans hentry), Option.none_or]
    | some value => rw [heq, hentry, Option.some_or]
  · rw [hnone, heq, Option.none_or]

theorem fingerprint_keyOnly (key : String) :
    rowFingerprint (keyOnly key) = OrdMap.empty.insert "session" (.string key) := by
  simp only [rowFingerprint, rowEntries, rowFields, rowActivityFields, keyOnly, Value.get,
    List.map_cons, List.map_nil]
  simp [insertEntry]
  rfl

theorem keyOnly_keeps {key : String} {session source notify : Value}
    (hkey : sessionKey (publish session source notify) = some key) (name : String) (_ : name ∈ names)
    (h : entry (overlay (keyOnly key) (publish session source notify)) name = none) :
    entry (keyOnly key) name = none := by
  have hentry : entry (keyOnly key) name =
      if name = "session" then some (.string key) else none := by
    rw [← get?_rowFingerprint, fingerprint_keyOnly, OrdMap.get?_insert, OrdMap.get?_empty]
  rw [hentry]
  split_ifs with hname
  · subst hname
    have hget : (publish session source notify).get "session" = some (session.index "session") := by
      simp [publish, Value.get]
    have hstring : session.index "session" = .string key := by
      unfold sessionKey Value.index at hkey
      rw [hget] at hkey
      revert hkey
      cases session.index "session" <;> simp [Value.asStr]
    have hevent : entry (publish session source notify) "session" = some (.string key) := by
      have hfind : rowFields.find? (fun field => field = "session") = some "session" := by decide
      rw [entry_eq, hfind]
      dsimp only
      rw [hget, hstring]
      rfl
    rcases entry_overlay (keyOnly key) session source notify "session" with heq | ⟨hnone, -⟩
    · exact absurd ((heq.trans hevent).symm.trans h) (Option.some_ne_none _)
    · exact absurd (hevent.symm.trans hnone) (Option.some_ne_none _)
  · rfl

theorem Held.rememberEvent (h : Held follow carried) {session source notify : Value}
    (hkeeps : Keeps carried (.event session source notify)) :
    Held (follow.rememberEvent (publish session source notify))
      (carried.carryEvent (publish session source notify)) := by
  intro key
  unfold FollowSession.rememberEvent Carried.carryEvent
  cases hkey : sessionKey (publish session source notify) with
  | none => exact h key
  | some key' =>
    dsimp only
    rw [OrdMap.get?_insert, OrdMap.get?_insert]
    split_ifs with heq
    · rw [h key', Option.map_some, Option.some.injEq]
      cases hrow : carried.get? key' with
      | some row => exact overlay_fingerprint row session source notify (hkeeps key' row hkey hrow)
      | none =>
        rw [Option.map_none, Option.getD_none, Option.getD_none, ← fingerprint_keyOnly]
        exact overlay_fingerprint (keyOnly key') session source notify (keyOnly_keeps hkey)
    · exact h key

theorem Held.classify (h : Held follow carried) {frame : Frame} (hkeeps : Keeps carried frame) :
    Held (follow.classify frame) (carried.carry frame) := by
  cases frame with
  | bootstrap sessions => exact h.rememberRows sessions
  | snapshot sessions => exact h.rememberRows sessions
  | event session source notify => exact h.rememberEvent hkeeps

theorem Held.run (h : Held follow carried) {frames : List Frame} (hsteady : Steady carried frames) :
    Held (frames.foldl .classify follow) (frames.foldl .carry carried) := by
  induction frames generalizing follow carried with
  | nil => exact h
  | cons frame frames ih => exact ih (h.classify hsteady.1) hsteady.2

theorem Held.alreadyPublished_eq_false (h : Held follow carried) {row : Value} :
    follow.alreadyPublished row = false ↔ Moved carried row := by
  unfold FollowSession.alreadyPublished Moved
  cases sessionKey row with
  | none => simp
  | some key => simp [h key]

/-- **The fresh list of a resumed bootstrap** has exactly the rows that are not as the stream has carried them
last, after every run of frames in which no event empties a field of a fingerprint. -/
theorem fresh_rows (frames : List Frame) (sessions : List Value) (h : Steady .empty frames) :
    (followed frames).fresh sessions true =
      sessions.filter fun row => Moved (carriedBy frames) row := by
  have hstart : Held .start .empty := fun _ => rfl
  have hheld : Held (followed frames) (carriedBy frames) := hstart.run h
  refine List.filter_congr fun row _ => ?_
  rw [Bool.eq_iff_iff, Bool.not_eq_true', decide_eq_true_iff]
  exact hheld.alreadyPublished_eq_false

/-- A row with the fields that are told apart here. -/
def agentRow (key status : String) (outcome : Value) : Value :=
  .object [("activity", .null), ("activity_source", .string "declared"),
    ("lifecycle", .string "running"), ("live", .bool true), ("outcome", outcome),
    ("session", .string key), ("status", .string status), ("unread", .bool false)]

/-- A session becomes busy, and the row that the new bootstrap has of it is not shown again. -/
theorem fresh_rows_busy :
    (followed [.bootstrap [agentRow "a" "idle" .null, agentRow "b" "idle" .null],
        .event (agentRow "a" "busy" .null) .null .null]).fresh
      [agentRow "a" "busy" .null, agentRow "b" "attention" .null] true =
        [agentRow "b" "attention" .null] := by
  have hsteady : Steady .empty [.bootstrap [agentRow "a" "idle" .null, agentRow "b" "idle" .null],
      .event (agentRow "a" "busy" .null) .null .null] := by
    refine ⟨trivial, ?_, trivial⟩
    intro key row hkey hrow
    obtain rfl : "a" = key := Option.some.inj hkey
    have hlast : (Carried.carry .empty
        (.bootstrap [agentRow "a" "idle" .null, agentRow "b" "idle" .null])).get? "a" =
          some (agentRow "a" "idle" .null) := by decide
    obtain rfl := Option.some.inj (hlast.symm.trans hrow)
    decide
  refine (fresh_rows _ _ hsteady).trans ?_
  decide

/-- An event that clears the outcome leaves it in what the follower has, and the row is shown again although
the stream has carried it. -/
theorem not_fresh_rows :
    ¬ ∀ (frames : List Frame) (sessions : List Value),
      (followed frames).fresh sessions true =
        sessions.filter fun row => Moved (carriedBy frames) row := by
  intro h
  have hfresh := h [.bootstrap [agentRow "a" "errored" (.string "failed")],
    .event (agentRow "a" "busy" .null) .null .null] [agentRow "a" "busy" .null]
  revert hfresh
  decide

end Paneflow.Serve
