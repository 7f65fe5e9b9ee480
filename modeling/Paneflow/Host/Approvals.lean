import Paneflow.Past
import Mathlib

/-!
# Who may write to whom

agent_write.rs. An agent writes to the terminal of another one only after a human has allowed it, for this
ordered pair of occurrences and as long as both live. The book has the approved pairs, the requests that are
pending and the refusals that have not been reported yet; a request that nobody answers expires, which is
noticed by the next operation. `runs_sound` says what holds of every run: what an approval, a denial and an
expiry rest on, that the three never mix, and that a refusal is reported once.

Times are in nanoseconds. What the watchers are sent is left out.
-/

namespace Paneflow.Host.Approvals

open Paneflow.Past

structure AgentOccurrence (S : Type) where
  session : S
  generation : ℕ
  pid : ℕ
  startedAt : Option ℕ
  deriving DecidableEq, Repr

/-- The source and the target of a write. -/
abbrev Pair (S : Type) := AgentOccurrence S × AgentOccurrence S

structure PendingApproval (S : Type) where
  id : ℕ
  source : AgentOccurrence S
  target : AgentOccurrence S
  sourceLabel : String
  targetLabel : String
  created : ℕ
  deriving DecidableEq, Repr

inductive Settled where
  | denied
  | expired
  deriving DecidableEq, Repr

inductive Admission where
  | approved
  | pending (id : ℕ)
  | denied
  | expired
  deriving DecidableEq, Repr

inductive Decision where
  | allow
  | deny
  deriving DecidableEq, Repr

structure Bucket where
  tokens : ℕ
  refilled : ℕ
  deriving DecidableEq, Repr

structure Book (S : Type) where
  nextId : ℕ
  approved : Finset (Pair S)
  pending : List (PendingApproval S)
  settled : Pair S → Option Settled
  buckets : Pair S → Option Bucket

def approvalRequestTtl : ℕ := 120 * 10 ^ 9

def writeRefillInterval : ℕ := 10 ^ 9

def writeBurst : ℕ := 3

section
variable {S : Type} [DecidableEq S]

def Book.default : Book S := ⟨0, ∅, [], fun _ => none, fun _ => none⟩

def PendingApproval.pair (pending : PendingApproval S) : Pair S := (pending.source, pending.target)

def PendingApproval.due (pending : PendingApproval S) (now : ℕ) : Bool :=
  approvalRequestTtl ≤ now - pending.created

def Settled.admission : Settled → Admission
  | .denied => .denied
  | .expired => .expired

/-- The pair with the value in a map. -/
def insertAt {V : Type} (map : Pair S → Option V) (pair : Pair S) (value : Option V) :
    Pair S → Option V :=
  fun other => if other = pair then value else map other

def expireDue (book : Book S) (now : ℕ) : Book S :=
  let expired := book.pending.filter fun pending => pending.due now
  { book with
    pending := book.pending.filter fun pending => !pending.due now
    settled := expired.foldl
      (fun settled pending => insertAt settled pending.pair (some .expired)) book.settled }

/-- `WriteApprovals::admit` -/
def admitWrite (book : Book S) (source target : AgentOccurrence S) (sourceLabel targetLabel : String)
    (now : ℕ) : Admission × Book S :=
  let book := expireDue book now
  if (source, target) ∈ book.approved then (.approved, book)
  else
    match book.settled (source, target) with
    | some settled =>
      (settled.admission, { book with settled := insertAt book.settled (source, target) none })
    | none =>
      match book.pending.find? fun pending => pending.source = source && pending.target = target with
      | some pending => (.pending pending.id, book)
      | none =>
        let id := book.nextId + 1
        (.pending id, { book with
          nextId := id
          pending := book.pending ++ [⟨id, source, target, sourceLabel, targetLabel, now⟩] })

def takeToken (book : Book S) (source target : AgentOccurrence S) (now : ℕ) :
    Except ℕ Unit × Book S :=
  let bucket := (book.buckets (source, target)).getD ⟨writeBurst, now⟩
  let earned := min ((now - bucket.refilled) / writeRefillInterval) writeBurst
  let bucket : Bucket :=
    if earned > 0 then
      ⟨min (bucket.tokens + earned) writeBurst, bucket.refilled + writeRefillInterval * earned⟩
    else bucket
  let bucket : Bucket := if bucket.tokens = writeBurst then { bucket with refilled := now } else bucket
  if bucket.tokens = 0 then
    (.error (writeRefillInterval - (now - bucket.refilled)),
      { book with buckets := insertAt book.buckets (source, target) (some bucket) })
  else
    (.ok (), { book with
      buckets := insertAt book.buckets (source, target)
        (some { bucket with tokens := bucket.tokens - 1 }) })

def Book.record (book : Book S) (pair : Pair S) : Decision → Book S
  | .allow => { book with approved := insert pair book.approved }
  | .deny => { book with settled := insertAt book.settled pair (some .denied) }

/-- `WriteApprovals::decide` -/
def decideWrite (book : Book S) (id : ℕ) (decision : Decision) (now : ℕ) :
    Except String Unit × Book S :=
  let book := expireDue book now
  match book.pending.find? fun pending => pending.id = id with
  | none =>
    (.error s!"write request {id} is no longer pending; it was decided, expired, or its agents ended",
      book)
  | some pending =>
    let book := { book with pending := book.pending.eraseP fun pending => pending.id = id }
    (.ok (), book.record pending.pair decision)

def retainLive (book : Book S) (live : Finset (AgentOccurrence S)) : Book S :=
  let alive (pair : Pair S) : Bool := pair.1 ∈ live && pair.2 ∈ live
  { book with
    approved := book.approved.filter fun pair => alive pair
    settled := fun pair => if alive pair then book.settled pair else none
    buckets := fun pair => if alive pair then book.buckets pair else none
    pending := book.pending.filter fun pending => alive pending.pair }

/-! ### Runs -/

inductive Op (S : Type) where
  | admitWrite (source target : AgentOccurrence S) (sourceLabel targetLabel : String)
  | takeToken (source target : AgentOccurrence S)
  | decide (id : ℕ) (decision : Decision)
  | expire
  | retainLive (live : Finset (AgentOccurrence S))

inductive Outcome where
  | admission (admission : Admission)
  | token (result : Except ℕ Unit)
  | decided (result : Except String Unit)
  | done

def step (book : Book S) (now : ℕ) : Op S → Outcome × Book S
  | .admitWrite source target sourceLabel targetLabel =>
    let (admission, book) := admitWrite book source target sourceLabel targetLabel now
    (.admission admission, book)
  | .takeToken source target =>
    let (result, book) := takeToken book source target now
    (.token result, book)
  | .decide id decision =>
    let (result, book) := decideWrite book id decision now
    (.decided result, book)
  | .expire => (.done, expireDue book now)
  | .retainLive live => (.done, retainLive book live)

structure Event (S : Type) where
  time : ℕ
  op : Op S
  outcome : Outcome

/-- The runs, with what has happened, the time and the book. -/
inductive Runs : List (Event S) → ℕ → Book S → Prop
  | start : Runs [] 0 .default
  | step {events : List (Event S)} {before : ℕ} {book : Book S} (now : ℕ) (op : Op S) :
    Runs events before book → before ≤ now →
    Runs (events ++ [⟨now, op, (step book now op).1⟩]) now (step book now op).2

variable {events : List (Event S)} {now : ℕ} {book : Book S} {pair : Pair S} {id : ℕ}

/-- A call of `admit` for the pair. -/
def Event.Admits (event : Event S) (pair : Pair S) : Prop :=
  ∃ sourceLabel targetLabel, event.op = .admitWrite pair.1 pair.2 sourceLabel targetLabel

/-- The call is told that the request is pending. -/
def Event.Asks (event : Event S) (id : ℕ) (pair : Pair S) : Prop :=
  event.Admits pair ∧ event.outcome = .admission (.pending id)

/-- The call is told of a refusal. -/
def Event.Reports (event : Event S) (pair : Pair S) : Prop :=
  event.Admits pair ∧
    (event.outcome = .admission .denied ∨ event.outcome = .admission .expired)

/-- A decision on the request that was in time. -/
def Event.Decides (event : Event S) (id : ℕ) (decision : Decision) : Prop :=
  event.op = .decide id decision ∧ event.outcome = .decided (.ok ())

/-- Both occurrences are live, if the event says who is. -/
def Event.Keeps (event : Event S) (pair : Pair S) : Prop :=
  ∀ live, event.op = .retainLive live → pair.1 ∈ live ∧ pair.2 ∈ live

/-- The id is greater than all that were given. -/
def Fresh (events : List (Event S)) (id : ℕ) : Prop :=
  ∀ event ∈ events, ∀ other pair, event.Asks other pair → other < id

/-- The request was created at the time, for the pair and with an id of its own. -/
def Opens (id : ℕ) (pair : Pair S) (created : ℕ) (before : List (Event S)) (event : Event S) :
    Prop :=
  event.Asks id pair ∧ event.time = created ∧ Fresh before id

/-- The decision on a request that was created for the pair less than its time to live ago. -/
def Settles (pair : Pair S) (decision : Decision) (before : List (Event S)) (event : Event S) :
    Prop :=
  ∃ id created, event.Decides id decision ∧ event.time < created + approvalRequestTtl ∧
    Since (Opens id pair created) (fun _ => True) before

/-- The pair was allowed, and both have been live since. -/
def Granted (events : List (Event S)) (pair : Pair S) : Prop :=
  Since (Settles pair .allow) (fun event => event.Keeps pair) events

/-- The pair was denied, which has not been reported. -/
def Denied (events : List (Event S)) (pair : Pair S) : Prop :=
  Since (Settles pair .deny) (fun event => ¬ event.Admits pair) events

/-- A request of the pair that nobody decided, and whose end has not been reported. -/
def Open (events : List (Event S)) (id : ℕ) (pair : Pair S) (created : ℕ) : Prop :=
  Since (Opens id pair created)
    (fun event => ¬ event.Reports pair ∧ ∀ decision, ¬ event.Decides id decision) events

/-- The pair is neither approved nor pending nor settled. -/
structure Absent (book : Book S) (pair : Pair S) : Prop where
  approved : pair ∉ book.approved
  pending : ∀ pending ∈ book.pending, pending.pair ≠ pair
  settled : book.settled pair = none

section
variable {source target : AgentOccurrence S} {sourceLabel targetLabel : String} {other : ℕ}
  {decision : Decision} {live : Finset (AgentOccurrence S)} {outcome : Outcome}

omit [DecidableEq S]

@[simp] theorem admits_admitWrite :
    Event.Admits ⟨now, .admitWrite source target sourceLabel targetLabel, outcome⟩ pair ↔
      (source, target) = pair := by
  simp [Event.Admits, Prod.ext_iff]

@[simp] theorem not_admits_takeToken :
    ¬ Event.Admits ⟨now, .takeToken source target, outcome⟩ pair := by simp [Event.Admits]

@[simp] theorem not_admits_decide : ¬ Event.Admits ⟨now, .decide other decision, outcome⟩ pair := by
  simp [Event.Admits]

@[simp] theorem not_admits_expire : ¬ Event.Admits ⟨now, .expire, outcome⟩ pair := by
  simp [Event.Admits]

@[simp] theorem not_admits_retainLive : ¬ Event.Admits ⟨now, .retainLive live, outcome⟩ pair := by
  simp [Event.Admits]

end

/-- What a book and its history have in common. -/
structure Sound (events : List (Event S)) (before : ℕ) (book : Book S) : Prop where
  /-- An approval rests on a decision of a human. -/
  approved : ∀ now ≥ before, ∀ pair sourceLabel targetLabel,
    (admitWrite book pair.1 pair.2 sourceLabel targetLabel now).1 = .approved → Granted events pair
  /-- A pair is approved, pending or settled, and only one of these. -/
  approved_pending : ∀ pair ∈ book.approved, ∀ pending ∈ book.pending, pending.pair ≠ pair
  approved_settled : ∀ pair ∈ book.approved, book.settled pair = none
  pending_settled : ∀ pending ∈ book.pending, book.settled pending.pair = none
  /-- It is pending at most once. -/
  pending_once : (book.pending.map PendingApproval.pair).Nodup
  /-- The ids increase, and a request never comes back under an id that was given before. -/
  ids : (book.pending.map PendingApproval.id).Pairwise (· < ·)
  fresh : ∀ now op, ∀ pending ∈ (step book now op).2.pending,
    pending ∈ book.pending ∨ Fresh events pending.id
  /-- A denial that is reported was made, and was not reported before. -/
  denied : ∀ now ≥ before, ∀ pair sourceLabel targetLabel,
    (admitWrite book pair.1 pair.2 sourceLabel targetLabel now).1 = .denied → Denied events pair
  /-- An expiry that is reported is of a request that was not answered, and was not reported before. -/
  expired : ∀ now ≥ before, ∀ pair sourceLabel targetLabel,
    (admitWrite book pair.1 pair.2 sourceLabel targetLabel now).1 = .expired →
      ∃ id created, created + approvalRequestTtl ≤ now ∧ Open events id pair created
  /-- The next call after a report opens a new request. -/
  reopened : ∀ pair, Since (fun _ event => event.Reports pair) (fun event => ¬ event.Admits pair)
    events → ∀ now ≥ before, ∀ sourceLabel targetLabel, ∃ id,
      (admitWrite book pair.1 pair.2 sourceLabel targetLabel now).1 = .pending id ∧ Fresh events id

/-! ### What every operation keeps -/

/-- The invariant: it is kept by `expire_due`, before the event is over, and by each operation. -/
structure Kept (events : List (Event S)) (now : ℕ) (book : Book S) : Prop where
  approved_pending : ∀ pair ∈ book.approved, ∀ pending ∈ book.pending, pending.pair ≠ pair
  approved_settled : ∀ pair ∈ book.approved, book.settled pair = none
  pending_settled : ∀ pending ∈ book.pending, book.settled pending.pair = none
  pending_once : (book.pending.map PendingApproval.pair).Nodup
  ids : (book.pending.map PendingApproval.id).Pairwise (· < ·)
  pending_id : ∀ pending ∈ book.pending, pending.id ≤ book.nextId
  next : Fresh events (book.nextId + 1)
  granted : ∀ pair ∈ book.approved, Granted events pair
  opened : ∀ pending ∈ book.pending, Open events pending.id pending.pair pending.created
  denied : ∀ pair, book.settled pair = some .denied → Denied events pair
  expired : ∀ pair, book.settled pair = some .expired →
    ∃ id created, created + approvalRequestTtl ≤ now ∧ Open events id pair created ∧
      id ≤ book.nextId ∧ ∀ pending ∈ book.pending, pending.id ≠ id
  reported : ∀ pair, Since (fun _ event => event.Reports pair) (fun event => ¬ event.Admits pair)
    events → Absent book pair

@[simp] theorem insertAt_self {V : Type} (map : Pair S → Option V) (pair : Pair S)
    (value : Option V) : insertAt map pair value pair = value := by
  simp [insertAt]

theorem insertAt_ne {V : Type} (map : Pair S → Option V) {pair other : Pair S} (value : Option V)
    (h : other ≠ pair) : insertAt map pair value other = map other := by
  simp [insertAt, h]

theorem foldl_expire (expired : List (PendingApproval S)) (settled : Pair S → Option Settled)
    (pair : Pair S) :
    expired.foldl (fun settled pending => insertAt settled pending.pair (some .expired)) settled pair
      = if ∃ pending ∈ expired, pending.pair = pair then some .expired else settled pair := by
  induction expired generalizing settled with
  | nil => simp
  | cons pending expired ih =>
    rw [List.foldl_cons, ih]
    by_cases hpair : pair = pending.pair
    · simp [hpair]
    · simp [insertAt_ne _ _ hpair, Ne.symm hpair]

theorem settled_expireDue_of_due {pending : PendingApproval S} (hmem : pending ∈ book.pending)
    (hdue : pending.due now = true) : (expireDue book now).settled pending.pair = some .expired := by
  have hexpired : ∃ other ∈ book.pending.filter fun other => other.due now,
      other.pair = pending.pair := ⟨pending, List.mem_filter.2 ⟨hmem, hdue⟩, rfl⟩
  simp only [expireDue, foldl_expire, if_pos hexpired]

theorem settled_expireDue_of_not
    (h : ∀ pending ∈ book.pending, pending.due now = true → pending.pair ≠ pair) :
    (expireDue book now).settled pair = book.settled pair := by
  have hexpired : ¬ ∃ other ∈ book.pending.filter fun other => other.due now,
      other.pair = pair := by
    rintro ⟨other, hother, hpair⟩
    obtain ⟨hmem, hdue⟩ := List.mem_filter.1 hother
    exact h other hmem hdue hpair
  simp only [expireDue, foldl_expire, if_neg hexpired]

theorem settled_expireDue_cases {settled : Settled}
    (h : (expireDue book now).settled pair = some settled) :
    (settled = .expired ∧ ∃ pending ∈ book.pending, pending.due now = true ∧ pending.pair = pair) ∨
      book.settled pair = some settled := by
  by_cases hdue : ∃ pending ∈ book.pending, pending.due now = true ∧ pending.pair = pair
  · obtain ⟨pending, hmem, hdue, rfl⟩ := hdue
    rw [settled_expireDue_of_due hmem hdue] at h
    cases h
    exact .inl ⟨rfl, pending, hmem, hdue, rfl⟩
  · rw [settled_expireDue_of_not fun pending hmem hd hpair => hdue ⟨pending, hmem, hd, hpair⟩] at h
    exact .inr h

theorem mem_pending_expireDue {pending : PendingApproval S} :
    pending ∈ (expireDue book now).pending ↔ pending ∈ book.pending ∧ pending.due now = false := by
  simp [expireDue]

omit [DecidableEq S] in
theorem kept_start : Kept [] 0 (.default : Book S) := by
  constructor <;> simp [Book.default, Fresh, not_since_nil]

omit [DecidableEq S] in
theorem Kept.eq_of_pair {pending other : PendingApproval S} (h : Kept events now book)
    (hmem : pending ∈ book.pending) (hother : other ∈ book.pending)
    (hpair : pending.pair = other.pair) : pending = other :=
  List.inj_on_of_nodup_map h.pending_once hmem hother hpair

omit [DecidableEq S] in
theorem Kept.eq_of_id {pending other : PendingApproval S} (h : Kept events now book)
    (hmem : pending ∈ book.pending) (hother : other ∈ book.pending) (hid : pending.id = other.id) :
    pending = other := by
  have hnodup : (book.pending.map PendingApproval.id).Nodup := h.ids.imp ne_of_lt
  exact List.inj_on_of_nodup_map hnodup hmem hother hid

/-- What is due is settled. -/
theorem Kept.expireDue {before : ℕ} (h : Kept events before book) (hnow : before ≤ now) :
    Kept events now (expireDue book now) := by
  have hsub : (Approvals.expireDue book now).pending.Sublist book.pending := List.filter_sublist
  have hmem {pending : PendingApproval S} (hpending : pending ∈ (Approvals.expireDue book now).pending) :
      pending ∈ book.pending := hsub.subset hpending
  refine ⟨?_, ?_, ?_, ?_, ?_, ?_, h.next, h.granted, ?_, ?_, ?_, ?_⟩
  · exact fun pair happroved pending hpending => h.approved_pending pair happroved pending (hmem hpending)
  · intro pair happroved
    rw [settled_expireDue_of_not fun pending hpending _ => h.approved_pending pair happroved pending hpending]
    exact h.approved_settled pair happroved
  · intro pending hpending
    obtain ⟨hpending, hnotdue⟩ := mem_pending_expireDue.1 hpending
    rw [settled_expireDue_of_not]
    · exact h.pending_settled pending hpending
    · intro other hother hdue hpair
      rw [h.eq_of_pair hother hpending hpair, hnotdue] at hdue
      cases hdue
  · exact h.pending_once.sublist (hsub.map _)
  · exact h.ids.sublist (hsub.map _)
  · exact fun pending hpending => h.pending_id pending (hmem hpending)
  · exact fun pending hpending => h.opened pending (hmem hpending)
  · intro pair hsettled
    rcases settled_expireDue_cases hsettled with ⟨hne, -⟩ | hsettled
    · cases hne
    · exact h.denied pair hsettled
  · intro pair hsettled
    rcases settled_expireDue_cases hsettled with ⟨-, pending, hpending, hdue, rfl⟩ | hsettled
    · have hage : pending.created + approvalRequestTtl ≤ now := by
        have hle : approvalRequestTtl ≤ now - pending.created := of_decide_eq_true hdue
        have hpos : 0 < approvalRequestTtl := by decide
        omega
      refine ⟨pending.id, pending.created, hage, h.opened pending hpending,
        h.pending_id pending hpending, fun other hother hid => ?_⟩
      obtain ⟨hother, hnotdue⟩ := mem_pending_expireDue.1 hother
      rw [h.eq_of_id hother hpending hid, hdue] at hnotdue
      cases hnotdue
    · obtain ⟨id, created, hage, hopen, hid, hne⟩ := h.expired pair hsettled
      exact ⟨id, created, hage.trans hnow, hopen, hid, fun pending hpending => hne pending (hmem hpending)⟩
  · intro pair hreported
    have habsent := h.reported pair hreported
    refine ⟨habsent.approved, fun pending hpending => habsent.pending pending (hmem hpending), ?_⟩
    rw [settled_expireDue_of_not fun pending hpending _ => habsent.pending pending hpending]
    exact habsent.settled

omit [DecidableEq S] in
/-- An event with which the book loses entries at most. -/
theorem Kept.concat {event : Event S} {book' : Book S} (h : Kept events now book)
    (happroved : book'.approved ⊆ book.approved) (hpending : book'.pending.Sublist book.pending)
    (hsettled : ∀ pair settled, book'.settled pair = some settled → book.settled pair = some settled)
    (hnext : book.nextId ≤ book'.nextId)
    (hasks : ∀ id pair, event.Asks id pair → id ≤ book'.nextId)
    (hkeeps : ∀ pair ∈ book'.approved, event.Keeps pair)
    (hadmits : ∀ pair, event.Admits pair → book'.settled pair = none)
    (hreports : ∀ pair, event.Reports pair → Absent book' pair)
    (hdecides : ∀ id decision, event.Decides id decision →
      (∀ pending ∈ book'.pending, pending.id ≠ id) ∧ ∃ pending ∈ book.pending, pending.id = id) :
    Kept (events ++ [event]) now book' := by
  have hmem {pending : PendingApproval S} (hp : pending ∈ book'.pending) : pending ∈ book.pending :=
    hpending.subset hp
  have hnone {pair : Pair S} (hp : book.settled pair = none) : book'.settled pair = none := by
    cases hcase : book'.settled pair with
    | none => rfl
    | some settled =>
      rw [hsettled pair settled hcase] at hp
      cases hp
  refine ⟨?_, ?_, ?_, ?_, ?_, ?_, ?_, ?_, ?_, ?_, ?_, ?_⟩
  · exact fun pair hp pending hq => h.approved_pending pair (happroved hp) pending (hmem hq)
  · exact fun pair hp => hnone (h.approved_settled pair (happroved hp))
  · exact fun pending hp => hnone (h.pending_settled pending (hmem hp))
  · exact h.pending_once.sublist (hpending.map _)
  · exact h.ids.sublist (hpending.map _)
  · exact fun pending hp => (h.pending_id pending (hmem hp)).trans hnext
  · intro other hother id pair hid
    rcases List.mem_append.1 hother with hother | hother
    · have hlt := h.next other hother id pair hid
      omega
    · rw [List.mem_singleton.1 hother] at hid
      exact Nat.lt_succ_of_le (hasks id pair hid)
  · exact fun pair hp => (h.granted pair (happroved hp)).concat (hkeeps pair hp)
  · intro pending hp
    refine (h.opened pending (hmem hp)).concat ⟨fun hr => ?_, fun decision hd => ?_⟩
    · exact (hreports _ hr).pending pending hp rfl
    · exact (hdecides _ decision hd).1 pending hp rfl
  · intro pair hp
    refine (h.denied pair (hsettled pair _ hp)).concat fun ha => ?_
    rw [hadmits pair ha] at hp
    cases hp
  · intro pair hp
    obtain ⟨id, created, hage, hopen, hid, hne⟩ := h.expired pair (hsettled pair _ hp)
    refine ⟨id, created, hage, hopen.concat ⟨fun hr => ?_, fun decision hd => ?_⟩, hid.trans hnext,
      fun pending hq => hne pending (hmem hq)⟩
    · rw [(hreports pair hr).settled] at hp
      cases hp
    · obtain ⟨pending, hq, hpid⟩ := (hdecides id decision hd).2
      exact hne pending hq hpid
  · intro pair hsince
    rcases since_concat.1 hsince with hr | ⟨hsince, -⟩
    · exact hreports pair hr
    · have habsent := h.reported pair hsince
      exact ⟨fun hp => habsent.approved (happroved hp),
        fun pending hp => habsent.pending pending (hmem hp), hnone habsent.settled⟩

/-! ### The operations -/

/-- What `admit` can do, once what is due has been settled. -/
theorem admitWrite_cases (book : Book S) (pair : Pair S) (sourceLabel targetLabel : String)
    (now : ℕ) :
    (pair ∈ (expireDue book now).approved ∧
      admitWrite book pair.1 pair.2 sourceLabel targetLabel now = (.approved, expireDue book now)) ∨
    (∃ settled, pair ∉ (expireDue book now).approved ∧
      (expireDue book now).settled pair = some settled ∧
      admitWrite book pair.1 pair.2 sourceLabel targetLabel now = (settled.admission,
        { expireDue book now with settled := insertAt (expireDue book now).settled pair none })) ∨
    (∃ pending ∈ (expireDue book now).pending, pending.pair = pair ∧
      (expireDue book now).settled pair = none ∧
      admitWrite book pair.1 pair.2 sourceLabel targetLabel now =
        (.pending pending.id, expireDue book now)) ∨
    (Absent (expireDue book now) pair ∧
      admitWrite book pair.1 pair.2 sourceLabel targetLabel now =
        (.pending ((expireDue book now).nextId + 1), { expireDue book now with
          nextId := (expireDue book now).nextId + 1
          pending := (expireDue book now).pending ++
            [⟨(expireDue book now).nextId + 1, pair.1, pair.2, sourceLabel, targetLabel, now⟩] })) := by
  unfold admitWrite
  by_cases happroved : pair ∈ (expireDue book now).approved
  · exact .inl ⟨happroved, by simp [happroved]⟩
  · cases hsettled : (expireDue book now).settled pair with
    | some settled => exact .inr (.inl ⟨settled, happroved, rfl, by simp [happroved, hsettled]⟩)
    | none =>
      cases hfind : (expireDue book now).pending.find?
          fun pending => pending.source = pair.1 && pending.target = pair.2 with
      | some pending =>
        have hpair := List.find?_some hfind
        rw [Bool.and_eq_true, decide_eq_true_eq, decide_eq_true_eq] at hpair
        exact .inr (.inr (.inl ⟨pending, List.mem_of_find?_eq_some hfind, Prod.ext hpair.1 hpair.2,
          rfl, by simp [happroved, hsettled, hfind]⟩))
      | none =>
        refine .inr (.inr (.inr ⟨⟨happroved, fun pending hmem hpair => ?_, hsettled⟩,
          by simp [happroved, hsettled, hfind]⟩))
        have hne := List.find?_eq_none.1 hfind pending hmem
        simp [← hpair, PendingApproval.pair] at hne

/-- What `decide` can do, once what is due has been settled. -/
theorem decideWrite_cases (book : Book S) (id : ℕ) (decision : Decision) (now : ℕ) :
    ((∀ pending ∈ (expireDue book now).pending, pending.id ≠ id) ∧
      ∃ message, decideWrite book id decision now = (.error message, expireDue book now)) ∨
    ∃ pending ∈ (expireDue book now).pending, pending.id = id ∧
      decideWrite book id decision now = (.ok (), { expireDue book now with
        pending := (expireDue book now).pending.eraseP fun pending => pending.id = id }.record
          pending.pair decision) := by
  unfold decideWrite
  cases hfind : (expireDue book now).pending.find? fun pending => pending.id = id with
  | none =>
    refine .inl ⟨fun pending hmem hid => ?_, _, by simp only [hfind]; rfl⟩
    have hne := List.find?_eq_none.1 hfind pending hmem
    simp [hid] at hne
  | some pending =>
    have hid := List.find?_some hfind
    rw [decide_eq_true_eq] at hid
    exact .inr ⟨pending, List.mem_of_find?_eq_some hfind, hid, by simp only [hfind]⟩

omit [DecidableEq S] in
/-- A call of `admit` with which the book loses entries at most. -/
theorem Kept.concat_admits {book' : Book S} {sourceLabel targetLabel : String} {admission : Admission}
    (h : Kept events now book) (happroved : book'.approved = book.approved)
    (hpending : book'.pending = book.pending)
    (hsettled : ∀ pair settled, book'.settled pair = some settled → book.settled pair = some settled)
    (hnone : book'.settled pair = none) (hnext : book.nextId ≤ book'.nextId)
    (hasks : ∀ id, admission = .pending id → id ≤ book'.nextId)
    (hreports : admission = .denied ∨ admission = .expired → Absent book' pair) :
    Kept (events ++ [⟨now, .admitWrite pair.1 pair.2 sourceLabel targetLabel, .admission admission⟩])
      now book' := by
  refine h.concat happroved.subset (hpending ▸ List.Sublist.refl _) hsettled hnext ?_ ?_ ?_ ?_ ?_
  · rintro id other ⟨-, hid⟩
    exact hasks id (Outcome.admission.inj hid)
  · intro other _ live hop
    cases hop
  · intro other hadmits
    rw [admits_admitWrite] at hadmits
    exact hadmits ▸ hnone
  · rintro other ⟨hadmits, houtcome⟩
    rw [admits_admitWrite] at hadmits
    exact hadmits ▸ hreports (houtcome.imp Outcome.admission.inj Outcome.admission.inj)
  · rintro id decision ⟨hop, -⟩
    cases hop

omit [DecidableEq S] in
/-- A call of `admit` that opens a request. -/
theorem Kept.open {sourceLabel targetLabel : String} (h : Kept events now book)
    (habsent : Absent book pair) :
    Kept (events ++ [⟨now, .admitWrite pair.1 pair.2 sourceLabel targetLabel,
        .admission (.pending (book.nextId + 1))⟩]) now
      { book with
        nextId := book.nextId + 1
        pending := book.pending ++
          [⟨book.nextId + 1, pair.1, pair.2, sourceLabel, targetLabel, now⟩] } := by
  have hkept : Kept (events ++ [⟨now, .admitWrite pair.1 pair.2 sourceLabel targetLabel,
      .admission (.pending (book.nextId + 1))⟩]) now { book with nextId := book.nextId + 1 } :=
    h.concat_admits rfl rfl (fun _ _ hsettled => hsettled) habsent.settled (Nat.le_succ _)
      (fun id hid => (Admission.pending.inj hid).ge) (fun hne => by simp at hne)
  have hadmits : Event.Admits (⟨now, .admitWrite pair.1 pair.2 sourceLabel targetLabel,
      .admission (.pending (book.nextId + 1))⟩ : Event S) pair := admits_admitWrite.2 rfl
  have hlt {pending : PendingApproval S} (hmem : pending ∈ book.pending) :
      pending.id < book.nextId + 1 := Nat.lt_succ_of_le (h.pending_id pending hmem)
  refine ⟨?_, hkept.approved_settled, ?_, ?_, ?_, ?_, hkept.next, hkept.granted, ?_, hkept.denied,
    ?_, ?_⟩
  · intro other happroved
    refine List.forall_mem_append.2 ⟨h.approved_pending other happroved, ?_⟩
    rw [List.forall_mem_singleton]
    intro hpair
    have hpair : pair = other := hpair
    exact habsent.approved (hpair ▸ happroved)
  · refine List.forall_mem_append.2 ⟨h.pending_settled, ?_⟩
    rw [List.forall_mem_singleton]
    exact habsent.settled
  · rw [List.map_append, List.nodup_append]
    refine ⟨h.pending_once, List.nodup_singleton _, ?_⟩
    intro other hother last hlast
    obtain ⟨pending, hmem, rfl⟩ := List.mem_map.1 hother
    rw [List.map_singleton, List.mem_singleton] at hlast
    exact hlast ▸ habsent.pending pending hmem
  · rw [List.map_append, List.pairwise_append]
    refine ⟨h.ids, List.pairwise_singleton _ _, ?_⟩
    intro id hid last hlast
    obtain ⟨pending, hmem, rfl⟩ := List.mem_map.1 hid
    rw [List.map_singleton, List.mem_singleton] at hlast
    exact hlast ▸ hlt hmem
  · refine List.forall_mem_append.2 ⟨fun pending hmem => (hlt hmem).le, ?_⟩
    rw [List.forall_mem_singleton]
  · refine List.forall_mem_append.2 ⟨hkept.opened, ?_⟩
    rw [List.forall_mem_singleton]
    exact Since.now ⟨⟨hadmits, rfl⟩, rfl, h.next⟩
  · intro other hsettled
    obtain ⟨id, created, hage, hopen, hid, hne⟩ := h.expired other hsettled
    refine ⟨id, created, hage, hopen.concat ⟨?_, ?_⟩, Nat.le_succ_of_le hid, ?_⟩
    · rintro ⟨-, houtcome | houtcome⟩ <;> cases houtcome
    · rintro decision ⟨hop, -⟩
      cases hop
    · refine List.forall_mem_append.2 ⟨hne, ?_⟩
      rw [List.forall_mem_singleton]
      exact fun heq => absurd (heq ▸ hid) (Nat.not_succ_le_self _)
  · intro other hreported
    have hold := hkept.reported other hreported
    refine ⟨hold.approved, List.forall_mem_append.2 ⟨hold.pending, ?_⟩, hold.settled⟩
    rw [List.forall_mem_singleton]
    rintro rfl
    rcases since_concat.1 hreported with ⟨-, houtcome | houtcome⟩ | ⟨-, hnot⟩
    · cases houtcome
    · cases houtcome
    · exact hnot hadmits

theorem Kept.admitWrite (pair : Pair S) {sourceLabel targetLabel : String}
    (h : Kept events now (Approvals.expireDue book now)) :
    Kept (events ++ [⟨now, .admitWrite pair.1 pair.2 sourceLabel targetLabel, .admission
      (Approvals.admitWrite book pair.1 pair.2 sourceLabel targetLabel now).1⟩]) now
      (Approvals.admitWrite book pair.1 pair.2 sourceLabel targetLabel now).2 := by
  rcases admitWrite_cases book pair sourceLabel targetLabel now with ⟨happroved, hresult⟩ |
    ⟨settled, happroved, hsettled, hresult⟩ | ⟨pending, hpending, hpair, hsettled, hresult⟩ |
    ⟨habsent, hresult⟩
  · rw [hresult]
    exact h.concat_admits rfl rfl (fun _ _ hs => hs) (h.approved_settled pair happroved) le_rfl
      (fun id hid => by cases hid) (fun hne => by simp at hne)
  · rw [hresult]
    refine h.concat_admits rfl rfl (fun other value hs => ?_) (insertAt_self _ _ _) le_rfl
      (fun id hid => by cases settled <;> cases hid) (fun _ => ⟨happroved, ?_, insertAt_self _ _ _⟩)
    · have hs : insertAt (Approvals.expireDue book now).settled pair none other = some value := hs
      by_cases hother : other = pair
      · rw [hother, insertAt_self] at hs
        cases hs
      · rwa [insertAt_ne _ _ hother] at hs
    · intro pending hpending hpair
      have hnone := h.pending_settled pending hpending
      rw [hpair, hsettled] at hnone
      cases hnone
  · rw [hresult]
    exact h.concat_admits rfl rfl (fun _ _ hs => hs) hsettled le_rfl
      (fun id hid => Admission.pending.inj hid ▸ h.pending_id pending hpending)
      (fun hne => by simp at hne)
  · rw [hresult]
    exact h.open habsent

omit [DecidableEq S] in
/-- An event that is neither a call of `admit` nor a decision on a request. -/
theorem Kept.concat_other {event : Event S} {book' : Book S} (h : Kept events now book)
    (hadmits : ∀ pair, ¬ event.Admits pair) (hdecides : ∀ id decision, ¬ event.Decides id decision)
    (happroved : book'.approved ⊆ book.approved) (hpending : book'.pending.Sublist book.pending)
    (hsettled : ∀ pair settled, book'.settled pair = some settled → book.settled pair = some settled)
    (hnext : book.nextId = book'.nextId) (hkeeps : ∀ pair ∈ book'.approved, event.Keeps pair) :
    Kept (events ++ [event]) now book' :=
  h.concat happroved hpending hsettled hnext.le (fun _ _ hasks => absurd hasks.1 (hadmits _)) hkeeps
    (fun pair hadmit => absurd hadmit (hadmits pair)) (fun _ hreports => absurd hreports.1 (hadmits _))
    (fun id decision hdecide => absurd hdecide (hdecides id decision))

omit [DecidableEq S] in
theorem id_ne_of_mem_eraseP {requests : List (PendingApproval S)} {pending : PendingApproval S}
    (hids : (requests.map PendingApproval.id).Nodup)
    (hmem : pending ∈ requests.eraseP fun pending => pending.id = id) : pending.id ≠ id := by
  induction requests with
  | nil => cases hmem
  | cons first requests ih =>
    rw [List.map_cons, List.nodup_cons] at hids
    by_cases hfirst : first.id = id
    · rw [List.eraseP_cons_of_pos (by simpa using hfirst)] at hmem
      exact fun hid => hids.1 (hfirst ▸ hid ▸ List.mem_map_of_mem hmem)
    · rw [List.eraseP_cons_of_neg (by simpa using hfirst)] at hmem
      rcases List.mem_cons.1 hmem with rfl | hmem
      · exact hfirst
      · exact ih hids.2 hmem

/-- A decision is recorded for a pair that the book has nothing of. -/
theorem Kept.record {decision : Decision} (h : Kept events now book) (habsent : Absent book pair)
    (hsettles : ∀ Q : Event S → Prop, Since (Settles pair decision) Q events)
    (hunreported : ¬ Since (fun _ event => event.Reports pair) (fun event => ¬ event.Admits pair)
      events) : Kept events now (book.record pair decision) := by
  have hother {other : Pair S} (hreported : Since (fun _ event => event.Reports other)
      (fun event => ¬ event.Admits other) events) : other ≠ pair := fun hpair =>
    hunreported (hpair ▸ hreported)
  cases decision with
  | allow =>
    refine ⟨?_, ?_, h.pending_settled, h.pending_once, h.ids, h.pending_id, h.next, ?_, h.opened,
      h.denied, h.expired, ?_⟩
    · exact Finset.forall_mem_insert _ _ _ |>.2 ⟨habsent.pending, h.approved_pending⟩
    · exact Finset.forall_mem_insert _ _ _ |>.2 ⟨habsent.settled, h.approved_settled⟩
    · exact Finset.forall_mem_insert _ _ _ |>.2 ⟨hsettles _, h.granted⟩
    · intro other hreported
      have hold := h.reported other hreported
      refine ⟨fun hmem => ?_, hold.pending, hold.settled⟩
      exact (Finset.mem_insert.1 hmem).elim (hother hreported) hold.approved
  | deny =>
    have hsame {other : Pair S} (hne : other ≠ pair) :
        (book.record pair .deny).settled other = book.settled other := insertAt_ne _ _ hne
    refine ⟨h.approved_pending, ?_, ?_, h.pending_once, h.ids, h.pending_id, h.next, h.granted,
      h.opened, ?_, ?_, ?_⟩
    · intro other happroved
      rw [hsame fun hpair => habsent.approved (hpair ▸ happroved)]
      exact h.approved_settled other happroved
    · intro pending hpending
      rw [hsame (habsent.pending pending hpending)]
      exact h.pending_settled pending hpending
    · intro other hdenied
      by_cases hpair : other = pair
      · exact hpair ▸ hsettles _
      · rw [hsame hpair] at hdenied
        exact h.denied other hdenied
    · intro other hexpired
      by_cases hpair : other = pair
      · have hself : (book.record pair .deny).settled other = some .denied := by
          rw [hpair]
          exact insertAt_self _ _ _
        rw [hself] at hexpired
        cases hexpired
      · rw [hsame hpair] at hexpired
        exact h.expired other hexpired
    · intro other hreported
      have hold := h.reported other hreported
      exact ⟨hold.approved, hold.pending, (hsame (hother hreported)).trans hold.settled⟩

theorem Kept.decideWrite {decision : Decision} (h : Kept events now (Approvals.expireDue book now)) :
    Kept (events ++ [⟨now, .decide id decision,
        .decided (Approvals.decideWrite book id decision now).1⟩]) now
      (Approvals.decideWrite book id decision now).2 := by
  rcases decideWrite_cases book id decision now with ⟨hnone, message, hresult⟩ |
    ⟨pending, hpending, rfl, hresult⟩
  · rw [hresult]
    refine h.concat_other (fun _ => not_admits_decide) ?_ (Finset.Subset.refl _) (List.Sublist.refl _)
      (fun _ _ hsettled => hsettled) rfl ?_
    · rintro other decision' ⟨-, houtcome⟩
      cases houtcome
    · intro pair _ live hop
      cases hop
  · rw [hresult]
    have hids : ((Approvals.expireDue book now).pending.map PendingApproval.id).Nodup :=
      h.ids.imp ne_of_lt
    have hlive : now < pending.created + approvalRequestTtl := by
      have hdue := of_decide_eq_false (mem_pending_expireDue.1 hpending).2
      omega
    refine Kept.record ?_ ⟨?_, ?_, h.pending_settled pending hpending⟩ ?_ ?_
    · refine h.concat (Finset.Subset.refl _) List.eraseP_sublist (fun _ _ hsettled => hsettled) le_rfl
        (fun _ _ hasks => absurd hasks.1 not_admits_decide) (fun _ _ _ hop => by cases hop)
        (fun _ hadmits => absurd hadmits not_admits_decide)
        (fun _ hreports => absurd hreports.1 not_admits_decide) ?_
      rintro other decision' ⟨hop, -⟩
      cases hop
      exact ⟨fun other hother => id_ne_of_mem_eraseP hids hother, pending, hpending, rfl⟩
    · exact fun happroved => h.approved_pending _ happroved pending hpending rfl
    · intro other hother hpair
      have hsame := h.eq_of_pair (List.mem_of_mem_eraseP hother) hpending hpair
      exact id_ne_of_mem_eraseP hids hother (hsame ▸ rfl)
    · intro Q
      refine Since.now ⟨pending.id, pending.created, ⟨rfl, rfl⟩, hlive, ?_⟩
      exact (h.opened pending hpending).mono (fun _ _ hopens => hopens) (fun _ _ => trivial)
    · intro hreported
      rcases since_concat.1 hreported with hreports | ⟨hreported, -⟩
      · exact not_admits_decide hreports.1
      · exact (h.reported _ hreported).pending pending hpending rfl

theorem Kept.retainLive {live : Finset (AgentOccurrence S)} (h : Kept events now book) :
    Kept (events ++ [⟨now, .retainLive live, .done⟩]) now (Approvals.retainLive book live) := by
  refine h.concat_other (fun _ => not_admits_retainLive) ?_ (Finset.filter_subset _ _)
    List.filter_sublist ?_ rfl ?_
  · rintro id decision ⟨hop, -⟩
    cases hop
  · intro pair settled hsettled
    unfold Approvals.retainLive at hsettled
    dsimp only at hsettled
    split_ifs at hsettled
    exact hsettled
  · intro pair hpair live' hop
    cases hop
    have halive := (Finset.mem_filter.1 hpair).2
    rw [Bool.and_eq_true, decide_eq_true_eq, decide_eq_true_eq] at halive
    exact halive

theorem takeToken_eq (book : Book S) (source target : AgentOccurrence S) (now : ℕ) :
    (takeToken book source target now).2 =
      { book with buckets := (takeToken book source target now).2.buckets } := by
  unfold takeToken
  dsimp only
  split_ifs <;> rfl

theorem Kept.takeToken {source target : AgentOccurrence S} (h : Kept events now book) :
    Kept (events ++ [⟨now, .takeToken source target,
        .token (Approvals.takeToken book source target now).1⟩]) now
      (Approvals.takeToken book source target now).2 := by
  rw [takeToken_eq]
  refine h.concat_other (fun _ => not_admits_takeToken) ?_ (Finset.Subset.refl _)
    (List.Sublist.refl _) (fun _ _ hsettled => hsettled) rfl (fun _ _ _ hop => by cases hop)
  rintro id decision ⟨hop, -⟩
  cases hop

omit [DecidableEq S] in
theorem Kept.later {before : ℕ} (h : Kept events before book) (hnow : before ≤ now) :
    Kept events now book := by
  refine { h with expired := fun pair hsettled => ?_ }
  obtain ⟨id, created, hage, hopen⟩ := h.expired pair hsettled
  exact ⟨id, created, hage.trans hnow, hopen⟩

/-- Every operation keeps the invariant. -/
theorem Kept.step {before : ℕ} (h : Kept events before book) (hnow : before ≤ now) (op : Op S) :
    Kept (events ++ [⟨now, op, (Approvals.step book now op).1⟩]) now
      (Approvals.step book now op).2 := by
  cases op with
  | admitWrite source target sourceLabel targetLabel =>
    exact (h.expireDue hnow).admitWrite (source, target)
  | takeToken source target => exact (h.later hnow).takeToken
  | decide id decision => exact (h.expireDue hnow).decideWrite
  | expire =>
    refine (h.expireDue hnow).concat_other (fun _ => not_admits_expire) ?_ (Finset.Subset.refl _)
      (List.Sublist.refl _) (fun _ _ hsettled => hsettled) rfl (fun _ _ _ hop => by cases hop)
    rintro id decision ⟨hop, -⟩
    cases hop
  | retainLive live => exact (h.later hnow).retainLive

theorem Runs.kept (h : Runs events now book) : Kept events now book := by
  induction h with
  | start => exact kept_start
  | step now op _ hnow ih => exact ih.step hnow op

/-! ### What every run keeps to -/

/-- The requests that are pending after an operation were pending before, or have a new id. -/
theorem Kept.fresh (h : Kept events now book) (time : ℕ) (op : Op S) :
    ∀ pending ∈ (Approvals.step book time op).2.pending,
      pending ∈ book.pending ∨ Fresh events pending.id := by
  have hdue {pending : PendingApproval S} (hmem : pending ∈ (Approvals.expireDue book time).pending) :
      pending ∈ book.pending := (mem_pending_expireDue.1 hmem).1
  intro pending hmem
  cases op with
  | admitWrite source target sourceLabel targetLabel =>
    have hmem : pending ∈ (Approvals.admitWrite book source target sourceLabel targetLabel time).2.pending :=
      hmem
    rcases admitWrite_cases book (source, target) sourceLabel targetLabel time with ⟨-, hresult⟩ |
      ⟨settled, -, -, hresult⟩ | ⟨other, -, -, -, hresult⟩ | ⟨-, hresult⟩
    · rw [hresult] at hmem
      exact .inl (hdue hmem)
    · rw [hresult] at hmem
      exact .inl (hdue hmem)
    · rw [hresult] at hmem
      exact .inl (hdue hmem)
    · rw [hresult] at hmem
      rcases List.mem_append.1 hmem with hmem | hmem
      · exact .inl (hdue hmem)
      · rw [List.mem_singleton.1 hmem]
        exact .inr h.next
  | takeToken source target =>
    have hmem : pending ∈ (Approvals.takeToken book source target time).2.pending := hmem
    rw [takeToken_eq] at hmem
    exact .inl hmem
  | decide id decision =>
    have hmem : pending ∈ (Approvals.decideWrite book id decision time).2.pending := hmem
    rcases decideWrite_cases book id decision time with ⟨-, message, hresult⟩ | ⟨other, -, -, hresult⟩
    · rw [hresult] at hmem
      exact .inl (hdue hmem)
    · rw [hresult] at hmem
      cases decision <;> exact .inl (hdue (List.mem_of_mem_eraseP hmem))
  | expire => exact .inl (hdue hmem)
  | retainLive live => exact .inl (List.mem_of_mem_filter hmem)

/-- What `admit` answers follows from where the pair is. -/
theorem admission_settled (settled : Settled) {sourceLabel targetLabel : String}
    (h : (admitWrite book pair.1 pair.2 sourceLabel targetLabel now).1 = settled.admission) :
    (expireDue book now).settled pair = some settled := by
  rcases admitWrite_cases book pair sourceLabel targetLabel now with ⟨-, hresult⟩ |
    ⟨other, -, hsettled, hresult⟩ | ⟨pending, -, -, -, hresult⟩ | ⟨-, hresult⟩
  · rw [hresult] at h
    cases settled <;> cases h
  · rw [hresult] at h
    rw [hsettled]
    cases other <;> cases settled <;> first | rfl | cases h
  · rw [hresult] at h
    cases settled <;> cases h
  · rw [hresult] at h
    cases settled <;> cases h

theorem admission_approved {sourceLabel targetLabel : String}
    (h : (admitWrite book pair.1 pair.2 sourceLabel targetLabel now).1 = .approved) :
    pair ∈ (expireDue book now).approved := by
  rcases admitWrite_cases book pair sourceLabel targetLabel now with ⟨happroved, -⟩ |
    ⟨settled, -, -, hresult⟩ | ⟨pending, -, -, -, hresult⟩ | ⟨-, hresult⟩
  · exact happroved
  · rw [hresult] at h
    cases settled <;> cases h
  · rw [hresult] at h
    cases h
  · rw [hresult] at h
    cases h

theorem admission_absent {sourceLabel targetLabel : String}
    (h : Absent (expireDue book now) pair) :
    (admitWrite book pair.1 pair.2 sourceLabel targetLabel now).1 =
      .pending ((expireDue book now).nextId + 1) := by
  rcases admitWrite_cases book pair sourceLabel targetLabel now with ⟨happroved, -⟩ |
    ⟨settled, -, hsettled, -⟩ | ⟨pending, hpending, hpair, -, -⟩ | ⟨-, hresult⟩
  · exact absurd happroved h.approved
  · rw [h.settled] at hsettled
    cases hsettled
  · exact absurd hpair (h.pending pending hpending)
  · rw [hresult]

/-- **Every run is sound.** Whatever the operations and their non-decreasing times, `admit` approves a pair
only when its request was allowed in time and both occurrences have been live since; a pair is in one of
the three containers at most; ids increase and do not come back; and a refusal is reported once, after
which the next call opens a new request. -/
theorem runs_sound (h : Runs events now book) : Sound events now book := by
  have hkept := h.kept
  refine { hkept with approved := ?_, fresh := hkept.fresh, denied := ?_, expired := ?_, reopened := ?_ }
  · intro time htime pair sourceLabel targetLabel happroved
    exact (hkept.expireDue htime).granted pair (admission_approved happroved)
  · intro time htime pair sourceLabel targetLabel hdenied
    exact (hkept.expireDue htime).denied pair (admission_settled .denied hdenied)
  · intro time htime pair sourceLabel targetLabel hexpired
    obtain ⟨id, created, hage, hopen, -⟩ :=
      (hkept.expireDue htime).expired pair (admission_settled .expired hexpired)
    exact ⟨id, created, hage, hopen⟩
  · intro pair hreported time htime sourceLabel targetLabel
    have hdue := hkept.expireDue htime
    exact ⟨_, admission_absent (hdue.reported pair hreported), hdue.next⟩

end

/-- A run in which the agent `0` asks to write to the agent `1`, is denied, is told so and asks again. -/
theorem runs_sound_denied :
    let source : AgentOccurrence ℕ := ⟨0, 1, 10, some 7⟩
    let target : AgentOccurrence ℕ := ⟨1, 1, 20, some 7⟩
    ∃ events book, Sound events 3 book ∧ events.length = 4 ∧
      book.pending = [⟨2, source, target, "a", "b", 3⟩] := by
  intro source target
  have hstart : Runs [] 0 (.default : Book ℕ) := .start
  have hasked := hstart.step 0 (.admitWrite source target "a" "b") le_rfl
  have hdenied := hasked.step 1 (.decide 1 .deny) (by decide)
  have htold := hdenied.step 2 (.admitWrite source target "a" "b") (by decide)
  have hagain := htold.step 3 (.admitWrite source target "a" "b") (by decide)
  exact ⟨_, _, runs_sound hagain, rfl, by decide⟩

end Paneflow.Host.Approvals
