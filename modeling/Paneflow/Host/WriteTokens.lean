import Paneflow.Host.Approvals
import Mathlib.Tactic.Linarith

/-!
# How often one agent writes to another

The token buckets of agent_write.rs. A pair starts with a burst of tokens and earns one for each full
interval; what is left of an interval stays in `refilled`, unless the bucket is full. So in every window of
time a pair gets its burst and one token for each interval in the window: `window_bound`.
-/

namespace Paneflow.Host.WriteTokens

open Paneflow.Host.Approvals

/-! ### One call -/

/-- The tokens that a bucket has earned by `now`. -/
def earned (bucket : Bucket) (now : ℕ) : ℕ :=
  min ((now - bucket.refilled) / writeRefillInterval) writeBurst

/-- The bucket before the call takes a token. -/
def refill (bucket : Bucket) (now : ℕ) : Bucket :=
  let refilled : Bucket :=
    if earned bucket now > 0 then
      ⟨min (bucket.tokens + earned bucket now) writeBurst,
        bucket.refilled + writeRefillInterval * earned bucket now⟩
    else bucket
  if refilled.tokens = writeBurst then { refilled with refilled := now } else refilled

/-- What a bucket keeps to: at most a burst of tokens, and no refill in the future. -/
structure Bounded (bucket : Bucket) (now : ℕ) : Prop where
  tokens : bucket.tokens ≤ writeBurst
  refilled : bucket.refilled ≤ now

theorem Bounded.later {bucket : Bucket} {before now : ℕ} (h : Bounded bucket before)
    (hle : before ≤ now) : Bounded bucket now :=
  ⟨h.tokens, h.refilled.trans hle⟩

theorem interval_mul_earned_le {bucket : Bucket} {now : ℕ} (h : Bounded bucket now) :
    bucket.refilled + writeRefillInterval * earned bucket now ≤ now := by
  have hle : earned bucket now ≤ (now - bucket.refilled) / writeRefillInterval := min_le_left _ _
  have hmul := Nat.mul_le_mul_left writeRefillInterval hle
  have hdiv := Nat.mul_div_le (now - bucket.refilled) writeRefillInterval
  have := h.refilled
  omega

/-- Earned tokens are worth the intervals that they took. -/
theorem earned_add_div_le {bucket : Bucket} {now since later : ℕ}
    (hsince : bucket.refilled + writeRefillInterval * earned bucket now ≤ since) (hle : since ≤ later) :
    earned bucket now + (later - since) / writeRefillInterval ≤
      (later - bucket.refilled) / writeRefillInterval := by
  have hpos : 0 < writeRefillInterval := by decide
  calc earned bucket now + (later - since) / writeRefillInterval
      = (later - since + writeRefillInterval * earned bucket now) / writeRefillInterval := by
        rw [Nat.add_mul_div_left _ _ hpos, Nat.add_comm]
    _ ≤ (later - bucket.refilled) / writeRefillInterval := Nat.div_le_div_right (by omega)

/-- What a refill comes to: a full bucket that is refilled now, or the tokens so far with those of all
full intervals, and a remainder of less than an interval. -/
structure Refilled (bucket : Bucket) (now : ℕ) (result : Bucket) : Prop where
  bounded : Bounded result now
  full : result.tokens = writeBurst → result.refilled = now
  remainder : result.tokens < writeBurst → now < result.refilled + writeRefillInterval
  worth : ∀ later, now ≤ later →
    result.tokens + (later - result.refilled) / writeRefillInterval ≤
      bucket.tokens + (later - bucket.refilled) / writeRefillInterval
  some_of_interval : bucket.refilled + writeRefillInterval ≤ now → 0 < result.tokens

theorem refill_spec {bucket : Bucket} {now : ℕ} (h : Bounded bucket now) :
    Refilled bucket now (refill bucket now) := by
  have hpos : 0 < writeRefillInterval := by decide
  have hmul := interval_mul_earned_le h
  have hburst : writeBurst = 3 := rfl
  have htokens := h.tokens
  have hrefilled := h.refilled
  -- short of a burst, every full interval since the last refill has earned a token
  have hall : earned bucket now < writeBurst →
      now < bucket.refilled + writeRefillInterval * earned bucket now + writeRefillInterval := by
    intro hlt
    have hq : earned bucket now = (now - bucket.refilled) / writeRefillInterval := by
      unfold earned at hlt ⊢
      omega
    have := Nat.lt_mul_div_succ (now - bucket.refilled) hpos
    rw [← hq, Nat.mul_add, Nat.mul_one] at this
    omega
  unfold refill
  by_cases hearned : earned bucket now > 0
  · rw [if_pos hearned]
    dsimp only
    by_cases hfull : min (bucket.tokens + earned bucket now) writeBurst = writeBurst
    · rw [if_pos hfull]
      refine ⟨⟨hfull.le, le_rfl⟩, fun _ => rfl, fun hlt => absurd hfull hlt.ne, fun later hle => ?_,
        fun _ => by dsimp only; omega⟩
      have := earned_add_div_le hmul hle
      dsimp only
      omega
    · rw [if_neg hfull]
      have hsum : min (bucket.tokens + earned bucket now) writeBurst =
          bucket.tokens + earned bucket now := by omega
      rw [hsum] at hfull ⊢
      refine ⟨⟨by dsimp only; omega, hmul⟩, fun heq => absurd heq hfull,
        fun _ => hall (by omega), fun later hle => ?_, fun _ => by dsimp only; omega⟩
      have := earned_add_div_le le_rfl (hmul.trans hle)
      dsimp only
      omega
  · rw [if_neg hearned]
    have hzero : earned bucket now = 0 := by omega
    rw [hzero, Nat.mul_zero, Nat.add_zero] at hall
    have hlt := hall (by omega)
    by_cases hfull : bucket.tokens = writeBurst
    · rw [if_pos hfull]
      refine ⟨⟨htokens, le_rfl⟩, fun _ => rfl, fun hlt => absurd hfull hlt.ne, fun later hle => ?_,
        fun _ => by dsimp only; omega⟩
      have : (later - now) / writeRefillInterval ≤ (later - bucket.refilled) / writeRefillInterval :=
        Nat.div_le_div_right (by omega)
      dsimp only
      omega
    · rw [if_neg hfull]
      exact ⟨h, fun heq => absurd heq hfull, fun _ => hlt, fun _ _ => le_rfl, fun hle => by omega⟩

/-- A call takes a token from the refilled bucket, or says how long the next one takes. -/
inductive Took (bucket : Bucket) (now : ℕ) : Except ℕ Unit → Bucket → Prop
  | refused : (refill bucket now).tokens = 0 →
    Took bucket now (.error (writeRefillInterval - (now - (refill bucket now).refilled)))
      (refill bucket now)
  | taken {tokens : ℕ} : (refill bucket now).tokens = tokens + 1 →
    Took bucket now (.ok ()) ⟨tokens, (refill bucket now).refilled⟩

section
variable {S : Type} [DecidableEq S]

/-- The bucket of a pair, or the full one it starts with. -/
def bucketOf (book : Book S) (pair : Pair S) (now : ℕ) : Bucket :=
  (book.buckets pair).getD ⟨writeBurst, now⟩

theorem takeToken_refill (book : Book S) (source target : AgentOccurrence S) (now : ℕ) :
    takeToken book source target now =
      let bucket := refill (bucketOf book (source, target) now) now
      if bucket.tokens = 0 then
        (.error (writeRefillInterval - (now - bucket.refilled)),
          { book with buckets := insertAt book.buckets (source, target) (some bucket) })
      else
        (.ok (), { book with
          buckets := insertAt book.buckets (source, target)
            (some { bucket with tokens := bucket.tokens - 1 }) }) :=
  rfl

theorem takeToken_took (book : Book S) (source target : AgentOccurrence S) (now : ℕ) :
    ∃ bucket, Took (bucketOf book (source, target) now) now (takeToken book source target now).1
        bucket ∧
      (takeToken book source target now).2 =
        { book with buckets := insertAt book.buckets (source, target) (some bucket) } := by
  rw [takeToken_refill]
  dsimp only
  split_ifs with hzero
  · exact ⟨_, .refused hzero, rfl⟩
  · exact ⟨_, .taken (Nat.succ_pred hzero).symm, rfl⟩

/-! ### Runs -/

/-- The buckets of a book keep to their bounds. -/
def AllBounded (book : Book S) (now : ℕ) : Prop :=
  ∀ pair bucket, book.buckets pair = some bucket → Bounded bucket now

omit [DecidableEq S] in
theorem AllBounded.bucketOf {book : Book S} {before now : ℕ} (h : AllBounded book before)
    (hle : before ≤ now) (pair : Pair S) : Bounded (bucketOf book pair now) now := by
  unfold WriteTokens.bucketOf
  cases heq : book.buckets pair with
  | none => exact ⟨le_rfl, le_rfl⟩
  | some bucket => exact (h pair bucket heq).later hle

theorem Took.bounded {bucket after : Bucket} {now : ℕ} {result : Except ℕ Unit}
    (h : Took bucket now result after) (hb : Bounded bucket now) : Bounded after now := by
  have hspec := (refill_spec hb).bounded
  cases h with
  | refused hzero => exact hspec
  | taken hsucc => exact ⟨by have := hspec.tokens; dsimp only; omega, hspec.refilled⟩

/-- An operation leaves the bucket of a pair alone unless it is a call for the pair or ends one of the
two. -/
theorem buckets_step {book : Book S} {pair : Pair S} (now : ℕ) {op : Op S}
    (htake : op ≠ .takeToken pair.1 pair.2) :
    (step book now op).2.buckets pair = book.buckets pair ∨
      ((step book now op).2.buckets pair = none ∧
        ∃ live, op = .retainLive live ∧ ¬(pair.1 ∈ live ∧ pair.2 ∈ live)) := by
  cases op with
  | admitWrite source target sourceLabel targetLabel =>
    left
    show (admitWrite book source target sourceLabel targetLabel now).2.buckets pair = _
    rcases admitWrite_cases book (source, target) sourceLabel targetLabel now with ⟨-, heq⟩ |
      ⟨settled, -, -, heq⟩ | ⟨pending, -, -, -, heq⟩ | ⟨-, heq⟩
    all_goals
      rw [heq]
      rfl
  | takeToken source target =>
    obtain ⟨bucket, -, heq⟩ := takeToken_took book source target now
    left
    show (takeToken book source target now).2.buckets pair = _
    rw [heq]
    have hne : pair ≠ (source, target) := by
      rintro rfl
      exact htake rfl
    exact if_neg hne
  | decide id decision =>
    left
    show (decideWrite book id decision now).2.buckets pair = _
    rcases decideWrite_cases book id decision now with ⟨-, message, heq⟩ | ⟨pending, -, -, heq⟩
    · rw [heq]
      rfl
    · rw [heq]
      cases decision with
      | allow => rfl
      | deny => rfl
  | expire => exact .inl rfl
  | retainLive live =>
    show (retainLive book live).buckets pair = _ ∨ (retainLive book live).buckets pair = none ∧ _
    unfold retainLive
    dsimp only
    split_ifs with halive
    · exact .inl rfl
    · exact .inr ⟨rfl, live, rfl, by simpa using halive⟩

theorem AllBounded.step {book : Book S} {before now : ℕ} (h : AllBounded book before)
    (hle : before ≤ now) (op : Op S) : AllBounded (Approvals.step book now op).2 now := by
  intro pair bucket hbucket
  by_cases htake : op = .takeToken pair.1 pair.2
  · subst htake
    obtain ⟨after, htook, heq⟩ := takeToken_took book pair.1 pair.2 now
    have hafter : (takeToken book pair.1 pair.2 now).2.buckets pair = some after := by
      rw [heq]
      exact if_pos rfl
    obtain rfl : after = bucket := Option.some.inj (hafter.symm.trans hbucket)
    exact htook.bounded (h.bucketOf hle pair)
  · rcases buckets_step now htake with heq | ⟨heq, -⟩
    · exact (h pair bucket (heq.symm.trans hbucket)).later hle
    · rw [heq] at hbucket
      cases hbucket

theorem runs_bounded {events : List (Event S)} {now : ℕ} {book : Book S} (h : Runs events now book) :
    AllBounded book now ∧ ∀ event ∈ events, event.time ≤ now := by
  induction h with
  | start => exact ⟨fun pair bucket hbucket => (by cases hbucket), by simp⟩
  | step now op _ hle ih =>
    refine ⟨ih.1.step hle op, fun event hevent => ?_⟩
    rcases List.mem_append.1 hevent with hevent | hevent
    · exact (ih.2 event hevent).trans hle
    · rw [List.mem_singleton.1 hevent]

/-- A call for the pair that took a token. -/
def took (pair : Pair S) (event : Event S) : Bool :=
  match event.op, event.outcome with
  | .takeToken source target, .token (.ok _) => (source, target) = pair
  | _, _ => false

/-- How many calls for the pair took a token between `a` and `b`. -/
def takenIn (pair : Pair S) (a b : ℕ) (events : List (Event S)) : ℕ :=
  (events.filter fun event => took pair event && a ≤ event.time && event.time ≤ b).length

/-- What a pair may have taken in a window, and while the window is open what it may still take. -/
structure Window (pair : Pair S) (a b : ℕ) (events : List (Event S)) (now : ℕ) (book : Book S) :
    Prop where
  bound : takenIn pair a b events ≤ writeBurst + (b - a) / writeRefillInterval
  before : now < a → takenIn pair a b events = 0
  still : now ≤ b → takenIn pair a b events = 0 ∨ ∃ bucket, book.buckets pair = some bucket ∧
    takenIn pair a b events + bucket.tokens + (b - bucket.refilled) / writeRefillInterval ≤
      writeBurst + (b - a) / writeRefillInterval

theorem takenIn_concat (pair : Pair S) (a b : ℕ) (events : List (Event S)) (event : Event S) :
    takenIn pair a b (events ++ [event]) = takenIn pair a b events +
      if took pair event && a ≤ event.time && event.time ≤ b then 1 else 0 := by
  unfold takenIn
  rw [List.filter_append, List.length_append]
  congr 1
  split_ifs with hcounts
  · simp only [List.filter_cons, hcounts, List.filter_nil, if_true, List.length_singleton]
  · simp only [List.filter_cons, hcounts, List.filter_nil, Bool.false_eq_true, if_false,
      List.length_nil]

theorem took_eq_false {pair : Pair S} {event : Event S} (h : event.op ≠ .takeToken pair.1 pair.2) :
    took pair event = false := by
  unfold took
  split
  · next hop _ =>
    refine decide_eq_false fun heq => h ?_
    rw [hop, ← heq]
  · rfl

/-- In a window that has just opened, a refilled bucket is within the bound: if it is not full, it has
less than an interval to carry into the window. -/
theorem Refilled.opens {bucket result : Bucket} {now a b : ℕ} (h : Refilled bucket now result)
    (ha : a ≤ now) (hb : now ≤ b) :
    result.tokens + (b - result.refilled) / writeRefillInterval ≤
      writeBurst + (b - a) / writeRefillInterval := by
  have hpos : 0 < writeRefillInterval := by decide
  have htokens := h.bounded.tokens
  by_cases hfull : result.tokens = writeBurst
  · rw [h.full hfull, hfull]
    exact Nat.add_le_add_left (Nat.div_le_div_right (by omega)) _
  · have hrest := h.remainder (by omega)
    have : (b - result.refilled) / writeRefillInterval ≤ (b - a) / writeRefillInterval + 1 := by
      rw [← Nat.add_div_right _ hpos]
      exact Nat.div_le_div_right (by omega)
    omega

/-- Each operation keeps the bound of a window. -/
theorem Window.step {pair : Pair S} {a b before now : ℕ} {events : List (Event S)} {book : Book S}
    {op : Op S} (h : Window pair a b events before book) (hbounded : AllBounded book before)
    (hle : before ≤ now)
    (hkeeps : a ≤ now → now ≤ b → ∀ live, op = .retainLive live → pair.1 ∈ live ∧ pair.2 ∈ live) :
    Window pair a b (events ++ [⟨now, op, (Approvals.step book now op).1⟩]) now
      (Approvals.step book now op).2 := by
  by_cases hin : a ≤ now ∧ now ≤ b
  · obtain ⟨ha, hb⟩ := hin
    have hstill := h.still (hle.trans hb)
    by_cases htake : op = .takeToken pair.1 pair.2
    · subst htake
      obtain ⟨after, htook, heq⟩ := takeToken_took book pair.1 pair.2 now
      have hrefill := refill_spec (hbounded.bucketOf hle pair)
      have hroom : takenIn pair a b events + (refill (bucketOf book pair now) now).tokens +
          (b - (refill (bucketOf book pair now) now).refilled) / writeRefillInterval ≤
            writeBurst + (b - a) / writeRefillInterval := by
        rcases hstill with hzero | ⟨bucket, hbucket, hroom⟩
        · have := hrefill.opens ha hb
          omega
        · have hof : bucketOf book pair now = bucket := by
            unfold bucketOf
            rw [hbucket]
            rfl
          have := hrefill.worth b hb
          rw [hof] at this ⊢
          omega
      have hafter : (takeToken book pair.1 pair.2 now).2.buckets pair = some after := by
        rw [heq]
        exact if_pos rfl
      have htook : Took (bucketOf book pair now) now (takeToken book pair.1 pair.2 now).1 after := htook
      have hcount := takenIn_concat pair a b events
        ⟨now, .takeToken pair.1 pair.2, .token (takeToken book pair.1 pair.2 now).1⟩
      show Window pair a b (events ++ [⟨now, .takeToken pair.1 pair.2,
        .token (takeToken book pair.1 pair.2 now).1⟩]) now (takeToken book pair.1 pair.2 now).2
      generalize (takeToken book pair.1 pair.2 now).1 = result at htook hcount ⊢
      cases htook with
      | refused hzero =>
        simp only [took, Bool.false_and, Bool.false_eq_true, if_false, Nat.add_zero] at hcount
        refine ⟨hcount ▸ h.bound, fun hlt => absurd ha hlt.not_ge, fun _ => .inr ⟨_, hafter, ?_⟩⟩
        rw [hcount]
        exact hroom
      | taken hsucc =>
        simp only [took, Prod.mk.eta, decide_true, Bool.true_and, ha, hb, if_true] at hcount
        rw [hsucc] at hroom
        refine ⟨?_, fun hlt => absurd ha hlt.not_ge, fun _ => .inr ⟨_, hafter, ?_⟩⟩
        · rw [hcount]
          have := Nat.zero_le
            ((b - (refill (bucketOf book pair now) now).refilled) / writeRefillInterval)
          omega
        · rw [hcount]
          dsimp only
          omega
    · have hcount := takenIn_concat pair a b events ⟨now, op, (Approvals.step book now op).1⟩
      rw [took_eq_false htake, Bool.false_and, Bool.false_and, if_neg (by decide),
        Nat.add_zero] at hcount
      refine ⟨hcount ▸ h.bound, fun hlt => absurd ha hlt.not_ge, fun _ => ?_⟩
      rw [hcount]
      rcases buckets_step now htake with heq | ⟨-, live, hlive, hdead⟩
      · rwa [heq]
      · exact absurd (hkeeps ha hb live hlive) hdead
  · have hcount := takenIn_concat pair a b events ⟨now, op, (Approvals.step book now op).1⟩
    rw [if_neg (by simp only [Bool.and_eq_true, decide_eq_true_eq]; tauto), Nat.add_zero] at hcount
    refine ⟨hcount ▸ h.bound, fun hlt => ?_, fun hb => .inl ?_⟩
    · rw [hcount]
      exact h.before (hle.trans_lt hlt)
    · rw [hcount]
      exact h.before (hle.trans_lt (by omega))

theorem runs_window {events : List (Event S)} {now : ℕ} {book : Book S} (h : Runs events now book)
    {pair : Pair S} {a b : ℕ}
    (hkeeps : ∀ event ∈ events, a ≤ event.time → event.time ≤ b → event.Keeps pair) :
    Window pair a b events now book := by
  induction h with
  | start => exact ⟨Nat.zero_le _, fun _ => rfl, fun _ => .inl rfl⟩
  | step now op hruns hle ih =>
    refine (ih fun event hevent => hkeeps event (List.mem_append_left _ hevent)).step
      (runs_bounded hruns).1 hle fun ha hb => ?_
    exact hkeeps _ (List.mem_append_right _ (List.mem_singleton_self _)) ha hb

/-! ### After a refusal -/

theorem runs_concat {events : List (Event S)} {event : Event S} {now : ℕ} {book : Book S}
    (h : Runs (events ++ [event]) now book) :
    ∃ before book', Runs events before book' ∧ before ≤ now ∧
      event = ⟨now, event.op, (Approvals.step book' now event.op).1⟩ ∧
      book = (Approvals.step book' now event.op).2 := by
  generalize hall : events ++ [event] = all at h
  cases h with
  | start => simp at hall
  | step _ op hruns hle =>
    obtain ⟨rfl, heq⟩ := List.append_inj' hall rfl
    obtain rfl := List.singleton_inj.1 heq
    exact ⟨_, _, hruns, hle, rfl, rfl⟩

/-- After a refusal, until the next call for the pair: the bucket earns a token when the wait is
over. -/
theorem runs_refused {before more : List (Event S)} {pair : Pair S} {time wait now : ℕ} {book : Book S}
    (h : Runs (before ++ ⟨time, .takeToken pair.1 pair.2, .token (.error wait)⟩ :: more) now book)
    (hmore : ∀ event ∈ more, event.op ≠ .takeToken pair.1 pair.2 ∧ event.Keeps pair) :
    ∃ bucket, book.buckets pair = some bucket ∧
      bucket.refilled + writeRefillInterval ≤ time + wait := by
  induction more using List.reverseRecOn generalizing now book with
  | nil =>
    obtain ⟨earlier, book', hruns, hle, hevent, rfl⟩ := runs_concat h
    simp only [Event.mk.injEq, true_and] at hevent
    obtain ⟨rfl, houtcome⟩ := hevent
    obtain ⟨after, htook, heq⟩ := takeToken_took book' pair.1 pair.2 time
    have hrefill := refill_spec ((runs_bounded hruns).1.bucketOf hle pair)
    refine ⟨after, ?_, ?_⟩
    · show (takeToken book' pair.1 pair.2 time).2.buckets pair = _
      rw [heq]
      exact if_pos rfl
    · have htook : Took (bucketOf book' pair time) time (.error wait) after := by
        have houtcome : Outcome.token (.error wait) =
            .token (takeToken book' pair.1 pair.2 time).1 := houtcome
        rwa [← Outcome.token.inj houtcome] at htook
      cases htook with
      | refused hzero =>
        have := hrefill.remainder (by rw [hzero]; decide)
        have := hrefill.bounded.refilled
        omega
  | append_singleton more event ih =>
    rw [← List.cons_append, ← List.append_assoc] at h
    obtain ⟨earlier, book', hruns, hle, -, rfl⟩ := runs_concat h
    obtain ⟨bucket, hbucket, hrefilled⟩ :=
      ih hruns fun event hevent => hmore event (List.mem_append_left _ hevent)
    obtain ⟨hop, hkeeps⟩ := hmore event (List.mem_append_right _ (List.mem_singleton_self _))
    rcases buckets_step _ hop with heq | ⟨-, live, hlive, hdead⟩
    · exact ⟨bucket, heq.trans hbucket, hrefilled⟩
    · exact absurd (hkeeps live hlive) hdead

/-- **How often a pair writes.** In a run of any operations, a pair takes in every window at most its
burst and one token for each full interval, as long as neither of the two ends in the window. After a
refusal the next call succeeds once the wait is over. And the numbers stay small: a sum of tokens never
leaves 32 bits, and no refill is later than the call. -/
theorem window_bound {events : List (Event S)} {now : ℕ} {book : Book S} (h : Runs events now book)
    (pair : Pair S) :
    (∀ a b, (∀ event ∈ events, a ≤ event.time → event.time ≤ b → event.Keeps pair) →
      takenIn pair a b events ≤ writeBurst + (b - a) / writeRefillInterval) ∧
    (∀ before more time wait,
      events = before ++ ⟨time, .takeToken pair.1 pair.2, .token (.error wait)⟩ :: more →
      (∀ event ∈ more, event.op ≠ .takeToken pair.1 pair.2 ∧ event.Keeps pair) →
      ∀ later, now ≤ later → time + wait ≤ later →
        (takeToken book pair.1 pair.2 later).1 = .ok ()) ∧
    ∀ later, now ≤ later →
      (bucketOf book pair later).tokens + earned (bucketOf book pair later) later < 2 ^ 32 ∧
      (bucketOf book pair later).refilled +
        writeRefillInterval * earned (bucketOf book pair later) later ≤ later := by
  refine ⟨fun a b hkeeps => (runs_window h hkeeps).bound, ?_, fun later hlater => ?_⟩
  · rintro before more time wait rfl hmore later hlater hwait
    obtain ⟨bucket, hbucket, hrefilled⟩ := runs_refused h hmore
    have hof : bucketOf book pair later = bucket := by
      unfold bucketOf
      rw [hbucket]
      rfl
    have hrefill := refill_spec ((runs_bounded h).1.bucketOf hlater pair)
    have hsome := hrefill.some_of_interval (by rw [hof]; omega)
    obtain ⟨after, htook, -⟩ := takeToken_took book pair.1 pair.2 later
    have htook : Took (bucketOf book pair later) later (takeToken book pair.1 pair.2 later).1 after :=
      htook
    generalize (takeToken book pair.1 pair.2 later).1 = result at htook ⊢
    cases htook with
    | refused hzero => omega
    | taken hsucc => rfl
  · have hbounded := (runs_bounded h).1.bucketOf hlater pair
    refine ⟨?_, interval_mul_earned_le hbounded⟩
    have htokens := hbounded.tokens
    have hearned : earned (bucketOf book pair later) later ≤ writeBurst := min_le_right _ _
    have : writeBurst = 3 := rfl
    omega

end

/-- Four calls at once: the fourth is refused and told to wait for an interval. -/
theorem window_bound_burst :
    let source : AgentOccurrence ℕ := ⟨0, 1, 10, some 7⟩
    let target : AgentOccurrence ℕ := ⟨1, 1, 20, some 7⟩
    ∃ events book, Runs events 5 book ∧ takenIn (source, target) 5 5 events = 3 ∧
      takenIn (source, target) 5 5 events ≤ writeBurst + (5 - 5) / writeRefillInterval ∧
      (takeToken book source target (5 + 10 ^ 9)).1 = .ok () := by
  intro source target
  let call : Op ℕ := .takeToken source target
  have hstart : Runs [] 0 (.default : Book ℕ) := .start
  have hthree := ((hstart.step 5 call (by decide)).step 5 call le_rfl).step 5 call le_rfl
  have hrefusal : (takeToken (step (step (step .default 5 call).2 5 call).2 5 call).2 source target
      5).1 = .error (10 ^ 9) := by decide
  have houtcome : (step (step (step (step .default 5 call).2 5 call).2 5 call).2 5 call).1 =
      .token (.error (10 ^ 9)) := congrArg Outcome.token hrefusal
  have hfour := hthree.step 5 call le_rfl
  rw [houtcome] at hfour
  obtain ⟨hwindow, hrefused, -⟩ := window_bound hfour (source, target)
  refine ⟨_, _, hfour, by decide, hwindow 5 5 ?_, ?_⟩
  · simp [Event.Keeps, call]
  · exact hrefused _ [] 5 (10 ^ 9) rfl (by simp) _ (by decide) le_rfl

end Paneflow.Host.WriteTokens
