import Mathlib.Data.List.Basic
import Mathlib.Data.Nat.Notation

/-!
# The output of a session

tail.rs and stream.rs. An `OutputTail` keeps the last `capacity` bytes of what was appended, addressed by
their offset from the beginning; an `OutputStream` wraps it until it is released. `output_spec` says what the
offsets and the reads are in terms of everything that was appended, and that a reader which goes on from
where it stopped sees every byte once, whatever happens meanwhile.

How much the buffer has allocated is left out.
-/

namespace Paneflow.Host.Stream

structure TailEvicted where
  requested : ℕ
  tailStart : ℕ
  tailEnd : ℕ
  deriving DecidableEq, Repr

structure OutputTail where
  capacity : ℕ
  start : ℕ
  bytes : List UInt8
  deriving DecidableEq, Repr

namespace OutputTail

def new (capacity : ℕ) : OutputTail := ⟨capacity, 0, []⟩

variable (tail : OutputTail)

def startOffset : ℕ := tail.start

def endOffset : ℕ := tail.start + tail.bytes.length

def append (chunk : List UInt8) : OutputTail :=
  if chunk.length ≥ tail.capacity then
    let keep := chunk.drop (chunk.length - tail.capacity)
    { tail with start := tail.endOffset + (chunk.length - keep.length), bytes := keep }
  else
    let excess := tail.bytes.length + chunk.length - tail.capacity
    let tail := if excess > 0 then
        { tail with start := tail.start + excess, bytes := tail.bytes.drop excess }
      else tail
    { tail with bytes := tail.bytes ++ chunk }

def readFrom (offset max : ℕ) : Except TailEvicted (ℕ × List UInt8) :=
  if offset < tail.start ∨ offset > tail.endOffset then
    .error ⟨offset, tail.start, tail.endOffset⟩
  else
    let skip := offset - tail.start
    let take := min (tail.bytes.length - skip) max
    .ok (offset, (tail.bytes.drop skip).take take)

end OutputTail

/-! ### The tail -/

/-- The tail holds the end of what was appended. -/
structure Holds (tail : OutputTail) (appended : List UInt8) : Prop where
  start : tail.start = appended.length - tail.capacity
  bytes : tail.bytes = appended.drop tail.start

section
variable {tail : OutputTail} {appended : List UInt8}

theorem Holds.length_bytes (h : Holds tail appended) :
    tail.bytes.length = appended.length - tail.start := by
  rw [h.bytes, List.length_drop]

theorem Holds.endOffset (h : Holds tail appended) : tail.endOffset = appended.length := by
  have hlength := h.length_bytes
  have hstart := h.start
  unfold OutputTail.endOffset
  omega

theorem holds_new (capacity : ℕ) : Holds (.new capacity) [] := by
  constructor
  · simp [OutputTail.new]
  · simp [OutputTail.new]

theorem capacity_append (tail : OutputTail) (chunk : List UInt8) :
    (tail.append chunk).capacity = tail.capacity := by
  unfold OutputTail.append
  dsimp only
  split_ifs <;> rfl

theorem Holds.append (h : Holds tail appended) (chunk : List UInt8) :
    Holds (tail.append chunk) (appended ++ chunk) := by
  have hstart := h.start
  have hlength := h.length_bytes
  have hend := h.endOffset
  have hall : (appended ++ chunk).length = appended.length + chunk.length := List.length_append
  unfold OutputTail.append
  dsimp only
  split_ifs with hlarge hexcess
  · -- the chunk alone fills the tail
    have hkeep : (chunk.drop (chunk.length - tail.capacity)).length = tail.capacity := by
      rw [List.length_drop]
      omega
    constructor
    · dsimp only
      rw [hkeep, hend, hall]
      omega
    · dsimp only
      rw [hkeep, hend, List.drop_length_add_append]
  · constructor
    · dsimp only
      rw [hall]
      omega
    · dsimp only
      have hinside : tail.start + (tail.bytes.length + chunk.length - tail.capacity) ≤
          appended.length := by omega
      rw [List.drop_append_of_le_length hinside, ← List.drop_drop, ← h.bytes]
  · constructor
    · dsimp only
      rw [hall]
      omega
    · dsimp only
      rw [List.drop_append_of_le_length (by omega), ← h.bytes]

/-- A read succeeds within the offsets, and gives the bytes from its offset on. -/
theorem Holds.readFrom (h : Holds tail appended) (offset max : ℕ) :
    tail.readFrom offset max =
      if tail.start ≤ offset ∧ offset ≤ appended.length then
        .ok (offset, (appended.drop offset).take max)
      else .error ⟨offset, tail.start, appended.length⟩ := by
  unfold OutputTail.readFrom
  rw [h.endOffset]
  have hlength := h.length_bytes
  split_ifs with hout hin hin
  · omega
  · rfl
  · have hdata : (tail.bytes.drop (offset - tail.start)).take
        (min (tail.bytes.length - (offset - tail.start)) max) = (appended.drop offset).take max := by
      rw [h.bytes, List.drop_drop, Nat.add_sub_cancel' hin.1, List.take_eq_take_iff]
      simp only [List.length_drop]
      omega
    dsimp only
    rw [hdata]
  · omega

theorem holds_foldl (chunks : List (List UInt8)) (h : Holds tail appended) :
    Holds (chunks.foldl OutputTail.append tail) (appended ++ chunks.flatten) := by
  induction chunks generalizing tail appended with
  | nil => simpa using h
  | cons chunk chunks ih =>
    rw [List.foldl_cons, List.flatten_cons, ← List.append_assoc]
    exact ih (h.append chunk)

theorem capacity_foldl (chunks : List (List UInt8)) (tail : OutputTail) :
    (chunks.foldl OutputTail.append tail).capacity = tail.capacity := by
  induction chunks generalizing tail with
  | nil => rfl
  | cons chunk chunks ih => rw [List.foldl_cons, ih, capacity_append]

end

/-! ### The stream -/

structure OutputSlice where
  offset : ℕ
  data : List UInt8
  endOffset : ℕ
  live : Bool
  deriving DecidableEq, Repr

structure OutputStream where
  tail : Option OutputTail
  endOffset : ℕ
  live : Bool
  publications : ℕ
  deriving DecidableEq, Repr

namespace OutputStream

def new (capacity : ℕ) : OutputStream := ⟨some (.new capacity), 0, true, 0⟩

variable (stream : OutputStream)

def append (chunk : List UInt8) : OutputStream :=
  let stream := match stream.tail with
    | some tail =>
      { stream with
        tail := some (tail.append chunk)
        endOffset := (tail.append chunk).endOffset }
    | none => stream
  { stream with publications := stream.publications + 1 }

def finish : OutputStream :=
  { stream with live := false, publications := stream.publications + 1 }

def release : OutputStream :=
  { stream with live := false, tail := none, publications := stream.publications + 1 }

def wake : OutputStream := { stream with publications := stream.publications + 1 }

def read (from_ max : ℕ) : Except TailEvicted OutputSlice :=
  let «end» := stream.endOffset
  match stream.tail with
  | some tail =>
    match tail.readFrom from_ max with
    | .ok (offset, data) => .ok ⟨offset, data, «end», stream.live⟩
    | .error evicted => .error evicted
  | none =>
    if from_ = «end» then .ok ⟨from_, [], «end», stream.live⟩
    else .error ⟨from_, «end», «end»⟩

end OutputStream

/-- What happens to a stream. -/
inductive Event where
  | append (chunk : List UInt8)
  | finish
  | release
  | wake
  deriving DecidableEq, Repr

def OutputStream.handle (stream : OutputStream) : Event → OutputStream
  | .append chunk => stream.append chunk
  | .finish => stream.finish
  | .release => stream.release
  | .wake => stream.wake

/-- The bytes that reach the stream: what is appended after the release is dropped. -/
def published : List Event → List UInt8
  | [] => []
  | .append chunk :: events => chunk ++ published events
  | .release :: _ => []
  | .finish :: events => published events
  | .wake :: events => published events

/-- The stream holds the end of what was published, or nothing when it is released. -/
structure Carries (stream : OutputStream) (capacity : ℕ) (all : List UInt8) : Prop where
  endOffset : stream.endOffset = all.length
  tail : ∀ tail, stream.tail = some tail → Holds tail all ∧ tail.capacity = capacity

/-- A reader, with what it has seen of the stream and whether it was told that bytes are gone. -/
structure Reader where
  stream : OutputStream
  offset : ℕ
  seen : List UInt8
  failed : Option TailEvicted

/-- The reader reads, or something happens to the stream. -/
inductive Turn where
  | event (event : Event)
  | read (max : ℕ)

/-- A reader goes on from the end of what it got, and stops at an error. -/
def Reader.turn (reader : Reader) : Turn → Reader
  | .event event => { reader with stream := reader.stream.handle event }
  | .read max =>
    match reader.failed with
    | some _ => reader
    | none =>
      match reader.stream.read reader.offset max with
      | .ok slice =>
        { reader with
          offset := slice.offset + slice.data.length
          seen := reader.seen ++ slice.data }
      | .error evicted => { reader with failed := some evicted }

def eventsOf : List Turn → List Event
  | [] => []
  | .event event :: turns => event :: eventsOf turns
  | .read _ :: turns => eventsOf turns

section
variable {stream : OutputStream} {capacity : ℕ} {all : List UInt8}

theorem carries_new (capacity : ℕ) : Carries (.new capacity) capacity [] := by
  constructor
  · rfl
  · rintro tail ⟨⟩
    exact ⟨holds_new capacity, rfl⟩

/-- What an event adds to the published bytes. -/
def OutputStream.adds (stream : OutputStream) : Event → List UInt8
  | .append chunk => if stream.tail.isSome then chunk else []
  | _ => []

theorem Carries.handle (h : Carries stream capacity all) (event : Event) :
    Carries (stream.handle event) capacity (all ++ stream.adds event) := by
  cases event with
  | append chunk =>
    cases htail : stream.tail with
    | none =>
      simp only [OutputStream.handle, OutputStream.append, OutputStream.adds, htail]
      refine ⟨by simpa using h.endOffset, ?_⟩
      rintro tail ⟨⟩
    | some tail =>
      obtain ⟨hholds, hcapacity⟩ := h.tail tail htail
      simp only [OutputStream.handle, OutputStream.append, OutputStream.adds, htail]
      refine ⟨(hholds.append chunk).endOffset, ?_⟩
      rintro tail' ⟨⟩
      exact ⟨hholds.append chunk, (capacity_append tail chunk).trans hcapacity⟩
  | release =>
    simp only [OutputStream.adds, List.append_nil]
    refine ⟨h.endOffset, ?_⟩
    rintro tail ⟨⟩
  | finish =>
    simp only [OutputStream.adds, List.append_nil]
    exact ⟨h.endOffset, h.tail⟩
  | wake =>
    simp only [OutputStream.adds, List.append_nil]
    exact ⟨h.endOffset, h.tail⟩

theorem carries_released (events : List Event) (h : Carries stream capacity all)
    (hnone : stream.tail = none) :
    Carries (events.foldl OutputStream.handle stream) capacity all := by
  induction events generalizing stream with
  | nil => exact h
  | cons event events ih =>
    have hadds : stream.adds event = [] := by cases event <;> simp [OutputStream.adds, hnone]
    have hnext := h.handle event
    rw [hadds, List.append_nil] at hnext
    refine ih hnext ?_
    cases event <;> simp [OutputStream.handle, OutputStream.append, OutputStream.finish,
      OutputStream.release, OutputStream.wake, hnone]

/-- A run of the stream. -/
theorem carries_foldl (events : List Event) (h : Carries stream capacity all)
    (hsome : stream.tail.isSome) :
    Carries (events.foldl OutputStream.handle stream) capacity (all ++ published events) := by
  induction events generalizing stream all with
  | nil => simpa [published] using h
  | cons event events ih =>
    have hnext := h.handle event
    obtain ⟨tail, htail⟩ := Option.isSome_iff_exists.1 hsome
    cases event with
    | append chunk =>
      simp only [OutputStream.adds, hsome, if_true] at hnext
      rw [published, ← List.append_assoc]
      exact ih hnext (by simp [OutputStream.handle, OutputStream.append, htail])
    | release =>
      simp only [OutputStream.adds, List.append_nil] at hnext
      rw [published, List.append_nil]
      exact carries_released events hnext rfl
    | finish =>
      simp only [OutputStream.adds, List.append_nil] at hnext
      exact ih hnext hsome
    | wake =>
      simp only [OutputStream.adds, List.append_nil] at hnext
      exact ih hnext hsome

/-- What a read gives: the published bytes from its offset on, or the error that bytes are gone. -/
theorem Carries.read (h : Carries stream capacity all) (offset max : ℕ) :
    stream.read offset max =
      let start := if stream.tail.isSome then all.length - capacity else all.length
      if start ≤ offset ∧ offset ≤ all.length then
        .ok ⟨offset, (all.drop offset).take max, all.length, stream.live⟩
      else .error ⟨offset, start, all.length⟩ := by
  unfold OutputStream.read
  rw [h.endOffset]
  cases htail : stream.tail with
  | some tail =>
    obtain ⟨hholds, rfl⟩ := h.tail tail htail
    simp only [hholds.readFrom, hholds.start, Option.isSome_some, if_true]
    split_ifs <;> rfl
  | none =>
    simp only [Option.isSome_none, Bool.false_eq_true, if_false]
    split_ifs with heq hin hin
    · rw [heq, List.drop_length, List.take_nil]
    · omega
    · omega
    · rfl

end

/-! ### Readers -/

theorem published_append (events more : List Event) :
    published events <+: published (events ++ more) := by
  induction events with
  | nil => exact List.nil_prefix
  | cons event events ih =>
    cases event with
    | append chunk =>
      obtain ⟨rest, hrest⟩ := ih
      exact ⟨rest, by rw [List.cons_append, published, published, ← hrest, List.append_assoc]⟩
    | release => exact List.prefix_refl _
    | finish => exact ih
    | wake => exact ih

theorem carries_published (capacity : ℕ) (events : List Event) :
    Carries (events.foldl OutputStream.handle (.new capacity)) capacity (published events) :=
  carries_foldl events (carries_new capacity) rfl

/-- What a reader that started at `offset` has seen. -/
structure Follows (offset : ℕ) (all : List UInt8) (reader : Reader) : Prop where
  seen : reader.seen <+: all.drop offset
  offset : reader.offset = offset + reader.seen.length
  within : reader.offset ≤ all.length
  failed : ∀ evicted, reader.failed = some evicted →
    evicted.requested = reader.offset ∧ reader.offset < evicted.tailStart

theorem Follows.grow {offset : ℕ} {all all' : List UInt8} {reader : Reader} {stream : OutputStream}
    (h : Follows offset all reader) (hgrow : all <+: all') :
    Follows offset all' { reader with stream := stream } := by
  have hle := hgrow.length_le
  refine ⟨?_, h.offset, Nat.le_trans h.within hle, h.failed⟩
  obtain ⟨rest, rfl⟩ := hgrow
  have hinside : offset ≤ all.length := by
    have := h.within
    rw [h.offset] at this
    omega
  rw [List.drop_append_of_le_length hinside]
  exact h.seen.trans (List.prefix_append _ _)

theorem Follows.read {offset max capacity : ℕ} {all : List UInt8} {reader : Reader}
    (h : Follows offset all reader) (hc : Carries reader.stream capacity all) :
    Follows offset all (reader.turn (.read max)) := by
  cases hfailed : reader.failed with
  | some evicted =>
    simpa only [Reader.turn, hfailed] using h
  | none =>
    simp only [Reader.turn, hfailed, hc.read]
    generalize hstart : (if reader.stream.tail.isSome then all.length - capacity else all.length) = start
    by_cases hin : start ≤ reader.offset ∧ reader.offset ≤ all.length
    · rw [if_pos hin]
      obtain ⟨rest, hrest⟩ := h.seen
      have hdata : all.drop reader.offset = rest := by
        rw [h.offset, ← List.drop_drop, ← hrest, List.drop_left]
      refine ⟨?_, ?_, ?_, ?_⟩
      · dsimp only
        rw [hdata, ← hrest]
        exact (List.prefix_append_right_inj _).2 (List.take_prefix max rest)
      · dsimp only
        rw [List.length_append, ← Nat.add_assoc, ← h.offset]
      · dsimp only
        rw [List.length_take, List.length_drop]
        omega
      · rintro evicted ⟨⟩
    · rw [if_neg hin]
      refine ⟨h.seen, h.offset, h.within, ?_⟩
      rintro evicted ⟨⟩
      have hwithin := h.within
      exact ⟨rfl, by dsimp only; omega⟩

theorem follows_run {offset capacity : ℕ} {reader : Reader} (turns : List Turn) (events : List Event)
    (hstream : reader.stream = events.foldl OutputStream.handle (.new capacity))
    (h : Follows offset (published events) reader) :
    Follows offset (published (events ++ eventsOf turns)) (turns.foldl Reader.turn reader) := by
  induction turns generalizing events reader with
  | nil => simpa [eventsOf] using h
  | cons turn turns ih =>
    cases turn with
    | event event =>
      have hnext : Follows offset (published (events ++ [event])) (reader.turn (.event event)) :=
        h.grow (published_append events [event])
      have hstream' : (reader.turn (.event event)).stream =
          (events ++ [event]).foldl OutputStream.handle (.new capacity) := by
        rw [List.foldl_concat, ← hstream]
        rfl
      have := ih (events ++ [event]) hstream' hnext
      rwa [List.append_assoc] at this
    | read max =>
      have hcarries : Carries reader.stream capacity (published events) :=
        hstream ▸ carries_published capacity events
      have hstream' : (reader.turn (.read max)).stream =
          events.foldl OutputStream.handle (.new capacity) := by
        rw [← hstream]
        unfold Reader.turn
        dsimp only
        split
        · rfl
        · split <;> rfl
      exact ih events hstream' (h.read hcarries)

/-- **The output of a session**, for every capacity. A tail has the offsets of the last bytes that were
appended, and a read within them gives those bytes. A stream has the offsets of what was published before
its release, which neither its end nor its release changes; and a reader that starts anywhere within them
and goes on from the end of what it got sees every byte once, in order, or is told that bytes are gone. -/
theorem output_spec (capacity : ℕ) :
    (∀ chunks : List (List UInt8),
      let tail := chunks.foldl OutputTail.append (.new capacity)
      let all := chunks.flatten
      tail.startOffset = all.length - capacity ∧ tail.endOffset = all.length ∧
      ∀ offset max, tail.readFrom offset max =
        if tail.startOffset ≤ offset ∧ offset ≤ tail.endOffset then
          .ok (offset, (all.drop offset).take max)
        else .error ⟨offset, tail.startOffset, tail.endOffset⟩) ∧
    ∀ events : List Event,
      let stream := events.foldl OutputStream.handle (.new capacity)
      let all := published events
      stream.endOffset = all.length ∧ stream.finish.endOffset = stream.endOffset ∧
      stream.release.endOffset = stream.endOffset ∧
      (∀ offset max, stream.read offset max =
        let start := if stream.tail.isSome then all.length - capacity else all.length
        if start ≤ offset ∧ offset ≤ all.length then
          .ok ⟨offset, (all.drop offset).take max, all.length, stream.live⟩
        else .error ⟨offset, start, all.length⟩) ∧
      ∀ offset slice, stream.read offset 0 = .ok slice → ∀ turns : List Turn,
        Follows offset (published (events ++ eventsOf turns))
          (turns.foldl Reader.turn ⟨stream, offset, [], none⟩) := by
  constructor
  · intro chunks
    have hholds := holds_foldl chunks (holds_new capacity)
    have hcapacity := capacity_foldl chunks (.new capacity)
    refine ⟨?_, hholds.endOffset, fun offset max => ?_⟩
    · have hstart := hholds.start
      rw [hcapacity] at hstart
      exact hstart
    · rw [hholds.readFrom, hholds.endOffset]
      rfl
  · intro events
    have hcarries := carries_published capacity events
    refine ⟨hcarries.endOffset, rfl, rfl, hcarries.read, ?_⟩
    intro offset slice hread turns
    refine follows_run turns events rfl ⟨List.nil_prefix, rfl, ?_, ?_⟩
    · rw [hcarries.read] at hread
      dsimp only at hread ⊢
      by_contra hout
      rw [if_neg (fun h => hout h.2)] at hread
      cases hread
    · rintro evicted ⟨⟩

theorem output_spec_four :
    let events := [Event.append [1, 2, 3], .append [4, 5, 6]]
    let stream := events.foldl OutputStream.handle (.new 4)
    stream.read 3 0 = .ok ⟨3, [], 6, true⟩ ∧
      Follows 3 (published (events ++ eventsOf [.read 2, .event (.append [7]), .read 9]))
        ([.read 2, .event (.append [7]), .read 9].foldl Reader.turn ⟨stream, 3, [], none⟩) := by
  refine ⟨rfl, ?_⟩
  exact ((output_spec 4).2 [.append [1, 2, 3], .append [4, 5, 6]]).2.2.2.2 3 _ rfl _

end Paneflow.Host.Stream
