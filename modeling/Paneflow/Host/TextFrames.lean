import Paneflow.Boundaries
import Paneflow.Host.Delivered

/-!
# The text of a session over the wire

`session.text` answers a part of the text that stays within a control frame: `text_frame` of server.rs cuts a chunk and
halves it until its JSON is short enough. The client asks again from where the chunk ended, until nothing follows.

* `textFrame_spec`: the chunk, and that it is not empty before the end.
* `textReply_fits`: the reply is never refused for its length.
* `textLoop_spec`: so the client ends with the whole text.
-/

namespace Paneflow.Host.TextFrames

open Paneflow.Boundaries Paneflow.Host.ControlAnswers Paneflow.Host.Delivered Paneflow.Host.Identity
open Paneflow.Host.WriteScope Paneflow.Ipc.Scrollback Paneflow.Json Paneflow.JsonText Paneflow.Utf8

def textFrameBudgetBytes : ℕ := 48 * 1024

def textFrameEncodedBudgetBytes : ℕ := 56 * 1024

/-- The loop of `text_frame`, `none` if it slices off a boundary or is not over in `fuel` rounds. -/
def fitChunk (text : List Char) (start : ℕ) : (fuel stop : ℕ) → Option (List Char × Option ℕ)
  | 0, _ => none
  | fuel + 1, stop => do
    let chunk ← strSlice text start stop
    if size (quoted chunk) ≤ textFrameEncodedBudgetBytes ∨ chunk = [] then
      return (chunk, if stop < size text then some stop else none)
    else fitChunk text start fuel (floorBoundary text (start + (stop - start) / 2))

/-- `text_frame`, where a `usize` has 64 bits -/
def textFrame (text : List Char) (from' : ℕ) : Option (List Char × Option ℕ) := do
  let start ← ceilBoundary text (size text + 1) (min from' (size text))
  fitChunk text start (textFrameBudgetBytes + 1) (floorBoundary text (min (start + textFrameBudgetBytes) (size text)))

/-- The text of a session on the host. -/
structure SessionText where
  text : List Char
  live : Bool
  available : Bool
  complete : Bool
  deriving DecidableEq, Repr

def chunkReply (session : Uuid) (text : SessionText) (chunk : List Char) (nextOffset : Option ℕ) : Value :=
  .object [
    ("available", .bool text.available),
    ("complete", .bool text.complete),
    ("live", .bool text.live),
    ("next_offset", optValue natValue nextOffset),
    ("session", idValue session),
    ("text", .string (String.ofList chunk)),
    ("total_bytes", natValue (size text.text))]

/-- `dispatch` for `session.text`, of a session with the text -/
def textReply (session : Uuid) (text : SessionText) (params : Value) : Option Value := do
  let (chunk, nextOffset) ← textFrame text.text ((params.index "from").asU64.getD 0)
  return chunkReply session text chunk nextOffset

/-- What the host sends back. -/
def textAnswer (floats : UInt64 → List Char) (session : Uuid) (text : SessionText) (id : ℕ) (params : Value) :
    Option Value :=
  (textReply session text params).map fun result => fitControlFrame floats id (resultEnvelope id result)

/-! ### The client -/

inductive HostClientError where
  | mismatch (answered : Option Value) (id : ℕ)
  | rpc (code : ℤ) (message : String) (data : Option Value)
  | protocol (message : String)

def expectId (value : Value) (id : ℕ) : Except HostClientError Unit :=
  match value.get "id" with
  | some (.number (.posInt n)) => if n = id then .ok () else .error (.mismatch (value.get "id") id)
  | some .null | none =>
    if (value.get "error").isSome then .ok () else .error (.mismatch (value.get "id") id)
  | answered => .error (.mismatch answered id)

/-- `Value::as_i64` -/
def asI64 : Value → Option ℤ
  | .number (.posInt n) => if n < 2 ^ 63 then some n else none
  | .number (.negInt n) => some n
  | _ => none

def resultOrError (value : Value) : Except HostClientError Value :=
  match value.get "error" with
  | some error =>
    .error (.rpc ((asI64 (error.index "code")).getD 0) ((error.index "message").asStr.getD "unknown error")
      (error.get "data"))
  | none =>
    match value.get "result" with
    | some result => .ok result
    | none => .error (.protocol "frame carries neither result nor error")

/-- `HostClient::call`, to a host that answers a request with `serve` -/
def call (serve : (id : ℕ) → Value → Option Value) (id : ℕ) (params : Value) : Option (Except HostClientError Value) :=
  (serve id params).map fun answered => expectId answered id >>= fun _ => resultOrError answered

/-- The fields that the client takes over from a frame. -/
def takeFrame (text : List Char) (frame : Value) : SessionText where
  text := text ++ ((frame.index "text").asStr.getD "").toList
  live := (frame.index "live").asBool.getD false
  available := (frame.index "available").asBool.getD false
  complete := (frame.index "complete").asBool.getD false

/-- The loop of `HostClient::text`, with the text received so far; the numbers of the requests wrap at 64 bits. -/
def textLoop (serve : (id : ℕ) → Value → Option Value) (session : Uuid) :
    (fuel id from' : ℕ) → List Char → Option (Except HostClientError SessionText)
  | 0, _, _, _ => none
  | fuel + 1, id, from', text => do
    match ← call serve id (.object [("from", natValue from'), ("session", idValue session)]) with
    | .error error => return .error error
    | .ok frame =>
      let reply := takeFrame text frame
      match (frame.index "next_offset").asU64 with
      | some next =>
        if next > from' then textLoop serve session fuel ((id + 1) % 2 ^ 64) next reply.text
        else return .ok reply
      | none => return .ok reply

/-! ### The chunk -/

theorem escapedLen_le (text : List Char) : escapedLen text ≤ 6 * size text := by
  induction text with
  | nil => exact le_rfl
  | cons c text ih =>
    have hc := jsonEscapedCharLen_le c
    have hpos := c.utf8Size_pos
    rw [escapedLen_cons, size_escape, size_cons]
    omega

/-- A chunk that is too long has more than a few bytes in each half. -/
theorem lt_half {chunk : List Char} (h : textFrameEncodedBudgetBytes < size (quoted chunk)) : 4 ≤ size chunk / 2 := by
  have hle := escapedLen_le chunk
  rw [size_quoted, textFrameEncodedBudgetBytes] at h
  omega

/-- What a chunk has to be of what follows the start. -/
structure IsFrame (tail : List Char) (start : ℕ) (result : List Char × Option ℕ) : Prop where
  split : ∃ rest, tail = result.1 ++ rest ∧
    result.2 = if rest = [] then none else some (start + size result.1)
  short : size (quoted result.1) ≤ textFrameEncodedBudgetBytes
  nonempty : result.1 = [] → tail = []

/-- **Halving ends**, before the chunk is empty. -/
theorem fitChunk_spec {front tail : List Char} : ∀ {fuel stop : ℕ}, Boundary (front ++ tail) stop →
    size front ≤ stop → (stop = size front → tail = []) → stop - size front < fuel →
      ∃ result, fitChunk (front ++ tail) (size front) fuel stop = some result ∧ IsFrame tail (size front) result
  | fuel + 1, stop, hstop, hle, hempty, hfuel => by
    obtain ⟨p, chunk, rest, heq, hp, hsize⟩ := boundary_split ⟨front, tail, rfl, rfl⟩ hstop hle
    have heq' : front ++ tail = p ++ (chunk ++ rest) := by rw [heq, List.append_assoc]
    obtain rfl := split_unique heq' hp.symm
    obtain rfl := List.append_cancel_left heq'
    have hslice : strSlice (front ++ (chunk ++ rest)) (size front) stop = some chunk := by
      rw [← List.append_assoc, ← hsize]
      exact strSlice_append front chunk rest
    simp only [fitChunk, hslice, Option.bind_eq_bind, Option.bind_some]
    by_cases hfits : size (quoted chunk) ≤ textFrameEncodedBudgetBytes ∨ chunk = []
    · rw [if_pos hfits]
      refine ⟨_, rfl, ⟨rest, rfl, ?_⟩, ?_, ?_⟩
      · dsimp only
        rw [size_append, size_append, ← hsize]
        by_cases hrest : rest = []
        · rw [if_neg (by rw [hrest, size_nil]; omega), if_pos hrest]
        · have hpos := Nat.pos_of_ne_zero fun h => hrest (size_eq_zero.mp h)
          rw [if_pos (by omega), if_neg hrest]
      · rcases hfits with hfits | rfl
        · exact hfits
        · exact (show size (quoted []) ≤ textFrameEncodedBudgetBytes by decide)
      · rintro (rfl : chunk = [])
        exact hempty (by rw [← hsize, size_nil, Nat.add_zero])
    · -- the chunk is long, so its half is not empty
      rw [if_neg hfits]
      obtain ⟨hlong, -⟩ := not_or.mp hfits
      have hhalf := lt_half (not_le.mp hlong)
      have hfloor := floorBoundary_le (front ++ (chunk ++ rest)) (size front + (stop - size front) / 2)
      have hnear := @lt_floorBoundary (front ++ (chunk ++ rest)) (size front + (stop - size front) / 2)
        (by have := hstop.le; omega)
      exact fitChunk_spec (boundary_floorBoundary _) (by omega) (fun h => by omega) (by omega)

/-- **The chunk of a frame.** Whatever the text and the offset, `text_frame` ends without a slice off a boundary. The
chunk starts at the first boundary from the offset on, or from the end if that lies in front of it, its JSON stays in the
budget, it is empty only at the end of the text, and the next offset is where it ends, if anything follows. -/
theorem textFrame_spec (text : List Char) (from' : ℕ) :
    ∃ front tail result, text = front ++ tail ∧ FirstFrom text (min from' (size text)) (size front) ∧
      textFrame text from' = some result ∧ IsFrame tail (size front) result := by
  obtain ⟨start, hstart, hfirst⟩ := @ceilBoundary_spec text (size text + 1) (min from' (size text))
    (min_le_right _ _) (by omega)
  obtain ⟨front, tail, rfl, rfl⟩ := hfirst.boundary
  have hle : size front ≤ size (front ++ tail) := by rw [size_append]; exact Nat.le_add_right _ _
  have hfloor := le_floorBoundary hfirst.boundary
    (show size front ≤ min (size front + textFrameBudgetBytes) (size (front ++ tail)) by omega)
  have hbelow := floorBoundary_le (front ++ tail) (min (size front + textFrameBudgetBytes) (size (front ++ tail)))
  have hnear := @lt_floorBoundary (front ++ tail) (min (size front + textFrameBudgetBytes) (size (front ++ tail)))
    (min_le_right _ _)
  have hempty : floorBoundary (front ++ tail) (min (size front + textFrameBudgetBytes) (size (front ++ tail))) =
      size front → tail = [] := by
    intro heq
    by_contra hne
    -- a boundary is reached behind the first character
    obtain ⟨c, tail, rfl⟩ := List.exists_cons_of_ne_nil hne
    have hfour := c.utf8Size_le_four
    have hpos := c.utf8Size_pos
    have hbehind : Boundary (front ++ c :: tail) (size front + c.utf8Size) :=
      ⟨front ++ [c], tail, by simp, by simp⟩
    have hreach := le_floorBoundary hbehind
      (show size front + c.utf8Size ≤ min (size front + textFrameBudgetBytes) (size (front ++ c :: tail)) by
        rw [size_append, size_cons, textFrameBudgetBytes]
        omega)
    omega
  obtain ⟨result, hresult, hframe⟩ := @fitChunk_spec front tail (textFrameBudgetBytes + 1) _
    (boundary_floorBoundary _) hfloor hempty (by omega)
  refine ⟨front, tail, result, rfl, hfirst, ?_, hframe⟩
  simp only [textFrame, hstart, Option.bind_eq_bind, Option.bind_some]
  exact hresult

/-! ### The reply -/

theorem digits_le {n : ℕ} (h : n < 2 ^ 64) : digits n ≤ 20 :=
  Nat.toDigits_length 10 n 20 (by decide) (h.trans (by decide))

theorem boolLen_le (value : Bool) : boolLen value ≤ 5 := by
  cases value <;> decide

section
variable (floats : UInt64 → List Char) (session : Uuid) {text : SessionText} {chunk : List Char}
  {nextOffset : Option ℕ} {id : ℕ}

/-- **The reply with a chunk fits a frame**, the rest of it being short. -/
theorem encodedLen_chunkReply (hid : id < 2 ^ 64) (htotal : size text.text < 2 ^ 64)
    (hnext : ∀ next ∈ nextOffset, next < 2 ^ 64) (hshort : size (quoted chunk) ≤ textFrameEncodedBudgetBytes) :
    encodedLen floats (resultEnvelope id (chunkReply session text chunk nextOffset)) ≤ maxControlFrameBytes := by
  have hlen : encodedLen floats (chunkReply session text chunk nextOffset) =
      83 + boolLen text.available + boolLen text.complete + boolLen text.live + optLen digits nextOffset +
        idLen session + (2 + escapedLen chunk) + digits (size text.text) := by
    rw [chunkReply, encodedLen_object _ (by simp)]
    simp (disch := decide) [entryLen, textLen, escapedLen_ascii]
    omega
  have hoffset : optLen digits nextOffset ≤ 20 := by
    cases nextOffset with
    | none => exact (show (4 : ℕ) ≤ 20 by decide)
    | some next => exact digits_le (hnext next rfl)
  have havailable := boolLen_le text.available
  have hcomplete := boolLen_le text.complete
  have hlive := boolLen_le text.live
  have hdigits := digits_le hid
  have htotal' := digits_le htotal
  rw [size_quoted, textFrameEncodedBudgetBytes] at hshort
  rw [encodedLen_resultEnvelope, hlen, idLen, maxControlFrameBytes]
  omega

/-- A call is answered with the chunk. -/
theorem call_textAnswer {from' : ℕ} (hid : id < 2 ^ 64) (htotal : size text.text < 2 ^ 64)
    (hnext : ∀ next ∈ nextOffset, next < 2 ^ 64) (hshort : size (quoted chunk) ≤ textFrameEncodedBudgetBytes)
    (hframe : textFrame text.text from' = some (chunk, nextOffset)) :
    call (textAnswer floats session text) id (.object [("from", natValue from'), ("session", idValue session)]) =
      some (.ok (chunkReply session text chunk nextOffset)) := by
  have hreply : textReply session text (.object [("from", natValue from'), ("session", idValue session)]) =
      some (chunkReply session text chunk nextOffset) := by
    change (textFrame text.text from').bind _ = _
    rw [hframe]
    rfl
  have hfits : fitControlFrame floats id (resultEnvelope id (chunkReply session text chunk nextOffset)) =
      resultEnvelope id (chunkReply session text chunk nextOffset) := by
    have hlen := encodedLen_chunkReply floats session hid htotal hnext hshort
    rw [← size_encode] at hlen
    exact if_pos hlen
  have hexpect : expectId (resultEnvelope id (chunkReply session text chunk nextOffset)) id = .ok () := if_pos rfl
  rw [call, textAnswer, hreply, Option.map_some, hfits, Option.map_some, hexpect]
  rfl

/-! ### The loop -/

/-- **The client ends with the whole text**, from wherever it stands. -/
theorem textLoop_spec (htotal : size text.text < 2 ^ 64) : ∀ (fuel id : ℕ) (front tail : List Char),
    text.text = front ++ tail → size tail < fuel → id < 2 ^ 64 →
      textLoop (textAnswer floats session text) session fuel id (size front) front = some (.ok text)
  | fuel + 1, id, front, tail, htext, hfuel, hid => by
    obtain ⟨front', tail', ⟨chunk, nextOffset⟩, hsplit, hfirst, hframe, ⟨rest, htail, hnext⟩, hshort, hnonempty⟩ :=
      textFrame_spec text.text (size front)
    -- the client stands on a boundary, so the chunk starts there
    have hmin : min (size front) (size text.text) = size front := by
      rw [htext, size_append]
      omega
    rw [hmin] at hfirst
    have hstart := hfirst.eq_of_boundary ⟨front, tail, htext, rfl⟩
    obtain rfl := split_unique (htext.symm.trans hsplit) hstart.symm
    obtain rfl := List.append_cancel_left (htext.symm.trans hsplit)
    dsimp only at htail hnext hshort hnonempty
    have hsizes : size text.text = size front + size chunk + size rest := by
      rw [htext, htail, size_append, size_append, Nat.add_assoc]
    have hoffset : ∀ next ∈ nextOffset, next < 2 ^ 64 := by
      intro next hmem
      rw [hnext] at hmem
      split_ifs at hmem with hrest
      · exact absurd hmem (by simp)
      · obtain rfl := Option.some.inj hmem
        omega
    have hcall := call_textAnswer floats session hid htotal hoffset hshort hframe
    have htake : takeFrame front (chunkReply session text chunk nextOffset) =
        { text with text := front ++ chunk } := by
      simp [takeFrame, chunkReply, Value.index, Value.get, Value.asStr, Value.asBool]
    have hread : ((chunkReply session text chunk nextOffset).index "next_offset").asU64 = nextOffset := by
      cases nextOffset <;> rfl
    simp only [textLoop, hcall, Option.bind_eq_bind, Option.bind_some, htake, hread]
    by_cases hrest : rest = []
    · rw [hnext, if_pos hrest]
      rw [hrest, List.append_nil] at htail
      rw [← htail, ← htext]
      rfl
    · rw [hnext, if_neg hrest]
      have hpos : 0 < size chunk := by
        rw [Nat.pos_iff_ne_zero, Ne, size_eq_zero]
        intro hchunk
        have hnil := hnonempty hchunk
        rw [htail, hchunk] at hnil
        exact hrest hnil
      dsimp only
      rw [if_pos (by omega), ← size_append]
      refine textLoop_spec htotal fuel _ (front ++ chunk) rest ?_ ?_ (Nat.mod_lt _ (by decide))
      · rw [htext, htail, List.append_assoc]
      · rw [htail, size_append] at hfuel
        omega

/-- **The text of a session arrives.** Every frame of it is as `textFrame_spec` says, and a client that asks for the
text of a session whose text stays the same ends with exactly that text. -/
theorem sessionText_arrives (text : SessionText) (htotal : size text.text < 2 ^ 64) (id : ℕ)
    (hid : id < 2 ^ 64) : (∀ from', ∃ front tail chunk nextOffset, text.text = front ++ tail ∧
      FirstFrom text.text (min from' (size text.text)) (size front) ∧
        textFrame text.text from' = some (chunk, nextOffset) ∧ chunk <+: tail ∧
          size (quoted chunk) ≤ textFrameEncodedBudgetBytes ∧ (chunk = [] → tail = []) ∧
            nextOffset = if chunk = tail then none else some (size front + size chunk)) ∧
      ∃ fuel, textLoop (textAnswer floats session text) session fuel id 0 [] = some (.ok text) := by
  constructor
  · intro from'
    obtain ⟨front, tail, ⟨chunk, nextOffset⟩, hsplit, hfirst, hframe, ⟨rest, htail, hnext⟩, hshort, hnonempty⟩ :=
      textFrame_spec text.text from'
    refine ⟨front, tail, chunk, nextOffset, hsplit, hfirst, hframe, ⟨rest, htail.symm⟩, hshort, hnonempty, ?_⟩
    dsimp only at htail hnext
    rw [hnext, htail]
    simp
  · exact ⟨size text.text + 1, textLoop_spec floats session htotal _ id [] _ rfl (Nat.lt_succ_self _) hid⟩

/-- A text of two characters, whole in one frame. -/
theorem sessionText_arrives_short : textFrame ['h', 'é'] 2 = some ([], none) ∧
    ∃ fuel, textLoop (textAnswer (fun _ => []) ⟨"10000000-0000-4000-8000-000000000000".toList, by decide⟩
        ⟨['h', 'é'], true, true, true⟩) ⟨"10000000-0000-4000-8000-000000000000".toList, by decide⟩ fuel 1 0 [] =
      some (.ok ⟨['h', 'é'], true, true, true⟩) := by
  refine ⟨by decide, ?_⟩
  exact (sessionText_arrives (fun _ => []) ⟨"10000000-0000-4000-8000-000000000000".toList, by decide⟩
    ⟨['h', 'é'], true, true, true⟩ (by decide) 1 (by decide)).2

end

end Paneflow.Host.TextFrames
