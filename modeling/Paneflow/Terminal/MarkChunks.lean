import Paneflow.Terminal.Marks

/-!
# The scanner as it is stored

`Osc133Scanner` with its fields as marks.rs has them: the progress in the prefix is a byte, the payload is an array
of which the front is filled, and `feed` walks over an index of the chunk. Every access is checked here, `none` is a
panic.

`chunks_told`: no access is out of bounds, and the marks are those of the bytes one by one, whatever the chunks are.
-/

namespace Paneflow.Terminal

/-- `ScanState`, with the progress in the prefix as it is stored. -/
inductive StoredState where
  | ground
  | esc
  | prefixed (matched : UInt8)
  | payload
  | skipToTerminator
  | payloadEsc
  | skipEsc
  deriving DecidableEq, Repr

structure StoredScanner where
  state : StoredState
  payload : Vector UInt8 payloadCap
  payloadLen : ℕ

namespace StoredScanner

def default : StoredScanner := ⟨.ground, Vector.replicate payloadCap 0, 0⟩

def move (scanner : StoredScanner) (state : StoredState) : Option (StoredScanner × List RawMark) :=
  some ({ scanner with state := state }, [])

def emit (scanner : StoredScanner) : Option (StoredScanner × List RawMark) :=
  if scanner.payloadLen ≤ payloadCap then
    some ({ scanner with payloadLen := 0 },
      (parsePayload (scanner.payload.toList.take scanner.payloadLen)).toList)
  else none

/-- `emit` on the way to another state. -/
def emitTo (scanner : StoredScanner) (state : StoredState) : Option (StoredScanner × List RawMark) := do
  let emitted ← scanner.emit
  return ({ emitted.1 with state := state }, emitted.2)

/-- `self.payload[self.payload_len] = byte; self.payload_len += 1` -/
def keep (scanner : StoredScanner) (byte : UInt8) : Option (StoredScanner × List RawMark) :=
  if h : scanner.payloadLen < payloadCap then
    some ({ scanner with
      payload := scanner.payload.set scanner.payloadLen byte h
      payloadLen := scanner.payloadLen + 1 }, [])
  else none

/-- What a byte does outside of the ground state. -/
def react (scanner : StoredScanner) (byte : UInt8) : Option (StoredScanner × List RawMark) :=
  match scanner.state with
  | .ground => scanner.move .ground
  | .esc => scanner.move (if byte = 0x5d then .prefixed 0 else .ground)
  | .prefixed matched => do
    let expected ← oscPrefix[matched.toNat]?
    if byte = expected then
      let next := matched + 1
      if next.toNat = oscPrefix.length then some ({ scanner with state := .payload, payloadLen := 0 }, [])
      else scanner.move (.prefixed next)
    else if byte = 0x07 ∨ byte = 0x18 ∨ byte = 0x1a then scanner.move .ground
    else if byte = 0x1b then scanner.move .skipEsc
    else scanner.move .skipToTerminator
  | .payload =>
    if byte = 0x07 then scanner.emitTo .ground
    else if byte = 0x1b then scanner.move .payloadEsc
    else if byte = 0x18 ∨ byte = 0x1a then scanner.move .ground
    else if scanner.payloadLen < payloadCap then scanner.keep byte
    else scanner.move .skipToTerminator
  | .payloadEsc =>
    if byte = 0x5c then scanner.emitTo .ground
    else if byte = 0x1b then scanner.move .esc
    else scanner.move .ground
  | .skipToTerminator =>
    if byte = 0x07 ∨ byte = 0x18 ∨ byte = 0x1a then scanner.move .ground
    else if byte = 0x1b then scanner.move .skipEsc
    else some (scanner, [])
  | .skipEsc =>
    if byte = 0x5c then scanner.move .ground
    else if byte = 0x5d then scanner.move (.prefixed 0)
    else if byte = 0x1b then scanner.move .esc
    else scanner.move .ground

/-- `feed` from an index of the chunk on. -/
def feedFrom (scanner : StoredScanner) (bytes : List UInt8) (index : ℕ) : Option (StoredScanner × List RawMark) :=
  if index < bytes.length then
    if scanner.state = .ground then
      match findEscape (bytes.drop index) with
      | none => some (scanner, [])
      | some offset => feedFrom { scanner with state := .esc } bytes (index + (offset + 1))
    else do
      let byte ← bytes[index]?
      let reacted ← scanner.react byte
      let fed ← feedFrom reacted.1 bytes (index + 1)
      return (fed.1, reacted.2 ++ fed.2)
  else some (scanner, [])
termination_by bytes.length - index

def feed (scanner : StoredScanner) (bytes : List UInt8) : Option (StoredScanner × List RawMark) :=
  scanner.feedFrom bytes 0

/-- The chunks one after the other. -/
def feedAll (scanner : StoredScanner) : List (List UInt8) → Option (StoredScanner × List RawMark)
  | [] => some (scanner, [])
  | chunk :: chunks => do
    let fed ← scanner.feed chunk
    let rest ← feedAll fed.1 chunks
    return (rest.1, fed.2 ++ rest.2)

end StoredScanner

/-! ### What is stored -/

def ScanState.stored : ScanState → StoredState
  | .ground => .ground
  | .esc => .esc
  | .prefixed matched => .prefixed (UInt8.ofNat matched)
  | .payload => .payload
  | .skipToTerminator => .skipToTerminator
  | .payloadEsc => .payloadEsc
  | .skipEsc => .skipEsc

/-- The stored scanner is the scanner: its payload is what is filled of the array. -/
structure Stores (stored : StoredScanner) (scanner : Osc133Scanner) : Prop where
  state : stored.state = scanner.state.stored
  fits : stored.payloadLen ≤ payloadCap
  payload : stored.payload.toList.take stored.payloadLen = scanner.payload

theorem stores_default : Stores .default .default := ⟨rfl, Nat.zero_le _, rfl⟩

theorem stored_ground_iff (state : ScanState) : state.stored = .ground ↔ state = .ground := by
  cases state <;> simp [ScanState.stored]

namespace Stores

variable {stored : StoredScanner} {scanner : Osc133Scanner}

theorem length_payload (h : Stores stored scanner) : scanner.payload.length = stored.payloadLen := by
  rw [← h.payload, List.length_take, Vector.length_toList, Nat.min_eq_left h.fits]

/-- What is told is the same, and what is stored after it. -/
def Agrees (told : Option (StoredScanner × List RawMark)) (expected : Osc133Scanner × List RawMark) : Prop :=
  ∃ stored', told = some (stored', expected.2) ∧ Stores stored' expected.1

theorem move (h : Stores stored scanner) (state : ScanState) :
    Agrees (stored.move state.stored) (scanner.move state) :=
  ⟨{ stored with state := state.stored }, rfl, rfl, h.fits, h.payload⟩

theorem emitTo (h : Stores stored scanner) (state : ScanState) :
    Agrees (stored.emitTo state.stored) (scanner.emit state) := by
  unfold StoredScanner.emitTo StoredScanner.emit
  rw [if_pos h.fits, h.payload]
  exact ⟨{ stored with state := state.stored, payloadLen := 0 }, rfl, rfl, Nat.zero_le _, rfl⟩

theorem keep (h : Stores stored scanner) (hroom : stored.payloadLen < payloadCap) (byte : UInt8) :
    Agrees (stored.keep byte) ({ scanner with payload := scanner.payload ++ [byte] }, []) := by
  unfold StoredScanner.keep
  rw [dif_pos hroom]
  refine ⟨_, rfl, h.state, hroom, ?_⟩
  dsimp only
  rw [Vector.toList_set, List.take_succ_eq_append_getElem (by simpa using hroom), List.getElem_set_self,
    List.take_set_of_le le_rfl, h.payload]

/-- The prefix is read where it was left. -/
theorem react_prefixed (matched : Fin 4) (h : Stores stored scanner) (hstate : scanner.state = .prefixed matched)
    (byte : UInt8) : Agrees (stored.react byte) (scanner.react byte) := by
  have hstored : stored.state = .prefixed (UInt8.ofNat matched) := by rw [h.state, hstate]; rfl
  have hexpected : oscPrefix[(UInt8.ofNat matched).toNat]? = some (oscPrefix.get matched) := by
    fin_cases matched <;> rfl
  have hnext : (UInt8.ofNat matched + 1).toNat = oscPrefix.length ↔ ¬matched.val + 1 < 4 := by
    fin_cases matched <;> decide
  unfold StoredScanner.react Osc133Scanner.react
  rw [hstored, hstate]
  dsimp only
  rw [hexpected]
  dsimp only [Option.bind_eq_bind, Option.bind_some]
  by_cases hbyte : byte = oscPrefix.get matched
  · rw [if_pos hbyte, if_pos hbyte]
    by_cases hlast : matched.val + 1 < 4
    · have hstep : UInt8.ofNat matched + 1 = UInt8.ofNat (matched.val + 1) := by
        fin_cases matched <;> rfl
      rw [if_neg fun heq => hnext.mp heq hlast, dif_pos hlast, hstep]
      exact h.move (.prefixed ⟨matched.val + 1, hlast⟩)
    · rw [if_pos (hnext.mpr hlast), dif_neg hlast]
      exact ⟨_, rfl, rfl, Nat.zero_le _, rfl⟩
  · rw [if_neg hbyte, if_neg hbyte]
    split_ifs
    · exact h.move .ground
    · exact h.move .skipEsc
    · exact h.move .skipToTerminator

/-- Outside of the ground state a byte does what it does to the scanner. -/
theorem react (h : Stores stored scanner) (hstate : scanner.state ≠ .ground) (byte : UInt8) :
    Agrees (stored.react byte) (scanner.react byte) := by
  have hstored := h.state
  cases hcase : scanner.state with
  | ground => exact absurd hcase hstate
  | prefixed matched => exact h.react_prefixed matched hcase byte
  | esc =>
    rw [hcase] at hstored
    unfold StoredScanner.react Osc133Scanner.react
    rw [hstored, hcase]
    dsimp only [ScanState.stored]
    split_ifs
    · exact h.move (.prefixed 0)
    · exact h.move .ground
  | payload =>
    rw [hcase] at hstored
    unfold StoredScanner.react Osc133Scanner.react
    rw [hstored, hcase]
    dsimp only [ScanState.stored]
    rw [h.length_payload]
    split_ifs with h1 h2 h3 hroom
    · exact h.emitTo .ground
    · exact h.move .payloadEsc
    · exact h.move .ground
    · have hkeep := h.keep hroom byte
      rwa [← hcase]
    · exact h.move .skipToTerminator
  | skipToTerminator =>
    rw [hcase] at hstored
    unfold StoredScanner.react Osc133Scanner.react
    rw [hstored, hcase]
    dsimp only [ScanState.stored]
    split_ifs
    · exact h.move .ground
    · exact h.move .skipEsc
    · exact ⟨stored, rfl, h⟩
  | payloadEsc =>
    rw [hcase] at hstored
    unfold StoredScanner.react Osc133Scanner.react
    rw [hstored, hcase]
    dsimp only [ScanState.stored]
    split_ifs
    · exact h.emitTo .ground
    · exact h.move .esc
    · exact h.move .ground
  | skipEsc =>
    rw [hcase] at hstored
    unfold StoredScanner.react Osc133Scanner.react
    rw [hstored, hcase]
    dsimp only [ScanState.stored]
    split_ifs
    · exact h.move .ground
    · exact h.move (.prefixed 0)
    · exact h.move .esc
    · exact h.move .ground

/-- From any index on, what is told is what is told of the rest of the chunk byte by byte. -/
theorem feedFrom (h : Stores stored scanner) (bytes : List UInt8) (index : ℕ) :
    Agrees (stored.feedFrom bytes index) (scanner.scan (bytes.drop index)) := by
  induction stored, index using StoredScanner.feedFrom.induct bytes generalizing scanner with
  | case1 stored index hlt hground hnone =>
    have hstate := (stored_ground_iff _).mp (h.state ▸ hground)
    rw [StoredScanner.feedFrom, if_pos hlt, if_pos hground, hnone, Osc133Scanner.scan_ground hstate,
      ← findEscape_eq, hnone]
    exact ⟨stored, rfl, h⟩
  | case2 stored index hlt hground offset hoffset ih =>
    have hstate := (stored_ground_iff _).mp (h.state ▸ hground)
    have hesc : Stores { stored with state := .esc } { scanner with state := .esc } := ⟨rfl, h.fits, h.payload⟩
    rw [StoredScanner.feedFrom, if_pos hlt, if_pos hground, hoffset, Osc133Scanner.scan_ground hstate,
      ← findEscape_eq, hoffset]
    dsimp only
    rw [List.drop_drop]
    exact ih hesc
  | case3 stored index hlt hground ih =>
    have hstate : scanner.state ≠ .ground := fun heq => hground (h.state.trans ((stored_ground_iff _).mpr heq))
    obtain ⟨stored', hreact, hstores⟩ := h.react hstate bytes[index]
    obtain ⟨last, hfed, hlast⟩ := ih (stored', []) hstores
    rw [StoredScanner.feedFrom, if_pos hlt, if_neg hground, List.getElem?_eq_getElem hlt,
      List.drop_eq_getElem_cons hlt, Osc133Scanner.scan]
    dsimp only [Option.bind_eq_bind, Option.bind_some]
    rw [hreact]
    dsimp only [Option.bind_some]
    rw [hfed]
    exact ⟨last, rfl, hlast⟩
  | case4 stored index hend =>
    rw [StoredScanner.feedFrom, if_neg hend, List.drop_eq_nil_of_le (Nat.le_of_not_lt hend)]
    exact ⟨stored, rfl, h⟩

theorem feedAll (h : Stores stored scanner) (chunks : List (List UInt8)) :
    Agrees (stored.feedAll chunks) (scanner.scan chunks.flatten) := by
  induction chunks generalizing stored scanner with
  | nil => exact ⟨stored, rfl, h⟩
  | cons chunk chunks ih =>
    obtain ⟨stored', hfed, hstores⟩ := h.feedFrom chunk 0
    obtain ⟨last, hrest, hlast⟩ := ih hstores
    rw [List.drop_zero] at hfed hrest hlast
    rw [List.flatten_cons, Osc133Scanner.scan_append]
    unfold StoredScanner.feedAll StoredScanner.feed
    rw [hfed]
    dsimp only [Option.bind_eq_bind, Option.bind_some]
    rw [hrest]
    exact ⟨last, rfl, hlast⟩

end Stores

/-! ### Chunks -/

theorem flatten_singletons {α : Type*} (xs : List α) : (xs.map fun x => [x]).flatten = xs := by
  induction xs with
  | nil => rfl
  | cons x xs ih => rw [List.map_cons, List.flatten_cons, ih, List.singleton_append]

/-- However a stream is cut into chunks, the marks are those of its bytes one by one, and no access is out of
bounds; the search finds the first ESC of any slice. -/
theorem chunks_told (chunks : List (List UInt8)) :
    (∃ marks, (StoredScanner.default.feedAll chunks).map (·.2) = some marks ∧
      (StoredScanner.default.feedAll (chunks.flatten.map fun byte => [byte])).map (·.2) = some marks) ∧
    ∀ bytes, match findEscape bytes with
      | some index => bytes[index]? = some 0x1b ∧ ∀ before < index, bytes[before]? ≠ some 0x1b
      | none => 0x1b ∉ bytes := by
  refine ⟨?_, fun bytes => ?_⟩
  · obtain ⟨_, htold, -⟩ := stores_default.feedAll chunks
    obtain ⟨_, hsingle, -⟩ := stores_default.feedAll (chunks.flatten.map fun byte => [byte])
    rw [flatten_singletons] at hsingle
    exact ⟨_, congrArg _ htold, congrArg _ hsingle⟩
  · rw [findEscape_eq]
    cases hfind : bytes.findIdx? fun byte => decide (byte = 0x1b) with
    | some index =>
      obtain ⟨hlt, hescape, hbefore⟩ := List.findIdx?_eq_some_iff_getElem.mp hfind
      refine ⟨?_, fun before hless heq => ?_⟩
      · rw [List.getElem?_eq_getElem hlt, of_decide_eq_true hescape]
      · have hget := (List.getElem?_eq_some_iff.mp heq).2
        exact hbefore before hless (decide_eq_true hget)
    | none =>
      intro hmem
      exact absurd (List.findIdx?_eq_none_iff.mp hfind 0x1b hmem) (by decide)

end Paneflow.Terminal
