import Paneflow.Host.ControlAnswers

/-!
# Which answers are delivered

An answer of `control::dispatch` goes out if its text is no longer than a frame, which is not checked before. The
lengths below say what each answer takes, by the texts and numbers that it is made of; `answer_fits` puts them together
and `delivered_iff` says which answers go out.
-/

namespace Paneflow.Host.Delivered

open Paneflow.Checked Paneflow.Host.ControlAnswers Paneflow.Host.Identity Paneflow.Host.Surfaces
  Paneflow.Host.WriteScope Paneflow.Ipc.LineWire Paneflow.Ipc.Scrollback Paneflow.Json Paneflow.JsonText
  Paneflow.Numerals Paneflow.Text

/-! ### The parts of an answer -/

def textLen (text : String) : ℕ := 2 + escapedLen text.toList

def boolLen (value : Bool) : ℕ := if value then 4 else 5

def optLen {α : Type} (len : α → ℕ) : Option α → ℕ
  | none => 4
  | some a => len a

/-- An identity in quotes. -/
def idLen (_ : Uuid) : ℕ := 38

theorem plain_canonical {text : List Char} {i : ℕ} (h : canonicalFrom i text = true) : text.all plain = true := by
  rw [List.all_eq_true]
  intro c hc
  obtain ⟨hlow, hhigh, hne⟩ := toNat_hex (mem_canonical h c hc)
  simp only [plain, Bool.and_eq_true, decide_eq_true_eq]
  refine ⟨⟨⟨by omega, by omega⟩, ?_⟩, hne⟩
  rintro rfl
  exact absurd hlow (by decide)

variable {X : Type} {host : HostState X} {floats : UInt64 → List Char}

@[simp] theorem encodedLen_natValue (n : ℕ) : encodedLen floats (natValue n) = digits n := rfl

@[simp] theorem encodedLen_posInt (n : ℕ) : encodedLen floats (.number (.posInt n)) = digits n := rfl

@[simp] theorem encodedLen_idValue (id : Uuid) : encodedLen floats (idValue id) = idLen id := by
  rw [idValue, encodedLen, String.toList_ofList, escapedLen_ascii (plain_canonical id.canonical)]
  have := length_canonical id.canonical
  rw [idLen]
  omega

@[simp] theorem encodedLen_string (text : String) : encodedLen floats (.string text) = textLen text := rfl

@[simp] theorem encodedLen_bool (value : Bool) : encodedLen floats (.bool value) = boolLen value := rfl

@[simp] theorem encodedLen_null : encodedLen floats .null = 4 := rfl

theorem encodedLen_optValue {α : Type} {value : α → Value} {len : α → ℕ}
    (h : ∀ a, encodedLen floats (value a) = len a) (a : Option α) :
    encodedLen floats (optValue value a) = optLen len a := by
  cases a with
  | none => rfl
  | some a => exact h a

@[simp] theorem encodedLen_optText (text : Option String) :
    encodedLen floats (optValue .string text) = optLen textLen text := encodedLen_optValue (fun _ => rfl) text

@[simp] theorem encodedLen_optNat (n : Option ℕ) : encodedLen floats (optValue natValue n) = optLen digits n :=
  encodedLen_optValue (fun _ => rfl) n

@[simp] theorem encodedLen_optId (id : Option Uuid) : encodedLen floats (optValue idValue id) = optLen idLen id :=
  encodedLen_optValue encodedLen_idValue id

theorem encodedLen_resultEnvelope (id : ℕ) (result : Value) :
    encodedLen floats (resultEnvelope id result) = 33 + digits id + encodedLen floats result := by
  rw [resultEnvelope, encodedLen_object _ (by simp)]
  simp (disch := decide) [entryLen, textLen, escapedLen_ascii]
  omega

def surfaceRowLen (host : HostState X) (alias' : ℕ) (summary : SessionSummary) : ℕ :=
  209 + textLen summary.shell + textLen (summary.currentCwd.getD summary.cwd) + digits summary.generation +
    textLen summary.lifecycle.label + boolLen summary.live + textLen (surfaceName host.fileName summary) +
      digits alias' + optLen textLen summary.title + optLen idLen summary.workspace

theorem encodedLen_surfaceValue (alias' : ℕ) (summary : SessionSummary) :
    encodedLen floats (surfaceValue host alias' summary) = surfaceRowLen host alias' summary := by
  rw [surfaceValue, encodedLen_object _ (by simp), surfaceRowLen]
  simp (disch := decide) [entryLen, escapedLen_ascii, textLen, idLen]
  omega

/-! ### The lists -/

/-- An array, by the lengths of its items. -/
def arrayLen (lens : List ℕ) : ℕ := (if lens = [] then 2 else 1) + (lens.map (1 + ·)).sum

theorem encodedLen_array_eq (items : List Value) :
    encodedLen floats (.array items) = arrayLen (items.map (encodedLen floats)) := by
  cases items with
  | nil => rfl
  | cons item items =>
    rw [encodedLen_array _ (by simp), arrayLen, if_neg (by simp), List.map_map]
    rfl

def surfaceListLen (host : HostState X) (scope : Option ReadScope) : ℕ :=
  44 + digits (surfacesOf host scope).length + (scope.elim 0 fun scope => 19 + optLen idLen scope.workspace) +
    arrayLen ((surfacesOf host scope).zipIdx.map fun (summary, index) => surfaceRowLen host (index + 1) summary)

theorem surfaceList_len {params result : Value} (h : surfaceList host params = .ok result) :
    ∃ scope, readScope host.toAnswers params = .ok scope ∧ encodedLen floats result = surfaceListLen host scope := by
  unfold surfaceList at h
  obtain ⟨scope, hscope, h⟩ := bind_eq_ok.1 h
  refine ⟨scope, mapError_eq_ok.1 hscope, ?_⟩
  have hrows : ((surfacesOf host scope).zipIdx.map fun x => surfaceValue host (x.2 + 1) x.1).map (encodedLen floats) =
      (surfacesOf host scope).zipIdx.map fun x => surfaceRowLen host (x.2 + 1) x.1 := by
    rw [List.map_map]
    exact List.map_congr_left fun x _ => encodedLen_surfaceValue _ _
  cases scope with
  | none =>
    cases h
    rw [encodedLen_object _ (by simp), surfaceListLen]
    simp (disch := decide) [entryLen, escapedLen_ascii, encodedLen_array_eq, hrows]
    omega
  | some scope =>
    cases h
    rw [encodedLen_object _ (Value.insertField_ne_nil _ _ _), surfaceListLen, entriesLen_insertField _ (by simp)]
    simp (disch := decide) [entryLen, escapedLen_ascii, encodedLen_array_eq, hrows]
    omega

/-- The fields of a hook, each with its comma. -/
def hookFieldsLen (host : HostState X) (generation : ℕ) (lastHook : Option HookRecord) : ℕ :=
  match currentHook generation lastHook with
  | none => 15
  | some hook =>
    97 + optLen textLen hook.toolName + textLen hook.hookEventName + boolLen (host.authoritative hook.tool) +
      digits (host.nowMs - hook.receivedAtMs) + optLen digits hook.pid + digits hook.runtimeGeneration +
        textLen hook.tool

theorem entriesLen_agentHookFields (generation : ℕ) (lastHook : Option HookRecord) :
    entriesLen floats (agentHookFields host generation lastHook) = hookFieldsLen host generation lastHook := by
  unfold agentHookFields hookFieldsLen
  cases currentHook generation lastHook with
  | none =>
    simp (disch := decide) [entryLen, escapedLen_ascii, boolLen]
  | some hook =>
    simp (disch := decide) [entryLen, escapedLen_ascii]
    omega

theorem entriesLen_insertAll {added : List (String × Value)} (hadded : (added.map Prod.fst).Nodup) :
    ∀ {fields : List (String × Value)}, (∀ key ∈ added.map Prod.fst, key ∉ fields.map Prod.fst) →
      entriesLen floats (insertAll added fields) = entriesLen floats added + entriesLen floats fields := by
  induction added with
  | nil => intro fields _; simp [insertAll]
  | cons field added ih =>
    obtain ⟨key', value⟩ := field
    intro fields hfields
    rw [List.map_cons, List.nodup_cons] at hadded
    have hrest := @ih hadded.2 (Value.insertField key' value fields) fun key hkey hmem => by
      rcases Value.keys_insertField hmem with rfl | hmem
      · exact hadded.1 hkey
      · exact hfields key (List.mem_cons_of_mem _ hkey) hmem
    rw [insertAll, List.foldl_cons, ← insertAll, hrest,
      entriesLen_insertField _ (hfields _ (List.mem_cons_self)), entriesLen_cons]
    dsimp only
    omega

/-- What a row or a status adds to the fields of a hook. -/
theorem entriesLen_hooked {added : List (String × Value)} {generation : ℕ} {lastHook : Option HookRecord}
    (hadded : (added.map Prod.fst).Nodup)
    (hkeys : ∀ key ∈ added.map Prod.fst, key ∉ ["active_tool_name", "hook_event_name", "hooked", "idle_ms", "pid",
      "runtime_generation", "tool"]) :
    entriesLen floats (insertAll added (agentHookFields host generation lastHook)) =
      entriesLen floats added + hookFieldsLen host generation lastHook := by
  rw [entriesLen_insertAll hadded, entriesLen_agentHookFields]
  intro key hkey
  have := hkeys key hkey
  unfold agentHookFields
  cases currentHook generation lastHook <;> simp_all

theorem insertAll_ne_nil {added fields : List (String × Value)} (h : added ≠ []) : insertAll added fields ≠ [] := by
  rw [insertAll, ← List.dropLast_append_getLast h, List.foldl_append]
  exact Value.insertField_ne_nil _ _ _

def fleetRowLen (host : HostState X) (summary : SessionSummary) (index : ℕ) : ℕ :=
  107 + hookFieldsLen host summary.generation summary.lastHook + digits (index + 1) +
    textLen (surfaceName host.fileName summary) + digits summary.generation + optLen idLen summary.workspace

theorem encodedLen_fleetRow {summary : SessionSummary} {index : ℕ} :
    (fleetRow host summary index).map (encodedLen floats) =
      (currentHook summary.generation summary.lastHook).map fun _ => fleetRowLen host summary index := by
  unfold fleetRow
  rw [Option.map_map]
  congr 1
  funext _
  rw [Function.comp_apply, encodedLen_object _ (insertAll_ne_nil (by simp)), entriesLen_hooked (by simp) (by simp),
    fleetRowLen]
  simp (disch := decide) [entryLen, escapedLen_ascii, idLen]
  omega

def fleetListLen (host : HostState X) : ℕ :=
  11 + arrayLen ((sorted host.listed).zipIdx.filterMap fun (summary, index) =>
    (currentHook summary.generation summary.lastHook).map fun _ => fleetRowLen host summary index)

theorem fleetList_len : encodedLen floats (fleetList host) = fleetListLen host := by
  rw [fleetList, encodedLen_object _ (by simp), fleetListLen]
  simp (disch := decide) [entryLen, escapedLen_ascii, encodedLen_array_eq, List.map_filterMap, encodedLen_fleetRow]
  omega

/-! ### One session -/

theorem encodedLen_foregroundRuntime (summary : SessionSummary) :
    encodedLen floats (foregroundRuntime summary) =
      optLen (fun observation => textLen observation.id) summary.currentObservation :=
  encodedLen_optValue (fun _ => rfl) _

def surfaceStatusLen (host : HostState X) (aliases : ConnectionAliases) (session : SessionId)
    (summary : SessionSummary) : ℕ :=
  100 + hookFieldsLen host summary.generation summary.lastHook + digits ((aliasOf aliases session).getD 0) +
    digits summary.generation + (host.outputGeneration session).elim 0 (fun generation => 21 + digits generation) +
      optLen (fun observation => textLen observation.id) summary.currentObservation

theorem surfaceStatus_len {aliases : ConnectionAliases} {params result : Value}
    (h : surfaceStatus host aliases params = .ok result) :
    ∃ session summary, resolveSession (X := X) aliases params = .ok session ∧ host.current session = .ok summary ∧
      encodedLen floats result = surfaceStatusLen host aliases session summary := by
  unfold surfaceStatus at h
  obtain ⟨session, hsession, h⟩ := bind_eq_ok.1 h
  obtain ⟨summary, hsummary, h⟩ := bind_eq_ok.1 h
  refine ⟨session, summary, hsession, mapError_eq_ok.1 hsummary, ?_⟩
  cases h
  rw [encodedLen_object _ (Value.insertField_ne_nil _ _ _)]
  have hstatus : ∀ added : List (String × Value),
      insertAll (added ++ [("foreground_runtime", foregroundRuntime summary)])
        (agentHookFields host summary.generation summary.lastHook) =
        Value.insertField "foreground_runtime" (foregroundRuntime summary)
          (insertAll added (agentHookFields host summary.generation summary.lastHook)) := fun added => by
    simp [insertAll]
  rw [agentStatusFields, ← hstatus, surfaceStatusLen]
  cases host.outputGeneration session with
  | none =>
    rw [entriesLen_hooked (by simp) (by simp)]
    simp (disch := decide) [entryLen, escapedLen_ascii, idLen, encodedLen_foregroundRuntime]
    omega
  | some generation =>
    rw [entriesLen_hooked (by simp) (by simp)]
    simp (disch := decide) [entryLen, escapedLen_ascii, idLen, encodedLen_foregroundRuntime]
    omega

/-- What the fence adds to a text. -/
def fenceLen (total : ℕ) (eof : Bool) : ℕ := 189 + digits total + (eofText eof).length

/-- The text that `surface.read` shows of a window, if it is not cut. -/
def shownLen (fenced : Bool) (total : ℕ) (eof : Bool) (text : List Char) : ℕ :=
  if fenced then fenceLen total eof + escapedLen (neutralizeUntrusted (neutralizeUntrusted text)) else escapedLen text

def surfaceReadLen (aliases : ConnectionAliases) (permissions : ControlPermissions) (params : Value)
    (session : SessionId) (full : List Char) : ℕ :=
  let (text, returned, total, eof) := paginateScrollback full (readLines params) (readOffset params)
  145 + boolLen eof + digits returned + digits ((aliasOf aliases session).getD 0) + digits total +
    shownLen (fencedRead permissions params) total eof text

theorem plain_digitChar : ∀ d < 16, plain (Nat.digitChar d) = true := by decide

theorem escapedLen_toDigits (n : ℕ) : escapedLen (Nat.toDigits 10 n) = digits n := by
  refine escapedLen_ascii (List.all_eq_true.2 fun c hc => ?_)
  obtain ⟨d, hd, rfl⟩ := mem_toDigits (by decide) n c hc
  exact plain_digitChar d (by omega)

theorem escapedLen_fenceId (fence : UInt64) : escapedLen (padded 16 16 fence.toNat) = 16 := by
  have hfence : fence.toNat < 16 ^ 16 := fence.toNat_lt
  rw [escapedLen_ascii, length_padded (by decide) (by decide) hfence]
  refine List.all_eq_true.2 fun c hc => ?_
  obtain ⟨d, hd, rfl⟩ := mem_padded (by decide) _ _ c hc
  exact plain_digitChar d hd

theorem escapedLen_wrapUntrusted (fence : UInt64) (session : SessionId) (total : ℕ) (eof : Bool) (body : List Char) :
    escapedLen (wrapUntrusted fence (headerAttrs session total eof) body) =
      fenceLen total eof + escapedLen (neutralizeUntrusted body) := by
  have heof : escapedLen (eofText eof) = (eofText eof).length := escapedLen_ascii (by cases eof <;> rfl)
  have hsession : escapedLen session.text = 36 := by
    rw [escapedLen_ascii (plain_canonical session.canonical)]
    exact length_canonical session.canonical
  have hid := escapedLen_fenceId fence
  have htotal := escapedLen_toDigits total
  unfold wrapUntrusted headerAttrs fenceLen
  dsimp only
  repeat rw [escapedLen_append]
  have h1 : escapedLen "<untrusted_terminal_output ".toList = 27 := by decide
  have h2 : escapedLen "source=\"session:".toList = 17 := by decide
  have h3 : escapedLen "\" total_lines=\"".toList = 17 := by decide
  have h4 : escapedLen "\" eof=\"".toList = 9 := by decide
  have h5 : escapedLen "\"".toList = 2 := by decide
  have h6 : escapedLen " id=\"".toList = 6 := by decide
  have h7 : escapedLen "\">\n".toList = 5 := by decide
  have h8 : escapedLen "\n</untrusted_terminal_output id=\"".toList = 35 := by decide
  have h9 : escapedLen "\">".toList = 3 := by decide
  omega

/-- The answer of `surface.read`, or both the answer and what it would be uncut are over the budget of a text. -/
theorem surfaceRead_len {aliases : ConnectionAliases} {permissions : ControlPermissions} {params result : Value}
    (h : surfaceRead host aliases permissions params = .ok result) :
    ∃ session full, resolveSession (X := X) aliases params = .ok session ∧ host.text session = .ok full ∧
      (encodedLen floats result = surfaceReadLen aliases permissions params session full ∨
        maxIpcTextBytes < encodedLen floats result ∧
          maxIpcTextBytes < surfaceReadLen aliases permissions params session full) := by
  unfold surfaceRead at h
  obtain ⟨scope, -, h⟩ := bind_eq_ok.1 h
  obtain ⟨session, hsession, h⟩ := bind_eq_ok.1 h
  obtain ⟨-, -, h⟩ := bind_eq_ok.1 h
  obtain ⟨full, hfull, h⟩ := bind_eq_ok.1 h
  refine ⟨session, full, hsession, mapError_eq_ok.1 hfull, ?_⟩
  unfold surfaceReadLen
  generalize paginateScrollback full (readLines params) (readOffset params) = window at h ⊢
  obtain ⟨text, returned, total, eof⟩ := window
  obtain ⟨-, -, h⟩ := bind_eq_ok.1 h
  dsimp only at h ⊢
  generalize hfenced : fencedRead permissions params = fenced at h ⊢
  have hcut := escapedLen_truncateIpcText (if fenced then neutralizeUntrusted text else text)
  generalize truncateIpcText (if fenced then neutralizeUntrusted text else text) = cut at h hcut
  obtain ⟨cut, truncated⟩ := cut
  dsimp only at h hcut
  cases h
  have hlen : ∀ shown : List Char, encodedLen floats (Value.object [
      ("eof", .bool eof),
      ("lines", natValue returned),
      ("output_generation", natValue 0),
      ("session", idValue session),
      ("surface_id", natValue ((aliasOf aliases session).getD 0)),
      ("text", .string (String.ofList shown)),
      ("total_lines", natValue total),
      ("truncated", .bool truncated)]) = 140 + boolLen eof + digits returned +
        digits ((aliasOf aliases session).getD 0) + digits total + boolLen truncated + escapedLen shown := by
    intro shown
    have hzero : digits 0 = 1 := rfl
    rw [encodedLen_object _ (by simp)]
    simp (disch := decide) [entryLen, escapedLen_ascii, idLen, textLen]
    omega
  rw [hlen]
  rcases hcut with ⟨-, heq⟩ | ⟨hover, htrue, hnear⟩
  · left
    obtain ⟨rfl, rfl⟩ := Prod.mk.inj heq
    cases fenced with
    | false =>
      simp only [shownLen, boolLen, Bool.false_eq_true, if_false]
      omega
    | true =>
      simp only [shownLen, boolLen, Bool.false_eq_true, if_false, if_true, escapedLen_wrapUntrusted]
      omega
  · right
    cases fenced with
    | false =>
      simp only [shownLen, Bool.false_eq_true, if_false] at hover ⊢
      omega
    | true =>
      have h1 := escapedLen_neutralizeUntrusted cut
      have h2 := escapedLen_neutralizeUntrusted (neutralizeUntrusted text)
      simp only [shownLen, if_true, escapedLen_wrapUntrusted] at hover ⊢
      omega

def matchLen (found : ℕ × List Char) : ℕ := 19 + digits found.1 + escapedLen found.2

/-- The answer of `surface.search` with the first `n` of the matches. -/
def surfaceSearchLen (found : List (ℕ × List Char)) (capped : Bool) (n : ℕ) : ℕ :=
  25 + boolLen (capped || n < found.length) + arrayLen ((found.take n).map matchLen)

theorem encodedLen_matchValue (found : ℕ × List Char) : encodedLen floats (matchValue found) = matchLen found := by
  rw [matchValue, encodedLen_object _ (by simp), matchLen]
  simp (disch := decide) [entryLen, escapedLen_ascii, textLen]
  omega

theorem surfaceSearchLen_mono (found : List (ℕ × List Char)) (capped : Bool) {n m : ℕ} (h : n ≤ m) :
    surfaceSearchLen found capped n ≤ surfaceSearchLen found capped m := by
  obtain ⟨rest, hrest⟩ := List.take_prefix_take_left h (l := found)
  have hbool : boolLen (capped || n < found.length) ≤ boolLen (capped || m < found.length) := by
    by_cases hm : m < found.length
    · rw [decide_eq_true hm, decide_eq_true (Nat.lt_of_le_of_lt h hm)]
    · rw [decide_eq_false hm]
      cases capped <;> cases decide (n < found.length) <;> decide
  have harray : arrayLen ((found.take n).map matchLen) ≤ arrayLen ((found.take m).map matchLen) := by
    rw [← hrest]
    cases found.take n with
    | nil =>
      cases rest with
      | nil => exact Nat.le_refl _
      | cons next rest =>
        simp only [arrayLen, List.nil_append, List.map_nil, List.map_cons, if_true, List.sum_nil, reduceCtorEq,
          if_false, List.sum_cons]
        omega
    | cons first others =>
      simp only [arrayLen, List.cons_append, List.map_cons, List.map_append, reduceCtorEq, if_false, List.sum_cons,
        List.sum_append]
      omega
  unfold surfaceSearchLen
  omega

theorem surfaceSearch_len {aliases : ConnectionAliases} {params result : Value}
    (h : surfaceSearch host aliases params = .ok result) :
    ∃ session full found capped n, resolveSession (X := X) aliases params = .ok session ∧ host.text session = .ok full ∧
      searchText host.lower full (searchPattern params) (searchMatches params) = (found, capped) ∧ n ≤ found.length ∧
        encodedLen floats result = surfaceSearchLen found capped n ∧
          ∀ m ≤ found.length, budgetLen (found.take m) ≤ maxIpcTextBytes ↔ m ≤ n := by
  unfold surfaceSearch at h
  obtain ⟨-, -, h⟩ := bind_eq_ok.1 h
  obtain ⟨-, -, h⟩ := bind_eq_ok.1 h
  obtain ⟨scope, -, h⟩ := bind_eq_ok.1 h
  obtain ⟨session, hsession, h⟩ := bind_eq_ok.1 h
  obtain ⟨-, -, h⟩ := bind_eq_ok.1 h
  obtain ⟨full, hfull, h⟩ := bind_eq_ok.1 h
  generalize hfound : searchText host.lower full (searchPattern params) (searchMatches params) = searched at h
  obtain ⟨found, capped⟩ := searched
  obtain ⟨n, hn, hfit, hle, hmax⟩ := @fitMatchesFrom_spec 0 found (Nat.zero_le _)
  dsimp only at h
  rw [show fitMatchesToIpcFrame found = _ from hfit] at h
  cases h
  refine ⟨session, full, found, capped, n, hsession, mapError_eq_ok.1 hfull, hfound, hn, ?_, fun m hm => ⟨?_, ?_⟩⟩
  · have hrows : encodedLen floats (.array ((found.take n).map matchValue)) =
        arrayLen ((found.take n).map matchLen) := by
      rw [encodedLen_array_eq, List.map_map]
      exact congrArg arrayLen (List.map_congr_left fun x _ => encodedLen_matchValue x)
    rw [encodedLen_object _ (by simp), surfaceSearchLen, ← hrows]
    simp (disch := decide) only [entriesLen_cons, entriesLen_nil, entryLen, escapedLen_ascii, String.length_toList,
      encodedLen_bool]
    have h1 : "matches".length = 7 := rfl
    have h2 : "truncated".length = 9 := rfl
    omega
  · intro hbudget
    by_contra hlt
    have hover := hmax (by omega)
    have := budgetLen_take_le found (show n + 1 ≤ m by omega)
    omega
  · intro hmn
    have := budgetLen_take_le found hmn
    omega

/-! ### The writes -/

/-- The `submit_mode` of a delivered text. -/
def submitModeLen (text : List Char) (paste submit : Bool) : ℕ :=
  if !submit then 4 else if paste && !text.isEmpty then 19 else 11

theorem deliverText_len (floats : UInt64 → List Char) {session : SessionId} {text : List Char}
    {pasteParam : Option Bool} {submit agentTarget : Bool} {delivered : WriteScope.Delivered}
    (h : (deliverText host.toAnswers session text pasteParam submit agentTarget).2 = .ok delivered) :
    ∃ bracketed paste, host.bracketedPaste session = .ok bracketed ∧
      resolveSendTextBodyMode text pasteParam (resolvePasteMode pasteParam submit agentTarget bracketed) bracketed =
        .ok paste ∧
      delivered.paste = paste ∧ delivered.terminalBracketedPaste = bracketed ∧
        encodedLen floats delivered.submitMode.value = submitModeLen text paste submit := by
  unfold deliverText at h
  dsimp only at h
  split at h
  · cases h
  · next paste bracketed hmode =>
    obtain ⟨bracketed', hbracketed, hmode⟩ := bind_eq_ok.1 hmode
    obtain ⟨paste', hpaste, hmode⟩ := bind_eq_ok.1 hmode
    cases hmode
    refine ⟨bracketed, paste, mapError_eq_ok.1 hbracketed, mapError_eq_ok.1 hpaste, ?_⟩
    have hvalue : ∀ mode : SubmitMode, mode = (if !submit then .none else if paste && !text.isEmpty then
        .deferredPasteCr else .inlineCr) → encodedLen floats mode.value = submitModeLen text paste submit := by
      rintro mode rfl
      unfold submitModeLen
      split_ifs <;> simp (disch := decide) [SubmitMode.value, textLen, escapedLen_ascii]
    have hmap : ∀ {input : Except X ℕ} {mode : SubmitMode},
        ((fromHost input).map fun _ => (⟨paste, mode, bracketed⟩ : WriteScope.Delivered)) = .ok delivered →
          delivered = ⟨paste, mode, bracketed⟩ := by
      intro input mode hinput
      cases input with
      | error error => cases hinput
      | ok n =>
        cases hinput
        rfl
    have hdelivered : delivered = ⟨paste, if !submit then .none else if paste && !text.isEmpty then .deferredPasteCr
        else .inlineCr, bracketed⟩ := by
      unfold writeText at h
      dsimp only at h
      generalize (if !submit then SubmitMode.none else if paste && !text.isEmpty then .deferredPasteCr else .inlineCr) =
        mode at h ⊢
      by_cases hempty : text.isEmpty = true
      · rw [if_pos hempty] at h
        by_cases hsubmit : submit = true
        · rw [if_pos hsubmit] at h
          exact hmap h
        · rw [if_neg hsubmit] at h
          cases h
          rfl
      · rw [if_neg hempty] at h
        cases hinput : host.input 0 with
        | error error =>
          rw [hinput] at h
          cases h
        | ok n =>
          rw [hinput] at h
          dsimp only at h
          by_cases hsubmit : submit = true
          · rw [if_pos hsubmit] at h
            exact hmap h
          · rw [if_neg hsubmit] at h
            cases h
            rfl
    subst hdelivered
    exact ⟨rfl, rfl, hvalue _ rfl⟩

def requestText (params : Value) : List Char := ((params.text "text").getD "").toList

def submitted (params : Value) : Bool := ((params.get "submit").bind Value.asBool).getD false

def pasteParam (params : Value) : Option Bool := (params.get "paste").bind Value.asBool

def sendTextLen (params : Value) (summary : SessionSummary) (bracketed paste : Bool) : ℕ :=
  118 + boolLen summary.lastHook.isSome + optLen (fun hook => textLen hook.tool) summary.lastHook +
    digits (Utf8.size (requestText params)) + boolLen paste +
      submitModeLen (requestText params) paste (submitted params) + boolLen (submitted params) + boolLen bracketed

theorem sendText_len {aliases : ConnectionAliases} {permissions : ControlPermissions} {params result : Value}
    (h : (WriteScope.surfaceSendText host.toAnswers aliases permissions params).result = .ok result) :
    ∃ session summary bracketed paste, resolveSession (X := X) aliases params = .ok session ∧
      host.current session = .ok summary ∧ host.bracketedPaste session = .ok bracketed ∧
      resolveSendTextBodyMode (requestText params) (pasteParam params)
        (resolvePasteMode (pasteParam params) (submitted params) summary.lastHook.isSome bracketed) bracketed =
          .ok paste ∧
      encodedLen floats result = sendTextLen params summary bracketed paste := by
  unfold WriteScope.surfaceSendText at h
  dsimp only at h
  split at h
  · cases h
  · next session summary hchecked =>
    simp only [bind_eq_ok, throwIf_eq_ok] at hchecked
    obtain ⟨-, -, -, -, -, -, session', hsession, -, -, summary', hsummary, heq⟩ := hchecked
    cases heq
    dsimp only at h
    generalize hdelivered : deliverText host.toAnswers session ((params.text "text").getD "").toList
      ((params.get "paste").bind Value.asBool) (((params.get "submit").bind Value.asBool).getD false)
        summary.lastHook.isSome = delivered at h
    obtain ⟨writes, delivered⟩ := delivered
    cases delivered with
    | error refusal => cases h
    | ok delivered =>
      cases h
      have hok := congrArg Prod.snd hdelivered
      obtain ⟨bracketed, paste, hbracketed, hpaste, h1, h2, h3⟩ := deliverText_len floats hok
      refine ⟨session, summary, bracketed, paste, hsession, mapError_eq_ok.1 hsummary, hbracketed, hpaste, ?_⟩
      have htool : encodedLen floats (summary.lastHook.elim .null fun hook => .string hook.tool) =
          optLen (fun hook => textLen hook.tool) summary.lastHook := by
        cases summary.lastHook <;> rfl
      rw [encodedLen_object _ (by simp), sendTextLen]
      have htrue : boolLen true = 4 := rfl
      simp (disch := decide) [entryLen, escapedLen_ascii, htool, h1, h2, h3]
      unfold requestText submitted
      omega

/-- What `TurnStart::annotate` adds. -/
def annotationLen (turn : TurnStart) : ℕ :=
  38 + textLen turn.reason.text + optLen boolLen turn.started + turn.state.elim 0 fun state => 9 + textLen state.text

def writtenLen (body : List Char) (submit paste : Bool) (turn : TurnStart) : ℕ :=
  57 + digits (Utf8.size body) + submitModeLen body paste submit + boolLen submit +
    if submit then annotationLen turn else 0

def pendingLen (source target : List Char) (request : ℕ) : ℕ :=
  162 + escapedLen source + escapedLen target + digits request

def noWindowLen (request : ℕ) : ℕ := 148 + digits request

/-- What `pane.write` delivers. -/
def relayed (host : HostState X) (params : Value) (source : SessionSummary) : List Char :=
  provenanceLine host.fileName source ++ '\n' :: sanitizeRelayedText (requestText params)

theorem encodedLen_annotated {body : List Char} {delivered : WriteScope.Delivered} {turn : TurnStart} {paste : Bool}
    (h : encodedLen floats delivered.submitMode.value = submitModeLen body paste true) :
    encodedLen floats (annotated body delivered turn) = writtenLen body true paste turn := by
  have hstarted : encodedLen floats (turn.started.elim .null .bool) = optLen boolLen turn.started := by
    cases turn.started <;> rfl
  have hstate : entriesLen floats (turn.state.elim [] fun state => [("state", .string state.text)]) =
      turn.state.elim 0 fun state => 9 + textLen state.text := by
    cases turn.state with
    | none => rfl
    | some state => simp (disch := decide) [entryLen, escapedLen_ascii]
  rw [annotated, encodedLen_object _ (by simp), writtenLen, if_pos rfl, annotationLen]
  have htrue : boolLen true = 4 := rfl
  have hwritten : textLen "written" = 9 := by decide
  simp (disch := decide) [entryLen, escapedLen_ascii, h, hstarted, hstate]
  omega

theorem encodedLen_written {body : List Char} {mode : SubmitMode} {turn : TurnStart} {paste : Bool}
    (h : encodedLen floats mode.value = submitModeLen body paste false) :
    encodedLen floats (.object [
      ("bytes", .number (.posInt (Utf8.size body))),
      ("status", .string "written"),
      ("submit_mode", mode.value),
      ("submitted", .bool false)]) = writtenLen body false paste turn := by
  have hwritten : textLen "written" = 9 := by decide
  rw [encodedLen_object _ (by simp), writtenLen, if_neg Bool.false_ne_true]
  simp (disch := decide) [entryLen, escapedLen_ascii, h]
  omega

theorem trimmedSession_missing {params : Value} {key missing missing' : String} {session : SessionId}
    (h : (trimmedSession params key missing : Except (Refusal X) SessionId) = .ok session) :
    (trimmedSession params key missing' : Except (Refusal X) SessionId) = .ok session := by
  unfold trimmedSession at h ⊢
  generalize (params.text key).map (fun raw => trim raw.toList) = raw at h ⊢
  match raw with
  | none | some [] => cases h
  | some (c :: raw) => exact h

theorem approval_ok (floats : UInt64 → List Char) {s t : SessionSummary}
    {so to' : Approvals.AgentOccurrence SessionId} {instead : Option Value}
    (h : approval host.toAnswers s t so to' = .ok instead) :
    (instead = none ∧ host.admission so to' = .approved) ∨
      ∃ request value, instead = some value ∧ host.admission so to' = .pending request ∧
        encodedLen floats value = if host.hasWindow then
          pendingLen (labelOf host.fileName s) (labelOf host.fileName t) request else noWindowLen request := by
  unfold approval at h
  dsimp only at h
  split at h
  · cases h
  · cases h
  · split at h
    · next happroved =>
      split at h
      · cases h
      · cases h
        exact .inl ⟨rfl, happroved⟩
    · next request hpending =>
      right
      split_ifs at h with hwindow
      · cases h
        refine ⟨request, _, rfl, hpending, ?_⟩
        have hmessage : escapedLen ("a human must allow " ++ String.ofList (labelOf host.fileName s) ++
            " to write into " ++ String.ofList (labelOf host.fileName t) ++
              " in Paneflow; nothing was written, call write_pane again after the decision").toList =
            109 + escapedLen (labelOf host.fileName s) + escapedLen (labelOf host.fileName t) := by
          have h1 : escapedLen "a human must allow ".toList = 19 := by decide
          have h2 : escapedLen " to write into ".toList = 15 := by decide
          have h3 : escapedLen (" in Paneflow; nothing was written, call write_pane again after the decision").toList =
            75 := by decide
          simp only [String.toList_append, String.toList_ofList, escapedLen_append]
          omega
        rw [if_pos hwindow, pendingLen, encodedLen_object _ (by simp)]
        generalize "a human must allow " ++ String.ofList (labelOf host.fileName s) ++
            " to write into " ++ String.ofList (labelOf host.fileName t) ++
              " in Paneflow; nothing was written, call write_pane again after the decision" = message at hmessage ⊢
        simp (disch := decide) [entryLen, escapedLen_ascii, textLen]
        omega
      · cases h
        refine ⟨request, _, rfl, hpending, ?_⟩
        rw [if_neg hwindow, noWindowLen, encodedLen_object _ (by simp)]
        simp (disch := decide) [entryLen, escapedLen_ascii, textLen]
        omega
    · cases h
    · cases h

theorem paneWrite_len {permissions : ControlPermissions} {params result : Value}
    (h : (WriteScope.paneWrite host.toAnswers permissions params).result = .ok result) :
    ∃ source target, (trimmedSession params "source_session" "" : Except (Refusal X) SessionId) = .ok source ∧
      (trimmedSession params "session" "" : Except (Refusal X) SessionId) = .ok target ∧
      ∃ s t, host.current source = .ok s ∧ host.current target = .ok t ∧
      ∃ so to', occurrenceOf s = some so ∧ occurrenceOf t = some to' ∧
        ((∃ request, host.admission so to' = .pending request ∧
          encodedLen floats result = if host.hasWindow then
            pendingLen (labelOf host.fileName s) (labelOf host.fileName t) request else noWindowLen request) ∨
        (host.admission so to' = .approved ∧ ∃ bracketed paste, host.bracketedPaste target = .ok bracketed ∧
          resolveSendTextBodyMode (relayed host params s) (some true) true bracketed = .ok paste ∧
          encodedLen floats result = writtenLen (relayed host params s) (submitted params) paste host.turnStart)) := by
  unfold WriteScope.paneWrite at h
  dsimp only at h
  split at h
  · cases h
  · next target text source instead hchecked =>
    cases h
    simp only [bind_eq_ok, throwIf_eq_ok] at hchecked
    obtain ⟨source', hsource, target', htarget, -, -, -, -, -, -, -, -, s, hs, t, ht, heq⟩ := hchecked
    split at heq
    · cases heq
    · cases heq
    · next so to' hso hto =>
      obtain ⟨instead', hinstead, heq⟩ := bind_eq_ok.1 heq
      cases heq
      refine ⟨source', target, trimmedSession_missing hsource, trimmedSession_missing htarget, source, t,
        mapError_eq_ok.1 hs, mapError_eq_ok.1 ht, so, to', hso, hto, .inl ?_⟩
      rcases approval_ok floats hinstead with ⟨hnone, -⟩ | ⟨request, value, hvalue, hpending, hlen⟩
      · cases hnone
      · cases hvalue
        exact ⟨request, hpending, hlen⟩
  · next target text source hchecked =>
    simp only [bind_eq_ok, throwIf_eq_ok] at hchecked
    obtain ⟨source', hsource, target', htarget, -, -, -, -, -, -, -, -, s, hs, t, ht, heq⟩ := hchecked
    split at heq
    · cases heq
    · cases heq
    · next so to' hso hto =>
      obtain ⟨instead', hinstead, heq⟩ := bind_eq_ok.1 heq
      cases heq
      refine ⟨source', target, trimmedSession_missing hsource, trimmedSession_missing htarget, source, t,
        mapError_eq_ok.1 hs, mapError_eq_ok.1 ht, so, to', hso, hto, .inr ⟨?_, ?_⟩⟩
      · rcases approval_ok floats hinstead with ⟨-, happroved⟩ | ⟨request, value, hvalue, -⟩
        · exact happroved
        · cases hvalue
      · generalize hdelivered : deliverText host.toAnswers target (provenanceLine host.fileName source ++
          '\n' :: sanitizeRelayedText ((params.text "text").getD "").toList) (some true)
            (((params.get "submit").bind Value.asBool).getD false) true = delivered at h
        obtain ⟨writes, delivered⟩ := delivered
        cases delivered with
        | error refusal => cases h
        | ok delivered =>
          cases h
          obtain ⟨bracketed, paste, hbracketed, hpaste, -, -, hmode⟩ :=
            deliverText_len floats (congrArg Prod.snd hdelivered)
          refine ⟨bracketed, paste, hbracketed, hpaste, ?_⟩
          change encodedLen floats (if submitted params then annotated (relayed host params source) delivered
            host.turnStart else _) = _
          have hmode : encodedLen floats delivered.submitMode.value =
            submitModeLen (relayed host params source) paste (submitted params) := hmode
          cases hsubmit : submitted params with
          | true =>
            rw [if_pos rfl, encodedLen_annotated (by rwa [hsubmit] at hmode)]
          | false =>
            rw [if_neg Bool.false_ne_true]
            exact encodedLen_written (by rwa [hsubmit] at hmode)

/-! ### What is delivered -/

/-- A result of this length is no longer than a frame in its envelope. -/
def Within (id len : ℕ) : Prop := 33 + digits id + len ≤ maxControlFrameBytes

/-- **When the answer of a control method fits a frame**, by what it is made of. -/
def Fits (host : HostState X) (floats : UInt64 → List Char) (aliases : ConnectionAliases)
    (permissions : ControlPermissions) (params : Value) (id : ℕ) : ControlMethod → Prop
  | .systemCapabilities =>
    Within id (58 + encodedLen floats host.identity + boolLen permissions.orchestration + boolLen permissions.scripting)
  | .surfaceList => ∀ scope, readScope host.toAnswers params = .ok scope → Within id (surfaceListLen host scope)
  | .surfaceRead => ∀ session full, resolveSession (X := X) aliases params = .ok session →
      host.text session = .ok full →
        Within id (surfaceReadLen aliases permissions params session full)
  | .surfaceSearch => ∀ session full, resolveSession (X := X) aliases params = .ok session →
      host.text session = .ok full → ∀ found capped,
        searchText host.lower full (searchPattern params) (searchMatches params) = (found, capped) →
          ∀ n ≤ found.length, budgetLen (found.take n) ≤ maxIpcTextBytes → Within id (surfaceSearchLen found capped n)
  | .surfaceStatus => ∀ session summary, resolveSession (X := X) aliases params = .ok session →
      host.current session = .ok summary → Within id (surfaceStatusLen host aliases session summary)
  | .surfaceSendText => ∀ session summary bracketed paste, resolveSession (X := X) aliases params = .ok session →
      host.current session = .ok summary → host.bracketedPaste session = .ok bracketed →
        resolveSendTextBodyMode (requestText params) (pasteParam params)
          (resolvePasteMode (pasteParam params) (submitted params) summary.lastHook.isSome bracketed) bracketed =
            .ok paste → Within id (sendTextLen params summary bracketed paste)
  | .paneWrite => ∀ source target s t so to',
      (trimmedSession params "source_session" "" : Except (Refusal X) SessionId) = .ok source →
      (trimmedSession params "session" "" : Except (Refusal X) SessionId) = .ok target →
      host.current source = .ok s → host.current target = .ok t → occurrenceOf s = some so → occurrenceOf t = some to' →
        (∀ request, host.admission so to' = .pending request → Within id (if host.hasWindow then
          pendingLen (labelOf host.fileName s) (labelOf host.fileName t) request else noWindowLen request)) ∧
        (host.admission so to' = .approved → ∀ bracketed paste, host.bracketedPaste target = .ok bracketed →
          resolveSendTextBodyMode (relayed host params s) (some true) true bracketed = .ok paste →
            Within id (writtenLen (relayed host params s) (submitted params) paste host.turnStart))
  | .fleetList => Within id (fleetListLen host)

theorem systemCapabilities_len (permissions : ControlPermissions) :
    encodedLen floats (systemCapabilities host permissions) =
      58 + encodedLen floats host.identity + boolLen permissions.orchestration + boolLen permissions.scripting := by
  have hfalse : boolLen false = 5 := rfl
  rw [systemCapabilities, encodedLen_object _ (by simp)]
  simp (disch := decide) [entryLen, escapedLen_ascii]
  omega

theorem answer_fits {aliases : ConnectionAliases} {permissions : ControlPermissions} {method : ControlMethod}
    {params result : Value} (id : ℕ) (h : answer host aliases permissions method params = .ok result) :
    Within id (encodedLen floats result) ↔ Fits host floats aliases permissions params id method := by
  cases method with
  | systemCapabilities =>
    cases h
    rw [systemCapabilities_len]
    rfl
  | fleetList =>
    cases h
    rw [fleetList_len]
    rfl
  | surfaceList =>
    obtain ⟨scope, hscope, hlen⟩ := surfaceList_len h
    rw [hlen]
    refine ⟨fun hwithin scope' hscope' => ?_, fun hfits => hfits scope hscope⟩
    obtain rfl := ok_unique hscope hscope'
    exact hwithin
  | surfaceRead =>
    obtain ⟨session, full, hsession, hfull, hlen⟩ := surfaceRead_len h
    have hiff : Within id (encodedLen floats result) ↔
        Within id (surfaceReadLen aliases permissions params session full) := by
      unfold Within
      rcases hlen with hlen | ⟨hover, hover'⟩
      · rw [hlen]
      · have : maxControlFrameBytes < maxIpcTextBytes := by decide
        omega
    rw [hiff]
    refine ⟨fun hwithin session' full' hsession' hfull' => ?_, fun hfits => hfits session full hsession hfull⟩
    obtain rfl := ok_unique hsession hsession'
    obtain rfl := ok_unique hfull hfull'
    exact hwithin
  | surfaceSearch =>
    obtain ⟨session, full, found, capped, n, hsession, hfull, hfound, hn, hlen, hbudget⟩ :=
      surfaceSearch_len h
    rw [hlen]
    refine ⟨fun hwithin session' full' hsession' hfull' found' capped' hfound' m hm hle => ?_, fun hfits =>
      hfits session full hsession hfull found capped hfound n hn ((hbudget n hn).2 (Nat.le_refl n))⟩
    obtain rfl := ok_unique hsession hsession'
    obtain rfl := ok_unique hfull hfull'
    obtain ⟨rfl, rfl⟩ := Prod.mk.inj (hfound.symm.trans hfound')
    have hmono := surfaceSearchLen_mono found capped ((hbudget m hm).1 hle)
    unfold Within at hwithin ⊢
    omega
  | surfaceStatus =>
    obtain ⟨session, summary, hsession, hsummary, hlen⟩ := surfaceStatus_len h
    rw [hlen]
    refine ⟨fun hwithin session' summary' hsession' hsummary' => ?_, fun hfits =>
      hfits session summary hsession hsummary⟩
    obtain rfl := ok_unique hsession hsession'
    obtain rfl := ok_unique hsummary hsummary'
    exact hwithin
  | surfaceSendText =>
    obtain ⟨session, summary, bracketed, paste, hsession, hsummary, hbracketed, hpaste, hlen⟩ :=
      sendText_len h
    rw [hlen]
    refine ⟨fun hwithin session' summary' bracketed' paste' hsession' hsummary' hbracketed' hpaste' => ?_, fun hfits =>
      hfits session summary bracketed paste hsession hsummary hbracketed hpaste⟩
    obtain rfl := ok_unique hsession hsession'
    obtain rfl := ok_unique hsummary hsummary'
    obtain rfl := ok_unique hbracketed hbracketed'
    obtain rfl := ok_unique hpaste hpaste'
    exact hwithin
  | paneWrite =>
    obtain ⟨source, target, hsource, htarget, s, t, hs, ht, so, to', hso, hto, hanswer⟩ :=
      paneWrite_len h
    refine ⟨fun hwithin source' target' s' t' so' to'' hsource' htarget' hs' ht' hso' hto' => ?_, fun hfits => ?_⟩
    · obtain rfl := ok_unique hsource hsource'
      obtain rfl := ok_unique htarget htarget'
      obtain rfl := ok_unique hs hs'
      obtain rfl := ok_unique ht ht'
      obtain rfl : so = so' := Option.some.inj (hso.symm.trans hso')
      obtain rfl : to' = to'' := Option.some.inj (hto.symm.trans hto')
      rcases hanswer with ⟨request, hpending, hlen⟩ | ⟨happroved, bracketed, paste, hbracketed, hpaste, hlen⟩
      · refine ⟨fun request' hpending' => ?_, fun happroved => ?_⟩
        · obtain rfl : request = request' := Approvals.Admission.pending.inj (hpending.symm.trans hpending')
          rwa [← hlen]
        · rw [hpending] at happroved
          cases happroved
      · refine ⟨fun request hpending => ?_, fun _ bracketed' paste' hbracketed' hpaste' => ?_⟩
        · rw [happroved] at hpending
          cases hpending
        · obtain rfl := ok_unique hbracketed hbracketed'
          obtain rfl := ok_unique hpaste hpaste'
          rwa [← hlen]
    · obtain ⟨hfitspending, hfitsapproved⟩ := hfits source target s t so to' hsource htarget hs ht hso hto
      rcases hanswer with ⟨request, hpending, hlen⟩ | ⟨happroved, bracketed, paste, hbracketed, hpaste, hlen⟩
      · rw [hlen]
        exact hfitspending request hpending
      · rw [hlen]
        exact hfitsapproved happroved bracketed paste hbracketed hpaste

theorem writeJson_isSome (envelope : Value) :
    (writeJson floats envelope).isSome = true ↔ encodedLen floats envelope ≤ maxControlFrameBytes := by
  rw [writeJson, writeLine, ← size_encode]
  change _ ↔ (Utf8.bytes (encode floats envelope)).length ≤ maxControlFrameBytes
  split_ifs with h
  · simpa using h
  · simpa using h

theorem encodedLen_errorEnvelope (id : ℕ) :
    encodedLen floats (errorEnvelope id errFrameTooLarge "reply exceeds the 64 KiB control frame limit") =
      104 + digits id := by
  rw [errorEnvelope, encodedLen_object _ (by simp)]
  have hcode : encodedLen floats (.number (.negInt errFrameTooLarge)) = 6 := by
    change 1 + digits 32026 = 6
    decide
  have hmessage : textLen "reply exceeds the 64 KiB control frame limit" = 46 := by decide
  have hversion : textLen "2.0" = 5 := by decide
  simp (disch := decide) [entryLen, escapedLen_ascii, encodedLen_object, hcode, hmessage, hversion]
  omega

/-- **An answer is delivered exactly if it passed `fit_control_frame` or fits by itself.** -/
theorem delivered_iff {checked : Except (Refusal X) Unit} {dispatched : Except (Refusal X) Value}
    {aliases : ConnectionAliases} {permissions : ControlPermissions} {method : String} {params envelope : Value}
    {id : ℕ} (hid : id < 2 ^ 64)
    (h : reply host floats checked dispatched aliases permissions method params id = .ok envelope) :
    (writeJson floats envelope).isSome = true ↔
      ∀ control, ControlMethod.ofName method = some control →
        Fits host floats aliases permissions params id control := by
  rw [writeJson_isSome]
  unfold reply at h
  obtain ⟨-, -, h⟩ := bind_eq_ok.1 h
  unfold dispatchControl at h
  by_cases hcontroller : method ∈ controllerOnlyMethods
  · rw [if_pos hcontroller] at h
    cases h
  · rw [if_neg hcontroller] at h
    cases hmethod : ControlMethod.ofName method with
    | none =>
      rw [hmethod] at h
      refine iff_of_true ?_ (by simp)
      cases dispatched with
      | error refusal => cases h
      | ok result =>
        cases h
        dsimp only [fitControlFrame]
        split_ifs with hfit
        · rw [← size_encode]
          exact hfit
        · rw [encodedLen_errorEnvelope]
          have hdigits : digits id ≤ 20 := (Nat.length_toDigits_le_iff (by decide) (by decide)).2 (by omega)
          have hframe : maxControlFrameBytes = 65536 := rfl
          omega
    | some control =>
      rw [hmethod] at h
      obtain ⟨result, hanswer, rfl⟩ := map_eq_ok.1 h
      rw [encodedLen_resultEnvelope]
      refine Iff.trans (answer_fits id hanswer) ⟨fun hfits control' hcontrol => ?_, fun hfits => hfits control rfl⟩
      obtain rfl := Option.some.inj hcontrol
      exact hfits

/-! ### A long line -/

/-- A host without sessions that has the text for each of them. -/
def textHost (text : List Char) : HostState Unit where
  listed := []
  inspected := fun _ => .error ()
  current := fun _ => .error ()
  bracketedPaste := fun _ => .error ()
  input := fun _ => .error ()
  refusal := none
  admission := fun _ _ => .denied
  hasWindow := false
  token := fun _ _ => .ok ()
  turnStart := ⟨none, .noSignal, none⟩
  fileName := fun _ => none
  decode := fun _ => .error "invalid data"
  render := fun _ => ""
  generationError := fun _ => ""
  identity := .null
  text := fun _ => .ok text
  outputGeneration := fun _ => none
  authoritative := fun _ => false
  lower := id
  fence := 0
  nowMs := 0

def readParams : Value := .object [("session", .string "10000000-0000-4000-8000-000000000000")]

/-- An answer of `fleet.list` without agents. -/
theorem delivered_iff_fleet :
    (writeJson (fun _ => []) (resultEnvelope 1 (fleetList (textHost [])))).isSome = true ↔
      ∀ control, ControlMethod.ofName "fleet.list" = some control →
        Fits (textHost []) (fun _ => []) [] ⟨false, false, true⟩ (.object []) 1 control :=
  @delivered_iff _ _ _ (.ok ()) (.ok .null) _ _ _ _ _ _ (by decide) rfl

theorem paginateScrollback_line {text : List Char} (hne : text ≠ []) (h : '\n' ∉ text) {lines : ℕ}
    (hlines : 0 < lines) : paginateScrollback text lines 0 = (text, 1, 1, true) := by
  have hstart : 1 - lines = 0 := by omega
  unfold paginateScrollback
  rw [if_neg hne, List.splitOn_eq_singleton h]
  dsimp only
  rw [if_neg (by simp), List.length_singleton, Nat.sub_zero, hstart]
  simp [Rows.join, List.intercalate, Utf8.seg]

/-- A pane that shows one line of more than a frame. -/
theorem reply_line {n : ℕ} (hn : maxControlFrameBytes ≤ n) : ∃ envelope,
    reply (textHost (List.replicate n 'a')) (fun _ => []) (.ok ()) (.ok .null) [] ⟨false, false, false⟩ "surface.read"
      readParams 1 = .ok envelope ∧ writeJson (fun _ => []) envelope = none := by
  have hpos : 0 < maxControlFrameBytes := by decide
  have hnewline : '\n' ∉ List.replicate n 'a' := fun h => absurd (List.eq_of_mem_replicate h) (by decide)
  have hne : List.replicate n 'a' ≠ [] := fun h => by
    have := congrArg List.length h
    rw [List.length_replicate, List.length_nil] at this
    omega
  have hlen : escapedLen (List.replicate n 'a') = n := by
    rw [escapedLen_ascii, List.length_replicate]
    refine List.all_eq_true.2 fun c hc => ?_
    rw [List.eq_of_mem_replicate hc]
    decide
  generalize List.replicate n 'a' = text at hnewline hne hlen ⊢
  have hpage : paginateScrollback text (ControlAnswers.readLines readParams) (readOffset readParams) =
      (text, 1, 1, true) := paginateScrollback_line hne hnewline (by decide)
  obtain ⟨result, hresult⟩ : ∃ result,
      surfaceRead (textHost text) [] ⟨false, false, false⟩ readParams = .ok result := by
    have hnext : ∀ {α β : Type} {x : Except (Refusal Unit) α} {f : α → Except (Refusal Unit) β} {a : α}, x = .ok a →
        (∃ b, f a = .ok b) → ∃ b, (x >>= f) = .ok b :=
      fun hx ⟨b, hb⟩ => ⟨b, bind_eq_ok.2 ⟨_, hx, hb⟩⟩
    unfold surfaceRead
    refine hnext (a := none) rfl (hnext rfl (hnext (a := ()) rfl (hnext (a := text) rfl ?_)))
    rw [hpage]
    exact hnext (a := ()) (throwIf_eq_ok.2 (by decide)) ⟨_, rfl⟩
  refine ⟨resultEnvelope 1 result, congrArg (Except.map (resultEnvelope 1)) hresult, ?_⟩
  rw [← Option.not_isSome_iff_eq_none, writeJson_isSome, encodedLen_resultEnvelope]
  obtain ⟨session, full, -, hfull, hsize⟩ := @surfaceRead_len _ _ (fun _ => []) _ _ _ _ hresult
  obtain rfl : text = full := Except.ok.inj hfull
  have hread : n < surfaceReadLen [] ⟨false, false, false⟩ readParams session text := by
    unfold surfaceReadLen
    rw [hpage]
    dsimp only
    rw [shownLen, if_neg (by decide), hlen]
    omega
  have hbudget : maxControlFrameBytes < maxIpcTextBytes := by decide
  omega

/-- **A pane that shows one line of 70000 characters**: the answer of `surface.read` is refused by the wire. -/
theorem not_delivered : ∃ envelope,
    encodedLen (fun _ => []) (.object [("id", natValue 1), ("jsonrpc", .string "2.0"),
      ("method", .string "surface.read"), ("params", readParams)]) ≤ maxControlFrameBytes ∧
    reply (textHost (List.replicate 70000 'a')) (fun _ => []) (.ok ()) (.ok .null) [] ⟨false, false, false⟩
      "surface.read" readParams 1 = .ok envelope ∧ writeJson (fun _ => []) envelope = none := by
  obtain ⟨envelope, hreply, hrefused⟩ := @reply_line 70000 (by decide)
  exact ⟨envelope, by decide, hreply, hrefused⟩

end Paneflow.Host.Delivered
