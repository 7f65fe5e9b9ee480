import Paneflow.BracketedPaste
import Paneflow.Host.WriteScope
import Paneflow.Occurrences

/-!
# Delivered text

What `deliver_text` writes to a terminal is the text itself, without a line end, or a paste whose body cannot end it;
only the submit that was asked for adds a carriage return (`deliverText_wrote`). A relayed text goes out under the line
that says where it comes from, and always as a paste (`paneWrite_wrote`).
-/

namespace Paneflow.Host.DeliveredText

open Paneflow.BracketedPaste Paneflow.Checked Paneflow.Host.Approvals Paneflow.Host.Identity Paneflow.Host.Surfaces
open Paneflow.Host.WriteScope Paneflow.Json Paneflow.Occurrences Paneflow.Text

/-! ### Pastes -/

/-- A body in a paste, which ends where it is meant to for a terminal that reads it. -/
structure Pasted (body shown : List Char) : Prop where
  framed : shown = pasteOn ++ body ++ pasteOff
  harmless : ∀ c ∈ body, c ≠ esc ∧ c ≠ '\r' ∧ ¬(0x80 ≤ c.toNat ∧ c.toNat ≤ 0x9f)
  ended : ∀ reader : Reader, reader.read shown = ⟨false, []⟩
  entered : ∀ (reader : Reader) (front rest : List Char), shown = front ++ rest → pasteOn <+: front → rest ≠ [] →
    (reader.read front).pasting = true

theorem Pasted.of_harmless {body : List Char}
    (h : ∀ c ∈ body, c ≠ esc ∧ c ≠ '\r' ∧ ¬(0x80 ≤ c.toNat ∧ c.toNat ≤ 0x9f)) :
    Pasted body (pasteOn ++ body ++ pasteOff) := by
  have hplain : ∀ c ∈ body, c ≠ esc ∧ c ≠ csi := fun c hc => by
    obtain ⟨hesc, -, hrange⟩ := h c hc
    refine ⟨hesc, ?_⟩
    rintro rfl
    exact hrange (by decide)
  exact ⟨rfl, h, fun reader => (read_frame hplain reader).1, fun reader => (read_frame hplain reader).2⟩

theorem pasteStart_eq : pasteStart = pasteOn := by decide +kernel

theorem pasteEnd_eq : pasteEnd = pasteOff := by decide +kernel

theorem mem_normalizePasteText {text : List Char} {c : Char} (h : c ∈ normalizePasteText text) :
    c ≠ esc ∧ c ≠ '\r' ∧ ¬(0x80 ≤ c.toNat ∧ c.toNat ≤ 0x9f) := by
  unfold normalizePasteText at h
  rw [List.mem_filter, replace_singleton, List.mem_flatMap] at h
  obtain ⟨⟨d, -, hd⟩, hkept⟩ := h
  rw [Bool.and_eq_true, decide_eq_true_eq, Bool.not_eq_true', Bool.and_eq_false_imp] at hkept
  refine ⟨hkept.1, ?_, fun ⟨hlow, hhigh⟩ => ?_⟩
  · rintro rfl
    split_ifs at hd with hreturn
    · exact absurd (List.mem_singleton.mp hd) (by decide)
    · exact hreturn (List.mem_singleton.mp hd).symm
  · have := hkept.2 (decide_eq_true hlow)
    rw [decide_eq_false_iff_not] at this
    exact this hhigh

theorem bracketedPasteFrame_pasted (text : List Char) :
    Pasted (normalizePasteText text) (bracketedPasteFrame text) := by
  rw [bracketedPasteFrame, pasteStart_eq, pasteEnd_eq]
  exact .of_harmless fun c hc => mem_normalizePasteText hc

/-! ### Delivering a text -/

section
variable {X : Type} {answers : Answers X} {session : SessionId} {text : List Char} {pasteParam : Option Bool}
  {submit agentTarget : Bool}

/-- The carriage return of a submit. -/
def submitBytes (submit : Bool) : List UInt8 := if submit then [13] else []

def submitWrites (session : SessionId) (submit : Bool) : List Write := if submit then [⟨session, [13]⟩] else []

/-- What goes to a terminal for a text: the text, which has no line end, or a paste of it. -/
def Shown (bracketed : Bool) (text shown : List Char) : Prop :=
  (shown = text ∧ '\r' ∉ text ∧ '\n' ∉ text) ∨ bracketed = true ∧ Pasted (normalizePasteText text) shown

/-- What is written in front of the submit. -/
def written (text : List Char) (paste bracketed : Bool) : List Char :=
  if text.isEmpty then [] else if paste && bracketed then bracketedPasteFrame text else text

/-- The mode that is resolved is that of a paste wherever the text has a line end. -/
theorem shown_written {resolved paste bracketed : Bool}
    (h : resolveSendTextBodyMode text pasteParam resolved bracketed = .ok paste) :
    Shown bracketed text (written text paste bracketed) := by
  unfold written
  by_cases hempty : text.isEmpty = true
  · rw [if_pos hempty]
    obtain rfl := List.isEmpty_iff.mp hempty
    exact .inl ⟨rfl, List.not_mem_nil, List.not_mem_nil⟩
  · rw [if_neg hempty]
    by_cases hframe : (paste && bracketed) = true
    · rw [if_pos hframe]
      exact .inr ⟨(Bool.and_eq_true_iff.mp hframe).2, bracketedPasteFrame_pasted text⟩
    · rw [if_neg hframe]
      refine .inl ⟨rfl, ?_⟩
      -- a text with a line end passes in no other mode
      unfold resolveSendTextBodyMode at h
      dsimp only at h
      by_cases hline : '\r' ∈ text ∨ '\n' ∈ text
      · rw [if_neg (by simpa using or_iff_not_imp_left.mp hline)] at h
        generalize (if (pasteParam.isNone && bracketed) = true then true else resolved) = asked at h
        by_cases hasked : (asked && bracketed) = true
        · rw [if_pos hasked] at h
          cases h
          exact absurd hasked hframe
        · rw [if_neg hasked] at h
          cases h
      · exact not_or.mp hline

/-- What a text writes: its body, and if that arrives the submit. -/
theorem writeText_writes {paste bracketed : Bool} (htext : text ≠ []) :
    ∃ after, (writeText answers session text paste bracketed submit).1 =
        ⟨session, Utf8.bytes (written text paste bracketed)⟩ :: after ∧
      (after = [] ∨ after = submitWrites session submit) ∧
      ∀ delivered, (writeText answers session text paste bracketed submit).2 = .ok delivered →
        after = submitWrites session submit := by
  have hempty : ¬text.isEmpty = true := fun h => htext (List.isEmpty_iff.mp h)
  unfold writeText written submitWrites
  dsimp only
  rw [if_neg hempty, if_neg hempty]
  generalize (if (paste && bracketed) = true then bracketedPasteFrame text else text) = body
  cases answers.input 0 with
  | error error => exact ⟨[], rfl, .inl rfl, fun _ h => nomatch h⟩
  | ok sent =>
    cases submit with
    | true => exact ⟨_, rfl, .inr rfl, fun _ _ => rfl⟩
    | false => exact ⟨[], rfl, .inl rfl, fun _ _ => rfl⟩

theorem writeText_ok {paste bracketed : Bool} {delivered : Delivered}
    (h : (writeText answers session text paste bracketed submit).2 = .ok delivered) :
    (writeText answers session text paste bracketed submit).1.flatMap Write.bytes =
      Utf8.bytes (written text paste bracketed) ++ submitBytes submit := by
  by_cases htext : text = []
  · subst htext
    cases submit <;> rfl
  · obtain ⟨after, hwrites, -, hafter⟩ := @writeText_writes X answers session text submit paste bracketed htext
    rw [hwrites, hafter delivered h, List.flatMap_cons]
    cases submit <;> rfl

/-- A text is written once its mode is known, and before that nothing. -/
theorem deliverText_cases :
    ((deliverText answers session text pasteParam submit agentTarget).1 = [] ∧
        ∃ refusal, (deliverText answers session text pasteParam submit agentTarget).2 = .error refusal) ∨
      ∃ bracketed resolved paste, answers.bracketedPaste session = .ok bracketed ∧
        resolveSendTextBodyMode text pasteParam resolved bracketed = .ok paste ∧
        deliverText answers session text pasteParam submit agentTarget =
          writeText answers session text paste bracketed submit := by
  unfold deliverText
  dsimp only
  split
  · next refusal _ => exact .inl ⟨rfl, refusal, rfl⟩
  · next paste bracketed hmode =>
    simp only [bind_eq_ok] at hmode
    obtain ⟨bracketed', hbracketed, paste', hpaste, hmode⟩ := hmode
    obtain ⟨rfl, rfl⟩ := Prod.mk.inj (Except.ok.inj hmode)
    exact .inr ⟨_, _, _, mapError_eq_ok.1 hbracketed, mapError_eq_ok.1 hpaste, rfl⟩

/-- **What is delivered submits nothing by itself.** -/
theorem deliverText_wrote {delivered : Delivered}
    (h : (deliverText answers session text pasteParam submit agentTarget).2 = .ok delivered) :
    ∃ bracketed shown, answers.bracketedPaste session = .ok bracketed ∧ Shown bracketed text shown ∧
      (deliverText answers session text pasteParam submit agentTarget).1.flatMap Write.bytes =
        Utf8.bytes shown ++ submitBytes submit := by
  rcases @deliverText_cases X answers session text pasteParam submit agentTarget with
    ⟨-, refusal, hrefused⟩ | ⟨bracketed, resolved, paste, hbracketed, hpaste, hwritten⟩
  · rw [hrefused] at h
    cases h
  · rw [hwritten] at h ⊢
    exact ⟨bracketed, _, hbracketed, shown_written hpaste, writeText_ok h⟩

/-- A text with a line end goes out as a paste or not at all. -/
theorem deliverText_line (hline : '\n' ∈ text) :
    (deliverText answers session text pasteParam submit agentTarget).1 = [] ∧
        (∃ refusal, (deliverText answers session text pasteParam submit agentTarget).2 = .error refusal) ∨
      answers.bracketedPaste session = .ok true ∧ ∃ shown after, Pasted (normalizePasteText text) shown ∧
        (deliverText answers session text pasteParam submit agentTarget).1 =
          ⟨session, Utf8.bytes shown⟩ :: after ∧
        (after = [] ∨ after = submitWrites session submit) ∧
        ∀ delivered, (deliverText answers session text pasteParam submit agentTarget).2 = .ok delivered →
          after = submitWrites session submit := by
  rcases @deliverText_cases X answers session text pasteParam submit agentTarget with
    hrefused | ⟨bracketed, resolved, paste, hbracketed, hpaste, hwritten⟩
  · exact .inl hrefused
  · refine .inr ?_
    rcases shown_written hpaste with ⟨-, -, hnone⟩ | ⟨rfl, hpasted⟩
    · exact absurd hline hnone
    · obtain ⟨after, hwrites, hafter, hok⟩ :=
        @writeText_writes X answers session text submit paste true (List.ne_nil_of_mem hline)
      rw [hwritten]
      exact ⟨hbracketed, _, after, hpasted, hwrites, hafter, hok⟩

end

/-! ### Relaying a text -/

/-- What a terminal shows of a character that is no line end: nothing, if it is a control character. -/
def relayedChar (c : Char) : Bool := c = '\n' || c = '\t' || !isControl c

/-- The text without the sequences of a paste, and then without control characters. -/
def relayedText (text : List Char) : List Char :=
  (replace pasteOff [] (replace pasteOn [] text)).filter relayedChar

/-- Without the sequences of a paste all that is no control character is relayed. -/
theorem relayedText_eq {text : List Char} (hon : ¬pasteOn <:+: text) (hoff : ¬pasteOff <:+: text) :
    relayedText text = text.filter relayedChar := by
  rw [relayedText, replace_of_not_infix hon, replace_of_not_infix hoff]

/-- That a line end of two characters becomes one of one changes nothing, as the other goes in any case. -/
theorem filter_lineEnds {keep : Char → Bool} (hreturn : keep '\r' = false) (text : List Char) :
    (replace ['\r', '\n'] ['\n'] text).filter keep = text.filter keep := by
  unfold replace
  induction text using List.twoStepInduction with
  | nil => rfl
  | singleton c =>
    rw [replaceFrom, if_neg (by simp)]
    rfl
  | cons_cons c d text ih₁ ih₂ =>
    rw [replaceFrom]
    split_ifs with hmatch
    · obtain ⟨rfl, hrest⟩ := List.cons_prefix_cons.mp <| List.isPrefixOf_iff_prefix.mp hmatch
      obtain ⟨rfl, -⟩ := List.cons_prefix_cons.mp hrest
      change ('\n' :: replaceFrom ['\r', '\n'] ['\n'] 0 text).filter keep = _
      rw [List.filter_cons_of_neg (a := '\r') (by simp [hreturn]), List.filter_cons, List.filter_cons, ih₁]
    · rw [List.filter_cons, List.filter_cons (x := c), ih₂ d]

theorem sanitizeRelayedText_eq (text : List Char) : sanitizeRelayedText text = relayedText text := by
  unfold sanitizeRelayedText relayedText
  rw [pasteStart_eq, pasteEnd_eq]
  exact filter_lineEnds (by decide) _

theorem relayedChar_iff {c : Char} : relayedChar c = true ↔ c = '\n' ∨ c = '\t' ∨ isControl c = false := by
  simp [relayedChar, or_assoc]

/-- What is no control character is nothing that a paste may not have. -/
theorem harmless_of_relayedChar {c : Char} (h : relayedChar c = true) :
    c ≠ esc ∧ c ≠ '\r' ∧ ¬(0x80 ≤ c.toNat ∧ c.toNat ≤ 0x9f) := by
  refine ⟨?_, ?_, fun ⟨hlow, hhigh⟩ => ?_⟩
  · rintro rfl
    exact absurd h (by decide)
  · rintro rfl
    exact absurd h (by decide)
  · rcases relayedChar_iff.mp h with rfl | rfl | hplain
    · exact absurd hlow (by decide)
    · exact absurd hlow (by decide)
    · rw [isControl, Bool.or_eq_false_iff, Bool.and_eq_false_imp] at hplain
      have := hplain.2 (decide_eq_true (by omega))
      rw [decide_eq_false_iff_not] at this
      exact this hhigh

/-- A paste changes nothing in a text without what it may not have. -/
theorem normalizePasteText_eq_self {text : List Char}
    (h : ∀ c ∈ text, c ≠ esc ∧ c ≠ '\r' ∧ ¬(0x80 ≤ c.toNat ∧ c.toNat ≤ 0x9f)) : normalizePasteText text = text := by
  have hreturn : '\r' ∉ text := fun hmem => (h _ hmem).2.1 rfl
  have hlineEnds : replace ['\r', '\n'] ['\n'] text = text := by
    refine replace_of_not_infix fun hinfix => hreturn ?_
    exact hinfix.subset List.mem_cons_self
  have hreturns : replace ['\r'] ['\n'] text = text := by
    refine replace_of_not_infix fun hinfix => hreturn ?_
    exact hinfix.subset List.mem_cons_self
  unfold normalizePasteText
  rw [hlineEnds, hreturns, List.filter_eq_self]
  intro c hc
  obtain ⟨hesc, -, hrange⟩ := h c hc
  have hesc' : c ≠ '\x1b' := hesc
  rw [Bool.and_eq_true, decide_eq_true_eq, Bool.not_eq_true', ← Bool.not_eq_true, Bool.and_eq_true, decide_eq_true_eq,
    decide_eq_true_eq]
  exact ⟨hesc', hrange⟩

section
variable {fileName : String → Option String} {summary : SessionSummary}

theorem not_isControl_session (session : SessionId) : ∀ c ∈ session.text, isControl c = false := by
  intro c hc
  obtain ⟨hlow, hhigh, -⟩ := toNat_hex (mem_canonical session.canonical c hc)
  rw [isControl, Bool.or_eq_false_iff, Bool.and_eq_false_imp, decide_eq_false_iff_not]
  exact ⟨by omega, fun h => absurd (of_decide_eq_true h) (by omega)⟩

theorem not_isControl_digit {c : Char} (h : c.isDigit = true) : isControl c = false := by
  rw [Char.isDigit, Bool.and_eq_true, decide_eq_true_eq, decide_eq_true_eq] at h
  have hlow : 48 ≤ c.toNat := h.1
  have hhigh : c.toNat ≤ 57 := h.2
  rw [isControl, Bool.or_eq_false_iff, Bool.and_eq_false_imp, decide_eq_false_iff_not]
  exact ⟨by omega, fun h => absurd (of_decide_eq_true h) (by omega)⟩

theorem mem_trim {text : List Char} {c : Char} (h : c ∈ trim text) : c ∈ text := by
  unfold trim trimMatches at h
  rw [List.mem_reverse] at h
  exact (List.dropWhile_sublist _).subset <| List.mem_reverse.mp <| (List.dropWhile_sublist _).subset h

theorem not_isControl_labelOf : ∀ c ∈ labelOf fileName summary, isControl c = false := by
  intro c hc
  unfold labelOf at hc
  dsimp only at hc
  split_ifs at hc with hempty
  · exact not_isControl_session _ c hc
  · obtain ⟨hmem, hkept⟩ := List.mem_filter.mp (List.mem_of_mem_take (mem_trim hc))
    rw [sanitizeRelayedText_eq] at hmem
    rcases relayedChar_iff.mp (List.mem_filter.mp hmem).2 with rfl | rfl | hplain
    · exact absurd hkept (by decide)
    · exact absurd hkept (by decide)
    · exact hplain

theorem not_isControl_surfaceNumber : ∀ c ∈ surfaceNumber summary, isControl c = false := by
  intro c hc
  unfold surfaceNumber at hc
  split at hc
  · split_ifs at hc with hdigits
    · exact not_isControl_digit (List.all_eq_true.mp (Bool.and_eq_true_iff.mp hdigits).2 c hc)
    · exact not_isControl_session _ c hc
  · exact not_isControl_session _ c hc

/-- **The line that says where a text comes from is one line**, whatever the names of the session are. -/
theorem not_isControl_provenanceLine : ∀ c ∈ provenanceLine fileName summary, isControl c = false := by
  have hfront : ∀ c ∈ "[Paneflow: message from ".toList, isControl c = false := forall_mem_of_all (by decide)
  have hmiddle : ∀ c ∈ ", surface ".toList, isControl c = false := forall_mem_of_all (by decide)
  have hend : ∀ c ∈ [']'], isControl c = false := forall_mem_of_all (by decide)
  intro c hc
  unfold provenanceLine at hc
  rcases List.mem_append.mp hc with hc | hc
  · rcases List.mem_append.mp hc with hc | hc
    · rcases List.mem_append.mp hc with hc | hc
      · rcases List.mem_append.mp hc with hc | hc
        · exact hfront c hc
        · exact not_isControl_labelOf c hc
      · exact hmiddle c hc
    · exact not_isControl_surfaceNumber c hc
  · exact hend c hc

/-- What `pane.write` delivers: the line of the source, and the text that it relays. -/
def relayedBody (fileName : String → Option String) (summary : SessionSummary) (text : List Char) : List Char :=
  provenanceLine fileName summary ++ '\n' :: relayedText text

theorem harmless_relayedBody (text : List Char) : ∀ c ∈ relayedBody fileName summary text,
    c ≠ esc ∧ c ≠ '\r' ∧ ¬(0x80 ≤ c.toNat ∧ c.toNat ≤ 0x9f) := by
  intro c hc
  refine harmless_of_relayedChar ?_
  rcases List.mem_append.mp hc with hc | hc
  · exact relayedChar_iff.mpr (.inr (.inr (not_isControl_provenanceLine c hc)))
  · rcases List.mem_cons.mp hc with rfl | hc
    · decide
    · exact (List.mem_filter.mp hc).2

end

section
variable {X : Type} {answers : Answers X} {permissions : ControlPermissions} {params : Value}

/-- **A relayed text goes out under the line of its source, and only as a paste.** -/
theorem paneWrite_wrote :
    (paneWrite answers permissions params).writes = [] ∨
      ∃ raw source session summary shown after, params.get "source_session" = some raw ∧ Names raw source ∧
        (target [] .paneWrite params : Except (Refusal X) SessionId) = .ok session ∧
        answers.current source = .ok summary ∧ answers.bracketedPaste session = .ok true ∧
        Pasted (relayedBody answers.fileName summary ((params.text "text").getD "").toList) shown ∧
        (paneWrite answers permissions params).writes = ⟨session, Utf8.bytes shown⟩ :: after ∧
        (after = [] ∨ after = submitWrites session (((params.get "submit").bind Value.asBool).getD false)) ∧
        ∀ value, (paneWrite answers permissions params).result = .ok value →
          after = submitWrites session (((params.get "submit").bind Value.asBool).getD false) := by
  unfold paneWrite
  dsimp only
  split
  · exact .inl rfl
  · exact .inl rfl
  · next session text summary hchecked =>
    simp only [bind_eq_ok, throwIf_eq_ok] at hchecked
    obtain ⟨source, hsource, session', hsession, -, -, -, -, -, -, -, -, summary', hsummary, _, -, heq⟩ := hchecked
    split at heq
    · cases heq
    · cases heq
    · obtain ⟨instead, -, heq⟩ := bind_eq_ok.1 heq
      cases heq
      obtain ⟨raw, hraw, hnames⟩ := trimmedSession_ok hsource
      have hbody : provenanceLine answers.fileName summary ++
          '\n' :: sanitizeRelayedText ((params.text "text").getD "").toList =
            relayedBody answers.fileName summary ((params.text "text").getD "").toList := by
        rw [relayedBody, sanitizeRelayedText_eq]
      dsimp only
      rw [hbody]
      generalize hdelivered : relayedBody answers.fileName summary ((params.text "text").getD "").toList = body
      have hline : '\n' ∈ body := hdelivered ▸ List.mem_append_right _ List.mem_cons_self
      rcases @deliverText_line X answers session body (some true)
        (((params.get "submit").bind Value.asBool).getD false) true hline with
        ⟨hnone, -⟩ | ⟨hbracketed, shown, after, hpasted, hwrites, hafter, hok⟩
      · exact .inl hnone
      · rw [normalizePasteText_eq_self (hdelivered ▸ harmless_relayedBody _)] at hpasted
        refine .inr ⟨raw, source, session, summary, shown, after, hraw, hnames, hsession, mapError_eq_ok.1 hsummary,
          hbracketed, hdelivered ▸ hpasted, hwrites, hafter, fun value hvalue => ?_⟩
        obtain ⟨delivered, hdelivered, -⟩ := map_eq_ok.1 hvalue
        exact hok delivered hdelivered

end

/-- **Delivered text never submits by itself.** What is delivered of a text is the text, without a line end, or a paste
that ends with its last character, and then the carriage return of the submit if there is one. What is relayed is the
line of the source and the text without the sequences of a paste and without control characters, always as a paste. -/
theorem delivered_spec {X : Type} (answers : Answers X) :
    (∀ session text pasteParam submit agentTarget delivered,
      (deliverText answers session text pasteParam submit agentTarget).2 = .ok delivered →
      (∀ write ∈ (deliverText answers session text pasteParam submit agentTarget).1, write.session = session) ∧
      ∃ bracketed shown, answers.bracketedPaste session = .ok bracketed ∧ Shown bracketed text shown ∧
        (deliverText answers session text pasteParam submit agentTarget).1.flatMap Write.bytes =
          Utf8.bytes shown ++ submitBytes submit) ∧
    (∀ permissions params, (paneWrite answers permissions params).writes = [] ∨
      ∃ raw source session summary shown after, params.get "source_session" = some raw ∧ Names raw source ∧
        (target [] .paneWrite params : Except (Refusal X) SessionId) = .ok session ∧
        answers.current source = .ok summary ∧ answers.bracketedPaste session = .ok true ∧
        (∀ c ∈ provenanceLine answers.fileName summary, isControl c = false) ∧
        Pasted (relayedBody answers.fileName summary ((params.text "text").getD "").toList) shown ∧
        (paneWrite answers permissions params).writes = ⟨session, Utf8.bytes shown⟩ :: after ∧
        (after = [] ∨ after = submitWrites session (((params.get "submit").bind Value.asBool).getD false)) ∧
        ∀ value, (paneWrite answers permissions params).result = .ok value →
          after = submitWrites session (((params.get "submit").bind Value.asBool).getD false)) ∧
    ∀ text, ¬pasteOn <:+: text → ¬pasteOff <:+: text → relayedText text = text.filter relayedChar := by
  refine ⟨fun _ _ _ _ _ _ h => ⟨deliverText_session, deliverText_wrote h⟩, fun permissions params => ?_,
    fun _ => relayedText_eq⟩
  rcases @paneWrite_wrote X answers permissions params with
    hnone | ⟨raw, source, session, summary, shown, after, hraw, hnames, htarget, hcurrent, hbracketed, hwrote⟩
  · exact .inl hnone
  · exact .inr ⟨raw, source, session, summary, shown, after, hraw, hnames, htarget, hcurrent, hbracketed,
      not_isControl_provenanceLine, hwrote⟩

/-! ### Two panes -/

def paneOne : SessionId := ⟨"10000000-0000-4000-8000-000000000000".toList, by decide +kernel⟩

def paneTwo : SessionId := ⟨"20000000-0000-4000-8000-000000000000".toList, by decide +kernel⟩

def paneSummary (session : SessionId) : SessionSummary where
  session := session
  workspace := none
  generation := 1
  cwd := ""
  shell := ""
  surfaceVariable := some "7"
  lifecycle := .running
  process := some ⟨10, some 7⟩
  name := some "one"
  title := none
  currentCwd := none
  lastHook := none
  currentObservation := none
  live := true

/-- Two panes of terminals with bracketed paste, one of which may write into the other. -/
def paneAnswers : Answers Unit where
  listed := [paneSummary paneOne, paneSummary paneTwo]
  inspected := fun id => .ok (paneSummary id)
  current := fun id => .ok (paneSummary id)
  bracketedPaste := fun _ => .ok true
  input := fun _ => .ok 2
  refusal := none
  admission := fun _ _ => .approved
  hasWindow := false
  token := fun _ _ => .ok ()
  turnStart := ⟨none, .noSignal, none⟩
  fileName := fun _ => none
  decode := fun _ => .error "invalid data"
  render := fun _ => ""
  generationError := fun _ => ""

def relayParams (text : String) : Value := .object [("scope", .string "all"),
  ("session", .string (String.ofList paneTwo.text)), ("source_session", .string (String.ofList paneOne.text)),
  ("submit", .bool true), ("text", .string text)]

/-- A text of two lines is delivered as a paste. -/
theorem delivered_spec_lines : ∃ shown, Shown true "a\nb".toList shown ∧
    (deliverText paneAnswers paneTwo "a\nb".toList none true true).1.flatMap Write.bytes =
      Utf8.bytes shown ++ submitBytes true := by
  obtain ⟨delivered, hdelivered⟩ : ∃ delivered,
      (deliverText paneAnswers paneTwo "a\nb".toList none true true).2 = .ok delivered := ⟨_, rfl⟩
  obtain ⟨-, bracketed, shown, hbracketed, hshown, hbytes⟩ :=
    (delivered_spec paneAnswers).1 paneTwo "a\nb".toList none true true delivered hdelivered
  obtain rfl : true = bracketed := Except.ok.inj hbracketed
  exact ⟨shown, hshown, hbytes⟩

/-- **The text is not relayed with all that is no control character in it**: of the sequence that ends a paste nothing
is left. -/
theorem relayed_sequence :
    (paneWrite paneAnswers ⟨true, true, false⟩ (relayParams "x\x1b[201~y")).writes =
      [⟨paneTwo, Utf8.bytes (pasteOn ++ (provenanceLine paneAnswers.fileName (paneSummary paneOne) ++
        '\n' :: "xy".toList) ++ pasteOff)⟩, ⟨paneTwo, [13]⟩] ∧
      "xy".toList ≠ "x\x1b[201~y".toList.filter relayedChar := by
  decide +kernel

end Paneflow.Host.DeliveredText
