import Paneflow.ControlSequences
import Paneflow.Terminal.ServiceOutput

/-! # The parser of service output on a segmented stream

In front of every piece of the stream the parser is in `Ground` and holds no part of a character, or it meets the
next byte as if it were. A control sequence leaves the performer as it is, every other piece is one call of it
(`advance_segmented`). -/

namespace Paneflow.Terminal.ServiceParsing

open Paneflow.Checked Paneflow.ControlSequences Paneflow.Terminal.ServiceOutput Paneflow.Utf8
open ServiceOutputParser

/-- The call of the performer for a piece. -/
def perform (output : ServiceOutputPerformer) : Piece → Option ServiceOutputPerformer
  | .char c => some (output.pushChar c)
  | .malformed => some (output.pushChar replacementCharacter)
  | .control b => output.execute b
  | .sequence => some output

/-- In `Ground`, and no part of a character is held. -/
structure Quiet (parser : ServiceOutputParser) : Prop where
  state : parser.state = .ground
  utf8Len : parser.utf8Len = 0
  utf8 : parser.utf8.length = 4

/-- The parser in another state. -/
def inState (parser : ServiceOutputParser) (state : ServiceOutputParseState) : ServiceOutputParser :=
  { parser with state }

section
variable {parser : ServiceOutputParser} {output : ServiceOutputPerformer}

theorem Quiet.inState (h : Quiet parser) : inState parser .ground = parser := by
  unfold ServiceParsing.inState
  rw [← h.state]

theorem advance_nil : parser.advance output [] = some (parser, output) := rfl

theorem advance_append (front back : List UInt8) : parser.advance output (front ++ back) =
    (parser.advance output front).bind fun next => next.1.advance next.2 back := by
  unfold ServiceOutputParser.advance
  rw [List.foldlM_append]
  rfl

theorem advance_cons (b : UInt8) (bs : List UInt8) : parser.advance output (b :: bs) =
    (parser.advanceByte output b).bind fun next => next.1.advance next.2 bs := rfl

theorem advance_singleton (b : UInt8) : parser.advance output [b] = parser.advanceByte output b :=
  Option.bind_fun_some _

theorem advanceByte_idle (h : parser.utf8Len = 0) (b : UInt8) :
    parser.advanceByte output b = parser.stateByte output b := by
  unfold advanceByte
  rw [if_neg (not_not_intro h)]

theorem advanceByte_inState (h : parser.utf8Len = 0) (state : ServiceOutputParseState) (b : UInt8) :
    (inState parser state).advanceByte output b = (inState parser state).stateByte output b :=
  @advanceByte_idle (inState parser state) output h b

theorem advanceByte_quiet (h : Quiet parser) (b : UInt8) :
    parser.advanceByte output b = parser.groundByte output b := by
  rw [advanceByte_idle h.utf8Len]
  unfold stateByte
  rw [h.state]

/-! ### Control sequences -/

/-- The state in which what follows an introducer is read. -/
inductive Reads : Form → ServiceOutputParseState → Prop
  | csi : Reads (.fields csiEnd) .csi
  | intermediate : Reads (.fields escEnd) .escapeIntermediate
  | osc : Reads (.payload oscStop) .osc
  | string : Reads (.payload cancels) .string

/-- The state after an ESC in a string. -/
def escaped : ServiceOutputParseState → ServiceOutputParseState
  | .osc => .oscEscape
  | .string => .stringEscape
  | state => state

theorem afterEscape_form {b : UInt8} {form : Form} (h : escapeForm b = some form) : Reads form (afterEscape b) := by
  unfold escapeForm at h
  unfold afterEscape
  split_ifs at h ⊢ <;> cases h
  · exact .csi
  · exact .osc
  · exact .string
  · exact .intermediate

theorem afterEscape_none {b : UInt8} (hesc : b ≠ esc) (h : escapeForm b = none) : afterEscape b = .ground := by
  unfold escapeForm at h
  unfold afterEscape esc at *
  grind

theorem groundByte_esc : parser.groundByte output esc = some (inState parser .escape, output) := rfl

theorem groundByte_form {b : UInt8} {form : Form} (h : byteForm b = some form) :
    ∃ state, Reads form state ∧ parser.groundByte output b = some (inState parser state, output) := by
  unfold byteForm at h
  unfold groundByte
  split_ifs at h with hcsi hosc hstring <;> cases h
  · exact ⟨.csi, .csi, by rw [hcsi]; rfl⟩
  · exact ⟨.osc, .osc, by rw [hosc]; rfl⟩
  · refine ⟨.string, .string, ?_⟩
    rw [if_neg (by grind), if_neg hcsi, if_neg hosc, if_pos hstring]
    rfl

theorem advanceByte_escape (h : parser.utf8Len = 0) (b : UInt8) :
    (inState parser .escape).advanceByte output b = some (inState parser (afterEscape b), output) := by
  rw [advanceByte_inState h]
  rfl

/-- One byte of a sequence with fields. -/
theorem advanceByte_fields {ends : UInt8 → Bool} {state : ServiceOutputParseState} (h : Reads (.fields ends) state)
    (hlen : parser.utf8Len = 0) (b : UInt8) : (inState parser state).advanceByte output b =
      some (inState parser (if b = esc then .escape else if ends b = true then .ground else state), output) := by
  rw [advanceByte_inState hlen]
  cases h with
  | csi => simp [inState, stateByte, afterCsi, csiEnd, cancels, esc, or_assoc]
  | intermediate => simp [inState, stateByte, afterIntermediate, escEnd, cancels, esc, or_assoc]

/-- One byte of a string. -/
theorem advanceByte_payload {stop : UInt8 → Bool} {state : ServiceOutputParseState} (h : Reads (.payload stop) state)
    (hlen : parser.utf8Len = 0) (b : UInt8) : (inState parser state).advanceByte output b =
      some (inState parser (if stop b = true then .ground else if b = esc then escaped state else state), output) := by
  rw [advanceByte_inState hlen]
  cases h with
  | osc =>
    simp only [inState, stateByte, afterOsc, oscStop, cancels, esc, escaped, Bool.or_eq_true, beq_iff_eq]
    congr
  | string =>
    simp only [inState, stateByte, afterString, cancels, esc, escaped, Bool.or_eq_true, beq_iff_eq]
    congr

/-- One byte of a string after an ESC. -/
theorem advanceByte_escaped {stop : UInt8 → Bool} {state : ServiceOutputParseState} (h : Reads (.payload stop) state)
    (hlen : parser.utf8Len = 0) (b : UInt8) : (inState parser (escaped state)).advanceByte output b =
      some (inState parser (if b = 0x5c ∨ stop b = true then .ground else if b = esc then escaped state else state),
        output) := by
  rw [advanceByte_inState hlen]
  cases h with
  | osc =>
    simp only [inState, stateByte, escaped, afterOscEscape, oscStop, cancels, esc, Bool.or_eq_true, beq_iff_eq]
    congr
  | string =>
    simp only [inState, stateByte, escaped, afterStringEscape, cancels, esc, Bool.or_eq_true, beq_iff_eq]
    congr

theorem advance_opening {intro : List UInt8} {form : Form} (h : Opening intro form) (hq : Quiet parser) :
    ∃ state, Reads form state ∧ parser.advance output intro = some (inState parser state, output) := by
  cases h with
  | byte hform =>
    rw [advance_singleton, advanceByte_quiet hq]
    exact groundByte_form hform
  | escape hform =>
    refine ⟨_, afterEscape_form hform, ?_⟩
    rw [advance_cons, advanceByte_quiet hq, groundByte_esc, Option.bind_some, advance_singleton]
    exact advanceByte_escape hq.utf8Len _

theorem advance_fields {ends : UInt8 → Bool} {state : ServiceOutputParseState} (h : Reads (.fields ends) state)
    (hlen : parser.utf8Len = 0) {fill : List UInt8} (hfill : Fields ends fill) :
    (inState parser state).advance output fill = some (inState parser state, output) := by
  induction fill with
  | nil => rfl
  | cons b fill ih =>
    obtain ⟨⟨hb, hesc⟩, hfill⟩ := List.forall_mem_cons.mp hfill
    rw [advance_cons, advanceByte_fields h hlen, if_neg hesc, if_neg (by rw [hb]; exact Bool.false_ne_true),
      Option.bind_some]
    exact ih hfill

/-- A string that goes on: all that is remembered of it is whether its last byte was ESC. -/
theorem advance_payload {stop : UInt8 → Bool} {state : ServiceOutputParseState} (h : Reads (.payload stop) state)
    (hlen : parser.utf8Len = 0) {body : List UInt8} (hbody : Going stop body) :
    (inState parser state).advance output body =
      some (inState parser (if body.getLast? = some esc then escaped state else state), output) := by
  induction body using List.reverseRecOn with
  | nil => rfl
  | append_singleton body b ih =>
    have hfront : Going stop body := fun front hfront => hbody front (hfront.trans (List.prefix_append _ _))
    have hend : ¬Ended stop (body ++ [b]) := hbody _ (List.prefix_refl _)
    have hstop : ¬stop b = true := fun hstop => hend ⟨body, b, rfl, Or.inl hstop⟩
    have hesc : ((body ++ [b]).getLast? = some esc) = (b = esc) := by simp
    simp only [hesc]
    rw [advance_append, ih hfront, Option.bind_some, advance_singleton]
    dsimp only
    by_cases hlast : body.getLast? = some esc
    · have hback : b ≠ 0x5c := fun hback => hend ⟨body, b, rfl, Or.inr ⟨hback, hlast⟩⟩
      rw [if_pos hlast, advanceByte_escaped h hlen, if_neg (not_or.mpr ⟨hback, hstop⟩)]
    · rw [if_neg hlast, advanceByte_payload h hlen, if_neg hstop]

/-- The end of a string. -/
theorem advance_ended {stop : UInt8 → Bool} {state : ServiceOutputParseState} (h : Reads (.payload stop) state)
    (hlen : parser.utf8Len = 0) {body : List UInt8} {last : UInt8} (hbody : Going stop body)
    (hend : Ended stop (body ++ [last])) :
    (inState parser state).advance output (body ++ [last]) = some (inState parser .ground, output) := by
  obtain ⟨front, last', hsplit, hlast⟩ := hend
  obtain ⟨rfl, hsame⟩ := List.append_inj' hsplit rfl
  obtain ⟨rfl, -⟩ := List.cons.inj hsame
  rw [advance_append, advance_payload h hlen hbody, Option.bind_some, advance_singleton]
  dsimp only
  by_cases hesc : body.getLast? = some esc
  · rw [if_pos hesc, advanceByte_escaped h hlen, if_pos (hlast.symm.imp_left And.left)]
  · rw [if_neg hesc, advanceByte_payload h hlen, if_pos (hlast.resolve_right fun hback => hesc hback.2)]

/-- **A control sequence** changes nothing. -/
theorem advance_sequence {s : List UInt8} (h : Sequence s) (hq : Quiet parser) :
    parser.advance output s = some (parser, output) := by
  cases h with
  | short hesc hform =>
    rw [advance_cons, advanceByte_quiet hq, groundByte_esc, Option.bind_some, advance_singleton,
      advanceByte_escape hq.utf8Len, afterEscape_none hesc hform, hq.inState]
  | @fields intro fill ends last hopen hfill hlast =>
    obtain ⟨state, hreads, hintro⟩ := @advance_opening parser output _ _ hopen hq
    rw [advance_append, hintro, Option.bind_some, advance_append, advance_fields hreads hq.utf8Len hfill,
      Option.bind_some, advance_singleton, advanceByte_fields hreads hq.utf8Len]
    have hesc : last ≠ esc := by
      rintro rfl
      cases hreads <;> exact absurd hlast (by decide)
    rw [if_neg hesc, if_pos hlast, hq.inState]
  | payload hopen hbody hend =>
    obtain ⟨state, hreads, hintro⟩ := @advance_opening parser output _ _ hopen hq
    rw [advance_append, hintro, Option.bind_some]
    dsimp only
    rw [advance_ended hreads hq.utf8Len hbody hend, hq.inState]

/-- What was begun is forgotten with the next ESC. -/
theorem advance_cut {s : List UInt8} (h : Begun s) (hq : Quiet parser) (bs : List UInt8) :
    parser.advance output (s ++ esc :: bs) = parser.advance output (esc :: bs) := by
  rw [advance_append]
  have hground : parser.advance output (esc :: bs) = (inState parser .escape).advance output bs := by
    rw [advance_cons, advanceByte_quiet hq, groundByte_esc, Option.bind_some]
  rw [hground]
  cases h with
  | escape =>
    rw [advance_singleton, advanceByte_quiet hq, groundByte_esc, Option.bind_some, advance_cons,
      advanceByte_escape hq.utf8Len, Option.bind_some]
    rfl
  | fields hopen hfill =>
    obtain ⟨state, hreads, hintro⟩ := @advance_opening parser output _ _ hopen hq
    rw [advance_append, hintro, Option.bind_some]
    dsimp only
    rw [advance_fields hreads hq.utf8Len hfill, Option.bind_some, advance_cons, advanceByte_fields hreads hq.utf8Len,
      if_pos rfl, Option.bind_some]

theorem begun_spec {s : List UInt8} (h : Begun s) (hq : Quiet parser) :
    ∃ state, parser.advance output s = some (inState parser state, output) := by
  cases h with
  | escape => exact ⟨.escape, by rw [advance_singleton, advanceByte_quiet hq, groundByte_esc]⟩
  | fields hopen hfill =>
    obtain ⟨state, hreads, hintro⟩ := @advance_opening parser output _ _ hopen hq
    refine ⟨state, ?_⟩
    rw [advance_append, hintro, Option.bind_some]
    exact advance_fields hreads hq.utf8Len hfill

/-! ### Characters -/

theorem isContinuation_iff (b : UInt8) : isContinuation b = true ↔ b &&& 0b11000000 = 0b10000000 := by
  have hall : ∀ n < 256, (isContinuation (UInt8.ofNat n) = true ↔ UInt8.ofNat n &&& 0b11000000 = 0b10000000) := by
    decide +kernel
  have hb := hall b.toNat b.toNat_lt
  rwa [UInt8.ofNat_toNat] at hb

/-- The parser holds the beginning of a character. -/
structure Holding (parser : ServiceOutputParser) (held : List UInt8) (expected : ℕ) : Prop where
  state : parser.state = .ground
  utf8Len : parser.utf8Len = held.length
  utf8Expected : parser.utf8Expected = expected
  utf8 : parser.utf8.length = 4
  take : parser.utf8.take held.length = held

/-- The character of complete bytes. -/
def decoded (text : List UInt8) : Char := ((fromUtf8 text).bind List.head?).getD replacementCharacter

theorem take_set {xs held : List UInt8} (h : xs.take held.length = held) (hlt : held.length < xs.length) (b : UInt8) :
    (xs.set held.length b).take (held.length + 1) = held ++ [b] := by
  rw [List.take_add_one, List.take_set_of_le le_rfl, h, List.getElem?_set_self hlt, Option.toList_some]

theorem groundByte_lead {lead : UInt8} {length : ℕ} (hq : Quiet parser) (h : charLength lead = some length) :
    ∃ next, parser.groundByte output lead = some (next, output) ∧ Holding next [lead] length := by
  have hbegin : parser.groundByte output lead = (parser.beginUtf8 lead length).map fun parser => (parser, output) := by
    unfold charLength at h
    unfold groundByte
    split_ifs at h <;> cases h <;> grind
  have hstore : store parser.utf8 0 lead = some (parser.utf8.set 0 lead) := if_pos (by rw [hq.utf8]; decide)
  refine ⟨{ parser with utf8 := parser.utf8.set 0 lead, utf8Len := 1, utf8Expected := length }, ?_, hq.state, rfl, rfl,
    ?_, ?_⟩
  · rw [hbegin, beginUtf8, hstore]
    rfl
  · exact List.length_set.trans hq.utf8
  · exact @take_set parser.utf8 [] rfl (by rw [hq.utf8]; decide) lead

section
variable {held : List UInt8} {expected : ℕ} {b : UInt8}

/-- A continuation byte goes behind the bytes that are held. -/
theorem advanceByte_continuation (h : Holding parser held expected) (hheld : held ≠ []) (hlt : held.length < 4)
    (hb : isContinuation b = true) :
    parser.advanceByte output b = parser.continueUtf8 output b ∧
      store parser.utf8 parser.utf8Len b = some (parser.utf8.set held.length b) := by
  have hpos := List.length_pos_iff.mpr hheld
  constructor
  · unfold advanceByte
    rw [if_pos (by rw [h.utf8Len]; omega), if_pos ((isContinuation_iff b).mp hb)]
  · unfold store
    rw [h.utf8Len, if_pos (by rw [h.utf8]; exact hlt)]

theorem advanceByte_more (h : Holding parser held expected) (hheld : held ≠ []) (hmore : held.length + 1 < expected)
    (hexpected : expected ≤ 4) (hb : isContinuation b = true) :
    ∃ next, parser.advanceByte output b = some (next, output) ∧ Holding next (held ++ [b]) expected := by
  obtain ⟨hadvance, hstore⟩ := @advanceByte_continuation parser output _ _ _ h hheld (by omega) hb
  refine ⟨{ parser with utf8 := parser.utf8.set held.length b, utf8Len := held.length + 1 }, ?_, h.state, by simp,
    h.utf8Expected, List.length_set.trans h.utf8, ?_⟩
  · rw [hadvance]
    unfold continueUtf8
    rw [hstore, h.utf8Len, h.utf8Expected]
    simp only [Option.bind_eq_bind, Option.bind_some]
    rw [if_neg (by omega)]
    rfl
  · rw [List.length_append, List.length_singleton]
    exact take_set h.take (by rw [h.utf8]; omega) b

theorem advanceByte_last (h : Holding parser held expected) (hheld : held ≠ []) (hlast : held.length + 1 = expected)
    (hexpected : expected ≤ 4) (hb : isContinuation b = true) :
    ∃ next, parser.advanceByte output b = some (next, output.pushChar (decoded (held ++ [b]))) ∧ Quiet next := by
  obtain ⟨hadvance, hstore⟩ := @advanceByte_continuation parser output _ _ _ h hheld (by omega) hb
  refine ⟨{ parser with utf8 := parser.utf8.set held.length b, utf8Len := 0, utf8Expected := 0 }, ?_, h.state, rfl,
    List.length_set.trans h.utf8⟩
  have hslice : slice (parser.utf8.set held.length b) 0 (held.length + 1) = some (held ++ [b]) := by
    rw [slice_of_le (Nat.zero_le _) (by rw [List.length_set, h.utf8]; omega), List.drop_zero, Nat.sub_zero,
      take_set h.take (by rw [h.utf8]; omega)]
  rw [hadvance]
  unfold continueUtf8
  rw [hstore, h.utf8Len, h.utf8Expected]
  simp only [Option.bind_eq_bind, Option.bind_some]
  rw [if_pos hlast, hslice]
  rfl

/-- Bytes of a character that are not the last ones. -/
theorem advance_more {conts : List UInt8} (h : Holding parser held expected) (hheld : held ≠ [])
    (hmore : held.length + conts.length < expected) (hexpected : expected ≤ 4)
    (hconts : ∀ b ∈ conts, isContinuation b = true) :
    ∃ next, parser.advance output conts = some (next, output) ∧ Holding next (held ++ conts) expected := by
  induction conts generalizing parser held with
  | nil =>
    refine ⟨parser, rfl, ?_⟩
    rwa [List.append_nil]
  | cons b conts ih =>
    obtain ⟨hb, hconts⟩ := List.forall_mem_cons.mp hconts
    rw [List.length_cons] at hmore
    obtain ⟨next, hstep, hnext⟩ := @advanceByte_more parser output _ _ _ h hheld (by omega) hexpected hb
    obtain ⟨final, hrun, hfinal⟩ := ih hnext (by simp) (by rw [List.length_append, List.length_singleton]; omega) hconts
    refine ⟨final, ?_, ?_⟩
    · rw [advance_cons, hstep, Option.bind_some]
      exact hrun
    · rwa [List.append_assoc] at hfinal

/-- **The bytes of a character**, by its leading byte. -/
theorem advance_lead {lead : UInt8} {conts : List UInt8} (hq : Quiet parser)
    (hlead : charLength lead = some (conts.length + 1)) (hconts : ∀ b ∈ conts, isContinuation b = true) :
    ∃ next, parser.advance output (lead :: conts) = some (next, output.pushChar (decoded (lead :: conts))) ∧
      Quiet next := by
  obtain ⟨hlow, hhigh⟩ := charLength_le hlead
  obtain ⟨begun, hbegun, hheld⟩ := @groundByte_lead parser output _ _ hq hlead
  rw [advance_cons, advanceByte_quiet hq, hbegun, Option.bind_some]
  dsimp only
  rcases List.eq_nil_or_concat' conts with rfl | ⟨front, last, rfl⟩
  · exact absurd hlow (by decide)
  · rw [List.length_append, List.length_singleton] at hhigh hheld
    obtain ⟨next, hrun, hnext⟩ := @advance_more begun output _ _ front hheld (by simp)
      (by rw [List.length_singleton]; omega) hhigh fun b hb => hconts b (List.mem_append_left _ hb)
    obtain ⟨final, hlast, hfinal⟩ := @advanceByte_last next output _ _ last hnext (by simp)
      (by rw [List.length_append, List.length_singleton]; omega) hhigh (hconts last (by simp))
    refine ⟨final, ?_, hfinal⟩
    rw [advance_append, hrun, Option.bind_some, advance_singleton]
    exact hlast

/-- A character that is not continued is replaced, and the byte is read as if nothing were held. -/
theorem advanceByte_flush (h : Holding parser held expected) (hheld : held ≠ []) (hb : isContinuation b = false) :
    ∃ next, Quiet next ∧
      parser.advanceByte output b = next.advanceByte (output.pushChar replacementCharacter) b := by
  have hpos := List.length_pos_iff.mpr hheld
  have hquiet : Quiet { parser with utf8Len := 0, utf8Expected := 0 } := ⟨h.state, rfl, h.utf8⟩
  refine ⟨_, hquiet, ?_⟩
  rw [advanceByte_quiet hquiet]
  unfold advanceByte
  rw [if_pos (by rw [h.utf8Len]; omega), if_neg (by rw [← isContinuation_iff, hb]; exact Bool.false_ne_true)]
  unfold stateByte
  rw [h.state]

end

/-! ### Pieces -/

theorem advance_control {b : UInt8} (hq : Quiet parser) (h : isControl b = true) :
    parser.advance output [b] = (output.execute b).map fun output => (parser, output) := by
  rw [advance_singleton, advanceByte_quiet hq]
  unfold isControl esc at h
  unfold groundByte
  grind

theorem advance_stray {b : UInt8} (hq : Quiet parser) (hwide : 0x80 ≤ b) (hform : byteForm b = none)
    (hlead : charLength b = none) :
    parser.advance output [b] = some (parser, output.pushChar replacementCharacter) := by
  rw [advance_singleton, advanceByte_quiet hq]
  unfold charLength at hlead
  unfold byteForm at hform
  unfold groundByte
  grind

/-- A character of ASCII that is no control character. -/
theorem advance_graphic {b : UInt8} (hq : Quiet parser) (hlow : 0x20 ≤ b) (hhigh : b ≤ 0x7e) :
    parser.advance output [b] = some (parser, output.pushChar (Char.ofNat b.toNat)) := by
  rw [advance_singleton, advanceByte_quiet hq]
  unfold groundByte
  grind

theorem advance_char {c : Char} (hq : Quiet parser) (hlow : 0x20 ≤ c.toNat) (hdel : c.toNat ≠ 0x7f) :
    ∃ next, parser.advance output (String.utf8EncodeChar c) = some (next, output.pushChar c) ∧ Quiet next := by
  rcases Nat.lt_or_ge c.toNat 0x80 with hascii | hwide
  · refine ⟨parser, ?_, hq⟩
    have hbyte : (UInt8.ofNat c.toNat).toNat = c.toNat := by
      rw [UInt8.toNat_ofNat', Nat.mod_eq_of_lt (by omega)]
    rw [encode_ascii hascii, advance_graphic hq, hbyte, Char.ofNat_toNat]
    · rw [UInt8.le_iff_toNat_le, hbyte]
      exact hlow
    · rw [UInt8.le_iff_toNat_le, hbyte]
      change c.toNat ≤ 0x7e
      omega
  · obtain ⟨lead, conts, hencode, hlead, hconts⟩ := encode_lead hwide
    obtain ⟨next, hrun, hnext⟩ := @advance_lead parser output _ _ hq hlead hconts
    have hdecoded : decoded (lead :: conts) = c := by
      have htext := fromUtf8_bytes [c]
      rw [bytes_cons, bytes_nil, List.append_nil, hencode] at htext
      unfold decoded
      rw [htext]
      rfl
    rw [hencode]
    rw [hdecoded] at hrun
    exact ⟨next, hrun, hnext⟩

/-- The beginning of a character that is not continued. -/
theorem advance_short {lead next : UInt8} {conts : List UInt8} {length : ℕ} (hq : Quiet parser)
    (hlead : charLength lead = some length) (hconts : ∀ b ∈ conts, isContinuation b = true)
    (hshort : conts.length + 1 < length) (hnext : isContinuation next = false) (after : List UInt8) :
    ∃ parser', Quiet parser' ∧ parser.advance output (lead :: conts ++ next :: after) =
      parser'.advance (output.pushChar replacementCharacter) (next :: after) := by
  obtain ⟨begun, hbegun, hheld⟩ := @groundByte_lead parser output _ _ hq hlead
  obtain ⟨short, hrun, hshort⟩ := @advance_more begun output _ _ conts hheld (by simp)
    (by rw [List.length_singleton]; omega) (charLength_le hlead).2 hconts
  obtain ⟨flushed, hquiet, hflush⟩ := @advanceByte_flush short output _ _ next hshort (by simp) hnext
  refine ⟨flushed, hquiet, ?_⟩
  rw [advance_append, advance_cons, advanceByte_quiet hq, hbegun, Option.bind_some]
  dsimp only
  rw [hrun, Option.bind_some, advance_cons, advance_cons]
  dsimp only
  rw [hflush]

theorem advance_unfinished {rest : List UInt8} (h : Unfinished rest) (hq : Quiet parser) :
    ∃ next, parser.advance output rest = some (next, output) := by
  cases h with
  | nothing => exact ⟨parser, rfl⟩
  | begun hbegun =>
    obtain ⟨state, hrun⟩ := @begun_spec parser output _ hbegun hq
    exact ⟨_, hrun⟩
  | payload hopen hgoing =>
    obtain ⟨state, hreads, hintro⟩ := @advance_opening parser output _ _ hopen hq
    rw [advance_append, hintro, Option.bind_some]
    exact ⟨_, advance_payload hreads hq.utf8Len hgoing⟩
  | char hlead hconts hshort =>
    obtain ⟨begun, hbegun, hheld⟩ := @groundByte_lead parser output _ _ hq hlead
    obtain ⟨next, hrun, -⟩ := @advance_more begun output _ _ _ hheld (by simp)
      (by rw [List.length_singleton]; omega) (charLength_le hlead).2 hconts
    refine ⟨next, ?_⟩
    rw [advance_cons, advanceByte_quiet hq, hbegun, Option.bind_some]
    exact hrun

/-- **What the parser makes of a segmented stream**: one call of the performer for each piece. -/
theorem advance_segmented {bs rest : List UInt8} {pieces : List Piece} (h : Segmented bs pieces rest)
    (hq : Quiet parser) {final : ServiceOutputPerformer} (hrun : pieces.foldlM perform output = some final) :
    ∃ next, parser.advance output bs = some (next, final) := by
  induction h generalizing parser output with
  | rest hrest =>
    obtain rfl := Option.some.inj hrun
    exact advance_unfinished hrest hq
  | char hlow hdel hbs ih =>
    obtain ⟨next, hchar, hnext⟩ := @advance_char parser output _ hq hlow hdel
    rw [advance_append, hchar, Option.bind_some]
    exact ih hnext hrun
  | control hcontrol hbs ih =>
    rw [List.foldlM_cons] at hrun
    obtain ⟨between, hstep, hrun⟩ := Option.bind_eq_some_iff.mp hrun
    rw [← List.singleton_append, advance_append, advance_control hq hcontrol, show output.execute _ = some between from hstep,
      Option.map_some, Option.bind_some]
    exact ih hq hrun
  | sequence hsequence hbs ih =>
    rw [advance_append, advance_sequence hsequence hq, Option.bind_some]
    exact ih hq hrun
  | cut hbegun hbs ih =>
    rw [advance_cut hbegun hq]
    exact ih hq hrun
  | malformed hmalformed hbs ih =>
    cases hmalformed with
    | stray hwide hform hlead =>
      rw [advance_append, advance_stray hq hwide hform hlead, Option.bind_some]
      exact ih hq hrun
    | wrong hlead hconts htext =>
      obtain ⟨next, hlast, hnext⟩ := @advance_lead parser output _ _ hq hlead hconts
      rw [show decoded _ = replacementCharacter by rw [decoded, htext]; rfl] at hlast
      rw [advance_append, hlast, Option.bind_some]
      exact ih hnext hrun
    | short hlead hconts hshort hnext =>
      obtain ⟨flushed, hquiet, hflush⟩ := @advance_short parser output _ _ _ _ hq hlead hconts hshort hnext _
      rw [hflush]
      exact ih hquiet hrun

end

end Paneflow.Terminal.ServiceParsing
