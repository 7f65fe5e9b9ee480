import Paneflow.Utf8

/-! # Control sequences in a byte stream

What a program writes to a terminal: characters in UTF-8, control characters, and control sequences, which begin
with ESC or with a byte of their own. Sequences with fields end at their final byte, strings at a byte that stops
them or at `ESC \`; CAN and SUB end both, and ESC cuts a sequence off that has fields.

`Segmented bs pieces rest` says what the bytes consist of, up to a rest that is not complete. Every byte stream is
segmented (`exists_segmented`). -/

namespace Paneflow.ControlSequences

open Paneflow.Utf8

def esc : UInt8 := 0x1b

/-- CAN and SUB. -/
def cancels (b : UInt8) : Bool := b == 0x18 || b == 0x1a

def csiEnd (b : UInt8) : Bool := cancels b || (0x40 ≤ b && b ≤ 0x7e)

def escEnd (b : UInt8) : Bool := cancels b || (0x30 ≤ b && b ≤ 0x7e)

def oscStop (b : UInt8) : Bool := b == 0x07 || cancels b

/-- What follows the introducer of a sequence. -/
inductive Form
  | fields (ends : UInt8 → Bool)
  | payload (stop : UInt8 → Bool)

/-- What the byte after an ESC introduces. -/
def escapeForm (b : UInt8) : Option Form :=
  if b = 0x5b then some (.fields csiEnd)
  else if b = 0x5d then some (.payload oscStop)
  else if b = 0x50 ∨ b = 0x58 ∨ b = 0x5e ∨ b = 0x5f then some (.payload cancels)
  else if 0x20 ≤ b ∧ b ≤ 0x2f then some (.fields escEnd)
  else none

/-- What a byte introduces on its own. -/
def byteForm (b : UInt8) : Option Form :=
  if b = 0x9b then some (.fields csiEnd)
  else if b = 0x9d then some (.payload oscStop)
  else if b = 0x90 ∨ b = 0x98 ∨ b = 0x9e ∨ b = 0x9f then some (.payload cancels)
  else none

inductive Opening : List UInt8 → Form → Prop
  | escape {b : UInt8} {form : Form} : escapeForm b = some form → Opening [esc, b] form
  | byte {b : UInt8} {form : Form} : byteForm b = some form → Opening [b] form

/-- A string has come to its end. -/
def Ended (stop : UInt8 → Bool) (body : List UInt8) : Prop :=
  ∃ front last, body = front ++ [last] ∧ (stop last = true ∨ last = 0x5c ∧ front.getLast? = some esc)

/-- Bytes between the introducer and the end of a sequence with fields. -/
def Fields (ends : UInt8 → Bool) (fill : List UInt8) : Prop := ∀ b ∈ fill, ends b = false ∧ b ≠ esc

/-- Bytes of a string that has not come to its end. -/
def Going (stop : UInt8 → Bool) (body : List UInt8) : Prop := ∀ front, front <+: body → ¬Ended stop front

/-- A control sequence from its introducer to its end. -/
inductive Sequence : List UInt8 → Prop
  | short {b : UInt8} : b ≠ esc → escapeForm b = none → Sequence [esc, b]
  | fields {intro fill : List UInt8} {ends : UInt8 → Bool} {last : UInt8} : Opening intro (.fields ends) →
      Fields ends fill → ends last = true → Sequence (intro ++ (fill ++ [last]))
  | payload {intro body : List UInt8} {stop : UInt8 → Bool} {last : UInt8} : Opening intro (.payload stop) →
      Going stop body → Ended stop (body ++ [last]) → Sequence (intro ++ (body ++ [last]))

/-- The beginning of a sequence that an ESC would cut off. -/
inductive Begun : List UInt8 → Prop
  | escape : Begun [esc]
  | fields {intro fill : List UInt8} {ends : UInt8 → Bool} : Opening intro (.fields ends) → Fields ends fill →
      Begun (intro ++ fill)

/-! ### Characters -/

def isContinuation (b : UInt8) : Bool := 0x80 ≤ b && b ≤ 0xbf

/-- The length of the characters that begin with a byte, where that is more than one. -/
def charLength (lead : UInt8) : Option ℕ :=
  if 0xc2 ≤ lead ∧ lead ≤ 0xdf then some 2
  else if 0xe0 ≤ lead ∧ lead ≤ 0xef then some 3
  else if 0xf0 ≤ lead ∧ lead ≤ 0xf4 then some 4
  else none

/-- Bytes that are no character, in front of others. -/
inductive Malformed : List UInt8 → List UInt8 → Prop
  | stray {b : UInt8} {after : List UInt8} : 0x80 ≤ b → byteForm b = none → charLength b = none → Malformed [b] after
  | wrong {lead : UInt8} {conts after : List UInt8} : charLength lead = some (conts.length + 1) →
      (∀ b ∈ conts, isContinuation b = true) → fromUtf8 (lead :: conts) = none → Malformed (lead :: conts) after
  | short {lead next : UInt8} {conts after : List UInt8} {length : ℕ} : charLength lead = some length →
      (∀ b ∈ conts, isContinuation b = true) → conts.length + 1 < length → isContinuation next = false →
      Malformed (lead :: conts) (next :: after)

def isControl (b : UInt8) : Bool := (b ≤ 0x1f && b != esc) || b == 0x7f

inductive Piece
  | char (c : Char)
  | malformed
  | control (b : UInt8)
  | sequence

/-- What is at the end of bytes and may be completed by others. -/
inductive Unfinished : List UInt8 → Prop
  | nothing : Unfinished []
  | begun {bs : List UInt8} : Begun bs → Unfinished bs
  | payload {intro body : List UInt8} {stop : UInt8 → Bool} : Opening intro (.payload stop) → Going stop body →
      Unfinished (intro ++ body)
  | char {lead : UInt8} {conts : List UInt8} {length : ℕ} : charLength lead = some length →
      (∀ b ∈ conts, isContinuation b = true) → conts.length + 1 < length → Unfinished (lead :: conts)

/-- **What bytes consist of**: their pieces and the rest. -/
inductive Segmented : List UInt8 → List Piece → List UInt8 → Prop
  | rest {bs : List UInt8} : Unfinished bs → Segmented bs [] bs
  | char {c : Char} {bs rest : List UInt8} {pieces : List Piece} : 0x20 ≤ c.toNat → c.toNat ≠ 0x7f →
      Segmented bs pieces rest → Segmented (String.utf8EncodeChar c ++ bs) (.char c :: pieces) rest
  | malformed {m bs rest : List UInt8} {pieces : List Piece} : Malformed m bs →
      Segmented bs pieces rest → Segmented (m ++ bs) (.malformed :: pieces) rest
  | control {b : UInt8} {bs rest : List UInt8} {pieces : List Piece} : isControl b = true →
      Segmented bs pieces rest → Segmented (b :: bs) (.control b :: pieces) rest
  | sequence {s bs rest : List UInt8} {pieces : List Piece} : Sequence s →
      Segmented bs pieces rest → Segmented (s ++ bs) (.sequence :: pieces) rest
  | cut {s bs rest : List UInt8} {pieces : List Piece} : Begun s →
      Segmented (esc :: bs) pieces rest → Segmented (s ++ esc :: bs) (.sequence :: pieces) rest

/-! ### Every byte stream is segmented -/

/-- The shortest beginning with a property. -/
theorem exists_shortest {α : Type} {P : List α → Prop} (hnil : ¬P []) (bs : List α) :
    (∀ front, front <+: bs → ¬P front) ∨
      ∃ front last rest, bs = front ++ [last] ++ rest ∧ P (front ++ [last]) ∧ ∀ early, early <+: front → ¬P early := by
  induction bs using List.reverseRecOn with
  | nil =>
    refine Or.inl fun front hfront => ?_
    rw [List.prefix_nil.mp hfront]
    exact hnil
  | append_singleton bs b ih =>
    rcases ih with hnone | ⟨front, last, rest, rfl, hlast, hearly⟩
    · by_cases hall : P (bs ++ [b])
      · exact Or.inr ⟨bs, b, [], (List.append_nil _).symm, hall, hnone⟩
      · refine Or.inl fun front hfront => ?_
        rcases List.prefix_concat_iff.mp hfront with rfl | hshorter
        · exact hall
        · exact hnone front hshorter
    · exact Or.inr ⟨front, last, rest ++ [b], by simp, hlast, hearly⟩

theorem not_ended_nil {stop : UInt8 → Bool} : ¬Ended stop [] := by
  rintro ⟨front, last, hsplit, -⟩
  simp at hsplit

/-- The bytes up to the first one with a property. -/
theorem exists_first {p : UInt8 → Bool} (bs : List UInt8) :
    (∀ b ∈ bs, p b = false) ∨ ∃ fill last rest, bs = fill ++ last :: rest ∧ p last = true ∧ ∀ b ∈ fill, p b = false := by
  induction bs with
  | nil => exact Or.inl fun b hb => nomatch hb
  | cons b bs ih =>
    cases hb : p b with
    | true => exact Or.inr ⟨[], b, bs, rfl, hb, fun c hc => nomatch hc⟩
    | false =>
      rcases ih with hnone | ⟨fill, last, rest, rfl, hlast, hfill⟩
      · exact Or.inl (List.forall_mem_cons.mpr ⟨hb, hnone⟩)
      · exact Or.inr ⟨b :: fill, last, rest, rfl, hlast, List.forall_mem_cons.mpr ⟨hb, hfill⟩⟩

/-- The bytes can be segmented, if all that are fewer can. -/
def Shorter (n : ℕ) : Prop := ∀ bs : List UInt8, bs.length < n → ∃ pieces rest, Segmented bs pieces rest

/-- Bytes after an introducer. -/
theorem exists_segmented_opening {intro : List UInt8} {form : Form} (hopen : Opening intro form) {bs : List UInt8}
    (ih : Shorter (intro ++ bs).length) : ∃ pieces rest, Segmented (intro ++ bs) pieces rest := by
  have hpos : 0 < intro.length := by
    cases hopen <;> exact Nat.succ_pos _
  rw [List.length_append] at ih
  cases form with
  | fields ends =>
    rcases @exists_first (fun b => ends b || b == esc) bs with hnone | ⟨fill, last, rest, rfl, hlast, hfill⟩
    · refine ⟨[], _, .rest (.begun (.fields hopen fun b hb => ?_))⟩
      simpa using hnone b hb
    · have hfields : Fields ends fill := fun b hb => by simpa using hfill b hb
      simp only [List.length_append, List.length_cons] at ih
      cases hend : ends last with
      | true =>
        obtain ⟨pieces, rest', hrest⟩ := ih rest (by omega)
        rw [show intro ++ (fill ++ last :: rest) = (intro ++ (fill ++ [last])) ++ rest by simp]
        exact ⟨_, _, .sequence (.fields hopen hfields hend) hrest⟩
      | false =>
        obtain rfl : last = esc := by simpa [hend] using hlast
        obtain ⟨pieces, rest', hrest⟩ := ih (esc :: rest) (by rw [List.length_cons]; omega)
        rw [← List.append_assoc]
        exact ⟨_, _, .cut (.fields hopen hfields) hrest⟩
  | payload stop =>
    rcases @exists_shortest UInt8 (Ended stop) not_ended_nil bs with hnone | ⟨body, last, rest, rfl, hend, hgoing⟩
    · exact ⟨[], _, .rest (.payload hopen hnone)⟩
    · simp only [List.length_append, List.length_singleton] at ih
      obtain ⟨pieces, rest', hrest⟩ := ih rest (by omega)
      rw [← List.append_assoc]
      exact ⟨_, _, .sequence (.payload hopen hgoing hend) hrest⟩

theorem exists_segmented_escape {bs : List UInt8} (ih : Shorter (esc :: bs).length) :
    ∃ pieces rest, Segmented (esc :: bs) pieces rest := by
  cases bs with
  | nil => exact ⟨[], _, .rest (.begun .escape)⟩
  | cons b bs =>
    cases hform : escapeForm b with
    | some form => exact exists_segmented_opening (.escape hform) ih
    | none =>
      by_cases hb : b = esc
      · subst hb
        obtain ⟨pieces, rest, hrest⟩ := ih (esc :: bs) (Nat.lt_succ_self _)
        exact ⟨_, _, .cut .escape hrest⟩
      · obtain ⟨pieces, rest, hrest⟩ := ih bs (by simp)
        exact ⟨_, _, .sequence (.short hb hform) hrest⟩

/-! ### Bytes of characters -/

theorem isContinuation_ofNat {n : ℕ} (h1 : 0x80 ≤ n) (h2 : n ≤ 0xbf) : isContinuation (UInt8.ofNat n) = true := by
  unfold isContinuation
  rw [Bool.and_eq_true, decide_eq_true_eq, decide_eq_true_eq, UInt8.le_iff_toNat_le, UInt8.le_iff_toNat_le,
    UInt8.toNat_ofNat']
  exact ⟨by change 128 ≤ _; omega, by change _ ≤ 191; omega⟩

theorem charLength_ofNat {n : ℕ} (h : n < 256) : charLength (UInt8.ofNat n) =
    if 0xc2 ≤ n ∧ n ≤ 0xdf then some 2
    else if 0xe0 ≤ n ∧ n ≤ 0xef then some 3
    else if 0xf0 ≤ n ∧ n ≤ 0xf4 then some 4
    else none := by
  have hn : (UInt8.ofNat n).toNat = n := by rw [UInt8.toNat_ofNat', Nat.mod_eq_of_lt h]
  unfold charLength
  simp only [UInt8.le_iff_toNat_le, hn]
  rfl

/-- The bytes of a character that is not ASCII: a leading one and as many more as it announces. -/
theorem encode_lead {c : Char} (h : 0x80 ≤ c.toNat) : ∃ lead conts, String.utf8EncodeChar c = lead :: conts ∧
    charLength lead = some (conts.length + 1) ∧ ∀ b ∈ conts, isContinuation b = true := by
  have hc : c.toNat = c.val.toNat := rfl
  have hmax : c.val.toNat < 0x110000 := by
    rcases c.valid with hlt | ⟨-, hlt⟩ <;> omega
  fun_cases String.utf8EncodeChar c
  · omega
  · refine ⟨_, _, rfl, ?_, ?_⟩
    · rw [charLength_ofNat (by omega), if_pos (by omega)]
      rfl
    · simp only [List.forall_mem_cons]
      exact ⟨isContinuation_ofNat (by omega) (by omega), fun b hb => nomatch hb⟩
  · refine ⟨_, _, rfl, ?_, ?_⟩
    · rw [charLength_ofNat (by omega), if_neg (by omega), if_pos (by omega)]
      rfl
    · simp only [List.forall_mem_cons]
      exact ⟨isContinuation_ofNat (by omega) (by omega), isContinuation_ofNat (by omega) (by omega), fun b hb => nomatch hb⟩
  · refine ⟨_, _, rfl, ?_, ?_⟩
    · rw [charLength_ofNat (by omega), if_neg (by omega), if_neg (by omega), if_pos (by omega)]
      rfl
    · simp only [List.forall_mem_cons]
      exact ⟨isContinuation_ofNat (by omega) (by omega), isContinuation_ofNat (by omega) (by omega),
        isContinuation_ofNat (by omega) (by omega), fun b hb => nomatch hb⟩

/-- Bytes that a text has of which the first announces as many as there are: one character. -/
theorem bytes_eq_single {lead : UInt8} {conts : List UInt8} {s : List Char} (hbytes : bytes s = lead :: conts)
    (hlead : charLength lead = some (conts.length + 1)) :
    ∃ c : Char, s = [c] ∧ 0x80 ≤ c.toNat ∧ String.utf8EncodeChar c = lead :: conts := by
  cases s with
  | nil => exact nomatch hbytes
  | cons c s =>
    rw [bytes_cons] at hbytes
    rcases Nat.lt_or_ge c.toNat 0x80 with hascii | hwide
    · rw [encode_ascii hascii] at hbytes
      obtain ⟨rfl, -⟩ := List.cons.inj hbytes
      rw [charLength_ofNat (by omega), if_neg (by omega), if_neg (by omega), if_neg (by omega)] at hlead
      exact nomatch hlead
    · obtain ⟨lead', conts', hencode, hlead', -⟩ := encode_lead hwide
      rw [hencode] at hbytes
      obtain ⟨rfl, hconts⟩ := List.cons.inj ((List.cons_append ..).symm.trans hbytes)
      have hlength := congrArg List.length hconts
      rw [List.length_append] at hlength
      rw [hlead] at hlead'
      have hnone : (bytes s).length = 0 := by
        have := Option.some.inj hlead'
        omega
      obtain rfl := size_eq_zero.mp hnone
      rw [bytes_nil, List.append_nil] at hconts
      exact ⟨c, rfl, hwide, by rw [hencode, hconts]⟩

/-- The longest beginning of bytes with at most so many that have a property. -/
theorem exists_run (p : UInt8 → Bool) (n : ℕ) (bs : List UInt8) : ∃ run rest, bs = run ++ rest ∧
    (∀ b ∈ run, p b = true) ∧ (run.length = n ∨ run.length < n ∧ ∀ next ∈ rest.head?, p next = false) := by
  induction n generalizing bs with
  | zero => exact ⟨[], bs, rfl, (fun b hb => nomatch hb), Or.inl rfl⟩
  | succ n ih =>
    cases bs with
    | nil => exact ⟨[], [], rfl, (fun b hb => nomatch hb), Or.inr ⟨Nat.succ_pos n, fun next h => nomatch h⟩⟩
    | cons b bs =>
      cases hb : p b with
      | false =>
        refine ⟨[], b :: bs, rfl, (fun b hb => nomatch hb), Or.inr ⟨Nat.succ_pos n, ?_⟩⟩
        rintro next ⟨rfl⟩
        exact hb
      | true =>
        obtain ⟨run, rest, rfl, hrun, hlength⟩ := ih bs
        refine ⟨b :: run, rest, rfl, List.forall_mem_cons.mpr ⟨hb, hrun⟩, ?_⟩
        rw [List.length_cons]
        exact hlength.imp (congrArg Nat.succ) fun ⟨hlt, hnext⟩ => ⟨by omega, hnext⟩

theorem charLength_le {lead : UInt8} {length : ℕ} (h : charLength lead = some length) : 2 ≤ length ∧ length ≤ 4 := by
  unfold charLength at h
  split_ifs at h
  all_goals
    cases h
    omega

theorem exists_segmented_lead {lead : UInt8} {length : ℕ} (hlead : charLength lead = some length) {bs : List UInt8}
    (ih : Shorter (lead :: bs).length) : ∃ pieces rest, Segmented (lead :: bs) pieces rest := by
  obtain ⟨hlength, -⟩ := charLength_le hlead
  obtain ⟨conts, after, rfl, hconts, hfull | ⟨hshort, hnext⟩⟩ := exists_run isContinuation (length - 1) bs
  · obtain ⟨pieces, rest, hrest⟩ := ih after (by simp)
    have hlead' : charLength lead = some (conts.length + 1) := by
      rw [hlead, hfull]
      congr 1
      omega
    cases htext : fromUtf8 (lead :: conts) with
    | none => exact ⟨_, _, .malformed (.wrong hlead' hconts htext) hrest⟩
    | some s =>
      obtain ⟨c, -, hwide, hencode⟩ := bytes_eq_single (bytes_of_fromUtf8 htext) hlead'
      rw [← List.cons_append, ← hencode]
      exact ⟨_, _, .char (by omega) (by omega) hrest⟩
  · cases after with
    | nil =>
      rw [List.append_nil]
      exact ⟨[], _, .rest (.char hlead hconts (by omega))⟩
    | cons next after =>
      obtain ⟨pieces, rest, hrest⟩ := ih (next :: after) (by simp)
      exact ⟨_, _, .malformed (.short hlead hconts (by omega) (hnext next rfl)) hrest⟩

/-- A byte of ASCII is a character. -/
theorem char_of_ascii {b : UInt8} (h : b.toNat < 0x80) :
    (Char.ofNat b.toNat).toNat = b.toNat ∧ String.utf8EncodeChar (Char.ofNat b.toNat) = [b] := by
  have hall : ∀ n < 128, (Char.ofNat n).toNat = n := by decide
  have hb := hall _ h
  refine ⟨hb, ?_⟩
  rw [encode_ascii (by omega), hb, UInt8.ofNat_toNat]

theorem graphic_of_not_control {b : UInt8} (hesc : b ≠ esc) (h : ¬isControl b = true) : 0x20 ≤ b.toNat ∧ b.toNat ≠ 0x7f := by
  unfold isControl at h
  simp only [Bool.or_eq_true, Bool.and_eq_true, decide_eq_true_eq, bne_iff_ne, beq_iff_eq, not_or, not_and, not_not] at h
  refine ⟨?_, fun hdel => h.2 (UInt8.toNat_inj.mp hdel)⟩
  by_contra hlow
  refine hesc (h.1 (UInt8.le_iff_toNat_le.mpr ?_))
  change _ ≤ 0x1f
  omega

/-- **Every byte stream is segmented.** -/
theorem exists_segmented (bs : List UInt8) : ∃ pieces rest, Segmented bs pieces rest := by
  induction hn : bs.length using Nat.strong_induction_on generalizing bs with
  | _ n ih =>
    have ih : Shorter bs.length := fun other hother => ih other.length (by omega) other rfl
    cases bs with
    | nil => exact ⟨[], [], .rest .nothing⟩
    | cons b bs =>
      by_cases hesc : b = esc
      · subst hesc
        exact exists_segmented_escape ih
      · cases hform : byteForm b with
        | some form => exact exists_segmented_opening (.byte hform) ih
        | none =>
          cases hlead : charLength b with
          | some length => exact exists_segmented_lead hlead ih
          | none =>
            obtain ⟨pieces, rest, hrest⟩ := ih bs (Nat.lt_succ_self _)
            by_cases hwide : 0x80 ≤ b
            · exact ⟨_, _, .malformed (.stray hwide hform hlead) hrest⟩
            · have hascii : b.toNat < 0x80 := by
                rw [UInt8.le_iff_toNat_le] at hwide
                exact Nat.lt_of_not_le hwide
              by_cases hcontrol : isControl b = true
              · exact ⟨_, _, .control hcontrol hrest⟩
              · obtain ⟨hchar, hencode⟩ := char_of_ascii hascii
                obtain ⟨hlow, hdel⟩ := graphic_of_not_control hesc hcontrol
                rw [← List.singleton_append, ← hencode]
                exact ⟨_, _, .char (by omega) (by omega) hrest⟩

end Paneflow.ControlSequences
