import Paneflow.Host.Delivered
import Paneflow.Ipc.Pages

/-!
# Fenced reads

The answer of `surface.read` puts what a terminal printed between two tags, so that whoever reads it knows where it ends.
`surfaceRead_closed`: the closing tag is there once, at the start of the last line, whatever was printed.
`scrollback_spec` puts this together with what the cut and the pages of the scrollback guarantee.
-/

namespace Paneflow.Host.FencedReads

open Paneflow.Checked Paneflow.Host.ControlAnswers Paneflow.Host.Delivered Paneflow.Host.Identity
open Paneflow.Host.Surfaces Paneflow.Host.WriteScope Paneflow.Ipc.Scrollback Paneflow.Json Paneflow.JsonText
open Paneflow.Numerals Paneflow.Occurrences Paneflow.Rows Paneflow.Utf8

/-- The closing tag occurs once, at the start of the last line. -/
def ClosedOnce (text : List Char) : Prop :=
  ∃ front last, text = front ++ '\n' :: last ∧ '\n' ∉ last ∧ ∀ i, OccursAt closingTag text i ↔ i = front.length + 1

/-- A character that neither starts a tag nor ends a line. -/
def inert (c : Char) : Bool := c ≠ '<' && c ≠ '\n'

theorem notMem_of_inert {text : List Char} (h : text.all inert = true) : '<' ∉ text ∧ '\n' ∉ text := by
  rw [List.all_eq_true] at h
  exact ⟨fun hmem => absurd (h _ hmem) (by decide), fun hmem => absurd (h _ hmem) (by decide)⟩

theorem inert_append {a b : List Char} (ha : a.all inert = true) (hb : b.all inert = true) :
    (a ++ b).all inert = true := by
  rw [List.all_append, ha, hb, Bool.and_self]

/-! ### The tags -/

theorem inert_digits (radix : ℕ) (hradix : radix ≤ 16) {text : List Char}
    (h : ∀ c ∈ text, ∃ d < radix, c = d.digitChar) : text.all inert = true := by
  have hdigit : ∀ d < 16, inert (Nat.digitChar d) = true := by decide
  refine List.all_eq_true.mpr fun c hc => ?_
  obtain ⟨d, hd, rfl⟩ := h c hc
  exact hdigit d (hd.trans_le hradix)

theorem inert_session (session : SessionId) : session.text.all inert = true := by
  refine List.all_eq_true.mpr fun c hc => ?_
  have hhex := mem_canonical session.canonical c hc
  obtain ⟨hlow, -⟩ := toNat_hex hhex
  have hless : c ≠ '<' := by
    rintro rfl
    exact absurd hhex (by decide)
  have hline : c ≠ '\n' := by
    rintro rfl
    exact absurd hlow (by decide)
  simp [inert, hless, hline]

theorem inert_headerAttrs (session : SessionId) (total : ℕ) (eof : Bool) :
    (headerAttrs session total eof).all inert = true := by
  have htotal : (Nat.toDigits 10 total).all inert = true :=
    inert_digits 10 (by decide) (mem_toDigits (by decide) total)
  have heof : (eofText eof).all inert = true := by cases eof <;> decide
  have hsource : "source=\"session:".toList.all inert = true := by decide
  have hlines : "\" total_lines=\"".toList.all inert = true := by decide
  have hend : "\" eof=\"".toList.all inert = true := by decide
  have hquote : "\"".toList.all inert = true := by decide
  unfold headerAttrs
  exact inert_append (inert_append (inert_append (inert_append (inert_append (inert_append hsource
    (inert_session session)) hlines) htotal) hend) heof) hquote

/-- A neutralized text is not changed again. -/
theorem neutralizeUntrusted_eq {body : List Char} (h : ¬closingTag <:+: body) : neutralizeUntrusted body = body :=
  replace_of_not_infix h

theorem closingTag_eq : closingTag = '<' :: '/' :: "untrusted_terminal_output".toList := by decide

/-- The lines of a fence, from the texts that it is made of. -/
theorem fence_shape {opening opening' attrs id after id' body closing closing' quote : List Char}
    (hopening : opening = '<' :: 'u' :: opening') (hafter : after = quote ++ ['\n'])
    (hclosing : closing = '\n' :: '<' :: '/' :: closing') :
    opening ++ attrs ++ id ++ id' ++ after ++ body ++ closing ++ id' ++ quote =
      (('<' :: 'u' :: (opening' ++ attrs ++ id ++ id' ++ quote)) ++ '\n' :: body) ++
        '\n' :: '<' :: '/' :: (closing' ++ id' ++ quote) := by
  rw [hopening, hafter, hclosing]
  simp only [List.append_assoc, List.cons_append, List.nil_append]

/-- **The fence is closed once.** -/
theorem wrapUntrusted_closed (fence : UInt64) {attrs : List Char} (hattrs : attrs.all inert = true) (body : List Char) :
    ClosedOnce (wrapUntrusted fence attrs body) := by
  have hid : (padded 16 16 fence.toNat).all inert = true :=
    inert_digits 16 le_rfl (mem_padded (by decide) 16 fence.toNat)
  -- the two tags without the characters that they start with
  obtain ⟨opening, hopening⟩ : ∃ opening, opening =
      "ntrusted_terminal_output ".toList ++ attrs ++ " id=\"".toList ++ padded 16 16 fence.toNat ++ "\">".toList :=
    ⟨_, rfl⟩
  obtain ⟨closing, hclosing⟩ : ∃ closing, closing =
      "untrusted_terminal_output".toList ++ " id=\"".toList ++ padded 16 16 fence.toNat ++ "\">".toList := ⟨_, rfl⟩
  have hinert : opening.all inert = true ∧ closing.all inert = true := by
    have h1 : "ntrusted_terminal_output ".toList.all inert = true := by decide
    have h2 : " id=\"".toList.all inert = true := by decide
    have h3 : "\">".toList.all inert = true := by decide
    have h4 : "untrusted_terminal_output".toList.all inert = true := by decide
    rw [hopening, hclosing]
    exact ⟨inert_append (inert_append (inert_append (inert_append h1 hattrs) h2) hid) h3,
      inert_append (inert_append (inert_append h4 h2) hid) h3⟩
  obtain ⟨hless, hline⟩ := notMem_of_inert hinert.2
  have hshape : wrapUntrusted fence attrs body =
      (('<' :: 'u' :: opening) ++ '\n' :: neutralizeUntrusted body) ++ '\n' :: '<' :: '/' :: closing := by
    have h1 : "<untrusted_terminal_output ".toList = '<' :: 'u' :: "ntrusted_terminal_output ".toList := by
      decide
    have h2 : "\">\n".toList = "\">".toList ++ ['\n'] := by decide
    have h3 : "\n</untrusted_terminal_output id=\"".toList =
        '\n' :: '<' :: '/' :: ("untrusted_terminal_output".toList ++ " id=\"".toList) := by decide
    rw [hopening, hclosing]
    exact fence_shape h1 h2 h3
  refine ⟨_, _, hshape, ?_, fun i => ?_⟩
  · rintro hmem
    simp only [List.mem_cons] at hmem
    rcases hmem with h | h | h
    · exact absurd h (by decide)
    · exact absurd h (by decide)
    · exact hline h
  · rw [hshape]
    constructor
    · intro hoccurs
      rcases occursAt_across (by decide) hoccurs with hfront | ⟨j, rfl, hlast⟩
      · -- in front of the last line there is none
        rcases infix_across (by decide) (infix_iff.mpr ⟨i, hfront⟩) with hfirst | hbody
        · rw [closingTag_eq] at hfirst
          rcases List.infix_cons_iff.mp hfirst with hstart | hinner
          · have hsecond := (List.cons_prefix_cons.mp (List.cons_prefix_cons.mp hstart).2).1
            exact absurd hsecond (by decide)
          · have hmem : '<' ∈ 'u' :: opening := hinner.subset List.mem_cons_self
            rcases List.mem_cons.mp hmem with h | h
            · exact absurd h (by decide)
            · exact absurd h (notMem_of_inert hinert.1).1
        · exact absurd hbody (not_closing_neutralized body)
      · -- on it only at its start
        rw [closingTag_eq] at hlast
        have hget := getElem?_of_occursAt hlast
        match j, hget with
        | 0, _ => rfl
        | 1, hget => exact absurd (Option.some.inj hget) (by decide)
        | j + 2, hget =>
          rw [List.getElem?_cons_succ, List.getElem?_cons_succ] at hget
          exact absurd (List.mem_of_getElem? hget) hless
    · rintro rfl
      have hdrop : ((('<' :: 'u' :: opening) ++ '\n' :: neutralizeUntrusted body) ++ '\n' :: '<' :: '/' :: closing).drop
          ((('<' :: 'u' :: opening) ++ '\n' :: neutralizeUntrusted body).length + 1) = '<' :: '/' :: closing := by
        rw [List.drop_append, List.drop_eq_nil_of_le (Nat.le_succ _), Nat.add_sub_cancel_left]
        rfl
      rw [OccursAt, hdrop, hclosing, closingTag_eq]
      exact ⟨" id=\"".toList ++ padded 16 16 fence.toNat ++ "\">".toList, by
        simp only [List.append_assoc, List.cons_append]⟩

/-! ### The answer -/

section
variable {X : Type} {host : HostState X} {aliases : ConnectionAliases} {permissions : ControlPermissions}
  {params result : Value}

/-- **Whatever the terminal printed**, the text of a fenced answer is closed once. -/
theorem surfaceRead_closed (h : surfaceRead host aliases permissions params = .ok result)
    (hfenced : fencedRead permissions params = true) :
    ∃ text, result.text "text" = some text ∧ ClosedOnce text.toList := by
  unfold surfaceRead at h
  obtain ⟨scope, -, h⟩ := bind_eq_ok.1 h
  obtain ⟨session, -, h⟩ := bind_eq_ok.1 h
  obtain ⟨-, -, h⟩ := bind_eq_ok.1 h
  obtain ⟨full, -, h⟩ := bind_eq_ok.1 h
  generalize paginateScrollback full (readLines params) (readOffset params) = window at h
  obtain ⟨text, returned, total, eof⟩ := window
  obtain ⟨-, -, h⟩ := bind_eq_ok.1 h
  dsimp only at h
  rw [hfenced] at h
  obtain rfl := Except.ok.inj h
  refine ⟨_, rfl, ?_⟩
  rw [String.toList_ofList]
  exact wrapUntrusted_closed host.fence (inert_headerAttrs session total eof) _

end

/-- **Reading the scrollback.** A fenced answer is closed once, at the start of its last line. A neutralized text that is
cut stays within the budget, is the text or a first part of it with the marker, and is not changed by the fence. The
counted length is what a JSON string of the text has between its quotes. And the pages of any size, read from the end
until one reaches the top, which is so just if the page has the first line, are the text. -/
theorem scrollback_spec {X : Type} (host : HostState X) (aliases : ConnectionAliases) (permissions : ControlPermissions) :
    (∀ params result, surfaceRead host aliases permissions params = .ok result → fencedRead permissions params = true →
      ∃ text, result.text "text" = some text ∧ ClosedOnce text.toList) ∧
    (∀ body, jsonEscapedLen (truncateIpcText (neutralizeUntrusted body)).1 ≤ maxIpcTextBytes ∧
      neutralizeUntrusted (truncateIpcText (neutralizeUntrusted body)).1 =
        (truncateIpcText (neutralizeUntrusted body)).1 ∧
      (truncateIpcText (neutralizeUntrusted body) = (neutralizeUntrusted body, false) ∨
        ∃ kept, kept <+: neutralizeUntrusted body ∧
          truncateIpcText (neutralizeUntrusted body) = (kept ++ truncationMarker, true))) ∧
    (∀ text, quoted text = '"' :: (text.flatMap escape ++ ['"']) ∧ size (text.flatMap escape) = jsonEscapedLen text) ∧
    ∀ full lines, 0 < lines →
      (∀ offset, (paginateScrollback full lines offset).2.2.2 = true ↔
        (paginateScrollback full lines offset).2.2.1 ≤ offset + (paginateScrollback full lines offset).2.1) ∧
      ∃ fuel pages, readPages full lines fuel 0 = some pages ∧ join '\n' pages.reverse = full := by
  refine ⟨fun params result h hfenced => surfaceRead_closed h hfenced, fun body => ?_, fun text => ?_,
    fun full lines hlines => ⟨eof_iff full lines, pages_join full hlines⟩⟩
  · obtain ⟨hlen, hcut⟩ := truncateIpcText_spec (neutralizeUntrusted body)
    exact ⟨hlen, neutralizeUntrusted_eq (not_closing_truncated body), hcut⟩
  · exact ⟨rfl, (jsonEscapedLen_eq text).symm⟩

/-- A pane that printed the beginning of a closing tag, and two lines read by one. -/
theorem scrollback_spec_closing :
    (∃ result text, surfaceRead (textHost ['<', '/']) [] ⟨false, false, true⟩ readParams = .ok result ∧
      result.text "text" = some text ∧ ClosedOnce text.toList) ∧
    ∃ fuel pages, readPages ['a', '\n', 'b'] 1 fuel 0 = some pages ∧ join '\n' pages.reverse = ['a', '\n', 'b'] := by
  obtain ⟨hread, -, -, hpages⟩ := scrollback_spec (textHost ['<', '/']) [] ⟨false, false, true⟩
  obtain ⟨result, hresult⟩ : ∃ result,
      surfaceRead (textHost ['<', '/']) [] ⟨false, false, true⟩ readParams = .ok result := ⟨_, rfl⟩
  obtain ⟨text, htext, hclosed⟩ := hread readParams result hresult (by decide)
  exact ⟨⟨result, text, hresult, htext, hclosed⟩, (hpages ['a', '\n', 'b'] 1 (by decide)).2⟩

end Paneflow.Host.FencedReads
