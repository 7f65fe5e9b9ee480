import Paneflow.Flow.Tokens
import Paneflow.Splitting

/-!
# Values in the place of tokens

What `substitute_vars` of cli/flow_cmd.rs does to a text and what a substitution of all tokens at once would do. The
text is read as its pieces, characters and tokens; the function replaces the tokens one after the other in a text that
already has the values of those before.

`AtOnce`: every replacement finds the occurrences of its token and nothing else, so that the result is the text with its
values. `atOnce_iff`: this is so if and only if the reference to a token stands nowhere else when its turn comes
(`Apart`), neither in a value nor across the end of one.
-/

namespace Paneflow.Flow

open Paneflow.Text Paneflow.Utf8

/-! ### The pieces of a text -/

inductive Piece where
  | char (c : Char)
  | token (name : List Char)
  deriving DecidableEq, Repr

def Piece.name? : Piece → Option (List Char)
  | .char _ => none
  | .token name => some name

/-- The pieces of a text, read like its tokens; none if a token is not closed. -/
def scanPieces : Option (List Char) → List Char → Option (List Piece)
  | none, [] => some []
  | some _, [] => none
  | none, '$' :: '{' :: text => scanPieces (some []) text
  | none, c :: text => (scanPieces none text).map (.char c :: ·)
  | some name, c :: text =>
    if c = '}' then (scanPieces none text).map (.token name.reverse :: ·) else scanPieces (some (c :: name)) text

def pieces (text : List Char) : Option (List Piece) := scanPieces none text

def tokenNames (ps : List Piece) : List (List Char) := ps.filterMap Piece.name?

/-- The text with the values of all its tokens. -/
def filled (vars : Vars) (ps : List Piece) : List Char :=
  ps.flatMap fun
    | .char c => [c]
    | .token name => (vars.lookup name).getD []

/-- A piece in a text that has the values of the tokens `done`. -/
def rendered (vars : Vars) (done : List (List Char)) : Piece → List Char
  | .char c => [c]
  | .token name => if name ∈ done then (vars.lookup name).getD [] else reference name

/-- The text with the values of the tokens `done`, between the occurrences of the next token. -/
def parts (vars : Vars) (done : List (List Char)) (next : List Char) : List Piece → List (List Char)
  | [] => [[]]
  | p :: ps =>
    if p = .token next ∧ next ∉ done then [] :: parts vars done next ps
    else prepend (rendered vars done p) (parts vars done next ps)

theorem scanTokens_pieces (state : Option (List Char)) (text : List Char) :
    scanTokens state text =
      match scanPieces state text with
      | some ps => .ok (tokenNames ps)
      | none => .error "unclosed `$\x7b`".toList := by
  fun_induction scanPieces state text with
  | case1 => rfl
  | case2 => rfl
  | case3 text ih =>
    rw [scanTokens]
    exact ih
  | case4 c text hc ih =>
    rw [scanTokens, ih]
    · cases scanPieces none text <;> rfl
    · exact hc
  | case5 name text ih =>
    rw [scanTokens, if_pos rfl, ih]
    cases scanPieces none text <;> rfl
  | case6 name c text hc ih =>
    rw [scanTokens, if_neg hc, ih]

theorem extractTokens_pieces {text : List Char} {ps : List Piece} (h : pieces text = some ps) :
    extractTokens text = .ok (tokenNames ps) := by
  rw [extractTokens, scanTokens_pieces, show scanPieces none text = some ps from h]

/-- The pieces are the text, and no token has a closing brace in it. -/
theorem scanPieces_source (state : Option (List Char)) (text : List Char) (ps : List Piece)
    (hstate : ∀ name, state = some name → '}' ∉ name) (h : scanPieces state text = some ps) :
    (∀ vars, (state.elim [] fun name => '$' :: '{' :: name.reverse) ++ text = ps.flatMap (rendered vars [])) ∧
      ∀ name ∈ tokenNames ps, '}' ∉ name := by
  fun_induction scanPieces state text generalizing ps with
  | case1 =>
    obtain rfl := Option.some.inj h
    exact ⟨fun _ => rfl, nofun⟩
  | case2 => exact nomatch h
  | case3 text ih => exact ih ps (fun name hname => Option.some.inj hname ▸ List.not_mem_nil) h
  | case4 c text hc ih =>
    obtain ⟨rest, hrest, rfl⟩ := Option.map_eq_some_iff.mp h
    obtain ⟨hsource, hnames⟩ := ih rest nofun hrest
    exact ⟨fun vars => congrArg (c :: ·) (hsource vars), hnames⟩
  | case5 name text ih =>
    obtain ⟨rest, hrest, rfl⟩ := Option.map_eq_some_iff.mp h
    obtain ⟨hsource, hnames⟩ := ih rest nofun hrest
    refine ⟨fun vars => ?_, List.forall_mem_cons.mpr ⟨?_, hnames⟩⟩
    · rw [List.flatMap_cons, ← hsource vars]
      simp [rendered, reference]
    · rw [List.mem_reverse]
      exact hstate name rfl
  | case6 name c text hc ih =>
    obtain ⟨hsource, hnames⟩ := ih ps (fun other hother => by
      obtain rfl := Option.some.inj hother
      exact fun hmem => (List.mem_cons.mp hmem).elim (fun heq => hc heq.symm) (hstate name rfl)) h
    refine ⟨fun vars => ?_, hnames⟩
    rw [← hsource vars]
    simp

/-! ### One token after the other -/

section
variable {vars : Vars} {text : List Char} {ps : List Piece}

def renderedText (vars : Vars) (done : List (List Char)) (ps : List Piece) : List Char :=
  ps.flatMap (rendered vars done)

theorem parts_ne_nil (done : List (List Char)) (next : List Char) (ps : List Piece) : parts vars done next ps ≠ [] := by
  cases ps with
  | nil => exact List.cons_ne_nil _ _
  | cons p ps =>
    rw [parts]
    split_ifs
    · exact List.cons_ne_nil _ _
    · exact prepend_ne_nil

theorem intercalate_parts (value : List Char) (done : List (List Char)) (next : List Char) (ps : List Piece) :
    value.intercalate (parts vars done next ps) =
      ps.flatMap fun p => if p = .token next ∧ next ∉ done then value else rendered vars done p := by
  induction ps with
  | nil => rfl
  | cons p ps ih =>
    rw [parts, List.flatMap_cons, ← ih]
    split_ifs
    · rw [intercalate_cons_ne value [] (parts_ne_nil done next ps), List.nil_append]
    · exact intercalate_prepend value _ _

theorem intercalate_reference (done : List (List Char)) (next : List Char) (ps : List Piece) :
    (reference next).intercalate (parts vars done next ps) = renderedText vars done ps := by
  rw [intercalate_parts]
  refine List.flatMap_congr fun p _ => ?_
  split_ifs with h
  · rw [h.1, rendered, if_neg h.2]
  · rfl

theorem intercalate_value {value : List Char} {next : List Char} (hvalue : vars.lookup next = some value)
    (done : List (List Char)) (ps : List Piece) :
    value.intercalate (parts vars done next ps) = renderedText vars (done ++ [next]) ps := by
  rw [intercalate_parts]
  refine List.flatMap_congr fun p _ => ?_
  cases p with
  | char c => rw [if_neg fun h => nomatch h.1]; rfl
  | token name =>
    rw [rendered, rendered]
    by_cases hname : name = next
    · subst hname
      rw [if_pos (List.mem_append_right done List.mem_cons_self), hvalue]
      by_cases hdone : name ∈ done
      · rw [if_neg fun h => h.2 hdone, if_pos hdone]
      · rw [if_pos ⟨rfl, hdone⟩]
        rfl
    · rw [if_neg fun h => hname (Piece.token.inj h.1)]
      have hiff : name ∈ done ++ [next] ↔ name ∈ done := by
        rw [List.mem_append, List.mem_singleton]
        exact or_iff_left hname
      simp only [hiff]

theorem substituteTokens_append (as bs : List (List Char)) (out : List Char) :
    substituteTokens vars (as ++ bs) out = (substituteTokens vars as out).bind (substituteTokens vars bs) := by
  induction as generalizing out with
  | nil => rfl
  | cons name as ih =>
    rw [List.cons_append, substituteTokens, substituteTokens]
    cases vars.lookup name with
    | none => rfl
    | some value => exact ih _

/-- As long as every replacement finds its token and nothing else, the text has the values of the tokens so far. -/
theorem substituteTokens_rendered (htext : text = renderedText vars [] ps) (done : List (List Char))
    (hdefined : ∀ name ∈ done, (vars.lookup name).isSome = true)
    (hcut : ∀ before next after, done = before ++ next :: after →
      substituteTokens vars before text = .ok (renderedText vars before ps) →
        cut (reference next) (renderedText vars before ps) = parts vars before next ps) :
    substituteTokens vars done text = .ok (renderedText vars done ps) := by
  induction done using List.reverseRecOn with
  | nil => rw [← htext]; rfl
  | append_singleton done next ih =>
    have hdone := ih (fun name hname => hdefined name (List.mem_append_left _ hname)) fun before other after heq =>
      hcut before other (after ++ [next]) (by rw [heq, List.append_assoc]; rfl)
    obtain ⟨value, hvalue⟩ :=
      Option.isSome_iff_exists.mp (hdefined next (List.mem_append_right _ List.mem_cons_self))
    have hparts := hcut done next [] rfl hdone
    rw [substituteTokens_append, hdone, ← intercalate_value hvalue, ← hparts, ← replace_eq]
    change substituteTokens vars [next] _ = _
    rw [substituteTokens, hvalue]
    rfl

/-- When its turn comes, the reference to a token is nowhere but where the text has it. -/
def Apart (vars : Vars) (ps : List Piece) : Prop :=
  ∀ done next later, tokenNames ps = done ++ next :: later →
    ∀ part ∈ parts vars done next ps, ¬ reference next <:+: part

/-- The tokens are replaced as if all at once: each replacement finds the occurrences of its token, between the parts of
the text with the values so far, and so what comes out is the text with its values, cut to what can be sent. -/
structure AtOnce (vars : Vars) (text : List Char) (ps : List Piece) : Prop where
  result : substituteVars text vars = .ok (clipped (filled vars ps))
  found : ∀ done next later, tokenNames ps = done ++ next :: later →
    ∀ out, substituteTokens vars done text = .ok out → cut (reference next) out = parts vars done next ps

theorem renderedText_all (vars : Vars) (ps : List Piece) : renderedText vars (tokenNames ps) ps = filled vars ps := by
  refine List.flatMap_congr fun p hp => ?_
  cases p with
  | char c => rfl
  | token name =>
    have hmem : name ∈ tokenNames ps := List.mem_filterMap.mpr ⟨.token name, hp, rfl⟩
    exact if_pos hmem

theorem cut_reference_iff {next : List Char} (hnext : '}' ∉ next) (done : List (List Char)) :
    cut (reference next) (renderedText vars done ps) = parts vars done next ps ↔
      ∀ part ∈ parts vars done next ps, ¬ reference next <:+: part := by
  have hstem : '}' ∉ '$' :: '{' :: next := by
    rw [List.mem_cons, List.mem_cons]
    rintro (h | h | h)
    · exact absurd h (by decide)
    · exact absurd h (by decide)
    · exact hnext h
  rw [← intercalate_reference done next ps]
  exact cut_intercalate_iff hstem (parts_ne_nil done next ps)

theorem atOnce_iff (hpieces : pieces text = some ps)
    (hdefined : ∀ name ∈ tokenNames ps, (vars.lookup name).isSome = true) : AtOnce vars text ps ↔ Apart vars ps := by
  obtain ⟨hsource, hclosed⟩ := scanPieces_source none text ps nofun hpieces
  have htext : text = renderedText vars [] ps := hsource vars
  have hin : ∀ {done next later}, tokenNames ps = done ++ next :: later → next ∈ tokenNames ps := fun heq =>
    heq ▸ List.mem_append_right _ List.mem_cons_self
  have hrun : ∀ done later, tokenNames ps = done ++ later →
      (∀ before next after, done = before ++ next :: after →
        substituteTokens vars before text = .ok (renderedText vars before ps) →
          cut (reference next) (renderedText vars before ps) = parts vars before next ps) →
      substituteTokens vars done text = .ok (renderedText vars done ps) := fun done later heq hcut =>
    substituteTokens_rendered htext done (fun name hname => hdefined name (heq ▸ List.mem_append_left _ hname)) hcut
  constructor
  · rintro ⟨-, hfound⟩ done next later heq
    have hdone := hrun done (next :: later) heq fun before other after hbefore hok =>
      hfound before other (after ++ next :: later) (by rw [heq, hbefore, List.append_assoc]; rfl) _ hok
    exact (cut_reference_iff (hclosed next (hin heq)) done).mp (hfound done next later heq _ hdone)
  · intro hapart
    have hcut : ∀ done next later, tokenNames ps = done ++ next :: later →
        cut (reference next) (renderedText vars done ps) = parts vars done next ps := fun done next later heq =>
      (cut_reference_iff (hclosed next (hin heq)) done).mpr (hapart done next later heq)
    have hall : ∀ done later, tokenNames ps = done ++ later →
        substituteTokens vars done text = .ok (renderedText vars done ps) := fun done later heq =>
      hrun done later heq fun before next after hbefore _ =>
        hcut before next (after ++ later) (by rw [heq, hbefore, List.append_assoc]; rfl)
    refine ⟨?_, fun done next later heq out hout => ?_⟩
    · have hout := hall (tokenNames ps) [] (List.append_nil _).symm
      rw [renderedText_all] at hout
      unfold substituteVars
      rw [extractTokens_pieces hpieces]
      change (substituteTokens vars (tokenNames ps) text >>= _) = _
      rw [hout]
      rfl
    · rw [hall done (next :: later) heq] at hout
      rw [← Except.ok.inj hout]
      exact hcut done next later heq

end

/-! ### The cut, and errors -/

theorem floorBoundary_spec (limit : ℕ) (out : List Char) :
    floorBoundary limit out <+: out ∧ size (floorBoundary limit out) ≤ limit ∧
      ∀ front, front <+: out → size front ≤ limit → front <+: floorBoundary limit out := by
  induction out generalizing limit with
  | nil =>
    exact ⟨List.prefix_refl _, Nat.zero_le _, fun front hfront _ => hfront⟩
  | cons c out ih =>
    unfold floorBoundary
    split_ifs with hfits
    · obtain ⟨hbegins, hsize, hlongest⟩ := ih (limit - c.utf8Size)
      refine ⟨List.cons_prefix_cons.mpr ⟨rfl, hbegins⟩, ?_, fun front hfront hle => ?_⟩
      · rw [size_cons]
        omega
      · cases front with
        | nil => exact List.nil_prefix
        | cons d front =>
          obtain ⟨rfl, hrest⟩ := List.cons_prefix_cons.mp hfront
          rw [size_cons] at hle
          exact List.cons_prefix_cons.mpr ⟨rfl, hlongest front hrest (by omega)⟩
    · refine ⟨List.nil_prefix, Nat.zero_le _, fun front hfront hle => ?_⟩
      cases front with
      | nil => exact List.prefix_refl _
      | cons d front =>
        obtain ⟨rfl, -⟩ := List.cons_prefix_cons.mp hfront
        rw [size_cons] at hle
        exact absurd (Nat.le_of_add_right_le hle) hfits

theorem substituteVars_error_iff {vars : Vars} {text : List Char} :
    (∃ e, substituteVars text vars = .error e) ↔
      (∃ e, extractTokens text = .error e) ∨
        ∃ tokens, extractTokens text = .ok tokens ∧ ∃ token ∈ tokens, vars.lookup token = none := by
  have hok : (∃ out, substituteVars text vars = .ok out) ↔ Defined vars text := substituteVars_ok_iff
  have hfails : (∃ e, substituteVars text vars = .error e) ↔ ¬ Defined vars text := by
    rw [← hok]
    cases substituteVars text vars with
    | error e => exact iff_of_true ⟨e, rfl⟩ (by rintro ⟨out, hout⟩; exact nomatch hout)
    | ok out => exact iff_of_false (by rintro ⟨e, he⟩; exact nomatch he) (not_not_intro ⟨out, rfl⟩)
  rw [hfails, Defined]
  cases extractTokens text with
  | error e =>
    refine iff_of_true ?_ (.inl ⟨e, rfl⟩)
    rintro ⟨tokens, htokens, -⟩
    exact nomatch htokens
  | ok tokens =>
    constructor
    · intro hnot
      refine .inr ⟨tokens, rfl, ?_⟩
      by_contra hall
      refine hnot ⟨tokens, rfl, fun token htoken => Option.isSome_iff_ne_none.mpr fun hnone => ?_⟩
      exact hall ⟨token, htoken, hnone⟩
    · rintro (⟨e, he⟩ | ⟨other, hother, token, htoken, hnone⟩) ⟨all, hall, hdefined⟩
      · exact nomatch he
      · obtain rfl := Except.ok.inj hother
        obtain rfl := Except.ok.inj hall
        have hsome := hdefined token htoken
        rw [hnone] at hsome
        exact nomatch hsome

/-- What `substitute_vars` does: when it fails, when it replaces the tokens all at once, and how it cuts. -/
theorem substituteVars_spec (text : List Char) (vars : Vars) :
    ((∃ e, substituteVars text vars = .error e) ↔
      (∃ e, extractTokens text = .error e) ∨
        ∃ tokens, extractTokens text = .ok tokens ∧ ∃ token ∈ tokens, vars.lookup token = none) ∧
    (∀ ps, pieces text = some ps → (∀ name ∈ tokenNames ps, (vars.lookup name).isSome = true) →
      (AtOnce vars text ps ↔ Apart vars ps)) ∧
    ∀ out, (size out ≤ maxSendLen → clipped out = out) ∧
      (maxSendLen < size out → ∃ front, clipped out = front ++ truncatedMark ∧ front <+: out ∧
        size front ≤ maxSendLen - size truncatedMark ∧
        ∀ other, other <+: out → size other ≤ maxSendLen - size truncatedMark → other <+: front) := by
  refine ⟨substituteVars_error_iff, fun ps => atOnce_iff, fun out => ⟨fun hle => if_neg (Nat.not_lt.mpr hle),
    fun hlt => ?_⟩⟩
  exact ⟨_, if_pos hlt, floorBoundary_spec _ out⟩

/-- Two values without a reference in them. -/
theorem substituteVars_spec_two :
    AtOnce [("a".toList, "1".toList), ("b".toList, "$2".toList)] "$\x7ba\x7d-$\x7bb\x7d".toList
      [.token "a".toList, .char '-', .token "b".toList] := by
  refine ((substituteVars_spec _ _).2.1 _ (by decide) (by decide)).mpr fun done next later heq => ?_
  change ["a".toList, "b".toList] = done ++ next :: later at heq
  match done, heq with
  | [], heq =>
    obtain ⟨rfl, -⟩ := List.cons.inj heq
    decide
  | [first], heq =>
    obtain ⟨hfirst, hrest⟩ := List.cons.inj heq
    obtain ⟨rfl, -⟩ := List.cons.inj hrest
    rw [← hfirst]
    decide
  | first :: second :: done, heq =>
    have hlength := congrArg List.length heq
    simp at hlength

/-- A value with a reference in it is expanded again. -/
theorem not_atOnce :
    ¬ ∀ (text : List Char) (vars : Vars) (ps : List Piece), pieces text = some ps →
      (∀ name ∈ tokenNames ps, (vars.lookup name).isSome = true) →
        substituteVars text vars = .ok (clipped (filled vars ps)) := by
  intro h
  have hresult := h "$\x7ba\x7d $\x7bb\x7d".toList [("a".toList, "$\x7bb\x7d".toList), ("b".toList, "x".toList)]
    [.token "a".toList, .char ' ', .token "b".toList] (by decide) (by decide)
  exact absurd hresult (by decide)

end Paneflow.Flow
