import Paneflow.IpAddr
import Paneflow.Text

/-!
# Where updates come from

The checks of update/checker.rs on the addresses of the feed, of a download and of the page that is opened. They cut an
address by hand.

An address is read in two other ways here: as a URI that is written from its parts (`Uri`), and as a browser reads it
(`browserRead`), where any slashes may stand behind the scheme and a backslash ends the authority. `urls_spec`: what the
checks let through has the scheme and the host they look for in both readings.
-/

namespace Paneflow.Update.Urls

open Paneflow.IpAddr Paneflow.Text

abbrev Str := List Char

/-! ### The checks -/

def allowedUpdateHosts : List Str :=
  ["api.github.com".toList, "github.com".toList, "objects.githubusercontent.com".toList,
    "release-assets.githubusercontent.com".toList]

def releasesPageUrl : Str := "https://github.com/arthjean/paneflow/releases".toList

def releasesPageHost : Str := "github.com".toList

def eqIgnoreAsciiCase (a b : Str) : Bool := a.map Char.toLower = b.map Char.toLower

/-- `str::split_once` for a text -/
def splitOnceText (pattern : Str) : Str → Option (Str × Str)
  | [] => none
  | c :: text =>
    if pattern.isPrefixOf (c :: text) then some ([], (c :: text).drop pattern.length)
    else (splitOnceText pattern text).map fun (front, rest) => (c :: front, rest)

/-- `str::rsplit_once` for one character -/
def rsplitOnce (c : Char) (text : Str) : Option (Str × Str) :=
  (splitOnce c text.reverse).map fun (rest, front) => (front.reverse, rest.reverse)

/-- `is_control` -/
def isControl (c : Char) : Bool := c.toNat < 0x20 || (0x7f ≤ c.toNat && c.toNat ≤ 0x9f)

def endsAuthority (c : Char) : Bool := c = '/' || c = '\\' || c = '?' || c = '#'

def urlAuthority (afterScheme : Str) : Str := afterScheme.takeWhile fun c => !endsAuthority c

/-- The host of a host with its port. -/
def hostOfPort (hostPort : Str) : Str :=
  match hostPort with
  | '[' :: afterBracket => afterBracket.takeWhile (· ≠ ']')
  | _ => hostPort.takeWhile (· ≠ ':')

def urlHost (afterScheme : Str) : Str :=
  let authority := urlAuthority afterScheme
  hostOfPort <| match rsplitOnce '@' authority with
    | some (_, host) => host
    | none => authority

def isLoopbackHost (host : Str) : Bool :=
  eqIgnoreAsciiCase host "localhost".toList || (parse host).any Address.isLoopback

def isAllowedHost (host : Str) : Bool := allowedUpdateHosts.any fun allowed => eqIgnoreAsciiCase allowed host

def isAllowedUpdateUrlImpl (url : Str) (allowInsecureHttp : Bool) : Bool :=
  match splitOnceText "://".toList url with
  | none => false
  | some (scheme, rest) =>
    let host := urlHost rest
    if eqIgnoreAsciiCase scheme "https".toList then isLoopbackHost host || isAllowedHost host
    else if eqIgnoreAsciiCase scheme "http".toList then isLoopbackHost host || allowInsecureHttp
    else false

def stripHttps (url : Str) : Option Str := do
  let (scheme, rest) ← splitOnceText "://".toList url
  if eqIgnoreAsciiCase scheme "https".toList then some rest else none

def isAllowedRedirectTarget (url : Str) : Bool :=
  match stripHttps url with
  | none => false
  | some rest => !(urlAuthority rest).contains '@' && isAllowedHost (urlHost rest)

def isTrusted (htmlUrl : Str) : Bool :=
  !(htmlUrl.any fun c => isControl c || isWhitespace c) &&
    (stripHttps htmlUrl).any fun rest => eqIgnoreAsciiCase (urlAuthority rest) releasesPageHost

def trustedReleasesPage (htmlUrl : Str) : Str := if isTrusted htmlUrl then htmlUrl else releasesPageUrl

/-! ### Readings -/

inductive Host where
  /-- In brackets. -/
  | literal (content : Str)
  | name (text : Str)
  deriving DecidableEq, Repr

/-- What a parser reads in an address. -/
structure Reading where
  scheme : Str
  authority : Str
  userinfo : Option Str
  host : Host
  deriving DecidableEq, Repr

def Host.IsAllowed : Host → Prop
  | .name text => ∃ allowed ∈ allowedUpdateHosts, eqIgnoreAsciiCase allowed text = true
  | .literal _ => False

/-- A loopback name or address. -/
def Host.IsLoopback : Host → Prop
  | .name text => eqIgnoreAsciiCase text "localhost".toList = true ∨ ∃ address, parse text = some address ∧ address.isLoopback
  | .literal content => ∃ address, parse content = some address ∧ address.isLoopback

def Reading.IsHttps (reading : Reading) : Prop := eqIgnoreAsciiCase reading.scheme "https".toList = true

def isAlpha (c : Char) : Bool := c.isAlpha

def isSchemeChar (c : Char) : Bool := c.isAlphanum || c = '+' || c = '-' || c = '.'

/-- Unreserved characters, those of `sub-delims`, and the percent of an encoded one. -/
def isPlainChar (c : Char) : Bool := c.isAlphanum || c ∈ "-._~!$&'()*+,;=%".toList

def isHexDigit (c : Char) : Bool := (toDigit 16 c).isSome

/-- The content of the brackets: an address of version 6, or one of a future version. -/
def isLiteral (content : Str) : Bool :=
  (content.all (fun c => isHexDigit c || c = ':' || c = '.') && content.contains ':') ||
    (content.head?.any (fun c => c = 'v' || c = 'V') && content.contains '.' &&
      content.all fun c => isPlainChar c || c = ':')

/-- The parts of a URI with an authority, of the characters that they may have. -/
structure Uri where
  scheme : Str
  userinfo : Option Str
  host : Host
  port : Option Str
  /-- The path, the query and the fragment. -/
  rest : Str
  scheme_valid : scheme.head?.any isAlpha = true ∧ scheme.all isSchemeChar = true
  userinfo_valid : ∀ text ∈ userinfo, text.all (fun c => isPlainChar c || c = ':') = true
  host_valid : match host with
    | .literal content => isLiteral content = true
    | .name text => text.all isPlainChar = true
  port_valid : ∀ text ∈ port, text.all Char.isDigit = true
  rest_valid : ∀ c ∈ rest.head?, c = '/' ∨ c = '?' ∨ c = '#'

def Host.text : Host → Str
  | .literal content => '[' :: content ++ [']']
  | .name text => text

def Uri.hostPort (uri : Uri) : Str :=
  uri.host.text ++ match uri.port with
    | some port => ':' :: port
    | none => []

def Uri.authority (uri : Uri) : Str :=
  match uri.userinfo with
  | some userinfo => userinfo ++ '@' :: uri.hostPort
  | none => uri.hostPort

def Uri.text (uri : Uri) : Str := uri.scheme ++ "://".toList ++ uri.authority ++ uri.rest

def Uri.reading (uri : Uri) : Reading := ⟨uri.scheme, uri.authority, uri.userinfo, uri.host⟩

/-- The host of a host with its port, if there is one. -/
def browserHost (hostPort : Str) : Option Host :=
  match hostPort with
  | '[' :: text => do
    let (content, _) ← splitOnce ']' text
    if isLiteral content then some (.literal content) else none
  | _ => some (.name (hostPort.takeWhile (· ≠ ':')))

/-- How a browser reads an address that begins with a scheme. -/
def browserRead (url : Str) : Option Reading := do
  let (scheme, text) ← splitOnce ':' url
  let authority := (text.dropWhile fun c => c = '/' || c = '\\').takeWhile fun c => !endsAuthority c
  match rsplitOnce '@' authority with
  | some (userinfo, hostPort) => return ⟨scheme, authority, some userinfo, ← browserHost hostPort⟩
  | none => return ⟨scheme, authority, none, ← browserHost authority⟩

/-! ### Cuts -/

theorem splitOnceText_eq {pattern url front rest : Str} (h : splitOnceText pattern url = some (front, rest)) :
    url = front ++ pattern ++ rest := by
  induction url generalizing front with
  | nil => exact nomatch h
  | cons c url ih =>
    unfold splitOnceText at h
    split_ifs at h with hpattern
    · obtain ⟨rest', hrest⟩ := List.isPrefixOf_iff_prefix.mp hpattern
      cases h
      rw [← hrest, List.drop_left, List.nil_append]
    · obtain ⟨⟨front', rest'⟩, hsplit, heq⟩ := Option.map_eq_some_iff.mp h
      cases heq
      rw [ih hsplit]
      rfl

theorem splitOnceText_append {c : Char} {pattern front : Str} (h : c ∉ front) (rest : Str) :
    splitOnceText (c :: pattern) (front ++ (c :: pattern) ++ rest) = some (front, rest) := by
  induction front with
  | nil =>
    have hhere : (c :: pattern).isPrefixOf (c :: (pattern ++ rest)) = true :=
      List.isPrefixOf_iff_prefix.mpr (List.prefix_append (c :: pattern) rest)
    change splitOnceText _ (c :: (pattern ++ rest)) = _
    unfold splitOnceText
    rw [if_pos hhere, ← List.cons_append, List.drop_left]
  | cons x front ih =>
    obtain ⟨hx, hfront⟩ := List.ne_and_not_mem_of_not_mem_cons h
    have hnot : ¬ (c :: pattern).isPrefixOf (x :: (front ++ (c :: pattern) ++ rest)) = true := by
      intro hbegins
      obtain ⟨more, hmore⟩ := List.isPrefixOf_iff_prefix.mp hbegins
      exact hx (List.cons.inj hmore).1
    change splitOnceText _ (x :: (front ++ (c :: pattern) ++ rest)) = _
    unfold splitOnceText
    rw [if_neg hnot, ih hfront]
    rfl

theorem rsplitOnce_append {c : Char} {host : Str} (h : c ∉ host) (front : Str) :
    rsplitOnce c (front ++ c :: host) = some (front, host) := by
  have hreverse : (front ++ c :: host).reverse = host.reverse ++ c :: front.reverse := by simp
  unfold rsplitOnce
  rw [hreverse, splitOnce_append fun hmem => h (List.mem_reverse.mp hmem), Option.map_some]
  dsimp only
  rw [List.reverse_reverse, List.reverse_reverse]

theorem rsplitOnce_eq_none_iff {c : Char} {text : Str} : rsplitOnce c text = none ↔ c ∉ text := by
  unfold rsplitOnce
  rw [Option.map_eq_none_iff, splitOnce_eq_none_iff, List.mem_reverse]

theorem takeWhile_append {p : Char → Bool} {front rest : Str} (hfront : ∀ c ∈ front, p c = true)
    (hrest : ∀ c ∈ rest.head?, p c = false) : (front ++ rest).takeWhile p = front := by
  rw [List.takeWhile_append_of_pos hfront]
  cases rest with
  | nil => exact List.append_nil _
  | cons c rest =>
    rw [List.takeWhile_cons_of_neg (by simp [hrest c rfl]), List.append_nil]

def Host.inner : Host → Str
  | .literal content => content
  | .name text => text

def Host.Valid (host : Host) : Prop := ∀ content, host = .literal content → isLiteral content = true

/-- The checks cut the address into the parts of the reading. -/
structure Agrees (url : Str) (reading : Reading) (afterScheme : Str) : Prop where
  split : splitOnceText "://".toList url = some (reading.scheme, afterScheme)
  authority : urlAuthority afterScheme = reading.authority
  host : urlHost afterScheme = reading.host.inner
  userinfo : '@' ∉ reading.authority → reading.userinfo = none
  valid : reading.host.Valid

/-- No name is written in brackets. -/
theorem isLiteral_ne {content name : Str} (h : isLiteral content = true) (hcolon : ':' ∉ name.map Char.toLower)
    (hfuture : (name.map Char.toLower).head? ≠ some 'v') : eqIgnoreAsciiCase name content = false := by
  refine decide_eq_false fun heq => ?_
  unfold isLiteral at h
  rcases Bool.or_eq_true_iff.mp h with h | h
  · have hmem : ':' ∈ content := by simpa using (Bool.and_eq_true_iff.mp h).2
    exact hcolon (heq ▸ List.mem_map_of_mem hmem)
  · have hhead := (Bool.and_eq_true_iff.mp (Bool.and_eq_true_iff.mp h).1).1
    cases content with
    | nil => exact nomatch hhead
    | cons c content =>
      rw [heq] at hfuture
      have hc : c = 'v' ∨ c = 'V' := by simpa using hhead
      rcases hc with rfl | rfl
      · exact hfuture rfl
      · exact hfuture rfl

theorem Host.isAllowed_of_inner {host : Host} (hvalid : host.Valid) (h : isAllowedHost host.inner = true) :
    host.IsAllowed := by
  obtain ⟨allowed, hmem, heq⟩ := List.any_eq_true.mp h
  cases host with
  | name text => exact ⟨allowed, hmem, heq⟩
  | literal content =>
    have hnames : ∀ name ∈ allowedUpdateHosts, ':' ∉ name.map Char.toLower ∧ (name.map Char.toLower).head? ≠ some 'v' := by
      decide
    obtain ⟨hcolon, hfuture⟩ := hnames allowed hmem
    exact absurd (isLiteral_ne (hvalid content rfl) hcolon hfuture) (by rw [Bool.not_eq_false]; exact heq)

theorem eqIgnoreAsciiCase_comm (a b : Str) : eqIgnoreAsciiCase a b = eqIgnoreAsciiCase b a :=
  decide_eq_decide.mpr eq_comm

theorem Host.isLoopback_of_inner {host : Host} (hvalid : host.Valid) (h : isLoopbackHost host.inner = true) :
    host.IsLoopback := by
  have haddress (text : Str) (haddress : (parse text).any Address.isLoopback = true) :
      ∃ address, parse text = some address ∧ address.isLoopback := by
    cases hparse : parse text with
    | none =>
      rw [hparse] at haddress
      exact nomatch haddress
    | some address =>
      rw [hparse] at haddress
      exact ⟨address, rfl, haddress⟩
  rcases Bool.or_eq_true_iff.mp h with hname | hparse
  · cases host with
    | name text => exact .inl hname
    | literal content =>
      have hnot := @isLiteral_ne content "localhost".toList (hvalid content rfl) (by decide) (by decide)
      rw [eqIgnoreAsciiCase_comm] at hname
      exact absurd (hnot.symm.trans hname) Bool.false_ne_true
  · cases host with
    | name text => exact .inr (haddress text hparse)
    | literal content => exact haddress content hparse

/-! ### What the checks let through -/

def Reading.RedirectSafe (reading : Reading) : Prop :=
  reading.IsHttps ∧ reading.userinfo = none ∧ reading.host.IsAllowed

def Reading.PageSafe (reading : Reading) : Prop :=
  reading.IsHttps ∧ eqIgnoreAsciiCase reading.authority releasesPageHost = true

def Reading.FeedSafe (reading : Reading) : Prop :=
  reading.host.IsLoopback ∨ (reading.IsHttps ∧ reading.host.IsAllowed)

theorem isTrusted_of_returned {url : Str} (h : trustedReleasesPage url = url) : isTrusted url = true := by
  unfold trustedReleasesPage at h
  split_ifs at h with htrusted
  · exact htrusted
  · exact h ▸ (by decide : isTrusted releasesPageUrl = true)

variable {url afterScheme : Str} {reading : Reading}

theorem Agrees.stripHttps (h : Agrees url reading afterScheme) {rest : Str} (hstrip : stripHttps url = some rest) :
    rest = afterScheme ∧ reading.IsHttps := by
  unfold Urls.stripHttps at hstrip
  rw [h.split, Option.bind_eq_bind, Option.bind_some] at hstrip
  dsimp only at hstrip
  split_ifs at hstrip with hhttps
  exact ⟨(Option.some.inj hstrip).symm, hhttps⟩

theorem Agrees.redirect (h : Agrees url reading afterScheme) (hallowed : isAllowedRedirectTarget url = true) :
    reading.RedirectSafe := by
  unfold isAllowedRedirectTarget at hallowed
  cases hstrip : Urls.stripHttps url with
  | none =>
    rw [hstrip] at hallowed
    exact nomatch hallowed
  | some rest =>
    obtain ⟨rfl, hhttps⟩ := h.stripHttps hstrip
    rw [hstrip] at hallowed
    dsimp only at hallowed
    rw [h.authority, h.host, Bool.and_eq_true, Bool.not_eq_true'] at hallowed
    have hnone : '@' ∉ reading.authority := by simpa using hallowed.1
    exact ⟨hhttps, h.userinfo hnone, Host.isAllowed_of_inner h.valid hallowed.2⟩

theorem Agrees.page (h : Agrees url reading afterScheme) (htrusted : isTrusted url = true) : reading.PageSafe := by
  have hany := (Bool.and_eq_true_iff.mp htrusted).2
  cases hstrip : Urls.stripHttps url with
  | none =>
    rw [hstrip] at hany
    exact nomatch hany
  | some rest =>
    obtain ⟨rfl, hhttps⟩ := h.stripHttps hstrip
    rw [hstrip, Option.any_some, h.authority] at hany
    exact ⟨hhttps, hany⟩

theorem Agrees.feed (h : Agrees url reading afterScheme) (hallowed : isAllowedUpdateUrlImpl url false = true) :
    reading.FeedSafe := by
  unfold isAllowedUpdateUrlImpl at hallowed
  rw [h.split] at hallowed
  dsimp only at hallowed
  rw [h.host] at hallowed
  split_ifs at hallowed with hhttps hhttp
  · rcases Bool.or_eq_true_iff.mp hallowed with hloopback | hhost
    · exact .inl (Host.isLoopback_of_inner h.valid hloopback)
    · exact .inr ⟨hhttps, Host.isAllowed_of_inner h.valid hhost⟩
  · exact .inl (Host.isLoopback_of_inner h.valid (by simpa using hallowed))

/-! ### URIs -/

/-- The characters that part an authority. -/
def delimiters : Str := "/\\?#@[]".toList

theorem plain_notMem {c : Char} (h : (isPlainChar c || c = ':') = true) : c ∉ delimiters := by
  have hall : ∀ d ∈ delimiters, ¬ (isPlainChar d || d = ':') = true := forall_mem_of_all (by decide)
  exact fun hmem => hall c hmem h

theorem literal_notMem {content : Str} (h : isLiteral content = true) : ∀ c ∈ content, c ∉ delimiters := by
  have hall : ∀ d ∈ delimiters, ¬ (isHexDigit d || d = ':' || d = '.') = true := forall_mem_of_all (by decide)
  intro c hc
  rcases Bool.or_eq_true_iff.mp h with h | h
  · exact fun hmem => hall c hmem (List.all_eq_true.mp (Bool.and_eq_true_iff.mp h).1 c hc)
  · exact plain_notMem (List.all_eq_true.mp (Bool.and_eq_true_iff.mp h).2 c hc)

theorem ends_of_mem {c : Char} (h : c ∉ delimiters) : endsAuthority c = false := by
  refine Bool.eq_false_iff.mpr fun hends => ?_
  simp only [endsAuthority, Bool.or_eq_true, decide_eq_true_eq] at hends
  rcases hends with ((rfl | rfl) | rfl) | rfl <;> exact h (by decide)

theorem hostOfPort_name {hostPort : Str} (h : hostPort.head? ≠ some '[') :
    hostOfPort hostPort = hostPort.takeWhile (· ≠ ':') := by
  unfold hostOfPort
  split
  · exact absurd rfl h
  · rfl

theorem hostOfPort_literal {content : Str} (h : ']' ∉ content) (more : Str) :
    hostOfPort ('[' :: content ++ [']'] ++ more) = content := by
  have heq : '[' :: content ++ [']'] ++ more = '[' :: (content ++ ']' :: more) := by simp
  rw [heq]
  refine takeWhile_append (fun c hc => decide_eq_true ?_) fun c hc => ?_
  · rintro rfl
    exact h hc
  · obtain rfl := Option.some.inj hc
    rfl

/-- A character of the host and its port. -/
theorem Uri.hostPort_char (uri : Uri) : ∀ c ∈ uri.hostPort, c = '[' ∨ c = ']' ∨ c ∉ delimiters := by
  intro c hc
  rcases List.mem_append.mp hc with hc | hc
  · have hvalid := uri.host_valid
    cases hhost : uri.host with
    | literal content =>
      rw [hhost] at hc hvalid
      rcases List.mem_append.mp hc with hc | hc
      · rcases List.mem_cons.mp hc with rfl | hc
        · exact .inl rfl
        · exact .inr (.inr (literal_notMem hvalid c hc))
      · exact .inr (.inl (List.mem_singleton.mp hc))
    | name text =>
      rw [hhost] at hc hvalid
      exact .inr (.inr (plain_notMem (by rw [List.all_eq_true.mp hvalid c hc]; rfl)))
  · cases hport : uri.port with
    | none =>
      rw [hport] at hc
      exact absurd hc List.not_mem_nil
    | some port =>
      rw [hport] at hc
      have hdigits := uri.port_valid port hport
      rcases List.mem_cons.mp hc with rfl | hc
      · exact .inr (.inr (by decide))
      · have hdigit := List.all_eq_true.mp hdigits c hc
        refine .inr (.inr (plain_notMem ?_))
        simp [isPlainChar, Char.isAlphanum, hdigit]

theorem Uri.at_notMem_hostPort (uri : Uri) : '@' ∉ uri.hostPort := by
  intro hmem
  rcases uri.hostPort_char '@' hmem with h | h | h
  · exact absurd h (by decide)
  · exact absurd h (by decide)
  · exact h (by decide)

theorem Uri.userinfo_char (uri : Uri) {userinfo : Str} (h : uri.userinfo = some userinfo) :
    ∀ c ∈ userinfo, c ∉ delimiters :=
  fun c hc => plain_notMem (List.all_eq_true.mp (uri.userinfo_valid userinfo h) c hc)

theorem Uri.urlAuthority_eq (uri : Uri) : urlAuthority (uri.authority ++ uri.rest) = uri.authority := by
  have hhostPort : ∀ c ∈ uri.hostPort, endsAuthority c = false := by
    intro c hc
    rcases uri.hostPort_char c hc with rfl | rfl | hc
    · rfl
    · rfl
    · exact ends_of_mem hc
  refine takeWhile_append (fun c hc => ?_) fun c hc => ?_
  · rw [Bool.not_eq_true']
    unfold Uri.authority at hc
    cases huser : uri.userinfo with
    | none =>
      rw [huser] at hc
      exact hhostPort c hc
    | some userinfo =>
      rw [huser] at hc
      rcases List.mem_append.mp hc with hc | hc
      · exact ends_of_mem (uri.userinfo_char huser c hc)
      · rcases List.mem_cons.mp hc with rfl | hc
        · rfl
        · exact hhostPort c hc
  · rcases uri.rest_valid c hc with rfl | rfl | rfl <;> rfl

theorem Uri.hostOfPort_eq (uri : Uri) : hostOfPort uri.hostPort = uri.host.inner := by
  have hvalid := uri.host_valid
  unfold Uri.hostPort
  cases hhost : uri.host with
  | literal content =>
    rw [hhost] at hvalid
    exact hostOfPort_literal (fun hmem => literal_notMem hvalid _ hmem (by decide)) _
  | name text =>
    rw [hhost] at hvalid
    have hchar : ∀ c ∈ text, isPlainChar c = true := List.all_eq_true.mp hvalid
    have hport : ∀ c ∈ (match uri.port with | some port => ':' :: port | none => []).head?, c = ':' := by
      cases uri.port with
      | none => exact fun _ hc => nomatch hc
      | some port => exact fun _ hc => (Option.some.inj hc).symm
    have hhead : (text ++ match uri.port with | some port => ':' :: port | none => []).head? ≠ some '[' := by
      cases text with
      | nil => exact fun hbracket => absurd (hport _ hbracket) (by decide)
      | cons c text =>
        intro hbracket
        have hplain := hchar '[' (Option.some.inj hbracket ▸ List.mem_cons_self)
        exact absurd hplain (by decide)
    change hostOfPort (text ++ _) = text
    rw [hostOfPort_name hhead]
    refine takeWhile_append (fun c hc => decide_eq_true ?_) fun c hc => ?_
    · rintro rfl
      exact absurd (hchar _ hc) (by decide)
    · rw [hport c hc]
      rfl

/-- The checks cut a URI where it was put together. -/
theorem Uri.agrees (uri : Uri) : Agrees uri.text uri.reading (uri.authority ++ uri.rest) where
  split := by
    have hscheme : ':' ∉ uri.scheme := fun hmem =>
      absurd (List.all_eq_true.mp uri.scheme_valid.2 _ hmem) (by decide)
    unfold Uri.text
    rw [List.append_assoc _ uri.authority]
    exact splitOnceText_append hscheme _
  authority := uri.urlAuthority_eq
  host := by
    unfold urlHost
    rw [uri.urlAuthority_eq]
    unfold Uri.authority
    cases uri.userinfo with
    | none =>
      dsimp only
      rw [rsplitOnce_eq_none_iff.mpr uri.at_notMem_hostPort]
      exact uri.hostOfPort_eq
    | some userinfo =>
      dsimp only
      rw [rsplitOnce_append uri.at_notMem_hostPort]
      exact uri.hostOfPort_eq
  userinfo := by
    intro hnone
    change uri.userinfo = none
    change '@' ∉ uri.authority at hnone
    unfold Uri.authority at hnone
    cases huser : uri.userinfo with
    | none => rfl
    | some userinfo =>
      rw [huser] at hnone
      exact absurd (List.mem_append_right _ List.mem_cons_self) hnone
  valid := by
    intro content hliteral
    have hvalid := uri.host_valid
    change uri.host = .literal content at hliteral
    rw [hliteral] at hvalid
    exact hvalid

/-! ### Browsers -/

theorem browserHost_inner {hostPort : Str} {host : Host} (h : browserHost hostPort = some host) :
    hostOfPort hostPort = host.inner ∧ host.Valid := by
  unfold browserHost at h
  split at h
  · rename_i text
    obtain ⟨⟨content, more⟩, hsplit, h⟩ := Option.bind_eq_some_iff.mp h
    dsimp only at h
    split_ifs at h with hliteral
    obtain rfl := Option.some.inj h
    obtain rfl := splitOnce_eq hsplit
    have hbracket : ']' ∉ content := fun hmem => literal_notMem hliteral _ hmem (by decide)
    refine ⟨?_, fun content' hsame => Host.literal.inj hsame ▸ hliteral⟩
    have heq : '[' :: (content ++ ']' :: more) = '[' :: content ++ [']'] ++ more := by simp
    rw [heq]
    exact hostOfPort_literal hbracket more
  · rename_i hnot
    obtain rfl := Option.some.inj h
    refine ⟨?_, fun _ hsame => nomatch hsame⟩
    refine hostOfPort_name fun hhead => ?_
    cases hostPort with
    | nil => exact nomatch hhead
    | cons c rest =>
      obtain rfl := Option.some.inj hhead
      exact hnot rest rfl

/-- What a browser reads where the checks find an authority. -/
theorem agrees_browser {scheme : Str} (hsplit : splitOnceText "://".toList url = some (scheme, afterScheme))
    (hscheme : ':' ∉ scheme) (hauthority : urlAuthority afterScheme ≠ []) (hread : browserRead url = some reading) :
    Agrees url reading afterScheme := by
  have hurl : url = scheme ++ ':' :: ('/' :: '/' :: afterScheme) := by
    rw [splitOnceText_eq hsplit]
    simp
  have hslashes : (('/' :: '/' :: afterScheme).dropWhile fun c => c = '/' || c = '\\') = afterScheme := by
    cases afterScheme with
    | nil => exact absurd rfl hauthority
    | cons c rest =>
      have hc : endsAuthority c = false := by
        refine Bool.eq_false_iff.mpr fun hends => hauthority ?_
        exact List.takeWhile_cons_of_neg (by simp [hends])
      have hstays : ¬ (c = '/' || c = '\\') = true := by
        intro hslash
        unfold endsAuthority at hc
        rw [hslash] at hc
        exact nomatch hc
      have hkept : ((c :: rest).dropWhile fun c => c = '/' || c = '\\') = c :: rest :=
        List.dropWhile_cons_of_neg hstays
      exact hkept
  unfold browserRead at hread
  rw [hurl, splitOnce_append hscheme, Option.bind_eq_bind, Option.bind_some] at hread
  dsimp only at hread
  rw [hslashes] at hread
  change (match rsplitOnce '@' (urlAuthority afterScheme) with
    | some (userinfo, hostPort) =>
      (browserHost hostPort).bind fun host => some ⟨scheme, urlAuthority afterScheme, some userinfo, host⟩
    | none => (browserHost (urlAuthority afterScheme)).bind fun host =>
      some ⟨scheme, urlAuthority afterScheme, none, host⟩) = some reading at hread
  cases hat : rsplitOnce '@' (urlAuthority afterScheme) with
  | none =>
    rw [hat] at hread
    obtain ⟨host, hhost, hread⟩ := Option.bind_eq_some_iff.mp hread
    obtain rfl := Option.some.inj hread
    obtain ⟨hinner, hvalid⟩ := browserHost_inner hhost
    refine ⟨hsplit, rfl, ?_, fun _ => rfl, hvalid⟩
    unfold urlHost
    dsimp only
    rw [hat]
    exact hinner
  | some parts =>
    obtain ⟨userinfo, hostPort⟩ := parts
    rw [hat] at hread
    obtain ⟨host, hhost, hread⟩ := Option.bind_eq_some_iff.mp hread
    obtain rfl := Option.some.inj hread
    obtain ⟨hinner, hvalid⟩ := browserHost_inner hhost
    refine ⟨hsplit, rfl, ?_, fun hnone => ?_, hvalid⟩
    · unfold urlHost
      dsimp only
      rw [hat]
      exact hinner
    · exact absurd (rsplitOnce_eq_none_iff.mpr hnone) (by rw [hat]; exact Option.some_ne_none _)

theorem colon_notMem {scheme name : Str} (h : eqIgnoreAsciiCase scheme name = true) (hname : ':' ∉ name.map Char.toLower) :
    ':' ∉ scheme := by
  intro hmem
  have heq : scheme.map Char.toLower = name.map Char.toLower := of_decide_eq_true h
  exact hname (heq ▸ List.mem_map_of_mem hmem)

/-- An authority is found where a host is. -/
theorem urlAuthority_ne_nil (h : urlHost afterScheme ≠ []) : urlAuthority afterScheme ≠ [] := by
  intro hnil
  unfold urlHost at h
  rw [hnil] at h
  exact h rfl

theorem host_ne_nil {host : Str} (h : (isLoopbackHost host || isAllowedHost host) = true) : host ≠ [] := by
  rintro rfl
  exact absurd h (by decide)

/-- A check that lets an address through has cut it. -/
theorem agrees_of_cut {scheme name : Str} (hsplit : splitOnceText "://".toList url = some (scheme, afterScheme))
    (hscheme : eqIgnoreAsciiCase scheme name = true) (hname : ':' ∉ name.map Char.toLower)
    (hauthority : urlAuthority afterScheme ≠ []) (hread : browserRead url = some reading) :
    Agrees url reading afterScheme :=
  agrees_browser hsplit (colon_notMem hscheme hname) hauthority hread

/-- The URI that is written so, or what a browser reads. -/
def Reads (url : Str) (reading : Reading) : Prop :=
  (∃ uri : Uri, uri.text = url ∧ uri.reading = reading) ∨ browserRead url = some reading

theorem stripHttps_eq_some {rest : Str} (h : stripHttps url = some rest) :
    ∃ scheme, splitOnceText "://".toList url = some (scheme, rest) ∧ eqIgnoreAsciiCase scheme "https".toList = true := by
  unfold stripHttps at h
  obtain ⟨⟨scheme, rest'⟩, hsplit, h⟩ := Option.bind_eq_some_iff.mp h
  dsimp only at h
  split_ifs at h with hhttps
  obtain rfl := Option.some.inj h
  exact ⟨scheme, hsplit, hhttps⟩

theorem browser_redirect (hread : browserRead url = some reading) (h : isAllowedRedirectTarget url = true) :
    reading.RedirectSafe := by
  have hallowed := h
  unfold isAllowedRedirectTarget at hallowed
  cases hstrip : stripHttps url with
  | none =>
    rw [hstrip] at hallowed
    exact nomatch hallowed
  | some rest =>
    rw [hstrip] at hallowed
    obtain ⟨scheme, hsplit, hhttps⟩ := stripHttps_eq_some hstrip
    have hhost : isAllowedHost (urlHost rest) = true := (Bool.and_eq_true_iff.mp hallowed).2
    have hauthority := urlAuthority_ne_nil (host_ne_nil (by rw [hhost, Bool.or_true]))
    exact (agrees_of_cut hsplit hhttps (by decide) hauthority hread).redirect h

theorem browser_page (hread : browserRead url = some reading) (h : isTrusted url = true) : reading.PageSafe := by
  have hany := (Bool.and_eq_true_iff.mp h).2
  cases hstrip : stripHttps url with
  | none =>
    rw [hstrip] at hany
    exact nomatch hany
  | some rest =>
    rw [hstrip] at hany
    obtain ⟨scheme, hsplit, hhttps⟩ := stripHttps_eq_some hstrip
    have hauthority : urlAuthority rest ≠ [] := by
      intro hnil
      rw [Option.any_some, hnil] at hany
      exact absurd hany (by decide)
    exact (agrees_of_cut hsplit hhttps (by decide) hauthority hread).page h

theorem browser_feed (hread : browserRead url = some reading) (h : isAllowedUpdateUrlImpl url false = true) :
    reading.FeedSafe := by
  have hallowed := h
  unfold isAllowedUpdateUrlImpl at hallowed
  cases hsplit : splitOnceText "://".toList url with
  | none =>
    rw [hsplit] at hallowed
    exact nomatch hallowed
  | some parts =>
    obtain ⟨scheme, rest⟩ := parts
    rw [hsplit] at hallowed
    dsimp only at hallowed
    split_ifs at hallowed with hhttps hhttp
    · have hauthority := urlAuthority_ne_nil (host_ne_nil hallowed)
      exact (agrees_of_cut hsplit hhttps (by decide) hauthority hread).feed h
    · have hloopback : isLoopbackHost (urlHost rest) = true := by simpa using hallowed
      have hauthority := urlAuthority_ne_nil (host_ne_nil (by rw [hloopback, Bool.true_or]))
      exact (agrees_of_cut hsplit hhttp (by decide) hauthority hread).feed h

/-- **What the checks let through**, as a URI and as a browser reads it. -/
theorem urls_spec (url : Str) (reading : Reading) (hreads : Reads url reading) :
    (isAllowedRedirectTarget url = true → reading.RedirectSafe) ∧
      (trustedReleasesPage url = url → reading.PageSafe) ∧
      (isAllowedUpdateUrlImpl url false = true → reading.FeedSafe) := by
  rcases hreads with ⟨uri, rfl, rfl⟩ | hread
  · exact ⟨uri.agrees.redirect, fun hpage => uri.agrees.page (isTrusted_of_returned hpage), uri.agrees.feed⟩
  · exact ⟨browser_redirect hread, fun hpage => browser_page hread (isTrusted_of_returned hpage), browser_feed hread⟩

/-- The host in other letters. -/
def capitals : Uri where
  scheme := "https".toList
  userinfo := none
  host := .name "GitHub.com".toList
  port := none
  rest := "/arthjean".toList
  scheme_valid := by decide
  userinfo_valid := fun _ h => nomatch h
  host_valid := by decide
  port_valid := fun _ h => nomatch h
  rest_valid := fun _ hc => .inl (Option.some.inj hc).symm

theorem urls_spec_capitals :
    (isAllowedRedirectTarget capitals.text = true → capitals.reading.RedirectSafe) ∧
      (trustedReleasesPage capitals.text = capitals.text → capitals.reading.PageSafe) ∧
      (isAllowedUpdateUrlImpl capitals.text false = true → capitals.reading.FeedSafe) :=
  urls_spec _ _ (.inl ⟨capitals, rfl, rfl⟩)

theorem not_exactly_github : ¬ ∀ (url : Str) (reading : Reading), Reads url reading → trustedReleasesPage url = url →
    reading.IsHttps ∧ reading.authority = releasesPageHost := by
  intro hall
  have hexact := hall capitals.text capitals.reading (.inl ⟨capitals, rfl, rfl⟩) (by decide)
  exact absurd hexact.2 (by decide)

end Paneflow.Update.Urls
