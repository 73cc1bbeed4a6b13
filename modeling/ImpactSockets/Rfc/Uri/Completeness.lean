import ImpactSockets.Rfc.Uri.Parts
import ImpactSockets.Rfc.Uri.Words

/-! Which URIs composed of well-formed components are accepted with exactly
these components. -/
namespace ImpactSockets.Uri

open Abnf AbnfOps Ascii
open scoped Computability

namespace Grammar

/-- Segments that are not empty, and a slash that may follow the last one. -/
def filledSegments : Language UInt8 :=
  segmentNz * (literal [slash] * segmentNz)∗ * optional (literal [slash])

/-- The fragment as the grammar has it: `*( pchar / "/" / "?" )`. -/
def abnfFragment : Language UInt8 := encodedText fun c => pchar c || c == slash || c == question

end Grammar

/-- An authority with a reg-name as its host. -/
structure AuthorityComponents where
  userinfo : Option Bytes
  host : Bytes
  port : Option Bytes
  userinfo_mem : ∀ text ∈ userinfo, text ∈ Grammar.userinfo
  host_mem : host ∈ Grammar.regName
  port_mem : ∀ text ∈ port, text ∈ Grammar.port
  /-- The number of digits that the parser of a port goes up to. -/
  port_length : ∀ text ∈ port, text.length ≤ 9

/-- Well-formed components. The path has no empty segment and no ".", and is
rooted if it follows an authority. -/
structure Components where
  scheme : Bytes
  authority : Option AuthorityComponents
  path : Bytes
  query : Option Bytes
  fragment : Option Bytes
  scheme_mem : scheme ∈ Grammar.scheme
  path_mem : path ∈ optional (literal [slash]) * optional Grammar.filledSegments
  path_undotted : dot ∉ path
  path_rooted : authority.isSome = true → path = [] ∨ path.head? = some slash
  query_mem : ∀ text ∈ query, text ∈ Grammar.query
  fragment_mem : ∀ text ∈ fragment, text ∈ Grammar.abnfFragment

namespace Components

variable (x : Components)

def userinfo : Bytes := (x.authority.bind fun authority => authority.userinfo).getD []

def host : Bytes := (x.authority.map fun authority => authority.host).getD []

/-- The digits of the port, none if there is no port. -/
def portDigits : Bytes := (x.authority.bind fun authority => authority.port).getD []

/-- `[ userinfo "@" ] host [ ":" port ]` behind its "//", if there is one. -/
def authorityText : Bytes :=
  (x.authority.map fun authority =>
    slash :: slash :: ((authority.userinfo.map (· ++ [at_])).getD [] ++ authority.host ++
      (authority.port.map (colon :: ·)).getD [])).getD []

/-- `scheme ":" [ "//" authority ] path [ "?" query ] [ "#" fragment ]`. -/
def text : Bytes :=
  x.scheme ++ colon :: (x.authorityText ++ x.path ++ (x.query.map (question :: ·)).getD [] ++
    (x.fragment.map (Ascii.hash :: ·)).getD [])

/-- The port that the getter should return: the one that is given, or the default
of the scheme, or -1. -/
def port (ports : SchemePorts) : Int :=
  if x.portDigits ≠ [] then decimalValue x.portDigits
  else
    match ports.lookup (x.scheme.map tolower) with
    | some value => if 0 ≤ value then value else -1
    | none => -1

/-- The composed text is accepted, and the getters return the components in
normal form. -/
def Returned (ports : SchemePorts) (u : Uri) (errno : Imperr) : Prop :=
  ∃ v errno', parse ports x.text (some u) errno = .ok (true, some v, errno') ∧
    v.scheme = x.scheme.map tolower ∧
    v.userinfo = percentNormal id x.userinfo ∧
    v.host = percentNormal tolower x.host ∧
    v.port = x.port ports ∧
    v.path = percentNormal id x.path ∧
    v.query = percentNormal id (x.query.getD []) ∧
    v.fragment = percentNormal id (x.fragment.getD [])

/-- The first segment is a single ":" with a slash behind it. -/
def ColonSegment : Prop :=
  ∃ tail, x.path = colon :: slash :: tail ∨ x.path = slash :: colon :: slash :: tail

end Components

/-! ### Paths without empty segments -/

/-- A segment in front leaves no two slashes in a row. -/
theorem SingleSlashed.append {segment rest : Bytes} (hSegment : slash ∉ segment) (hRest : SingleSlashed rest) :
    SingleSlashed (segment ++ rest) := by
  induction segment with
  | nil => exact hRest
  | cons c segment ih =>
      rw [List.mem_cons, not_or] at hSegment
      exact singleSlashed_cons.mpr ⟨fun hc => (hSegment.1 hc.symm).elim, ih hSegment.2⟩

/-- What may follow a segment: further ones behind slashes, and a last slash. -/
def Continuation (rest : Bytes) : Prop :=
  rest ∈ Grammar.encodedText pathPlain ∧ SingleSlashed rest

/-- A segment that is not empty may stand in front of a continuation. -/
theorem continuation_segment {segment rest : Bytes} (hSegment : segment ∈ Grammar.segmentNz)
    (hRest : Continuation rest) : Continuation (segment ++ rest) ∧ (segment ++ rest).head? ≠ some slash := by
  obtain ⟨hEncoded, hSlash, hNe⟩ := segmentNz_text hSegment
  refine ⟨⟨append_mem_kstar hEncoded hRest.1, hRest.2.append hSlash⟩, ?_⟩
  obtain ⟨c, segment, rfl⟩ := List.exists_cons_of_ne_nil hNe
  intro hHead
  exact hSlash (by rw [Option.some.inj hHead]; exact List.mem_cons_self)

/-- A slash may stand in front of one that does not begin with a slash. -/
theorem continuation_slash {rest : Bytes} (hRest : Continuation rest) (hHead : rest.head? ≠ some slash) :
    Continuation (slash :: rest) :=
  ⟨cons_mem_encodedText (by decide) hRest.1, singleSlashed_cons.mpr ⟨fun _ => hHead, hRest.2⟩⟩

theorem continuation_nil : Continuation [] :=
  ⟨Language.nil_mem_kstar _, fun before after h => by simp at h⟩

/-- The words of the production are continuations, by induction on their segments. -/
theorem filledSegments_text {w : Bytes} (h : w ∈ Grammar.filledSegments) :
    Continuation w ∧ w.head? ≠ some slash := by
  obtain ⟨front, hFront, last, hLast, rfl⟩ := Language.mem_mul.mp h
  obtain ⟨first, hFirst, further, hFurther, rfl⟩ := Language.mem_mul.mp hFront
  have hLast : Continuation last := by
    rcases mem_optional.mp hLast with rfl | rfl
    · exact continuation_nil
    · exact continuation_slash continuation_nil (by simp)
  have hRest : Continuation (further ++ last) := by
    refine @kstar_induction _ _ (fun further => Continuation (further ++ last)) hLast ?_ _ hFurther
    intro unit hUnit rest hRest
    obtain ⟨segment, hSegment, rfl⟩ := mem_literal_mul.mp hUnit
    obtain ⟨hContinuation, hHead⟩ := continuation_segment hSegment hRest
    simpa using continuation_slash hContinuation hHead
  rw [List.append_assoc]
  exact continuation_segment hFirst hRest

/-- A registered name has no bracket and no colon, so the cuts find its ends. -/
theorem regName_cut {host : Bytes} (h : host ∈ Grammar.regName) : Unbracketed host ∧ colon ∉ host := by
  have hChars := encodedText_chars encodable_regNamePlain h
  refine ⟨⟨fun hMem => ?_, fun hMem => ?_⟩, fun hMem => ?_⟩
  all_goals exact absurd (hChars _ hMem) (by decide)

/-- A port has no bracket and no colon. -/
theorem port_cut {port : Bytes} (h : port ∈ Grammar.port) : Unbracketed port ∧ colon ∉ port := by
  have hDigits := mem_kstar_oneOf.mp h
  refine ⟨⟨fun hMem => ?_, fun hMem => ?_⟩, fun hMem => ?_⟩
  all_goals exact absurd (hDigits _ hMem) (by decide)

/-- The authority as the parts that the parser should cut it into. -/
def AuthorityComponents.parts (authority : AuthorityComponents) : AuthorityText :=
  ⟨⟨[], authority.host, [], authority.port⟩, authority.userinfo⟩

/-- Components of the grammar make an authority that is accepted. -/
theorem AuthorityComponents.parts_accepted (authority : AuthorityComponents) :
    authority.parts.Accepted where
  userinfo := authority.userinfo_mem
  cut := by
    obtain ⟨hHost, hColon⟩ := regName_cut authority.host_mem
    unfold AuthorityComponents.parts
    cases hPort : authority.port with
    | none => exact .name hHost hColon
    | some port =>
        obtain ⟨hUnbracketed, hNotColon⟩ := port_cut (authority.port_mem port hPort)
        exact .namePort hHost hUnbracketed hNotColon
  host := .inl authority.host_mem
  port text hText := ⟨authority.port_mem text hText, authority.port_length text hText⟩
  skipped := by simp [AuthorityComponents.parts]
  trailing := by simp [AuthorityComponents.parts]

namespace Components

variable (x : Components)

/-- The components as the parts that the parser should cut the text into. -/
def parts : Parts where
  scheme := x.scheme
  authority := x.authority.map AuthorityComponents.parts
  path := x.path
  query := x.query
  rest := (x.fragment.map (Ascii.hash :: ·)).getD []

/-- The path behind its root. -/
theorem exists_rootless (h : ¬x.ColonSegment) :
    Rootless x.path ∨ ∃ tail, x.path = slash :: tail ∧ Rootless tail := by
  obtain ⟨root, hRoot, segments, hSegments, hPath⟩ := Language.mem_mul.mp x.path_mem
  have hText : Continuation segments ∧ segments.head? ≠ some slash := by
    rcases mem_optional.mp hSegments with rfl | hSegments
    · exact ⟨continuation_nil, by simp⟩
    · exact filledSegments_text hSegments
  rcases mem_optional.mp hRoot with rfl | rfl
  · rw [List.nil_append] at hPath
    subst hPath
    exact .inl ⟨hText.1.1, hText.2, hText.1.2, fun tail hEq => h ⟨tail, .inl hEq⟩⟩
  · refine .inr ⟨segments, hPath.symm, hText.1.1, hText.2, hText.1.2, fun tail hEq => h ⟨tail, .inr ?_⟩⟩
    rw [← hPath, hEq]
    rfl

/-- The parts of the text are the components with their delimiters. -/
theorem text_parts : x.parts.text = x.text := by
  obtain ⟨scheme, authority, path, query, fragment, _, _, _, _, _, _⟩ := x
  cases authority with
  | none => simp [Parts.text, text, parts, Parts.queryText, authorityText, Uri.authorityText]
  | some authority =>
      simp [Parts.text, text, parts, Parts.queryText, authorityText, Uri.authorityText, AuthorityText.text,
        AuthorityComponents.parts, AuthorityText.userinfoText, HostPort.behindUserinfo, HostPort.portText]

/-- Behind the path stands a query, a fragment or nothing. -/
theorem behind_path : ∀ c ∈ (x.parts.queryText ++ x.parts.rest).head?, c = question ∨ c = Ascii.hash := by
  obtain ⟨scheme, authority, path, query, fragment, _, _, _, _, _, _⟩ := x
  cases query <;> cases fragment <;> simp [parts, Parts.queryText]

/-- The path ends in front of a query or a fragment. -/
theorem boundary_of_delimiter {rest : Bytes} (h : ∀ c ∈ rest.head?, c = question ∨ c = Ascii.hash) :
    Boundary pathOrSlash rest := by
  intro c hc
  rcases h c hc with rfl | rfl <;> decide

/-- No character of a fragment of the grammar is white space, so all of it is stored. -/
theorem fragment_visible : visible x.parts.fragment = x.fragment.getD [] ∧
    x.fragment.getD [] ∈ Grammar.fragment := by
  have hFragment : x.parts.fragment = x.fragment.getD [] := by
    cases hSome : x.fragment <;> simp [Parts.fragment, parts, hSome]
  have hMem : x.fragment.getD [] ∈ Grammar.encodedText queryPlain := by
    cases hSome : x.fragment with
    | none => exact Language.nil_mem_kstar _
    | some text => exact x.fragment_mem text hSome
  obtain ⟨hChars, hDecode⟩ :=
    (mem_encodedText_iff encodable_queryPlain.percent encodable_queryPlain.hexdig false _).mp hMem
  rw [hFragment, visible_of_encodable encodable_queryPlain hChars]
  exact ⟨rfl, mem_fragment.mpr hDecode⟩

/-- The hierarchical part is one that the parser accepts, unless its first segment is a lone
colon. -/
theorem hierText (h : ¬x.ColonSegment) :
    HierText x.parts.authority x.path (x.parts.queryText ++ x.parts.rest) := by
  have hBehind := x.behind_path
  have hBoundary := boundary_of_delimiter hBehind
  have hPath := x.exists_rootless h
  have hRooted := x.path_rooted
  cases hAuthority : x.authority with
  | none =>
      rw [show x.parts.authority = none by simp [parts, hAuthority]]
      rcases hPath with hPath | ⟨tail, hEq, hTail⟩
      · exact .rootless hPath hBoundary
      · rw [hEq]
        exact .absolute hTail hBoundary
  | some authority =>
      rw [show x.parts.authority = some authority.parts by simp [parts, hAuthority]]
      refine .authority authority.parts_accepted ?_
      rcases hPath with hPath | ⟨tail, hEq, hTail⟩
      · have hNil := (hRooted (by simp [hAuthority])).resolve_right hPath.head
        exact .inl ⟨hNil, hBehind⟩
      · exact .inr ⟨tail, hEq, hTail, hBoundary⟩

/-- The whole text is accepted, unless its first segment is a lone colon. -/
theorem parts_accepted (h : ¬x.ColonSegment) : x.parts.Accepted where
  scheme := x.scheme_mem
  hier := x.hierText h
  query := x.query_mem
  rest := by
    have hRest : Boundary queryChar ((x.fragment.map (Ascii.hash :: ·)).getD []) := by
      cases x.fragment with
      | none => exact boundary_nil _
      | some text => exact boundary_cons.mpr (by decide)
    exact hRest
  fragment := by
    rw [x.fragment_visible.1]
    exact x.fragment_visible.2

theorem host_mem : x.host ∈ Grammar.regName := by
  unfold host
  cases x.authority with
  | none => exact Language.nil_mem_kstar _
  | some authority => exact authority.host_mem

/-- The userinfo is stored with its triplets normalized. -/
theorem value_userinfo (ports : SchemePorts) (path : Bytes) :
    (x.parts.value ports path).userinfo = percentNormal id x.userinfo := by
  unfold userinfo
  cases hAuthority : x.authority <;> simp [Parts.value, parts, hAuthority, AuthorityComponents.parts]

/-- The host is stored in small letters. -/
theorem value_host (ports : SchemePorts) (path : Bytes) :
    (x.parts.value ports path).host = lowered x.host := by
  unfold host
  cases hAuthority : x.authority <;> simp [Parts.value, parts, hAuthority, AuthorityComponents.parts]

/-- The port is stored as its number, or the default port of the scheme. -/
theorem value_port (ports : SchemePorts) (path : Bytes) :
    (x.parts.value ports path).port = x.port ports := by
  have hDigits : (x.parts.authority.bind fun authority => authority.port).getD [] = x.portDigits := by
    unfold portDigits
    cases hAuthority : x.authority <;> simp [parts, hAuthority, AuthorityComponents.parts]
  change (postParsePort ports (x.scheme.map tolower) (portNumber (Option.getD _ []))).1 = _
  rw [hDigits, port, postParsePort, portNumber]
  by_cases hNil : x.portDigits = []
  · rw [if_pos hNil, if_neg (by decide), if_neg (not_not.mpr hNil)]
    cases ports.lookup (x.scheme.map tolower) with
    | none => rfl
    | some value => by_cases hValue : 0 ≤ value <;> simp [hValue]
  · rw [if_neg hNil, if_pos (by omega), if_pos hNil]

/-- The fragment is stored with its triplets normalized. -/
theorem value_fragment (ports : SchemePorts) (path : Bytes) :
    (x.parts.value ports path).fragment = percentNormal id (x.fragment.getD []) := by
  rw [← x.fragment_visible.1]
  rfl

/-- An accepted text is returned as its components have it if no slash follows a dot and no
triplet of the host is a capital. -/
theorem returned_iff_of_parts (h : ¬x.ColonSegment) (ports : SchemePorts) (u : Uri) (errno : Imperr) :
    x.Returned ports u errno ↔ Undotted (percentNormal id x.path) ∧ NoUpperTriplet x.host := by
  obtain ⟨errno', hParse⟩ := parse_text (x.parts_accepted h) ports u errno
  rw [text_parts] at hParse
  have hHost := lowered_eq_iff encodable_regNamePlain.percent x.host_mem
  constructor
  · rintro ⟨v, last, hReturned, _, _, hLowered, _, hPath, _⟩
    rw [hParse] at hReturned
    obtain ⟨path, hNormalize, hValue⟩ := bind_ok.mp hReturned
    obtain rfl : x.parts.value ports path = v := by
      simpa using congrArg (fun outcome => outcome.2.1) (Except.ok.inj hValue)
    rw [value_host] at hLowered
    have hEq : path = percentNormal id x.path := hPath
    rw [hEq] at hNormalize
    exact ⟨(pathNormalize_eq_self_iff _).mp hNormalize, hHost.mp hLowered⟩
  · rintro ⟨hUndotted, hUpper⟩
    have hNormalize := (pathNormalize_eq_self_iff _).mpr hUndotted
    refine ⟨x.parts.value ports (percentNormal id x.path), errno', ?_, rfl, x.value_userinfo ports _, ?_,
      x.value_port ports _, rfl, rfl, x.value_fragment ports _⟩
    · exact hParse.trans (bind_ok.mpr ⟨_, hNormalize, rfl⟩)
    · rw [value_host]
      exact hHost.mpr hUpper

/-- A ":" in front of a slash is not read as a segment. -/
theorem not_rootless_of_colon {text rest tail : Bytes} (h : Rootless text) (hRest : Boundary pathOrSlash rest)
    (hEq : text ++ rest = colon :: slash :: tail) : False := by
  rcases text with _ | ⟨c, _ | ⟨d, text⟩⟩
  · rw [List.nil_append] at hEq
    rw [hEq] at hRest
    exact absurd (boundary_cons.mp hRest) (by decide)
  · obtain ⟨_, rfl⟩ := List.cons.inj hEq
    exact absurd (boundary_cons.mp hRest) (by decide)
  · obtain ⟨rfl, hTail⟩ := List.cons.inj hEq
    obtain ⟨rfl, _⟩ := List.cons.inj hTail
    exact h.colon text rfl

/-- A lone colon behind the first slash is not accepted: it is not counted, so the slash behind
it ends an empty segment. -/
theorem not_hierText_of_colon {authority : Option AuthorityText} {path rest tail : Bytes}
    (h : HierText authority path rest) (hEq : path ++ rest = slash :: colon :: slash :: tail) : False := by
  have hRooted {text : Bytes} (hText : Rootless text) (hRest : Boundary pathOrSlash rest)
      (hEq : slash :: text ++ rest = slash :: colon :: slash :: tail) : False :=
    not_rootless_of_colon hText hRest (List.cons.inj hEq).2
  cases h with
  | rootless hPath hRest =>
      rcases path with _ | ⟨c, path⟩
      · rw [List.nil_append] at hEq
        rw [hEq] at hRest
        exact absurd (boundary_cons.mp hRest) (by decide)
      · obtain ⟨rfl, _⟩ := List.cons.inj hEq
        exact hPath.head rfl
  | absolute hPath hRest => exact hRooted hPath hRest hEq
  | authority _ hPath =>
      rcases hPath with ⟨rfl, hRest⟩ | ⟨text, rfl, hText, hRest⟩
      · rw [List.nil_append] at hEq
        rw [hEq] at hRest
        exact absurd (hRest slash rfl) (by decide)
      · exact hRooted hText hRest hEq

/-- A lone colon at the beginning is not accepted either. -/
theorem not_hierText_of_leading_colon {path rest tail : Bytes} (h : HierText none path rest)
    (hEq : path ++ rest = colon :: slash :: tail) : False := by
  cases h with
  | rootless hPath hRest => exact not_rootless_of_colon hPath hRest hEq
  | absolute => exact absurd (List.cons.inj hEq).1 (by decide)

/-- Two slashes begin an authority. -/
theorem not_hierText_of_slashes {path rest tail : Bytes} (h : HierText none path rest)
    (hEq : path ++ rest = slash :: slash :: tail) : False := by
  have hSlash {text tail : Bytes} (hText : Rootless text) (hRest : Boundary pathOrSlash rest)
      (hEq : text ++ rest = slash :: tail) : False := by
    rcases text with _ | ⟨c, text⟩
    · rw [List.nil_append] at hEq
      rw [hEq] at hRest
      exact absurd (boundary_cons.mp hRest) (by decide)
    · obtain ⟨rfl, _⟩ := List.cons.inj hEq
      exact hText.head rfl
  cases h with
  | rootless hPath hRest => exact hSlash hPath hRest hEq
  | absolute hPath hRest => exact hSlash hPath hRest (List.cons.inj hEq).2

/-- No parts that the parser accepts have the text. -/
theorem not_accepted_of_colonSegment (h : x.ColonSegment) {other : Parts} (hText : x.text = other.text) :
    ¬other.Accepted := by
  intro hOther
  obtain ⟨tail, hPath⟩ := h
  have hScheme (w : Bytes) (hw : w ∈ Grammar.scheme) : ∀ c ∈ w, schemeChar c = true := by
    obtain ⟨c, rest, rfl, hc, hRest⟩ := mem_scheme.mp hw
    exact List.forall_mem_cons.mpr ⟨by simp [schemeChar, hc], hRest⟩
  have hColon (rest : Bytes) : Boundary schemeChar (colon :: rest) := boundary_cons.mpr (by decide)
  obtain ⟨_, hBehind⟩ := cut_unique (hScheme _ x.scheme_mem) (hColon _) (hScheme _ hOther.scheme) (hColon _) hText
  have hHier := hOther.hier
  obtain ⟨behind, hRest⟩ : ∃ behind, behind = other.queryText ++ other.rest := ⟨_, rfl⟩
  rw [← hRest] at hHier hBehind
  have hBehind := (List.cons.inj hBehind).2
  simp only [List.append_assoc] at hBehind
  cases hAuthority : x.authority with
  | none =>
      rw [authorityText, hAuthority, Option.map_none, Option.getD_none, List.nil_append] at hBehind
      cases hOther : other.authority with
      | none =>
          rw [hOther] at hHier hBehind
          rw [Uri.authorityText, Option.map_none, Option.getD_none, List.nil_append] at hBehind
          rcases hPath with hPath | hPath
          · rw [hPath] at hBehind
            exact not_hierText_of_leading_colon hHier hBehind.symm
          · rw [hPath] at hBehind
            exact not_hierText_of_colon hHier hBehind.symm
      | some parts =>
          rw [hOther] at hBehind
          rcases hPath with hPath | hPath
          · rw [hPath] at hBehind
            exact absurd (List.cons.inj hBehind).1 (by decide)
          · rw [hPath] at hBehind
            exact absurd (List.cons.inj (List.cons.inj hBehind).2).1 (by decide)
  | some authority =>
      have hRooted : x.path = slash :: colon :: slash :: tail := by
        rcases hPath with hPath | hPath
        · have hHead := x.path_rooted (by simp [hAuthority])
          rw [hPath] at hHead
          rcases hHead with hHead | hHead
          · cases hHead
          · exact absurd (Option.some.inj hHead) (by decide)
        · exact hPath
      rw [authorityText, hAuthority, hRooted] at hBehind
      cases hOther : other.authority with
      | none =>
          rw [hOther] at hHier hBehind
          exact not_hierText_of_slashes hHier hBehind.symm
      | some parts =>
          rw [hOther] at hHier hBehind
          have hTexts : authority.parts.text = (authority.userinfo.map (· ++ [at_])).getD [] ++ authority.host ++
              (authority.port.map (colon :: ·)).getD [] := by
            simp [AuthorityComponents.parts, AuthorityText.text, AuthorityText.userinfoText,
              HostPort.behindUserinfo, HostPort.portText]
          have hAuthorityText := (List.cons.inj (List.cons.inj hBehind).2).2
          have hAbempty : parts.Accepted ∧ Boundary authorityChar (other.path ++ behind) := by
            generalize other.path = path at hHier
            cases hHier with
            | authority hParts hPath => exact ⟨hParts, hPath.boundary⟩
          rw [← hTexts] at hAuthorityText
          have hCut := cut_unique authority.parts_accepted.text_chars.1 (boundary_cons.mpr (by decide))
            hAbempty.1.text_chars.1 hAbempty.2 hAuthorityText
          exact not_hierText_of_colon hHier hCut.2.symm

/-- The composed text is accepted with exactly its components if and only if its
path does not start with the segment ":" in front of a slash, decoding its path
leaves no dot in front of a slash, and no triplet of its host encodes an
upper-case letter. -/
theorem returned_iff (ports : SchemePorts) (u : Uri) (errno : Imperr) :
    x.Returned ports u errno ↔
      ¬x.ColonSegment ∧ Undotted (percentNormal id x.path) ∧ NoUpperTriplet x.host := by
  by_cases hColon : x.ColonSegment
  · refine iff_of_false ?_ (fun h => h.1 hColon)
    rintro ⟨v, last, hReturned, _⟩
    have hNe : x.text ≠ [] := by simp [text]
    obtain ⟨other, hText, hOther, _⟩ := parse_split hNe hReturned
    exact x.not_accepted_of_colonSegment hColon hText hOther
  · rw [x.returned_iff_of_parts hColon, and_iff_right hColon]

theorem mem_segmentNz_of_pchar {c : UInt8} {tail : Bytes} (h : ∀ d ∈ c :: tail, Grammar.pchar d = true) :
    c :: tail ∈ Grammar.segmentNz := by
  rw [List.forall_mem_cons] at h
  have hUnit (d : UInt8) (hd : Grammar.pchar d = true) : [d] ∈ oneOf Grammar.pchar + Grammar.pctEncoded :=
    (Language.mem_add _ _ _).mpr (.inl ⟨d, hd, rfl⟩)
  have hTail : tail ∈ Grammar.segment := by
    induction tail with
    | nil => exact Language.nil_mem_kstar _
    | cons d tail ih =>
        rw [List.forall_mem_cons] at h
        exact cons_mem_encodedText h.2.1 (ih ⟨h.1, h.2.2⟩)
  exact Language.append_mem_mul (hUnit c h.1) hTail

/-- The components of "foo::/bar". -/
def colonPath : Components where
  scheme := [0x66, 0x6F, 0x6F]
  authority := none
  path := [colon, slash, 0x62, 0x61, 0x72]
  query := none
  fragment := none
  scheme_mem := mem_scheme.mpr ⟨0x66, [0x6F, 0x6F], rfl, rfl, by simp; decide⟩
  path_mem := by
    have hColon : [colon] ∈ Grammar.segmentNz := mem_segmentNz_of_pchar (by simp; decide)
    have hBar : [0x62, 0x61, 0x72] ∈ Grammar.segmentNz := mem_segmentNz_of_pchar (by simp; decide)
    have hFurther : [slash, 0x62, 0x61, 0x72] ∈ (literal [slash] * Grammar.segmentNz)∗ :=
      mem_kstar_of_mem (mem_literal_mul.mpr ⟨_, hBar, rfl⟩)
    have hSegments : [colon, slash, 0x62, 0x61, 0x72] ∈ Grammar.filledSegments :=
      Language.append_mem_mul (Language.append_mem_mul hColon hFurther) (mem_optional.mpr (.inl rfl))
    exact Language.append_mem_mul (mem_optional.mpr (.inl rfl)) (mem_optional.mpr (.inr hSegments))
  path_undotted := by decide
  path_rooted := by simp
  query_mem := by simp
  fragment_mem := by simp

/-- The parser takes the segment ":" for an empty one and refuses the path. -/
theorem colonPath_not_returned : ¬colonPath.Returned ⟨[], [], -1⟩ empty .success := by
  rintro ⟨v, errno, hReturned, _⟩
  have hParse : parse ⟨[], [], -1⟩ colonPath.text (some empty) .success =
      .ok (false, some { empty with scheme := [0x66, 0x6F, 0x6F] }, .uriAuthinpath) := by
    rfl
  rw [hParse] at hReturned
  cases hReturned

end Components

end ImpactSockets.Uri
