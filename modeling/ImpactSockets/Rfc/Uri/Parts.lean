import ImpactSockets.Rfc.Uri.HierPart

/-! The parser of a URI as a cut of its text into parts. -/
namespace ImpactSockets.Uri

open Abnf AbnfOps Ascii
open scoped Computability

/-- The parts that the parser cuts a text into. `rest` is what it has not read
when it is through with the query: the fragment with its "#", or a text that it
does not look at. -/
structure Parts where
  scheme : Bytes
  authority : Option AuthorityText
  path : Bytes
  query : Option Bytes
  rest : Bytes

namespace Parts

def queryText (parts : Parts) : Bytes := (parts.query.map (question :: ·)).getD []

def text (parts : Parts) : Bytes :=
  parts.scheme ++ colon :: (authorityText parts.authority ++ parts.path ++ (parts.queryText ++ parts.rest))

def fragment (parts : Parts) : Bytes :=
  if parts.rest.head? = some Ascii.hash then parts.rest.tail else []

/-- What the parser of a URI accepts. -/
structure Accepted (parts : Parts) : Prop where
  scheme : parts.scheme ∈ Grammar.scheme
  hier : HierText parts.authority parts.path (parts.queryText ++ parts.rest)
  query : ∀ text ∈ parts.query, text ∈ Grammar.query
  rest : Boundary queryChar parts.rest
  fragment : visible parts.fragment ∈ Grammar.fragment

/-- What the parser makes of the result, when the removal of dot segments yields
`path`. -/
def value (parts : Parts) (ports : SchemePorts) (path : Bytes) : Uri :=
  let scheme := parts.scheme.map tolower
  let port := postParsePort ports scheme
    (portNumber ((parts.authority.bind fun authority => authority.port).getD []))
  { scheme := scheme
    userinfo := percentNormal id ((parts.authority.bind fun authority => authority.userinfo).getD [])
    host := lowered ((parts.authority.map fun authority => authority.host).getD [])
    path := path
    query := percentNormal id (parts.query.getD [])
    fragment := percentNormal id (visible parts.fragment)
    port := port.1
    hasAuth := parts.authority.isSome
    hasDefaultPort := port.2 }

end Parts

/-! ### Components behind a delimiter -/

theorem next_place (before rest : Bytes) (result : Option Uri) (errno : Imperr) :
    (place before rest result errno).data[(place before rest result errno).currentIdx]? = rest.head? := by
  simp only [place, List.head?_eq_getElem?]
  rw [List.getElem?_append_right (Nat.le_refl _), Nat.sub_self]

/-- A part behind its delimiter is read. -/
theorem parseBehind_reads {parser : Context → Exec Parsed} {text rest : Bytes} {u v : Uri}
    (h : Reads parser text rest u v) (delimiter : UInt8) :
    Reads (parseBehind delimiter parser) (delimiter :: text) rest u v := by
  intro before _ result errno
  obtain ⟨errno', hRun⟩ := h (before ++ [delimiter]) (by simp) result errno
  refine ⟨errno', ?_⟩
  rw [parseBehind, next_place, List.cons_append, if_pos List.head?_cons]
  simpa [place, Context.advance] using hRun

/-- A part that is missing is skipped. -/
theorem parseBehind_skip {parser : Context → Exec Parsed} {delimiter : UInt8} {rest : Bytes} (u : Uri)
    (h : rest.head? ≠ some delimiter) : Reads (parseBehind delimiter parser) [] rest u u := by
  intro before _ result errno
  refine ⟨errno, ?_⟩
  rw [parseBehind, next_place, List.nil_append, if_neg h]
  simp

/-- Where it succeeds, the part was missing or has been parsed behind its delimiter. -/
theorem parseBehind_split {parser : Context → Exec Parsed} {delimiter : UInt8} {before s : Bytes}
    {result : Option Uri} {errno : Imperr} {next : Context}
    (h : parseBehind delimiter parser (place before s result errno) = .ok (true, next)) :
    (s.head? ≠ some delimiter ∧ next = place before s result errno) ∨
      ∃ tail, s = delimiter :: tail ∧ parser (place (before ++ [delimiter]) tail result errno) = .ok (true, next) := by
  rw [parseBehind, next_place] at h
  split_ifs at h with hHead
  · obtain ⟨tail, rfl⟩ := List.head?_eq_some_iff.mp hHead
    exact .inr ⟨tail, rfl, by simpa [place, Context.advance] using h⟩
  · exact .inl ⟨hHead, (Prod.mk.inj (Except.ok.inj h)).2.symm⟩

/-! ### The whole text -/

theorem head_behind_hierPart {parts : Parts} (h : parts.Accepted) :
    parts.rest.head? ≠ some question := by
  intro hHead
  exact absurd (h.rest question hHead) (by decide)

/-- The query with its delimiter, or nothing. -/
theorem query_reads {parts : Parts} (h : parts.Accepted) {u : Uri} (hQuery : u.query = []) :
    Reads (parseBehind question parseQuery) parts.queryText parts.rest u
      { u with query := percentNormal id (parts.query.getD []) } := by
  cases hSome : parts.query with
  | none =>
      have hSame : { u with query := percentNormal id (none.getD []) } = u := by
        rw [show percentNormal id (none.getD []) = u.query from hQuery.symm]
      rw [hSame, Parts.queryText, hSome]
      exact parseBehind_skip u (head_behind_hierPart h)
  | some text =>
      rw [Parts.queryText, hSome]
      exact parseBehind_reads (parseQuery_reads (h.query text hSome) h.rest u) question

/-- The fragment with its delimiter, or nothing. -/
theorem fragment_reads {parts : Parts} (h : visible parts.fragment ∈ Grammar.fragment) {u : Uri}
    (hFragment : u.fragment = []) (before : Bytes) (result : Option Uri) (errno : Imperr) :
    ∃ last, parseBehind hash parseFragment (place before parts.rest (result.map fun _ => u) errno) = .ok (true, last) ∧
      last.result = result.map fun _ => { u with fragment := percentNormal id (visible parts.fragment) } := by
  unfold Parts.fragment at h ⊢
  by_cases hHead : parts.rest.head? = some hash
  · obtain ⟨text, hText⟩ := List.head?_eq_some_iff.mp hHead
    rw [if_pos hHead, hText, List.tail_cons] at h ⊢
    obtain ⟨last, hRun, hLast⟩ := parseFragment_reads h hFragment (before ++ [hash]) result errno
    refine ⟨last, ?_, hLast⟩
    rw [parseBehind, next_place, if_pos List.head?_cons]
    simpa [place, Context.advance] using hRun
  · rw [if_neg hHead]
    have hSame : { u with fragment := percentNormal id (visible []) } = u := by
      rw [show percentNormal id (visible []) = u.fragment from hFragment.symm]
    rw [hSame]
    exact ⟨_, by rw [parseBehind, next_place, if_neg hHead], rfl⟩

/-- The result in front of `_S_post_parse`. -/
def Parts.parsed (parts : Parts) (u : Uri) : Uri :=
  { applyHierPart parts.authority parts.path { clear u with scheme := parts.scheme } with
    query := percentNormal id (parts.query.getD [])
    fragment := percentNormal id (visible parts.fragment) }

/-- What `_S_post_parse` makes of the parts that were parsed. -/
theorem postParse_parsed {parts : Parts} {last : Context} {u : Uri} (h : last.result = some (parts.parsed u))
    (ports : SchemePorts) :
    postParse ports last = (do
      let path ← pathNormalize (percentNormal id parts.path)
      .ok { last with result := some (parts.value ports path) }) := by
  unfold postParse
  rw [h]
  obtain ⟨scheme, authority, path, query, rest⟩ := parts
  cases authority <;> rfl

theorem parseUri_of_ne_nil {s : Bytes} (h : s ≠ []) (ports : SchemePorts) (result : Option Uri)
    (errno : Imperr) :
    parseUri ports ⟨0, s, result, errno⟩ = parseComponents ports (place [] s (result.map clear) .success) :=
  if_neg (by simpa [Context.modify] using h)

/-- The parsers of the components, one after the other. -/
theorem parseComponents_eq (ports : SchemePorts) {scheme behind : Bytes} {ctx mid last : Context}
    {result : Option Uri} {errno : Imperr}
    (hScheme : parseScheme ctx = .ok (true, place scheme (colon :: behind) result errno))
    (hHier : parseHierPart (place (scheme ++ [colon]) behind result errno) = .ok (true, mid))
    {behindQuery : Context} (hQuery : parseBehind question parseQuery mid = .ok (true, behindQuery))
    (hFragment : parseBehind hash parseFragment behindQuery = .ok (true, last)) :
    parseComponents ports ctx = (do
      let ctx ← postParse ports last
      .ok (true, ctx)) := by
  have hAdvance : (place scheme (colon :: behind) result errno).advance 1 =
      place (scheme ++ [colon]) behind result errno := by
    simp [place, Context.advance]
  have hColon : readAt (place scheme (colon :: behind) result errno).data
      (place scheme (colon :: behind) result errno).currentIdx = .ok colon := readAt_place scheme behind colon
  have hNotEnd : ¬(place scheme (colon :: behind) result errno).data.length ≤
      (place scheme (colon :: behind) result errno).currentIdx := place_at_end.not.mpr (by simp)
  simp only [parseComponents, hScheme, bind, Except.bind, Bool.not_true, Bool.false_eq_true, if_false,
    hNotEnd, hColon, bne_self_eq_false, hAdvance, hHier, hQuery, hFragment]

/-- An accepted text, as far as the removal of dot segments goes well. -/
theorem parse_text {parts : Parts} (h : parts.Accepted) (ports : SchemePorts) (u : Uri) (errno : Imperr) :
    ∃ errno', parse ports parts.text (some u) errno = (do
      let path ← pathNormalize (percentNormal id parts.path)
      .ok (true, some (parts.value ports path), errno')) := by
  obtain ⟨first, hFirst⟩ : ∃ first : Uri, first = { clear u with scheme := parts.scheme } := ⟨_, rfl⟩
  have hColon : Boundary schemeChar
      (colon :: (authorityText parts.authority ++ parts.path ++ (parts.queryText ++ parts.rest))) :=
    boundary_cons.mpr (by decide)
  have hScheme := parseScheme_reads h.scheme hColon [] (some (clear u)) .success
  rw [Option.map_some, ← hFirst] at hScheme
  have hHost : first.host = [] := by rw [hFirst]; rfl
  have hPort : first.port = -1 := by rw [hFirst]; rfl
  have hPath : first.path = [] := by rw [hFirst]; rfl
  obtain ⟨errnoHier, hHier⟩ := parseHierPart_reads h.hier hHost hPort hPath (parts.scheme ++ [colon]) (by simp)
    (some first) .success
  obtain ⟨second, hSecond⟩ : ∃ second : Uri, second = applyHierPart parts.authority parts.path first := ⟨_, rfl⟩
  rw [← hSecond] at hHier
  have hNils : second.query = [] ∧ second.fragment = [] := by
    rw [hSecond, hFirst]
    cases parts.authority <;> exact ⟨rfl, rfl⟩
  obtain ⟨errnoQuery, hQuery⟩ := query_reads h hNils.1
    (parts.scheme ++ [colon] ++ (authorityText parts.authority ++ parts.path)) (by simp) (some first) errnoHier
  obtain ⟨last, hLast, hResult⟩ := fragment_reads h.fragment
    (u := { second with query := percentNormal id (parts.query.getD []) }) hNils.2
    (parts.scheme ++ [colon] ++ (authorityText parts.authority ++ parts.path) ++ parts.queryText) (some first) errnoQuery
  refine ⟨last.errno, ?_⟩
  have hParsed : last.result = some (parts.parsed u) := by
    rw [hResult, hSecond, hFirst]
    rfl
  have hRun := parseComponents_eq ports hScheme hHier hQuery hLast
  rw [postParse_parsed hParsed] at hRun
  rw [parse, parseUri_of_ne_nil (by simp [Parts.text])]
  simp only [Option.map_some, Parts.text, hRun, bind, Except.bind]
  cases pathNormalize (percentNormal id parts.path) <;> rfl

theorem HierText.boundary {authority : Option AuthorityText} {path rest : Bytes}
    (h : HierText authority path rest) : Boundary pathOrSlash rest := by
  cases h with
  | rootless _ hRest => exact hRest
  | absolute _ hRest => exact hRest
  | authority _ hPath =>
      rcases hPath with ⟨_, hRest⟩ | ⟨_, _, _, hRest⟩
      · intro c hc
        rcases hRest c hc with rfl | rfl <;> decide
      · exact hRest

theorem boundary_queryChar {rest : Bytes} (h : Boundary pathOrSlash rest) (hHead : rest.head? ≠ some question) :
    Boundary queryChar rest := by
  intro c hc
  have hPath := h c hc
  have hQuestion : c ≠ question := fun hEq => hHead (hEq ▸ hc)
  simp only [pathOrSlash, pathChar, queryChar, Bool.or_eq_false_iff, beq_eq_false_iff_ne] at hPath ⊢
  tauto

/-- What the parser reads behind the hierarchical part. -/
theorem behind_hierPart_split {before s : Bytes} {result : Option Uri} {u : Uri} {errno : Imperr}
    {mid last : Context} (hRest : Boundary pathOrSlash s)
    (hQuery : parseBehind question parseQuery (place before s (result.map fun _ => u) errno) = .ok (true, mid))
    (hFragment : parseBehind hash parseFragment mid = .ok (true, last)) :
    ∃ (query : Option Bytes) (rest : Bytes), s = (query.map (question :: ·)).getD [] ++ rest ∧
      (∀ text ∈ query, text ∈ Grammar.query) ∧ Boundary queryChar rest ∧
      visible (if rest.head? = some hash then rest.tail else []) ∈ Grammar.fragment := by
  have hBehind (before rest : Bytes) (result : Option Uri) (errno : Imperr)
      (h : parseBehind hash parseFragment (place before rest result errno) = .ok (true, last)) :
      visible (if rest.head? = some hash then rest.tail else []) ∈ Grammar.fragment := by
    rcases parseBehind_split h with ⟨hHead, _⟩ | ⟨tail, rfl, hTail⟩
    · rw [if_neg hHead]
      exact Language.nil_mem_kstar _
    · exact parseFragment_split hTail
  rcases parseBehind_split hQuery with ⟨hHead, rfl⟩ | ⟨tail, rfl, hTail⟩
  · exact ⟨none, s, rfl, by simp, boundary_queryChar hRest hHead, hBehind _ _ _ _ hFragment⟩
  · obtain ⟨text, rest, rfl, hText, hRest⟩ := parseQuery_split hTail
    obtain ⟨errno', hRead⟩ := parseQuery_reads hText hRest u (before ++ [question]) (by simp) result errno
    rw [hRead] at hTail
    obtain rfl := congrArg Prod.snd (Except.ok.inj hTail)
    exact ⟨some text, rest, rfl, by simpa using hText, hRest, hBehind _ _ _ _ hFragment⟩

theorem clear_scheme (result : Option Uri) (scheme : Bytes) :
    ∃ first : Uri, first.host = [] ∧ first.port = -1 ∧ first.path = [] ∧
      (result.map clear).map (fun u => { u with scheme := scheme }) = result.map fun _ => first := by
  cases result with
  | none => exact ⟨empty, rfl, rfl, rfl, rfl⟩
  | some u => exact ⟨{ clear u with scheme := scheme }, rfl, rfl, rfl, rfl⟩

/-- Every text that the parser accepts is one of accepted parts. -/
theorem parseComponents_split {ports : SchemePorts} {s : Bytes} {result : Option Uri} {next : Context}
    (h : parseComponents ports (place [] s (result.map clear) .success) = .ok (true, next)) :
    ∃ parts : Parts, s = parts.text ∧ parts.Accepted := by
  unfold parseComponents at h
  obtain ⟨⟨ok, ctx⟩, hScheme, h⟩ := bind_ok.mp h
  dsimp only at h
  obtain ⟨rfl, h⟩ := unless_failed.mp h
  obtain ⟨scheme, rest, rfl, hText, hRest⟩ := parseScheme_split hScheme
  obtain ⟨first, hHost, hPort, hPath, hFirst⟩ := clear_scheme result scheme
  rw [parseScheme_reads hText hRest, hFirst] at hScheme
  obtain rfl := (Prod.mk.inj (Except.ok.inj hScheme)).2
  rcases rest with _ | ⟨c, behind⟩
  · rw [if_pos (place_at_end.mpr rfl)] at h
    exact (fail_ne h).elim
  rw [if_neg (place_at_end.not.mpr (by simp))] at h
  obtain ⟨d, hRead, h⟩ := bind_ok.mp h
  cases (readAt_place ([] ++ scheme) behind c).symm.trans hRead
  split_ifs at h with hColon
  · exact (fail_ne h).elim
  have hColon : c = colon := by simpa using hColon
  subst hColon
  have hAdvance : (place ([] ++ scheme) (colon :: behind) (result.map fun _ => first) .success).advance 1 =
      place (scheme ++ [colon]) behind (result.map fun _ => first) .success := by
    simp [place, Context.advance]
  rw [hAdvance] at h
  obtain ⟨⟨ok, mid⟩, hHier, h⟩ := bind_ok.mp h
  dsimp only at h
  obtain ⟨rfl, h⟩ := unless_failed.mp h
  obtain ⟨authority, path, rest, rfl, hHierText⟩ := parseHierPart_split hHost hPort hHier
  obtain ⟨errno, hRead⟩ := parseHierPart_reads hHierText hHost hPort hPath (scheme ++ [colon]) (by simp) result .success
  rw [hRead] at hHier
  obtain rfl := (Prod.mk.inj (Except.ok.inj hHier)).2
  obtain ⟨⟨ok, behindQuery⟩, hQuery, h⟩ := bind_ok.mp h
  dsimp only at h
  obtain ⟨rfl, h⟩ := unless_failed.mp h
  obtain ⟨⟨ok, last⟩, hFragment, h⟩ := bind_ok.mp h
  dsimp only at h
  obtain ⟨rfl, h⟩ := unless_failed.mp h
  obtain ⟨query, rest, rfl, hQueryText, hQueryRest, hFragmentText⟩ :=
    behind_hierPart_split hHierText.boundary hQuery hFragment
  exact ⟨⟨scheme, authority, path, query, rest⟩, rfl, hText, hHierText, hQueryText, hQueryRest, hFragmentText⟩

/-- An accepted text has accepted parts, of which the result is made. -/
theorem parse_split {ports : SchemePorts} {s : Bytes} (hs : s ≠ []) {result result' : Option Uri}
    {errno errno' : Imperr} (h : parse ports s result errno = .ok (true, result', errno')) :
    ∃ parts : Parts, s = parts.text ∧ parts.Accepted ∧
      ∀ u, result = some u → ∃ path, pathNormalize (percentNormal id parts.path) = .ok path ∧
        result' = some (parts.value ports path) := by
  obtain ⟨⟨ok, ctx⟩, hUri, hOk⟩ := bind_ok.mp h
  obtain rfl : ok = true := congrArg Prod.fst (Except.ok.inj hOk)
  rw [parseUri_of_ne_nil hs] at hUri
  obtain ⟨parts, rfl, hParts⟩ := parseComponents_split hUri
  refine ⟨parts, rfl, hParts, ?_⟩
  rintro u rfl
  obtain ⟨last, hParse⟩ := parse_text hParts ports u errno
  rw [hParse] at h
  obtain ⟨path, hPath, h⟩ := bind_ok.mp h
  exact ⟨path, hPath, congrArg (fun outcome => outcome.2.1) (Except.ok.inj h).symm⟩

end ImpactSockets.Uri
