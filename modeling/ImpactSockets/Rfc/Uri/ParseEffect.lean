import ImpactSockets.Rfc.Uri.AuthorityEffect

/-! What `_S_parse_uri` does in front of `_S_post_parse`, on every text. -/
namespace ImpactSockets.Uri

open Abnf AbnfOps Ascii Total

/-- The hierarchical part has an authority, which is cut into these parts. What
is behind it may be refused. -/
inductive AuthorityIn (behind : Bytes) (parts : AuthorityParts) : Prop where
  | intro {text rest : Bytes} (hText : behind = slash :: slash :: (text ++ rest))
      (hChars : ∀ c ∈ text, authorityChar c = true) (hRest : Boundary authorityChar rest) (hCuts : Cuts text parts)

/-- The whole text has an authority, which is cut into these parts. -/
inductive HasAuthority (s : Bytes) (parts : AuthorityParts) : Prop where
  | intro {scheme behind : Bytes} (hText : s = scheme ++ colon :: behind) (hScheme : scheme ∈ Grammar.scheme)
      (hAuthority : AuthorityIn behind parts)

/-! ### The hierarchical part -/

theorem authorityIn_iff {text rest : Bytes} (hChars : ∀ c ∈ text, authorityChar c = true)
    (hRest : Boundary authorityChar rest) (parts : AuthorityParts) :
    AuthorityIn (slash :: slash :: (text ++ rest)) parts ↔ Cuts text parts := by
  constructor
  · rintro ⟨hText, hOtherChars, hOtherRest, hCuts⟩
    obtain ⟨rfl, _⟩ := cut_unique hChars hRest hOtherChars hOtherRest
      (List.cons.inj (List.cons.inj hText).2).2
    exact hCuts
  · exact fun hCuts => ⟨rfl, hChars, hRest, hCuts⟩

/-- A path behind a slash. -/
theorem rootedPath_plainly {before rest : Bytes} {parser : Context → Exec Parsed}
    (hEq : ∀ result errno, parser (place before (slash :: rest) result errno) =
      parsePath (place before (slash :: rest) result errno).rooted false true) :
    Plainly parser (before ++ slash :: rest) before.length := by
  have hInside : before.length + 1 ≤ (before ++ slash :: rest).length := by simp
  obtain ⟨effect, hDoes, hPlain⟩ := parsePath_plainly hInside false true
  let root : Effect := ⟨true, before.length + 1, fun u => { u with path := u.path ++ [slash] }, id⟩
  have hRoot : root.Plain (before ++ slash :: rest) :=
    ⟨honest_of_id _ _, hInside, fun _ _ => rfl, fun _ => rfl⟩
  refine ⟨root.andThen effect, ?_, hRoot.andThen fun _ => hPlain⟩
  intro result errno
  refine (hEq result errno).trans ((hDoes _ _).trans ?_)
  simp [root, Effect.andThen, place, Context.advance]

/-- Without an authority. -/
theorem parseHierPart_plainly (before : Bytes) {behind : Bytes} (h : ∀ rest, behind ≠ slash :: slash :: rest) :
    Plainly parseHierPart (before ++ behind) before.length := by
  have hInside : before.length ≤ (before ++ behind).length := by simp
  rcases behind with _ | ⟨c, tail⟩
  · apply (plainly_success hInside).congr
    intro result errno
    exact if_pos (by simp)
  by_cases hSlash : c = slash
  · subst hSlash
    have hRun := parseHierPart_slash before tail
    by_cases hTail : tail = []
    · subst hTail
      have hRooted : before.length + 1 ≤ (before ++ [slash]).length := by simp
      refine ⟨⟨true, before.length + 1, fun u => { u with path := u.path ++ [slash] }, id⟩, ?_,
        honest_of_id _ _, hRooted, fun _ _ => rfl, fun _ => rfl⟩
      exact fun result errno => (hRun result errno).trans (if_pos rfl)
    · have hHead : tail.head? ≠ some slash := by
        intro hHead
        obtain ⟨rest, rfl⟩ := List.head?_eq_some_iff.mp hHead
        exact h rest rfl
      apply rootedPath_plainly
      intro result errno
      rw [hRun, if_neg hTail, if_neg hHead]
  · have hRead : readAt (before ++ c :: tail) before.length = .ok c := readAt_place before tail c
    by_cases hChar : pathChar c = true
    · apply (parsePath_plainly hInside false true).congr
      intro result errno
      simp [parseHierPart, hRead, bind, Except.bind, hSlash, hChar]
    · apply (plainly_success hInside).congr
      intro result errno
      simp [parseHierPart, hRead, bind, Except.bind, hSlash, hChar, Context.moveTo]

/-- With an authority. -/
theorem parseHierPart_authority (before tail : Bytes) :
    ∃ effect, Does parseHierPart (before ++ slash :: slash :: tail) before.length effect ∧
      effect.Known (before ++ slash :: slash :: tail)
        (∃ parts, AuthorityIn (slash :: slash :: tail) parts ∧ parts.Masked)
        (∃ parts, AuthorityIn (slash :: slash :: tail) parts ∧ parts.StoresPort) := by
  obtain ⟨text, rest, rfl, hChars, hRest⟩ := split_at_boundary authorityChar tail
  have hBefore : before ++ [slash, slash] ≠ [] := by simp
  obtain ⟨effect, hDoes, hKnown⟩ := parseAuthority_effect hBefore hChars hRest
  simp only [authorityIn_iff hChars hRest]
  have hData : before ++ slash :: slash :: (text ++ rest) = before ++ [slash, slash] ++ (text ++ rest) := by simp
  rw [hData]
  obtain ⟨after, hAfter, hAfterPlain⟩ := parsePath_plainly hKnown.inside true true
  refine ⟨effect.andThen after, ?_, hKnown.andThen fun _ => hAfterPlain⟩
  intro result errno
  rw [← hDoes.andThen (fun _ => hAfter) result errno, ← hData]
  apply (parseHierPart_slash before (slash :: (text ++ rest)) result errno).trans
  rw [if_neg (by simp), if_pos List.head?_cons, unlessFailed]
  simp only [place, Context.advance, List.length_append, List.length_cons, List.length_nil]
  congr 1
  funext parsed
  obtain ⟨ok, ctx⟩ := parsed
  cases ok <;> rfl

/-- What the parser of the hierarchical part does on every text. -/
theorem parseHierPart_effect (before behind : Bytes) :
    ∃ effect, Does parseHierPart (before ++ behind) before.length effect ∧
      effect.Known (before ++ behind) (∃ parts, AuthorityIn behind parts ∧ parts.Masked)
        (∃ parts, AuthorityIn behind parts ∧ parts.StoresPort) := by
  by_cases hAuthority : ∃ tail, behind = slash :: slash :: tail
  · obtain ⟨tail, rfl⟩ := hAuthority
    exact parseHierPart_authority before tail
  · have hNone (property : AuthorityParts → Prop) : ¬∃ parts, AuthorityIn behind parts ∧ property parts := by
      rintro ⟨parts, ⟨hText, _, _, _⟩, _⟩
      exact hAuthority ⟨_, hText⟩
    obtain ⟨effect, hDoes, hPlain⟩ := parseHierPart_plainly before (not_exists.mp hAuthority)
    exact ⟨effect, hDoes, hPlain.known (hNone _) (hNone _)⟩

/-! ### All components -/

/-- The delimiter behind the scheme. -/
def parseColon (ctx : Context) : Exec Parsed :=
  if ctx.data.length ≤ ctx.currentIdx then ctx.fail .uriNocolon
  else do
    let c ← readAt ctx.data ctx.currentIdx
    if c != colon then ctx.fail .uriNocolon else .ok (true, ctx.advance 1)

/-- The part of `_S_parse_uri` behind the scheme and its delimiter. -/
def parseBehindScheme : Context → Exec Parsed :=
  unlessFailed parseHierPart (unlessFailed (parseBehind question parseQuery) (parseBehind hash parseFragment))

/-- The part of `_S_parse_uri` from the scheme on, without `_S_post_parse`. -/
def readComponents : Context → Exec Parsed :=
  unlessFailed parseScheme (unlessFailed parseColon parseBehindScheme)

theorem unlessFailed_assoc (first second third : Context → Exec Parsed) :
    unlessFailed (unlessFailed first second) third = unlessFailed first (unlessFailed second third) := by
  funext ctx
  simp only [unlessFailed, bind_assoc]
  congr 1
  funext parsed
  obtain ⟨ok, ctx⟩ := parsed
  cases ok <;> rfl

theorem unlessFailed_colon (parser : Context → Exec Parsed) (ctx : Context) :
    unlessFailed parseColon parser ctx =
      (if ctx.data.length ≤ ctx.currentIdx then ctx.fail .uriNocolon
      else do
        let c ← readAt ctx.data ctx.currentIdx
        if c != colon then ctx.fail .uriNocolon else parser (ctx.advance 1)) := by
  unfold unlessFailed parseColon
  split_ifs with hEnd
  · rfl
  · rw [bind_assoc]
    congr 1
    funext c
    split_ifs <;> rfl

theorem parseComponents_eq_read (ports : SchemePorts) (ctx : Context) :
    parseComponents ports ctx =
      unlessFailed readComponents (fun ctx => do
        let ctx ← postParse ports ctx
        .ok (true, ctx)) ctx := by
  rw [readComponents, parseBehindScheme]
  simp only [unlessFailed_assoc]
  rw [unlessFailed, parseComponents]
  congr 1
  funext parsed
  obtain ⟨ok, ctx⟩ := parsed
  cases ok with
  | false => rfl
  | true =>
      simp only [unlessFailed_colon]
      rfl

/-- What a parser that has nothing to do with the authority does. -/
theorem Plainly.known_of_none {parser : Context → Exec Parsed} {data s : Bytes} {i : Nat}
    (h : Plainly parser data i) (hNone : ∀ parts, ¬HasAuthority s parts) (masked stored : AuthorityParts → Prop) :
    ∃ effect, Does parser data i effect ∧
      effect.Known data (∃ parts, HasAuthority s parts ∧ masked parts)
        (∃ parts, HasAuthority s parts ∧ stored parts) := by
  obtain ⟨effect, hDoes, hPlain⟩ := h
  have hNot (property : AuthorityParts → Prop) : ¬∃ parts, HasAuthority s parts ∧ property parts := by
    rintro ⟨parts, hParts, _⟩
    exact hNone parts hParts
  exact ⟨effect, hDoes, hPlain.known (hNot masked) (hNot stored)⟩

theorem scheme_chars {text : Bytes} (h : text ∈ Grammar.scheme) : ∀ c ∈ text, schemeChar c = true := by
  obtain ⟨c, tail, rfl, hAlpha, hTail⟩ := mem_scheme.mp h
  intro d hd
  rcases List.mem_cons.mp hd with rfl | hd
  · simp [schemeChar, hAlpha]
  · exact hTail d hd

/-- Where the scheme ends. -/
theorem scheme_unique {scheme rest other behind : Bytes} (hScheme : scheme ∈ Grammar.scheme)
    (hRest : Boundary schemeChar rest) (hOther : other ∈ Grammar.scheme)
    (h : scheme ++ rest = other ++ colon :: behind) : scheme = other ∧ rest = colon :: behind := by
  apply cut_unique (scheme_chars hScheme) hRest (scheme_chars hOther) ?_ h
  exact boundary_cons.mpr (by decide)

theorem hasAuthority_iff {scheme : Bytes} (hScheme : scheme ∈ Grammar.scheme) (behind : Bytes)
    (parts : AuthorityParts) : HasAuthority (scheme ++ colon :: behind) parts ↔ AuthorityIn behind parts := by
  constructor
  · rintro ⟨hText, hOther, hAuthority⟩
    have hColon : Boundary schemeChar (colon :: behind) := boundary_cons.mpr (by decide)
    obtain ⟨_, hBehind⟩ := scheme_unique hScheme hColon hOther hText
    rw [(List.cons.inj hBehind).2]
    exact hAuthority
  · exact fun hAuthority => ⟨rfl, hScheme, hAuthority⟩

theorem parseBehindScheme_effect (before behind : Bytes) :
    ∃ effect, Does parseBehindScheme (before ++ behind) before.length effect ∧
      effect.Known (before ++ behind) (∃ parts, AuthorityIn behind parts ∧ parts.Masked)
        (∃ parts, AuthorityIn behind parts ∧ parts.StoresPort) := by
  obtain ⟨effect, hDoes, hKnown⟩ := parseHierPart_effect before behind
  have hQuery : Plainly (unlessFailed (parseBehind question parseQuery) (parseBehind hash parseFragment))
      (before ++ behind) effect.currentIdx := by
    apply (parseBehind_plainly (fun j hj => parseQuery_plainly hj) hKnown.inside).andThen
    intro j hj
    exact parseBehind_plainly (fun j hj => parseFragment_plainly hj) hj
  obtain ⟨after, hAfter, hAfterPlain⟩ := hQuery
  exact ⟨effect.andThen after, hDoes.andThen fun _ => hAfter, hKnown.andThen fun _ => hAfterPlain⟩

/-- Behind a scheme. -/
theorem parseColon_does (before behind : Bytes) :
    Does parseColon (before ++ colon :: behind) before.length ⟨true, before.length + 1, id, id⟩ := by
  intro result errno
  have hRead : readAt (before ++ colon :: behind) before.length = .ok colon := readAt_place before behind colon
  simp [parseColon, hRead, bind, Except.bind, Context.advance]

theorem parseColon_refuses {before rest : Bytes} (h : rest.head? ≠ some colon) :
    Does parseColon (before ++ rest) before.length ⟨false, before.length, id, fun _ => .uriNocolon⟩ := by
  intro result errno
  rcases rest with _ | ⟨c, rest⟩
  · simp [parseColon, Context.fail]
  · have hColon : c ≠ colon := by simpa using h
    have hRead : readAt (before ++ c :: rest) before.length = .ok c := readAt_place before rest c
    simp [parseColon, hRead, bind, Except.bind, Context.fail, hColon]

/-- What `_S_parse_uri` does in front of `_S_post_parse`. -/
theorem readComponents_effect {s : Bytes} (hs : s ≠ []) :
    ∃ effect, Does readComponents s 0 effect ∧
      effect.Known s (∃ parts, HasAuthority s parts ∧ parts.Masked)
        (∃ parts, HasAuthority s parts ∧ parts.StoresPort) := by
  by_cases hScheme : ∃ scheme rest, s = scheme ++ rest ∧ scheme ∈ Grammar.scheme ∧ Boundary schemeChar rest
  swap
  · have hNone (parts : AuthorityParts) : ¬HasAuthority s parts := by
      rintro ⟨hText, hMem, _⟩
      exact hScheme ⟨_, _, hText, hMem, boundary_cons.mpr (by decide)⟩
    obtain ⟨first, hFirst, hFirstPlain⟩ := parseScheme_plainly (List.length_pos_iff.mpr hs)
    have hFails : first.ok ≠ true := by
      intro hOk
      have hRun := hFirst none .success
      rw [hOk] at hRun
      exact hScheme (@parseScheme_split [] s none .success _ hRun)
    apply Plainly.known_of_none ?_ hNone
    refine ⟨first.andThen first, hFirst.andThen fun hOk => absurd hOk hFails, ?_⟩
    exact hFirstPlain.andThen fun hOk => absurd hOk hFails
  obtain ⟨scheme, rest, rfl, hMem, hRest⟩ := hScheme
  let first : Effect := ⟨true, scheme.length, fun u => { u with scheme := scheme }, id⟩
  have hFirst : Does parseScheme (scheme ++ rest) 0 first := fun result errno =>
    parseScheme_reads hMem hRest [] result errno
  have hFirstPlain : first.Plain (scheme ++ rest) :=
    ⟨honest_of_id _ _, by simp [first], fun _ _ => rfl, fun _ => rfl⟩
  by_cases hColon : rest.head? = some colon
  · obtain ⟨behind, rfl⟩ := List.head?_eq_some_iff.mp hColon
    simp only [hasAuthority_iff hMem]
    have hData : scheme ++ colon :: behind = (scheme ++ [colon]) ++ behind := by simp
    obtain ⟨after, hAfter, hKnown⟩ := parseBehindScheme_effect (scheme ++ [colon]) behind
    rw [← hData, List.length_append] at hAfter
    rw [← hData] at hKnown
    let second : Effect := ⟨true, scheme.length + 1, id, id⟩
    have hSecondPlain : second.Plain (scheme ++ colon :: behind) :=
      ⟨honest_of_id _ _, by simp [second], fun _ _ => rfl, fun _ => rfl⟩
    refine ⟨first.andThen (second.andThen after), ?_, hKnown.after hSecondPlain rfl |>.after hFirstPlain rfl⟩
    exact hFirst.andThen fun _ => (parseColon_does scheme behind).andThen fun _ => hAfter
  · have hNone (parts : AuthorityParts) : ¬HasAuthority (scheme ++ rest) parts := by
      rintro ⟨hText, hOther, _⟩
      obtain ⟨_, rfl⟩ := scheme_unique hMem hRest hOther hText
      exact hColon rfl
    let second : Effect := ⟨false, scheme.length, id, fun _ => .uriNocolon⟩
    have hSecondPlain : second.Plain (scheme ++ rest) := by
      refine ⟨⟨fun _ _ hSuccess => ?_, fun hTrue => ?_⟩, by simp [second], fun _ _ => rfl, fun _ => rfl⟩
      · cases hSuccess
      · cases hTrue
    apply Plainly.known_of_none ?_ hNone
    refine ⟨first.andThen (second.andThen second), ?_, ?_⟩
    · apply hFirst.andThen
      exact fun _ => (parseColon_refuses hColon).andThen fun hTrue => by cases hTrue
    · exact hFirstPlain.andThen fun _ => hSecondPlain.andThen fun _ => hSecondPlain

end ImpactSockets.Uri
