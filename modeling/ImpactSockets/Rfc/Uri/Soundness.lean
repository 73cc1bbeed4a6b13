import ImpactSockets.Rfc.Uri.Parts
import ImpactSockets.Rfc.Uri.Words

/-! Which of the accepted texts are URIs of the grammar. -/
namespace ImpactSockets.Uri

open Abnf AbnfOps Ascii
open scoped Computability

/-! ### Parts of a text by its delimiters -/

/-- What is behind the first colon. -/
def behindScheme (s : Bytes) : Bytes := (s.dropWhile (· != colon)).tail

/-- The characters of which the first one ends an authority. -/
def authorityEnd (c : UInt8) : Bool := c == slash || c == question || c == hash

def authorityPart (s : Bytes) : Bytes :=
  if (behindScheme s).take 2 = [slash, slash] then ((behindScheme s).drop 2).takeWhile (!authorityEnd ·) else []

def behindAuthority (s : Bytes) : Bytes :=
  if (behindScheme s).take 2 = [slash, slash] then ((behindScheme s).drop 2).dropWhile (!authorityEnd ·)
  else behindScheme s

def inFrontOfFragment (s : Bytes) : Bytes := (behindAuthority s).takeWhile (· != hash)

def fragmentPart (s : Bytes) : Bytes := ((behindAuthority s).dropWhile (· != hash)).tail

/-- What is in front of the first bracket of an authority. -/
def inFrontOfLiteral (authority : Bytes) : Bytes := authority.takeWhile (· != openBracket)

def behindOpenBracket (authority : Bytes) : Bytes := (authority.dropWhile (· != openBracket)).tail

/-- What is between the brackets of an authority. -/
def literalPart (authority : Bytes) : Bytes := (behindOpenBracket authority).takeWhile (· != closeBracket)

def behindLiteral (authority : Bytes) : Bytes := ((behindOpenBracket authority).dropWhile (· != closeBracket)).tail

/-- No triplet of the text has whitespace in it. -/
def Unspaced (text : Bytes) : Prop :=
  ∀ triplet ∈ text.tails, triplet.head? = some percent → ∀ c ∈ triplet.tail.take 2, isspace c = false

/-- A literal fills the host of an authority, and is as the grammar has it. -/
structure CleanAuthority (authority : Bytes) : Prop where
  front : openBracket ∈ authority → ∀ c ∈ (inFrontOfLiteral authority).getLast?, c = at_
  behind : ∀ c ∈ (behindLiteral authority).head?, c = colon
  literal : CleanLiteral (literalPart authority)

/-- What the parser of a URI does not look at: the path and the query go up to
the fragment or the end, and the literal of the authority and the triplets of the
fragment are as the grammar has them. -/
structure Clean (s : Bytes) : Prop where
  read : ∀ c ∈ inFrontOfFragment s, queryChar c = true
  authority : CleanAuthority (authorityPart s)
  fragment : Unspaced (fragmentPart s)

theorem dropWhile_of_boundary {known : UInt8 → Bool} {text rest : Bytes}
    (hText : ∀ c ∈ text, known c = true) (hRest : Boundary known rest) :
    (text ++ rest).dropWhile known = rest := by
  rw [List.dropWhile_append_of_pos hText]
  cases rest with
  | nil => rfl
  | cons c rest => rw [List.dropWhile_cons_of_neg (by simp [boundary_cons.mp hRest])]

/-- A text is cut at the first delimiter. -/
theorem cut_at_delimiter {d : UInt8} {text : Bytes} (h : d ∉ text) (rest : Bytes) :
    (text ++ d :: rest).takeWhile (· != d) = text ∧ (text ++ d :: rest).dropWhile (· != d) = d :: rest := by
  have hText : ∀ c ∈ text, (c != d) = true := fun c hc => by simpa using fun hEq : c = d => h (hEq ▸ hc)
  have hRest : Boundary (· != d) (d :: rest) := boundary_cons.mpr (by simp)
  exact ⟨takeWhile_of_boundary hText hRest, dropWhile_of_boundary hText hRest⟩

theorem behindScheme_eq {scheme : Bytes} (h : colon ∉ scheme) (rest : Bytes) :
    behindScheme (scheme ++ colon :: rest) = rest := by
  rw [behindScheme, (cut_at_delimiter h rest).2, List.tail_cons]

/-- A text without an authority. -/
theorem parts_rootless {scheme rest : Bytes} (hScheme : colon ∉ scheme) (hRest : rest.take 2 ≠ [slash, slash]) :
    authorityPart (scheme ++ colon :: rest) = [] ∧ behindAuthority (scheme ++ colon :: rest) = rest := by
  rw [authorityPart, behindAuthority, behindScheme_eq hScheme, if_neg hRest, if_neg hRest]
  exact ⟨rfl, rfl⟩

set_option maxRecDepth 4000 in
theorem not_authorityEnd : ∀ c : UInt8, authorityChar c = true → (!authorityEnd c) = true := by
  decide

/-- A text with an authority. -/
theorem parts_authority {scheme authority rest : Bytes} (hScheme : colon ∉ scheme)
    (hAuthority : ∀ c ∈ authority, authorityChar c = true) (hRest : ∀ c ∈ rest.head?, authorityEnd c = true) :
    authorityPart (scheme ++ colon :: slash :: slash :: (authority ++ rest)) = authority ∧
      behindAuthority (scheme ++ colon :: slash :: slash :: (authority ++ rest)) = rest := by
  have hText : ∀ c ∈ authority, (!authorityEnd c) = true := fun c hc => not_authorityEnd c (hAuthority c hc)
  have hBoundary : Boundary (!authorityEnd ·) rest := fun c hc => by simp [hRest c hc]
  have hTake : (slash :: slash :: (authority ++ rest)).take 2 = [slash, slash] := rfl
  rw [authorityPart, behindAuthority, behindScheme_eq hScheme, if_pos hTake, if_pos hTake]
  exact ⟨takeWhile_of_boundary hText hBoundary, dropWhile_of_boundary hText hBoundary⟩

/-- A text with a fragment, or without. -/
theorem parts_fragment {s body rest : Bytes} (h : behindAuthority s = body ++ rest) (hBody : hash ∉ body)
    (hRest : ∀ c ∈ rest.head?, c = hash) : inFrontOfFragment s = body ∧ fragmentPart s = rest.tail := by
  have hText : ∀ c ∈ body, (c != hash) = true := fun c hc => by simpa using fun hEq : c = hash => hBody (hEq ▸ hc)
  have hBoundary : Boundary (· != hash) rest := fun c hc => by simp [hRest c hc]
  rw [inFrontOfFragment, fragmentPart, h, takeWhile_of_boundary hText hBoundary, dropWhile_of_boundary hText hBoundary]
  exact ⟨rfl, rfl⟩

/-- An authority with a literal. -/
theorem parts_literal {front inner behind : Bytes} (hFront : openBracket ∉ front) (hInner : closeBracket ∉ inner) :
    inFrontOfLiteral (front ++ openBracket :: (inner ++ closeBracket :: behind)) = front ∧
      literalPart (front ++ openBracket :: (inner ++ closeBracket :: behind)) = inner ∧
      behindLiteral (front ++ openBracket :: (inner ++ closeBracket :: behind)) = behind := by
  have hOpen := cut_at_delimiter hFront (inner ++ closeBracket :: behind)
  have hClose := cut_at_delimiter hInner behind
  have hBehind : behindOpenBracket (front ++ openBracket :: (inner ++ closeBracket :: behind)) =
      inner ++ closeBracket :: behind := by
    rw [behindOpenBracket, hOpen.2, List.tail_cons]
  rw [inFrontOfLiteral, literalPart, behindLiteral, hBehind, hOpen.1, hClose.1, hClose.2]
  exact ⟨rfl, rfl, rfl⟩

/-- An authority without a literal. -/
theorem parts_unbracketed {authority : Bytes} (h : openBracket ∉ authority) :
    literalPart authority = [] ∧ behindLiteral authority = [] := by
  have hText : ∀ c ∈ authority, (c != openBracket) = true := fun c hc => by
    simpa using fun hEq : c = openBracket => h (hEq ▸ hc)
  have hDrop : authority.dropWhile (· != openBracket) = [] := by
    simpa using dropWhile_of_boundary hText (boundary_nil _)
  rw [literalPart, behindLiteral, behindOpenBracket, hDrop]
  exact ⟨rfl, rfl⟩

theorem cleanLiteral_nil : CleanLiteral [] :=
  .inr (.inr ⟨.inr (.inr (by decide)), by simp [octets]⟩)

/-! ### Fragments -/

theorem space_of_hexdig {c : UInt8} (h : hexdig c = true) : isspace c = false ∧ c ≠ percent := by
  refine ⟨Bool.eq_false_iff.mpr fun hSpace => ?_, fun hPercent => ?_⟩
  · exact absurd (encodable_pchar.hexdig c h) (by simp [encodable_pchar.space c hSpace])
  · rw [hPercent] at h
    exact absurd h (by decide)

theorem unspaced_cons {c : UInt8} {rest : Bytes} :
    Unspaced (c :: rest) ↔ (c = percent → ∀ d ∈ rest.take 2, isspace d = false) ∧ Unspaced rest := by
  simp only [Unspaced, List.tails_cons, List.forall_mem_cons, List.head?_cons, Option.some.injEq, List.tail_cons]

theorem unspaced_nil : Unspaced [] := by
  simp [Unspaced]

/-- The triplets of the grammar have no whitespace in them. -/
theorem unspaced_of_mem {text : Bytes} (h : text ∈ Grammar.fragment) : Unspaced text := by
  refine encodedText_induction unspaced_nil ?_ ?_ h
  · intro c rest hc hRest
    exact unspaced_cons.mpr ⟨fun hPercent => absurd hPercent (by simpa using hc), hRest⟩
  · intro high low rest hHigh hLow hRest
    have hLowRest := unspaced_cons.mpr ⟨fun hPercent => absurd hPercent (space_of_hexdig hLow).2, hRest⟩
    have hHighRest := unspaced_cons.mpr ⟨fun hPercent => absurd hPercent (space_of_hexdig hHigh).2, hLowRest⟩
    exact unspaced_cons.mpr ⟨fun _ => by simp [space_of_hexdig hHigh, space_of_hexdig hLow], hHighRest⟩

theorem visible_cons {c : UInt8} (h : isspace c = false) (rest : Bytes) : visible (c :: rest) = c :: visible rest :=
  List.filter_cons_of_pos (by simp [h])

/-- A text whose triplets are whole without its whitespace, and have none of it. -/
theorem mem_fragment_of_unspaced {text : Bytes} (h : visible text ∈ Grammar.fragment) (hUnspaced : Unspaced text) :
    text ∈ Grammar.fragment := by
  induction hLength : text.length using Nat.strong_induction_on generalizing text with
  | _ length ih =>
      subst hLength
      rcases text with _ | ⟨c, rest⟩
      · exact Language.nil_mem_kstar _
      · obtain ⟨hTriplet, hRest⟩ := unspaced_cons.mp hUnspaced
        by_cases hPercent : c = percent
        · subst hPercent
          have hTriplet := hTriplet rfl
          rw [visible_cons (by decide), mem_fragment] at h
          obtain ⟨decoded, hDecoded⟩ := Option.isSome_iff_exists.mp h
          obtain ⟨high, low, tail, hVisible, hHigh, hLow⟩ := triplet_of_decodeLoop hDecoded
          rcases rest with _ | ⟨a, _ | ⟨b, rest⟩⟩
          · cases hVisible
          · rw [visible_cons (hTriplet a (by simp))] at hVisible
            cases hVisible
          · rw [visible_cons (hTriplet a (by simp)), visible_cons (hTriplet b (by simp))] at hVisible h
            cases hVisible
            rw [decodeLoop_triplet hHigh hLow, Option.isSome_map] at h
            have hTail := (unspaced_cons.mp (unspaced_cons.mp hRest).2).2
            exact triplet_mem_encodedText hHigh hLow (ih rest.length (by simp; omega) (mem_fragment.mpr h) hTail rfl)
        · have hPlain : (c != percent) = true := by simpa using hPercent
          refine cons_mem_encodedText hPlain (ih rest.length (by simp) ?_ hRest rfl)
          by_cases hSpace : isspace c = true
          · rwa [visible, List.filter_cons_of_neg (by simp [hSpace])] at h
          · rw [visible_cons (by simpa using hSpace), mem_fragment, decodeLoop_plain hPercent, Option.isSome_map] at h
            exact mem_fragment.mpr h

/-! ### Authorities -/

theorem cleanAuthority_of_unbracketed {authority : Bytes} (h : openBracket ∉ authority) : CleanAuthority authority := by
  obtain ⟨hLiteral, hBehind⟩ := parts_unbracketed h
  refine ⟨fun hMem => absurd hMem h, ?_, ?_⟩
  · simp [hBehind]
  · rw [hLiteral]
    exact cleanLiteral_nil

theorem cleanAuthority_literal {front inner behind : Bytes} (hFront : openBracket ∉ front)
    (hInner : closeBracket ∉ inner) :
    CleanAuthority (front ++ openBracket :: (inner ++ closeBracket :: behind)) ↔
      (∀ c ∈ front.getLast?, c = at_) ∧ (∀ c ∈ behind.head?, c = colon) ∧ CleanLiteral inner := by
  obtain ⟨hFrontPart, hLiteral, hBehind⟩ := @parts_literal _ _ behind hFront hInner
  constructor
  · rintro ⟨hCleanFront, hCleanBehind, hCleanLiteral⟩
    rw [hFrontPart] at hCleanFront
    rw [hBehind] at hCleanBehind
    rw [hLiteral] at hCleanLiteral
    exact ⟨hCleanFront (by simp), hCleanBehind, hCleanLiteral⟩
  · rintro ⟨hCleanFront, hCleanBehind, hCleanLiteral⟩
    refine ⟨fun _ => ?_, ?_, ?_⟩
    · rwa [hFrontPart]
    · rwa [hBehind]
    · rwa [hLiteral]

theorem userinfo_unbracketed {userinfo : Option Bytes} (h : ∀ text ∈ userinfo, text ∈ Grammar.userinfo) :
    openBracket ∉ (userinfo.map (· ++ [at_])).getD [] := by
  cases userinfo with
  | none => simp
  | some text =>
      have hText := (userinfo_chars (h text rfl)).1.1
      have hNe : openBracket ≠ at_ := by decide
      simp [hText, hNe]

/-- The authorities of the grammar are clean. -/
theorem cleanAuthority_of_mem {authority : Bytes} (h : authority ∈ Grammar.authority) : CleanAuthority authority := by
  obtain ⟨userinfo, host, port, hUserinfo, hHost, hPort, rfl⟩ := mem_authority.mp h
  have hFront := userinfo_unbracketed hUserinfo
  rcases mem_host.mp hHost with ⟨inner, hInner, rfl⟩ | hName
  · have hClose : closeBracket ∉ inner := fun hMem =>
      absurd (within_ipLiteral inner hInner closeBracket hMem) (by decide)
    have hText : (userinfo.map (· ++ [at_])).getD [] ++ (openBracket :: inner ++ [closeBracket]) ++
        (port.map (colon :: ·)).getD [] = (userinfo.map (· ++ [at_])).getD [] ++
          openBracket :: (inner ++ closeBracket :: (port.map (colon :: ·)).getD []) := by simp
    rw [hText]
    refine (cleanAuthority_literal hFront hClose).mpr ⟨?_, ?_, cleanLiteral_of_mem hInner⟩
    · cases userinfo <;> simp
    · cases port <;> simp
  · refine cleanAuthority_of_unbracketed fun hMem => ?_
    rcases List.mem_append.mp hMem with hMem | hMem
    · rcases List.mem_append.mp hMem with hMem | hMem
      · exact hFront hMem
      · exact absurd (encodedText_chars encodable_regNamePlain hName _ hMem) (by decide)
    · cases port with
      | none => cases hMem
      | some text =>
          rcases List.mem_cons.mp hMem with hEq | hMem
          · exact absurd hEq (by decide)
          · exact absurd (mem_kstar_oneOf.mp (hPort text rfl) _ hMem) (by decide)

theorem host_of_unbracketed {host : Bytes} (h : HostText host) (hUnbracketed : Unbracketed host) :
    host ∈ Grammar.host := by
  rcases h with hName | hLiteral
  · exact mem_host.mpr (.inr hName)
  · exact absurd (List.mem_of_head? hLiteral.head) hUnbracketed.1

theorem host_of_literal {inner : Bytes} (h : HostText (openBracket :: inner ++ [closeBracket]))
    (hClean : CleanLiteral inner) : openBracket :: inner ++ [closeBracket] ∈ Grammar.host := by
  rcases h with hName | hLiteral
  · exact absurd (encodedText_chars encodable_regNamePlain hName openBracket (by simp)) (by decide)
  · obtain ⟨errno, hAccepted⟩ := hLiteral.accepted
    exact mem_host.mpr (.inl ⟨inner, mem_of_cleanLiteral hClean hAccepted, rfl⟩)

/-- Nothing stands between the userinfo and a literal. -/
theorem skipped_eq_nil {parts : AuthorityText} (h : parts.Accepted)
    (hFront : ∀ c ∈ (parts.userinfoText ++ parts.skipped).getLast?, c = at_) : parts.skipped = [] := by
  by_contra hNe
  obtain ⟨init, c, hSkipped⟩ := (List.eq_nil_or_concat' parts.skipped).resolve_left hNe
  have hAt : c = at_ := hFront c (by rw [hSkipped]; simp)
  subst hAt
  exact absurd (h.skipped at_ (by simp [hSkipped])) (by decide)

/-- The clean authorities that are accepted are in the grammar. -/
theorem mem_authority_of_clean {parts : AuthorityText} (h : parts.Accepted) (hClean : CleanAuthority parts.text) :
    parts.text ∈ Grammar.authority := by
  have hPort : ∀ text ∈ parts.port, text ∈ Grammar.port := fun text hText => (h.port text hText).1
  suffices hParts : parts.skipped = [] ∧ parts.trailing = [] ∧ parts.host ∈ Grammar.host by
    obtain ⟨hSkipped, hTrailing, hHost⟩ := hParts
    refine mem_authority.mpr ⟨parts.userinfo, parts.host, parts.port, h.userinfo, hHost, hPort, ?_⟩
    simp [AuthorityText.text, AuthorityText.userinfoText, HostPort.behindUserinfo, HostPort.portText, hSkipped, hTrailing]
  have hSkipped := skipped_eq_nil h
  have hUserinfo := userinfo_unbracketed h.userinfo
  obtain ⟨⟨skipped, host, trailing, port⟩, userinfo⟩ := parts
  have hHost := h.host
  have hCut := h.cut
  cases hCut with
  | name hUnbracketed _ => exact ⟨rfl, rfl, host_of_unbracketed hHost hUnbracketed⟩
  | namePort hUnbracketed _ _ => exact ⟨rfl, rfl, host_of_unbracketed hHost hUnbracketed⟩
  | @literal _ inner _ hSkippedText hInner _ hColon =>
      have hText : AuthorityText.text ⟨⟨skipped, openBracket :: inner ++ [closeBracket], trailing, none⟩, userinfo⟩ =
          (userinfo.map (· ++ [at_])).getD [] ++ skipped ++ openBracket :: (inner ++ closeBracket :: trailing) := by
        simp [AuthorityText.text, AuthorityText.userinfoText, HostPort.behindUserinfo, HostPort.portText]
      rw [hText, cleanAuthority_literal (by simp [hUserinfo, hSkippedText.1]) hInner.2] at hClean
      obtain ⟨hFront, hBehind, hLiteral⟩ := hClean
      refine ⟨hSkipped hFront, ?_, host_of_literal hHost hLiteral⟩
      rcases trailing with _ | ⟨c, trailing⟩
      · rfl
      · exact absurd (List.mem_cons.mpr (.inl (hBehind c rfl).symm)) hColon
  | @literalPort _ inner port hSkippedText hInner _ _ =>
      have hText : AuthorityText.text ⟨⟨skipped, openBracket :: inner ++ [closeBracket], [], some port⟩, userinfo⟩ =
          (userinfo.map (· ++ [at_])).getD [] ++ skipped ++ openBracket :: (inner ++ closeBracket :: colon :: port) := by
        simp [AuthorityText.text, AuthorityText.userinfoText, HostPort.behindUserinfo, HostPort.portText]
      rw [hText, cleanAuthority_literal (by simp [hUserinfo, hSkippedText.1]) hInner.2] at hClean
      obtain ⟨hFront, _, hLiteral⟩ := hClean
      exact ⟨hSkipped hFront, rfl, host_of_literal hHost hLiteral⟩

/-! ### URIs -/

theorem scheme_no_colon {scheme : Bytes} (h : scheme ∈ Grammar.scheme) : colon ∉ scheme := by
  obtain ⟨c, tail, rfl, hc, hTail⟩ := mem_scheme.mp h
  intro hMem
  rcases List.mem_cons.mp hMem with rfl | hMem
  · exact absurd hc (by decide)
  · exact absurd (hTail colon hMem) (by decide)

/-- The beginning of a text that does not go on with a slash. -/
theorem take_two_ne {path behind : Bytes} (hPath : path.take 2 ≠ [slash, slash]) (hBehind : behind.head? ≠ some slash) :
    (path ++ behind).take 2 ≠ [slash, slash] := by
  intro hTake
  rcases path with _ | ⟨c, _ | ⟨d, path⟩⟩
  · rcases behind with _ | ⟨c, behind⟩
    · cases hTake
    · exact hBehind (congrArg some (List.cons.inj hTake).1)
  · rcases behind with _ | ⟨d, behind⟩
    · cases hTake
    · exact hBehind (congrArg some (List.cons.inj (List.cons.inj hTake).2).1)
  · exact hPath hTake

theorem path_chars {path : Bytes} (h : path ∈ Grammar.encodedText pathPlain) : ∀ c ∈ path, queryChar c = true := by
  intro c hc
  rw [queryChar_iff]
  refine (encodedText_chars encodable_pathPlain h c hc).imp_left fun hPlain => ?_
  simp only [pathPlain, queryPlain, Bool.or_eq_true] at hPlain ⊢
  exact .inl hPlain

/-- The query with its delimiter. -/
theorem queryText_chars {query : Option Bytes} (h : ∀ text ∈ query, text ∈ Grammar.query) :
    ∀ c ∈ (query.map (question :: ·)).getD [], queryChar c = true := by
  cases query with
  | none => simp
  | some text =>
      refine List.forall_mem_cons.mpr ⟨by decide, fun c hc => ?_⟩
      exact (queryChar_iff c).mpr (encodedText_chars encodable_queryPlain (h text rfl) c hc)

/-- A text that is clean behind its authority. -/
theorem clean_of_parts {s path query : Bytes} {fragment : Option Bytes} (hAuthority : CleanAuthority (authorityPart s))
    (hPath : ∀ c ∈ path, queryChar c = true) (hQuery : ∀ c ∈ query, queryChar c = true)
    (hFragment : ∀ text ∈ fragment, text ∈ Grammar.fragment)
    (h : behindAuthority s = path ++ (query ++ (fragment.map (hash :: ·)).getD [])) : Clean s := by
  have hBody : ∀ c ∈ path ++ query, queryChar c = true := fun c hc =>
    (List.mem_append.mp hc).elim (hPath c) (hQuery c)
  rw [← List.append_assoc] at h
  obtain ⟨hFront, hTail⟩ := parts_fragment h (fun hMem => absurd (hBody hash hMem) (by decide))
    (by cases fragment <;> simp)
  refine ⟨?_, hAuthority, ?_⟩
  · rwa [hFront]
  · rw [hTail]
    cases fragment with
    | none => exact unspaced_nil
    | some text => exact unspaced_of_mem (hFragment text rfl)

/-- The URIs of the grammar are clean. -/
theorem clean_of_mem {s : Bytes} (h : s ∈ Grammar.uri) : Clean s := by
  obtain ⟨scheme, hScheme, hier, hHier, query, fragment, hQuery, hFragment, rfl⟩ := mem_uri.mp h
  obtain ⟨behind, hBehindEq⟩ : ∃ behind, behind = (query.map (question :: ·)).getD [] ++
    (fragment.map (hash :: ·)).getD [] := ⟨_, rfl⟩
  have hBehind : ∀ c ∈ behind.head?, c = question ∨ c = hash := by
    rw [hBehindEq]
    cases query <;> cases fragment <;> simp
  rcases mem_hierPart.mp hHier with ⟨authority, hAuthority, path, hPath, rfl⟩ | ⟨hEncoded, hTake⟩
  · have hRest : ∀ c ∈ (path ++ behind).head?, authorityEnd c = true := by
      intro c hc
      rcases mem_pathAbempty.mp hPath with rfl | ⟨tail, _, rfl⟩
      · rcases hBehind c hc with rfl | rfl <;> decide
      · obtain rfl := Option.some.inj hc
        decide
    obtain ⟨hPart, hBehindPart⟩ := parts_authority (scheme_no_colon hScheme) (within_authority authority hAuthority) hRest
    have hText : scheme ++ colon :: (slash :: slash :: (authority ++ path) ++ behind) =
        scheme ++ colon :: slash :: slash :: (authority ++ (path ++ behind)) := by simp
    rw [← hBehindEq, hText]
    refine clean_of_parts ?_ (path_chars (pathAbempty_encoded hPath)) (queryText_chars hQuery) hFragment
      (hBehindPart.trans (by rw [hBehindEq]))
    rw [hPart]
    exact cleanAuthority_of_mem hAuthority
  · have hNotSlash : behind.head? ≠ some slash := fun hHead => by
      rcases hBehind slash hHead with hEq | hEq <;> exact absurd hEq (by decide)
    obtain ⟨hPart, hBehindPart⟩ := parts_rootless (scheme_no_colon hScheme) (take_two_ne hTake hNotSlash)
    rw [← hBehindEq]
    refine clean_of_parts ?_ (path_chars hEncoded) (queryText_chars hQuery) hFragment
      (hBehindPart.trans (by rw [hBehindEq]))
    rw [hPart]
    exact cleanAuthority_of_unbracketed (by simp)

/-- What the parser has not read of a clean text is the fragment. -/
theorem rest_of_clean {s body rest : Bytes} (hBody : ∀ c ∈ body, queryChar c = true) (hRest : Boundary queryChar rest)
    (h : behindAuthority s = body ++ rest) (hRead : ∀ c ∈ inFrontOfFragment s, queryChar c = true) :
    ∀ c ∈ rest.head?, c = hash := by
  intro c hc
  by_contra hNe
  obtain ⟨tail, rfl⟩ := List.head?_eq_some_iff.mp hc
  have hText : ∀ d ∈ body, (d != hash) = true := fun d hd => by
    simpa using fun hEq : d = hash => absurd (hBody d hd) (by rw [hEq]; decide)
  have hMem : c ∈ inFrontOfFragment s := by
    rw [inFrontOfFragment, h, List.takeWhile_append_of_pos hText, List.takeWhile_cons_of_pos (by simpa using hNe)]
    simp
  exact absurd (hRead c hMem) (by simp [boundary_cons.mp hRest])

theorem rootless_take {path : Bytes} (h : Rootless path) :
    path.take 2 ≠ [slash, slash] ∧ (slash :: path).take 2 ≠ [slash, slash] := by
  rcases path with _ | ⟨c, path⟩
  · exact ⟨by simp, by simp⟩
  · have hHead : c ≠ slash := by simpa using h.head
    exact ⟨fun hTake => hHead (List.cons.inj hTake).1, fun hTake => hHead (List.cons.inj (List.cons.inj hTake).2).1⟩

/-- The hierarchical part of an accepted text with a clean authority, and where
the parser goes on behind the authority. -/
theorem hierPart_of_clean {parts : Parts} (h : parts.Accepted) (hClean : CleanAuthority (authorityPart parts.text)) :
    authorityText parts.authority ++ parts.path ∈ Grammar.hierPart ∧
      parts.path ∈ Grammar.encodedText pathPlain ∧
      behindAuthority parts.text = parts.path ++ (parts.queryText ++ parts.rest) := by
  have hColon := scheme_no_colon h.scheme
  have hHier := h.hier
  obtain ⟨behind, hBehind⟩ : ∃ behind, behind = parts.queryText ++ parts.rest := ⟨_, rfl⟩
  rw [Parts.text, ← hBehind] at hClean ⊢
  rw [← hBehind] at hHier
  clear h hBehind
  obtain ⟨scheme, authority, path, query, rest⟩ := parts
  have hNotSlash (hRest : Boundary pathOrSlash behind) : behind.head? ≠ some slash := fun hHead =>
    absurd (hRest slash hHead) (by decide)
  cases hHier with
  | rootless hPath hRest =>
      have hTake := (rootless_take hPath).1
      obtain ⟨_, hBehindPart⟩ := parts_rootless hColon (take_two_ne hTake (hNotSlash hRest))
      exact ⟨mem_hierPart.mpr (.inr ⟨hPath.encoded, hTake⟩), hPath.encoded, hBehindPart⟩
  | @absolute path _ hPath hRest =>
      have hTake := (rootless_take hPath).2
      have hEncoded : slash :: path ∈ Grammar.encodedText pathPlain := cons_mem_encodedText (by decide) hPath.encoded
      obtain ⟨_, hBehindPart⟩ := parts_rootless hColon (take_two_ne hTake (hNotSlash hRest))
      exact ⟨mem_hierPart.mpr (.inr ⟨hEncoded, hTake⟩), hEncoded, hBehindPart⟩
  | @authority authority _ _ hAuthority hPath =>
      have hRest : ∀ c ∈ (path ++ behind).head?, authorityEnd c = true := by
        rcases hPath with ⟨rfl, hRest⟩ | ⟨tail, rfl, _, _⟩
        · intro c hc
          rcases hRest c hc with rfl | rfl <;> decide
        · rintro _ ⟨⟩
          decide
      have hMem : path ∈ Grammar.pathAbempty := by
        apply mem_pathAbempty.mpr
        rcases hPath with ⟨hNil, _⟩ | ⟨tail, hEq, hTail, _⟩
        · exact .inl hNil
        · exact .inr ⟨tail, hTail.encoded, hEq⟩
      have hText : scheme ++ colon :: (authorityText (some authority) ++ path ++ behind) =
          scheme ++ colon :: slash :: slash :: (authority.text ++ (path ++ behind)) := by simp [authorityText]
      obtain ⟨hPart, hBehindPart⟩ := parts_authority hColon hAuthority.text_chars.1 hRest
      dsimp only at hClean ⊢
      rw [hText] at hClean ⊢
      rw [hPart] at hClean
      have hHierPart : authorityText (some authority) ++ path = slash :: slash :: (authority.text ++ path) := rfl
      rw [hHierPart]
      exact ⟨mem_hierPart.mpr (.inl ⟨_, mem_authority_of_clean hAuthority hClean, path, hMem, rfl⟩),
        pathAbempty_encoded hMem, hBehindPart⟩

/-- The clean texts that are accepted are URIs of the grammar. -/
theorem mem_of_clean {parts : Parts} (h : parts.Accepted) (hClean : Clean parts.text) : parts.text ∈ Grammar.uri := by
  obtain ⟨hHier, hPath, hBehind⟩ := hierPart_of_clean h hClean.authority
  rw [← List.append_assoc] at hBehind
  have hQuery := queryText_chars h.query
  have hBody : ∀ c ∈ parts.path ++ parts.queryText, queryChar c = true := fun c hc =>
    (List.mem_append.mp hc).elim (path_chars hPath c) (hQuery c)
  have hRest := rest_of_clean hBody h.rest hBehind hClean.read
  obtain ⟨_, hTail⟩ := parts_fragment hBehind (fun hMem => absurd (hBody hash hMem) (by decide)) hRest
  have hUnspaced := hClean.fragment
  rw [hTail] at hUnspaced
  have hFragment : ∃ fragment : Option Bytes, (∀ text ∈ fragment, text ∈ Grammar.fragment) ∧
      parts.rest = (fragment.map (hash :: ·)).getD [] := by
    have hVisible := h.fragment
    rcases hText : parts.rest with _ | ⟨c, text⟩
    · exact ⟨none, by simp, rfl⟩
    · rw [hText] at hRest hUnspaced
      obtain rfl : c = hash := hRest c rfl
      rw [Parts.fragment, hText, if_pos List.head?_cons, List.tail_cons] at hVisible
      exact ⟨some text, by simpa using mem_fragment_of_unspaced hVisible hUnspaced, rfl⟩
  obtain ⟨fragment, hFragment, hText⟩ := hFragment
  refine mem_uri.mpr ⟨parts.scheme, h.scheme, _, hHier, parts.query, fragment, h.query, hFragment, ?_⟩
  rw [Parts.text, hText]
  rfl

/-- An accepted text is a URI of the grammar if and only if it is clean. -/
theorem accepted_mem_uri_iff (ports : SchemePorts) {s : Bytes} (hs : s ≠ []) {result result' : Option Uri}
    {errno errno' : Imperr} (h : parse ports s result errno = .ok (true, result', errno')) :
    s ∈ Grammar.uri ↔ Clean s := by
  obtain ⟨parts, rfl, hParts, _⟩ := parse_split hs h
  exact ⟨clean_of_mem, mem_of_clean hParts⟩

/-- "foo:/a?b". -/
def plainUri : Bytes := [0x66, 0x6F, 0x6F, colon, slash, 0x61, question, 0x62]

theorem accepted_mem_uri_iff_plain : plainUri ∈ Grammar.uri := by
  have hAccepted : parse ⟨[], [], -1⟩ plainUri none .success = .ok (true, none, .success) := rfl
  have hRead : inFrontOfFragment plainUri = [slash, 0x61, question, 0x62] := rfl
  have hAuthority : authorityPart plainUri = [] := rfl
  refine (accepted_mem_uri_iff ⟨[], [], -1⟩ (by simp [plainUri]) hAccepted).mpr ⟨?_, ?_, unspaced_nil⟩
  · rw [hRead]
    simp only [List.forall_mem_cons]
    exact ⟨rfl, rfl, rfl, rfl, by simp⟩
  · rw [hAuthority]
    exact cleanAuthority_of_unbracketed (by simp)

/-- "foo:/a b". -/
def spacedPath : Bytes := [0x66, 0x6F, 0x6F, colon, slash, 0x61, 0x20, 0x62]

/-- The parser stops at the space, and does not look whether it is at the end. -/
theorem spacedPath_accepted :
    (∃ u, parse ⟨[], [], -1⟩ spacedPath (some empty) .success = .ok (true, some u, .success)) ∧
      spacedPath ∉ Grammar.uri := by
  refine ⟨⟨_, rfl⟩, fun hMem => ?_⟩
  have hRead : inFrontOfFragment spacedPath = [slash, 0x61, 0x20, 0x62] := rfl
  exact absurd ((clean_of_mem hMem).read 0x20 (by simp [hRead])) (by decide)

end ImpactSockets.Uri
