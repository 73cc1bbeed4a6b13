import ImpactSockets.Rfc.Uri.Completeness
import ImpactSockets.Rfc.Uri.LiteralCase

/-! Parsing what a parsed URI is recomposed to. -/
namespace ImpactSockets.Uri

open Abnf AbnfOps Ascii
open scoped Computability

/-! ### Hosts in brackets -/

/-- An accepted address has only characters of an IPvFuture. -/
theorem acceptedAddress_chars {w : Bytes} (h : AcceptedAddress w) : ∀ c ∈ w, ipvFutureChar c = true := by
  intro c hc
  cases h with
  | full h => exact within_groups 8 w h c hc
  | @elided a b front back _ hFront hBack =>
      simp only [List.mem_append, List.mem_cons] at hc
      rcases hc with hc | rfl | rfl | hc
      · exact within_groups a front hFront c hc
      · decide
      · decide
      · exact within_groups b back hBack c hc
  | @quad a b front back quad _ hFront hBack hQuad =>
      simp only [List.mem_append, List.mem_cons] at hc
      rcases hc with hc | rfl | rfl | hc | hc
      · exact within_groups a front hFront c hc
      · decide
      · decide
      · exact within_h16Colon.pow b back hBack c hc
      · have hName := regNamePlain_of_digit c (within_looseQuad quad hQuad c hc)
        simp only [ipvFutureChar, Bool.or_eq_true]
        exact .inl (by simpa [regNamePlain] using hName)

/-- An IPvFuture has only characters that the parser allows in one. -/
theorem ipvFuture_chars {w : Bytes} (h : w ∈ Grammar.ipvFuture) : ∀ c ∈ w, ipvFutureChar c = true :=
  within_ipLiteral w ((Language.mem_add _ _ _).mpr (.inr h))

/-- Without a triplet the lowering of a host is letter by letter. -/
theorem lowered_of_no_percent {text : Bytes} (h : percent ∉ text) : lowered text = text.map tolower := by
  induction text with
  | nil => rfl
  | cons c rest ih =>
      rw [List.mem_cons, not_or] at h
      rw [lowered_plain (Ne.symm h.1), ih h.2, List.map_cons]

set_option maxRecDepth 4000 in
theorem hostPlain_of_ipvFutureChar : ∀ c : UInt8, ipvFutureChar c = true → hostPlain c = true := by
  decide

/-- A host in brackets is stored as its text in lower case, which is accepted again. -/
theorem bracketedHost_lowered {inner : Bytes} (h : BracketedHost (openBracket :: inner ++ [closeBracket])) :
    lowered (openBracket :: inner ++ [closeBracket]) = openBracket :: inner.map tolower ++ [closeBracket] ∧
      BracketedHost (openBracket :: inner.map tolower ++ [closeBracket]) ∧
      ∀ c ∈ inner.map tolower, ipvFutureChar c = true := by
  obtain ⟨errno, hAccepted⟩ := h.accepted
  have hInner : ∀ c ∈ inner, ipvFutureChar c = true := by
    rcases parseIpLiteral_split hAccepted with ⟨_, hFuture⟩ | ⟨_, hAddress⟩
    · exact ipvFuture_chars hFuture
    · exact acceptedAddress_chars hAddress
  have hLower : ∀ c ∈ inner.map tolower, ipvFutureChar c = true := by
    simpa [ipvFutureChar_tolower] using hInner
  have hPercent : percent ∉ openBracket :: inner ++ [closeBracket] := by
    simp only [List.mem_append, List.mem_cons, List.not_mem_nil, or_false, not_or]
    exact ⟨⟨by decide, fun hMem => absurd (hInner percent hMem) (by decide)⟩, by decide⟩
  refine ⟨?_, ⟨rfl, ⟨errno, parseIpLiteral_tolower hAccepted⟩, ?_⟩, hLower⟩
  · rw [lowered_of_no_percent hPercent, List.map_append, List.map_cons]
    rfl
  · refine mem_encodedText_of_chars fun c hc => ?_
    simp only [List.mem_append, List.mem_cons, List.not_mem_nil, or_false] at hc
    rcases hc with (rfl | hc) | rfl
    · decide
    · exact hostPlain_of_ipvFutureChar c (hLower c hc)
    · decide

/-! ### Normal forms -/

set_option maxRecDepth 4000 in
/-- A hexadecimal digit keeps its value when it is made a capital. -/
theorem toupper_of_hexdig : ∀ c : UInt8, hexdig c = true →
    hexdig (toupper c) = true ∧ hexValue (toupper c) = hexValue c ∧ toupper (toupper c) = toupper c := by
  decide

/-- Decoding leaves the triplets that it has kept. -/
theorem normalTriplet_idem {high low : UInt8} (hHigh : hexdig high = true) (hLow : hexdig low = true) (rest : Bytes) :
    percentNormal id (normalTriplet id high low ++ rest) = normalTriplet id high low ++ percentNormal id rest := by
  obtain ⟨_, hHighValue, hHighUpper⟩ := toupper_of_hexdig high hHigh
  obtain ⟨_, hLowValue, hLowUpper⟩ := toupper_of_hexdig low hLow
  have hByte : encodedByte (toupper high) (toupper low) = encodedByte high low := by
    rw [encodedByte, encodedByte, hHighValue, hLowValue]
  by_cases hKept : (reserved (encodedByte high low) || encodedByte high low == percent) = true
  · have hTriplet : normalTriplet id high low = [percent, toupper high, toupper low] := if_pos hKept
    have hAgain : normalTriplet id (toupper high) (toupper low) = [percent, toupper high, toupper low] := by
      rw [normalTriplet, hByte, if_pos hKept, hHighUpper, hLowUpper]
    rw [hTriplet]
    simp only [List.cons_append, List.nil_append]
    rw [percentNormal_triplet, hAgain]
    rfl
  · have hTriplet : normalTriplet id high low = [encodedByte high low] := if_neg hKept
    have hNe : encodedByte high low ≠ percent := by
      simp only [Bool.or_eq_true, beq_iff_eq, not_or] at hKept
      exact hKept.2
    rw [hTriplet]
    simp only [List.cons_append, List.nil_append]
    rw [percentNormal_plain hNe, id_eq]

/-- Normalizing the triplets a second time changes nothing. -/
theorem percentNormal_idem {plain : UInt8 → Bool} (hPercent : plain percent = false) {w : Bytes}
    (h : w ∈ Grammar.encodedText plain) : percentNormal id (percentNormal id w) = percentNormal id w := by
  refine @encodedText_induction plain (fun w => percentNormal id (percentNormal id w) = percentNormal id w)
    rfl ?_ ?_ w h
  · intro c rest hc ih
    have hNe : c ≠ percent := by
      rintro rfl
      rw [hPercent] at hc
      cases hc
    rw [percentNormal_plain hNe, id_eq, percentNormal_plain hNe, ih, id_eq]
  · intro high low rest hHigh hLow ih
    rw [percentNormal_triplet, normalTriplet_idem hHigh hLow, ih]

/-- Decoding a fragment gives a text that can be decoded. -/
theorem percentNormal_fragment {w : Bytes} (h : w ∈ Grammar.fragment) : percentNormal id w ∈ Grammar.fragment := by
  refine @encodedText_induction (fun c => c != percent) (fun w => percentNormal id w ∈ Grammar.fragment)
    (Language.nil_mem_kstar _) ?_ ?_ w h
  · intro c rest hc ih
    rw [percentNormal_plain (by simpa using hc)]
    exact cons_mem_encodedText hc ih
  · intro high low rest hHigh hLow ih
    rw [percentNormal_triplet, normalTriplet]
    split_ifs with hKept
    · exact triplet_mem_encodedText (toupper_of_hexdig high hHigh).1 (toupper_of_hexdig low hLow).1 ih
    · simp only [Bool.or_eq_true, beq_iff_eq, not_or] at hKept
      exact cons_mem_encodedText (by simpa using hKept.2) ih

/-! ### Ports -/

theorem digitChar_toUInt8 : ∀ d : Fin 10, (Nat.digitChar d).toUInt8 = UInt8.ofNat (0x30 + d) := by
  decide

/-- The ten digits and their values. -/
theorem digit_ofNat :
    ∀ d : Fin 10, digit (UInt8.ofNat (0x30 + d)) = true ∧ (UInt8.ofNat (0x30 + d)).toNat = 0x30 + d := by
  decide

/-- The last digit, behind those of the tenth part. -/
theorem toString_eq (n : Nat) :
    authority.toString_ n =
      (if n < 10 then [] else authority.toString_ (n / 10 : Nat)) ++ [UInt8.ofNat (0x30 + n % 10)] := by
  have hLast : (Nat.digitChar (n % 10)).toUInt8 = UInt8.ofNat (0x30 + n % 10) :=
    digitChar_toUInt8 ⟨n % 10, Nat.mod_lt n (by decide)⟩
  unfold authority.toString_
  rw [Int.toNat_natCast, Int.toNat_natCast, Nat.toDigits_eq_if (by decide)]
  split_ifs with hSmall
  · rw [Nat.mod_eq_of_lt hSmall] at hLast ⊢
    exact congrArg (fun c => [c]) hLast
  · rw [List.map_append]
    exact congrArg (fun c => _ ++ [c]) hLast

/-- `std::to_string` writes digits that denote its number. -/
theorem toString_reads (n : Nat) :
    (∀ c ∈ authority.toString_ n, digit c = true) ∧ decimalValue (authority.toString_ n) = n := by
  induction n using Nat.strong_induction_on with
  | _ n ih =>
      obtain ⟨hDigit, hValue⟩ := digit_ofNat ⟨n % 10, Nat.mod_lt n (by decide)⟩
      dsimp only at hDigit hValue
      rw [toString_eq]
      split_ifs with hSmall
      · refine ⟨by simpa using hDigit, ?_⟩
        rw [decimalValue_concat, hValue, Nat.add_sub_cancel_left, Nat.mod_eq_of_lt hSmall]
        simp [decimalValue]
      · obtain ⟨hDigits, hRest⟩ := ih (n / 10) (by omega)
        refine ⟨List.forall_mem_append.mpr ⟨hDigits, by simpa using hDigit⟩, ?_⟩
        rw [decimalValue_concat, hRest, hValue]
        omega

/-- A port below 10^n is written with at most n digits. -/
theorem toString_length {port n : Nat} (hPos : 0 < n) (h : port < 10 ^ n) :
    (authority.toString_ port).length ≤ n := by
  rw [authority.toString_, List.length_map, Int.toNat_natCast]
  exact (Nat.length_toDigits_le_iff (by decide) hPos).mpr h

theorem toString_ne_nil (port : Int) : authority.toString_ port ≠ [] := by
  simp [authority.toString_]

/-- A port is written as digits that are read as the port. -/
theorem portText_toString {port : Nat} (h : port < 10 ^ 9) :
    PortText (authority.toString_ port) ∧ portNumber (authority.toString_ port) = port := by
  obtain ⟨hDigits, hValue⟩ := toString_reads port
  refine ⟨⟨mem_kstar_oneOf.mpr hDigits, toString_length (by decide) h⟩, ?_⟩
  rw [portNumber, if_neg (toString_ne_nil port), hValue]

/-- The port that is read again, when it was read before or is the one of the
scheme. -/
theorem postParsePort_again {ports : SchemePorts} {scheme text : Bytes}
    (h : (postParsePort ports scheme (portNumber text)).2 = true → (ports.lookup scheme).isSome = true) :
    let port := postParsePort ports scheme (portNumber text)
    postParsePort ports scheme (if 0 ≤ port.1 ∧ ¬port.2 then port.1 else -1) = port := by
  by_cases hNil : text = []
  · subst hNil
    rw [portNumber, if_pos rfl]
    simp only [postParsePort, if_neg (show ¬(0 : Int) ≤ -1 by decide)]
    cases ports.lookup scheme with
    | none => rfl
    | some value =>
        by_cases hValue : 0 ≤ value
        · simp [hValue]
        · simp [hValue]
  · have hPositive : 0 ≤ portNumber text := by
      rw [portNumber, if_neg hNil]
      exact Int.natCast_nonneg _
    have hPort : postParsePort ports scheme (portNumber text) =
        (portNumber text, portNumber text == (ports.lookup scheme).getD ports.endSecond) := if_pos hPositive
    rw [hPort] at h ⊢
    by_cases hDefault : (portNumber text == (ports.lookup scheme).getD ports.endSecond) = true
    · obtain ⟨value, hSome⟩ := Option.isSome_iff_exists.mp (h hDefault)
      rw [hSome, Option.getD_some, beq_iff_eq] at hDefault
      rw [hDefault] at hPositive ⊢
      simp [postParsePort, hSome, hPositive]
    · dsimp only
      rw [if_pos ⟨hPositive, hDefault⟩, hPort]

/-! ### Paths -/

/-- Decoding brings up no slash. -/
theorem percentNormal_head {plain : UInt8 → Bool} (hPercent : plain percent = false) {w : Bytes}
    (h : w ∈ Grammar.encodedText plain) (hHead : (percentNormal id w).head? = some slash) : w.head? = some slash := by
  revert hHead
  refine @encodedText_induction plain (fun w => (percentNormal id w).head? = some slash → w.head? = some slash)
    id ?_ ?_ w h
  · intro c rest hc _ hHead
    have hNe : c ≠ percent := by
      rintro rfl
      rw [hPercent] at hc
      cases hc
    rwa [percentNormal_plain hNe] at hHead
  · intro high low rest _ _ _ hHead
    rw [percentNormal_triplet, normalTriplet] at hHead
    split_ifs at hHead with hKept
    · exact absurd hHead (by simp; decide)
    · have hSlash : encodedByte high low = slash := Option.some.inj hHead
      rw [hSlash] at hKept
      exact absurd rfl hKept

/-- Normalizing the triplets puts no two slashes in a row: a slash is reserved, so its triplet
stays. -/
theorem percentNormal_singleSlashed {plain : UInt8 → Bool} (hPercent : plain percent = false) {w : Bytes}
    (h : w ∈ Grammar.encodedText plain) (hSingle : SingleSlashed w) : SingleSlashed (percentNormal id w) := by
  revert hSingle
  refine (@encodedText_induction plain (fun w => w ∈ Grammar.encodedText plain ∧
    (SingleSlashed w → SingleSlashed (percentNormal id w))) ⟨Language.nil_mem_kstar _, id⟩ ?_ ?_ w h).2
  · rintro c rest hc ⟨hRest, ih⟩
    refine ⟨cons_mem_encodedText hc hRest, fun hSingle => ?_⟩
    have hNe : c ≠ percent := by
      rintro rfl
      rw [hPercent] at hc
      cases hc
    obtain ⟨hFirst, hTail⟩ := singleSlashed_cons.mp hSingle
    rw [percentNormal_plain hNe]
    exact singleSlashed_cons.mpr ⟨fun hc hHead => hFirst hc (percentNormal_head hPercent hRest hHead), ih hTail⟩
  · rintro high low rest hHigh hLow ⟨hRest, ih⟩
    refine ⟨triplet_mem_encodedText hHigh hLow hRest, fun hSingle => ?_⟩
    have hTail := (singleSlashed_cons.mp (singleSlashed_cons.mp (singleSlashed_cons.mp hSingle).2).2).2
    have hDigit (c : UInt8) (hc : hexdig c = true) : toupper c ≠ slash := by
      intro hEq
      have hUpper := (toupper_of_hexdig c hc).1
      rw [hEq] at hUpper
      cases hUpper
    rw [percentNormal_triplet, normalTriplet]
    split_ifs with hKept
    · simp only [List.cons_append, List.nil_append]
      refine singleSlashed_cons.mpr ⟨fun hEq => absurd hEq (by decide), ?_⟩
      refine singleSlashed_cons.mpr ⟨fun hEq => absurd hEq (hDigit high hHigh), ?_⟩
      exact singleSlashed_cons.mpr ⟨fun hEq => absurd hEq (hDigit low hLow), ih hTail⟩
    · refine singleSlashed_cons.mpr ⟨fun hSlash => ?_, ih hTail⟩
      rw [show encodedByte high low = slash from hSlash] at hKept
      exact absurd rfl hKept

/-! ### Recomposition -/

/-- Every component, as it is stored, is a text that the grammar allows in its
place and that stands for itself. -/
structure Recomposable (u : Uri) : Prop where
  userinfo : u.userinfo ∈ Grammar.userinfo
  host : u.host ∈ Grammar.regName ∨ u.host.head? = some openBracket
  /-- No triplet of the host has become an upper-case letter. -/
  host_lower : lowered u.host = u.host
  path : u.path ∈ Grammar.encodedText pathPlain
  path_normal : percentNormal id u.path = u.path
  /-- The first segment is no lone ":". -/
  path_colon : ∀ tail, u.path ≠ colon :: slash :: tail ∧ u.path ≠ slash :: colon :: slash :: tail
  path_rooted : u.hasAuth = true → u.path = [] ∨ u.path.head? = some slash
  query : u.query ∈ Grammar.query
  fragment : ∀ c ∈ u.fragment, isspace c = false

/-- The port, where it is written out. -/
def shownPort (u : Uri) : Option Bytes :=
  if 0 ≤ u.port ∧ ¬u.hasDefaultPort then some (authority.toString_ u.port) else none

/-- The authority that `authority` writes. -/
def shownAuthority (u : Uri) : AuthorityText :=
  ⟨⟨[], u.host, [], shownPort u⟩, if u.userinfo = [] then none else some u.userinfo⟩

/-- The parts that `str` puts together. -/
def recomposed (u : Uri) : Parts where
  scheme := u.scheme
  authority := if u.hasAuth then some (shownAuthority u) else none
  path := u.path
  query := if u.query = [] then none else some u.query
  rest := if u.fragment = [] then [] else Ascii.hash :: u.fragment

/-- `authority()` writes the authority that is shown. -/
theorem shownAuthority_text (u : Uri) : (shownAuthority u).text = authority u := by
  simp only [AuthorityText.text, AuthorityText.userinfoText, HostPort.behindUserinfo, HostPort.portText,
    shownAuthority, shownPort, authority, List.nil_append, List.append_nil]
  have hUserinfo : (Option.map (· ++ [at_]) (if u.userinfo = [] then none else some u.userinfo)).getD [] =
      if u.userinfo.length ≠ 0 then u.userinfo ++ [at_] else [] := by
    by_cases hNil : u.userinfo = []
    · simp [hNil]
    · simp [hNil]
  have hPort : (Option.map (colon :: ·) (if 0 ≤ u.port ∧ ¬u.hasDefaultPort = true then
      some (authority.toString_ u.port) else none)).getD [] =
      if 0 ≤ u.port ∧ ¬u.hasDefaultPort = true then colon :: authority.toString_ u.port else [] := by
    split_ifs <;> rfl
  rw [hUserinfo, hPort, List.append_assoc]

/-- `str()` writes the recomposed parts, provided that path and authority fit together. -/
theorem recomposed_text {u : Uri} (hScheme : u.scheme ≠ []) (hBare : u.hasAuth = false → authority u = [])
    (hRooted : u.hasAuth = true → u.path = [] ∨ u.path.head? = some slash) : (recomposed u).text = str u := by
  have hAuthority : authorityText (recomposed u).authority =
      if (authority u).length ≠ 0 ∨ u.hasAuth = true then
        slash :: slash :: authority u ++
          if u.path.length ≠ 0 ∧ u.path.head? ≠ some slash then [slash] else []
      else [] := by
    cases hAuth : u.hasAuth with
    | false => simp [recomposed, authorityText, hAuth, hBare hAuth]
    | true =>
        have hPath : ¬(u.path.length ≠ 0 ∧ u.path.head? ≠ some slash) := by
          rcases hRooted hAuth with hNil | hHead
          · simp [hNil]
          · simp [hHead]
        rw [if_neg hPath, if_pos (.inr rfl), List.append_nil, recomposed, hAuth]
        exact congrArg (slash :: slash :: ·) (shownAuthority_text u)
  have hQuery : (recomposed u).queryText = if u.query.length ≠ 0 then question :: u.query else [] := by
    unfold recomposed Parts.queryText
    by_cases hNil : u.query = []
    · simp [hNil]
    · simp [hNil]
  have hRest : (recomposed u).rest = if u.fragment.length ≠ 0 then Ascii.hash :: u.fragment else [] := by
    unfold recomposed
    by_cases hNil : u.fragment = []
    · simp [hNil]
    · simp [hNil]
  have hSchemeText : (if u.scheme.length ≠ 0 then u.scheme ++ [colon] else []) = u.scheme ++ [colon] :=
    if_pos (by simpa using hScheme)
  rw [str, absStr, Parts.text, hAuthority, hQuery, hRest, hSchemeText]
  simp [recomposed]

/-! ### Parsing what is recomposed -/

theorem tolower_tolower : ∀ c : UInt8, tolower (tolower c) = tolower c := by
  intro c
  rcases tolower_cases c with hSame | ⟨_, hLower⟩
  · rw [hSame, hSame]
  · refine (tolower_eq_self _).mpr (Bool.eq_false_iff.mpr fun hUpper => ?_)
    simp only [upper, lower, Bool.and_eq_true, decide_eq_true_eq] at hUpper hLower
    exact absurd (UInt8.le_trans hLower.1 hUpper.2) (by decide)

set_option maxRecDepth 4000 in
theorem schemeChar_tolower : ∀ c : UInt8, alpha (tolower c) = alpha c ∧ schemeChar (tolower c) = schemeChar c := by
  decide

/-- A scheme in small letters is a scheme. -/
theorem scheme_tolower {text : Bytes} (h : text ∈ Grammar.scheme) : text.map tolower ∈ Grammar.scheme := by
  obtain ⟨c, tail, rfl, hc, hTail⟩ := mem_scheme.mp h
  refine mem_scheme.mpr ⟨tolower c, tail.map tolower, rfl, by rw [(schemeChar_tolower c).1, hc], ?_⟩
  simpa [(schemeChar_tolower _).2] using hTail

set_option maxRecDepth 4000 in
theorem tolower_openBracket : ∀ c : UInt8, tolower c = openBracket → c = openBracket := by
  decide

/-- No triplet and no capital stands for the bracket at the start of a host. -/
theorem lowered_head {plain : UInt8 → Bool} (hPercent : plain percent = false) {w : Bytes}
    (h : w ∈ Grammar.encodedText plain) (hHead : (lowered w).head? = some openBracket) :
    w.head? = some openBracket := by
  revert hHead
  refine @encodedText_induction plain (fun w => (lowered w).head? = some openBracket → w.head? = some openBracket)
    (fun hHead => by simp [lowered] at hHead) ?_ ?_ w h
  · intro c rest hc _ hHead
    have hNe : c ≠ percent := by
      rintro rfl
      rw [hPercent] at hc
      cases hc
    rw [lowered_plain hNe] at hHead
    exact congrArg some (tolower_openBracket c (Option.some.inj hHead))
  · intro high low rest _ _ _ hHead
    rw [lowered_triplet, normalTriplet] at hHead
    split_ifs at hHead with hKept
    · exact absurd hHead (by simp; decide)
    · have hBracket : encodedByte high low = openBracket := Option.some.inj hHead
      rw [hBracket] at hKept
      exact absurd rfl hKept

/-- A port is written out only if it was read. -/
theorem postParsePort_shown {ports : SchemePorts} {scheme text : Bytes}
    (h : 0 ≤ (postParsePort ports scheme (portNumber text)).1 ∧ ¬(postParsePort ports scheme (portNumber text)).2) :
    text ≠ [] ∧ (postParsePort ports scheme (portNumber text)).1 = portNumber text := by
  by_cases hNil : text = []
  · subst hNil
    rw [portNumber, if_pos rfl] at h
    simp only [postParsePort, if_neg (show ¬(0 : Int) ≤ -1 by decide)] at h
    cases hLookup : ports.lookup scheme with
    | none => simp [hLookup] at h
    | some value =>
        by_cases hValue : 0 ≤ value
        · simp [hLookup, hValue] at h
        · simp [hLookup, hValue] at h
  · have hPositive : 0 ≤ portNumber text := by
      rw [portNumber, if_neg hNil]
      exact Int.natCast_nonneg _
    exact ⟨hNil, congrArg Prod.fst (if_pos hPositive)⟩

/-- Paths that a parser reads, with their root or without one. -/
theorem rootless_or_rooted {path : Bytes} (hEncoded : path ∈ Grammar.encodedText pathPlain)
    (hSingle : SingleSlashed path)
    (hColon : ∀ tail, path ≠ colon :: slash :: tail ∧ path ≠ slash :: colon :: slash :: tail) :
    (Rootless path ∧ path.head? ≠ some slash) ∨ ∃ tail, path = slash :: tail ∧ Rootless tail := by
  by_cases hHead : path.head? = some slash
  · obtain ⟨tail, rfl⟩ := List.head?_eq_some_iff.mp hHead
    have hRoot : ∀ c ∈ [slash], pathPlain c = true := by
      simp only [List.mem_singleton, forall_eq]
      decide
    obtain ⟨hFirst, hTail⟩ := singleSlashed_cons.mp hSingle
    refine .inr ⟨tail, rfl, (append_mem_encodedText encodable_pathPlain hRoot).mp hEncoded, hFirst rfl, hTail, ?_⟩
    rintro rest rfl
    exact (hColon rest).2 rfl
  · exact .inl ⟨⟨hEncoded, hHead, hSingle, fun tail => (hColon tail).1⟩, hHead⟩

/-- The path of an accepted text has no two slashes in a row. -/
theorem HierText.path_slashed {authority : Option AuthorityText} {path rest : Bytes} (h : HierText authority path rest) :
    SingleSlashed path := by
  have hRooted {path : Bytes} (hPath : Rootless path) : SingleSlashed (slash :: path) :=
    singleSlashed_cons.mpr ⟨fun _ => hPath.head, hPath.slashed⟩
  cases h with
  | rootless hPath => exact hPath.slashed
  | absolute hPath => exact hRooted hPath
  | authority _ hPath =>
      rcases hPath with ⟨rfl, _⟩ | ⟨tail, rfl, hTail, _⟩
      · exact rootless_nil.slashed
      · exact hRooted hTail

/-- The path that is left of it has no dot segments and no two slashes in a row. -/
theorem HierText.path_settled {authority : Option AuthorityText} {path rest output : Bytes}
    (h : HierText authority path rest) (hNormal : pathNormalize (percentNormal id path) = .ok output) :
    Undotted output ∧ SingleSlashed output :=
  pathNormalize_settled (percentNormal_singleSlashed encodable_pathPlain.percent h.path_encoded h.path_slashed) hNormal

/-- The host that is written out, where it was read as `text`. -/
theorem shownHost_accepted {parts : AuthorityText} (h : parts.Accepted) {host : Bytes} (hHost : host = lowered parts.host)
    (hShown : host ∈ Grammar.regName ∨ host.head? = some openBracket) {port : Option Bytes}
    (hPort : ∀ text ∈ port, PortText text) :
    HostText host ∧ (HostPort.mk [] host [] port).Cut := by
  have hDigits : ∀ text ∈ port, Unbracketed text ∧ colon ∉ text := fun text hText => port_cut (hPort text hText).1
  by_cases hName : host ∈ Grammar.regName
  · obtain ⟨hUnbracketed, hColon⟩ := regName_cut hName
    refine ⟨.inl hName, ?_⟩
    cases port with
    | none => exact .name hUnbracketed hColon
    | some text => exact .namePort hUnbracketed (hDigits text rfl).1 (hDigits text rfl).2
  · have hHead := hShown.resolve_left hName
    have hBracketed : BracketedHost parts.host := by
      refine h.host.resolve_left fun hRegName => ?_
      have hFirst := lowered_head encodable_regNamePlain.percent hRegName (hHost ▸ hHead)
      exact absurd (encodedText_chars encodable_regNamePlain hRegName _ (List.mem_of_head? hFirst)) (by decide)
    obtain ⟨inner, hInner⟩ : ∃ inner, parts.host = openBracket :: inner ++ [closeBracket] := by
      have hFirst := hBracketed.head
      obtain ⟨⟨skipped, text, trailing, port⟩, userinfo⟩ := parts
      cases h.cut with
      | name hUnbracketed _ => exact (hUnbracketed.1 (List.mem_of_head? hFirst)).elim
      | namePort hUnbracketed _ _ => exact (hUnbracketed.1 (List.mem_of_head? hFirst)).elim
      | literal _ _ _ _ => exact ⟨_, rfl⟩
      | literalPort _ _ _ _ => exact ⟨_, rfl⟩
    rw [hInner] at hBracketed hHost
    obtain ⟨hLowered, hAgain, hChars⟩ := bracketedHost_lowered hBracketed
    rw [hLowered] at hHost
    subst hHost
    have hUnbracketed : Unbracketed (inner.map tolower) :=
      ⟨fun hMem => absurd (hChars _ hMem) (by decide), fun hMem => absurd (hChars _ hMem) (by decide)⟩
    refine ⟨.inr hAgain, ?_⟩
    have hNil : Unbracketed [] := by simp [Unbracketed]
    cases port with
    | none => exact .literal hNil hUnbracketed hNil (by simp)
    | some text => exact .literalPort hNil hUnbracketed (hDigits text rfl).1 (hDigits text rfl).2

/-- The authority that is shown is one the parser accepts. -/
theorem shownAuthority_accepted {parts : AuthorityText} (h : parts.Accepted) {u : Uri} (hU : Recomposable u)
    (hHost : u.host = lowered parts.host) (hPort : ∀ text ∈ shownPort u, PortText text) :
    (shownAuthority u).Accepted := by
  obtain ⟨hText, hCut⟩ := shownHost_accepted h hHost hU.host hPort
  refine ⟨?_, hCut, hText, hPort, by simp [shownAuthority], by simp [shownAuthority]⟩
  intro text hText
  unfold shownAuthority at hText
  split_ifs at hText with hNil
  · cases hText
  · cases hText
    exact hU.userinfo

theorem recomposed_fragment (u : Uri) : (recomposed u).fragment = u.fragment := by
  unfold recomposed Parts.fragment
  by_cases hNil : u.fragment = []
  · simp [hNil]
  · simp [hNil]

/-- Behind the path of the recomposed text stands a query, a fragment or nothing. -/
theorem recomposed_behind (u : Uri) :
    ∀ c ∈ ((recomposed u).queryText ++ (recomposed u).rest).head?, c = question ∨ c = Ascii.hash := by
  unfold recomposed Parts.queryText
  by_cases hQuery : u.query = [] <;> by_cases hFragment : u.fragment = [] <;> simp [hQuery, hFragment]

variable {parts : Parts} {ports : SchemePorts} {path : Bytes}

/-- The digits that the port of a URI was read from. -/
def portDigits (parts : Parts) : Bytes := (parts.authority.bind fun authority => authority.port).getD []

/-- A port that is shown is a port of the grammar. -/
theorem shownPort_text (h : parts.Accepted) : ∀ text ∈ shownPort (parts.value ports path), PortText text := by
  intro text hText
  unfold shownPort at hText
  split_ifs at hText with hShown
  · cases hText
    obtain ⟨hNe, hPort⟩ := @postParsePort_shown ports (parts.scheme.map tolower) (portDigits parts) hShown
    have hValue : (parts.value ports path).port = (decimalValue (portDigits parts) : Int) :=
      hPort.trans (if_neg hNe)
    have hDigits : PortText (portDigits parts) := by
      have hHier := h.hier
      unfold portDigits at hNe ⊢
      cases hAuthority : parts.authority with
      | none => simp [hAuthority] at hNe
      | some authority =>
          rw [hAuthority] at hHier hNe
          cases hPortSome : authority.port with
          | none => simp [hPortSome] at hNe
          | some digits =>
              cases hHier with
              | authority hParts _ =>
                  simp only [Option.bind_some, hPortSome, Option.getD_some]
                  exact hParts.port digits hPortSome
    rw [hValue]
    refine (portText_toString ((decimalValue_lt (mem_kstar_oneOf.mp hDigits.1)).trans_le ?_)).1
    exact Nat.pow_le_pow_right (by decide) hDigits.2
  · cases hText

/-- The hierarchical part of the recomposed text is accepted as one of the same kind. -/
theorem recomposed_hier (h : parts.Accepted) (hNormal : pathNormalize (percentNormal id parts.path) = .ok path)
    (hU : Recomposable (parts.value ports path)) :
    HierText (recomposed (parts.value ports path)).authority path
      ((recomposed (parts.value ports path)).queryText ++ (recomposed (parts.value ports path)).rest) := by
  have hBehind := recomposed_behind (parts.value ports path)
  have hBoundary := Components.boundary_of_delimiter hBehind
  have hSettled := h.hier.path_settled hNormal
  have hPath := rootless_or_rooted hU.path hSettled.2 hU.path_colon
  have hHier := h.hier
  cases hAuthority : parts.authority with
  | none =>
      have hNone : (recomposed (parts.value ports path)).authority = none := by
        simp [recomposed, Parts.value, hAuthority]
      rw [hNone]
      rcases hPath with ⟨hRootless, _⟩ | ⟨tail, hEq, hTail⟩
      · exact .rootless hRootless hBoundary
      · rw [show path = slash :: tail from hEq]
        exact .absolute hTail hBoundary
  | some authority =>
      have hAuth : (parts.value ports path).hasAuth = true := by
        simp [Parts.value, hAuthority]
      have hSome : (recomposed (parts.value ports path)).authority = some (shownAuthority (parts.value ports path)) :=
        if_pos hAuth
      have hHost : (parts.value ports path).host = lowered authority.host := by
        simp [Parts.value, hAuthority]
      rw [hAuthority] at hHier
      rw [hSome]
      cases hHier with
      | authority hParts _ =>
          refine .authority (shownAuthority_accepted hParts hU hHost (shownPort_text h)) ?_
          rcases hPath with ⟨_, hHead⟩ | ⟨tail, hEq, hTail⟩
          · exact .inl ⟨(hU.path_rooted hAuth).resolve_right hHead, hBehind⟩
          · exact .inr ⟨tail, hEq, hTail, hBoundary⟩

/-- The text that `str()` writes is accepted again. -/
theorem recomposed_accepted (h : parts.Accepted) (hNormal : pathNormalize (percentNormal id parts.path) = .ok path)
    (hU : Recomposable (parts.value ports path)) : (recomposed (parts.value ports path)).Accepted where
  scheme := scheme_tolower h.scheme
  hier := recomposed_hier h hNormal hU
  query text hText := by
    dsimp only [recomposed] at hText
    split_ifs at hText with hNil
    · cases hText
    · cases hText
      exact hU.query
  rest := by
    dsimp only [recomposed]
    split_ifs with hNil
    · exact boundary_nil _
    · exact boundary_cons.mpr (by decide)
  fragment := by
    rw [recomposed_fragment, visible_of_no_space hU.fragment]
    exact percentNormal_fragment h.fragment

/-- Without an authority there is nothing to show of one. -/
theorem value_of_no_authority (h : parts.authority = none) :
    (parts.value ports path).userinfo = [] ∧ (parts.value ports path).host = [] ∧
      shownPort (parts.value ports path) = none := by
  have hPort : ¬(0 ≤ (parts.value ports path).port ∧ ¬(parts.value ports path).hasDefaultPort = true) := by
    intro hShown
    refine (@postParsePort_shown ports (parts.scheme.map tolower) (portDigits parts) hShown).1 ?_
    simp [portDigits, h]
  refine ⟨?_, ?_, if_neg hPort⟩
  · simp [Parts.value, h, percentNormal]
  · simp [Parts.value, h, lowered]

/-- An optional component that decoding has been applied to is left as it is. -/
theorem percentNormal_getD {plain : UInt8 → Bool} (hPercent : plain percent = false) {text : Option Bytes}
    (h : ∀ w ∈ text, w ∈ Grammar.encodedText plain) :
    percentNormal id (percentNormal id (text.getD [])) = percentNormal id (text.getD []) := by
  cases text with
  | none => rfl
  | some w => exact percentNormal_idem hPercent (h w rfl)

theorem getD_unless_nil (text : Bytes) : (if text = [] then none else some text : Option Bytes).getD [] = text := by
  by_cases hNil : text = []
  · simp [hNil]
  · simp [hNil]

/-- What the parser makes of the recomposed authority. -/
theorem recomposed_authority (h : parts.Accepted) (hU : Recomposable (parts.value ports path)) :
    let u := parts.value ports path
    percentNormal id (((recomposed u).authority.bind fun authority => authority.userinfo).getD []) = u.userinfo ∧
      lowered (((recomposed u).authority.map fun authority => authority.host).getD []) = u.host ∧
      ((recomposed u).authority.bind fun authority => authority.port).getD [] = (shownPort u).getD [] := by
  intro u
  cases hAuthority : parts.authority with
  | none =>
      have hNone : (recomposed u).authority = none := by
        simp [u, recomposed, Parts.value, hAuthority]
      obtain ⟨hUserinfo, hHost, hShown⟩ := @value_of_no_authority parts ports path hAuthority
      rw [hNone, hUserinfo, hHost, hShown]
      exact ⟨rfl, rfl, rfl⟩
  | some authority =>
      have hSome : (recomposed u).authority = some (shownAuthority u) := if_pos (by simp [u, Parts.value, hAuthority])
      have hHier := h.hier
      rw [hAuthority] at hHier
      have hUserinfo : u.userinfo = percentNormal id (authority.userinfo.getD []) := by
        simp [u, Parts.value, hAuthority]
      rw [hSome]
      refine ⟨?_, hU.host_lower, rfl⟩
      rw [Option.bind_some, shownAuthority, getD_unless_nil, hUserinfo]
      cases hHier with
      | authority hParts _ => exact percentNormal_getD encodable_userinfoPlain.percent hParts.userinfo

/-- Reading the port that is shown gives it back, unless it is a default port. -/
theorem portNumber_shown (u : Uri) :
    portNumber ((shownPort u).getD []) = if 0 ≤ u.port ∧ ¬u.hasDefaultPort then u.port else -1 := by
  unfold shownPort
  split_ifs with hShown
  · obtain ⟨n, hPort⟩ := Int.eq_ofNat_of_zero_le hShown.1
    rw [Option.getD_some, portNumber, if_neg (toString_ne_nil u.port), hPort, (toString_reads n).2]
  · rfl

/-- What the parser makes of the recomposed text. -/
theorem recomposed_value (h : parts.Accepted) (hU : Recomposable (parts.value ports path))
    (hPort : (parts.value ports path).hasDefaultPort = true →
      (ports.lookup (parts.value ports path).scheme).isSome = true) :
    (recomposed (parts.value ports path)).value ports path = parts.value ports path := by
  obtain ⟨hUserinfo, hHost, hShown⟩ := recomposed_authority h hU
  have hAgain := @postParsePort_again ports (parts.scheme.map tolower) (portDigits parts) hPort
  have hNumber := portNumber_shown (parts.value ports path)
  obtain ⟨u, hDef⟩ : ∃ u, u = parts.value ports path := ⟨_, rfl⟩
  have hScheme : u.scheme.map tolower = u.scheme := by
    simp [hDef, Parts.value, tolower_tolower]
  have hQuery : percentNormal id ((recomposed u).query.getD []) = u.query := by
    rw [recomposed, getD_unless_nil, hDef]
    exact percentNormal_getD encodable_queryPlain.percent h.query
  have hFragment : percentNormal id (visible (recomposed u).fragment) = u.fragment := by
    rw [recomposed_fragment, visible_of_no_space (hDef ▸ hU.fragment), hDef]
    exact percentNormal_idem (by decide) h.fragment
  have hAuth : (recomposed u).authority.isSome = u.hasAuth := by
    cases hAuth : u.hasAuth <;> simp [recomposed, hAuth]
  rw [← hDef] at hUserinfo hHost hShown hNumber ⊢
  have hPorts : postParsePort ports u.scheme (portNumber ((shownPort u).getD [])) = (u.port, u.hasDefaultPort) := by
    rw [hNumber, hDef]
    exact hAgain
  have hPath : u.path = path := by rw [hDef]; rfl
  unfold Parts.value
  rw [show (recomposed u).scheme = u.scheme from rfl, hScheme, hUserinfo, hHost, hShown, hQuery, hFragment, hAuth,
    ← hPath]
  dsimp only
  rw [hPorts]

/-- A URI whose components stand for themselves is parsed again as what it is. -/
theorem parse_recomposed {ports : SchemePorts} {s : Bytes} {w u : Uri} {errno errno' : Imperr}
    (h : parse ports s (some w) errno = .ok (true, some u, errno')) (hScheme : u.scheme ≠ []) (hU : Recomposable u)
    (hPort : u.hasDefaultPort = true → (ports.lookup u.scheme).isSome = true) (v : Uri) (before : Imperr) :
    ∃ last, parse ports (str u) (some v) before = .ok (true, some u, last) := by
  have hNe : s ≠ [] := by
    rintro rfl
    cases h
    exact hScheme rfl
  obtain ⟨parts, rfl, hParts, hResult⟩ := parse_split hNe h
  obtain ⟨path, hPath, hValue⟩ := hResult w rfl
  obtain rfl := Option.some.inj hValue
  have hBare : (parts.value ports path).hasAuth = false → authority (parts.value ports path) = [] := by
    intro hAuth
    have hNone : parts.authority = none := by simpa [Parts.value] using hAuth
    obtain ⟨hUserinfo, hHost, hShown⟩ := @value_of_no_authority parts ports path hNone
    rw [← shownAuthority_text, AuthorityText.text, AuthorityText.userinfoText, HostPort.behindUserinfo,
      HostPort.portText, shownAuthority, hUserinfo, hHost, hShown]
    rfl
  obtain ⟨last, hParse⟩ := parse_text (recomposed_accepted hParts hPath hU) ports v before
  refine ⟨last, ?_⟩
  rw [← recomposed_text hScheme hBare hU.path_rooted, hParse]
  have hAgain : pathNormalize (percentNormal id (recomposed (parts.value ports path)).path) = .ok path := by
    rw [show percentNormal id (recomposed (parts.value ports path)).path = path from hU.path_normal]
    exact (pathNormalize_eq_self_iff path).mpr (hParts.hier.path_settled hPath).1
  rw [hAgain]
  have hAll := recomposed_value hParts hU hPort
  exact congrArg (fun u => Except.ok (true, some u, last)) hAll

/-- What "FOO://[::A]:81/b?q" is parsed to. -/
def literalUri : Uri where
  scheme := [0x66, 0x6F, 0x6F]
  userinfo := []
  host := [openBracket, colon, colon, 0x61, closeBracket]
  path := [slash, 0x62]
  query := [0x71]
  fragment := []
  port := 81
  hasAuth := true
  hasDefaultPort := false

theorem literalUri_recomposable : Recomposable literalUri where
  userinfo := Language.nil_mem_kstar _
  host := .inr rfl
  host_lower := rfl
  path := mem_encodedText_of_chars (by simp [literalUri]; decide)
  path_normal := rfl
  path_colon tail :=
    ⟨fun h => absurd (List.cons.inj h).1 (by decide), fun h => absurd (List.cons.inj (List.cons.inj h).2).1 (by decide)⟩
  path_rooted _ := .inr rfl
  query := mem_encodedText_of_chars (by simp [literalUri]; decide)
  fragment := by simp [literalUri]

/-- "FOO://[::A]:81/b?q". -/
def literalText : Bytes :=
  [0x46, 0x4F, 0x4F, colon, slash, slash, openBracket, colon, colon, 0x41, closeBracket, colon, 0x38, 0x31, slash, 0x62,
    question, 0x71]

theorem parse_recomposed_literal :
    ∃ last, parse ⟨[], [], -1⟩ (str literalUri) (some empty) .success = .ok (true, some literalUri, last) := by
  have hParsed : parse ⟨[], [], -1⟩ literalText (some empty) .success = .ok (true, some literalUri, .success) := by
    decide +kernel
  exact parse_recomposed hParsed (by decide) literalUri_recomposable (by decide) empty .success

/-- "foo:/a%20b". -/
def encodedSpace : Bytes := [0x66, 0x6F, 0x6F, colon, slash, 0x61, percent, 0x32, 0x30, 0x62]

/-- Everything but reserved characters is decoded, so the space is written as it
is, and the path that is read again ends in front of it. -/
theorem encodedSpace_not_returned :
    ∃ u v last, parse ⟨[], [], -1⟩ encodedSpace (some empty) .success = .ok (true, some u, .success) ∧
      u.scheme ≠ [] ∧ parse ⟨[], [], -1⟩ (str u) (some empty) .success = .ok (true, some v, last) ∧
      v.path ≠ u.path := by
  refine ⟨{ empty with scheme := [0x66, 0x6F, 0x6F], path := [slash, 0x61, 0x20, 0x62] },
    { empty with scheme := [0x66, 0x6F, 0x6F], path := [slash, 0x61] }, .success, ?_, ?_, ?_, ?_⟩
  · decide +kernel
  · decide
  · decide +kernel
  · decide

/-! ### Paths -/

/-- No dot segment is left in front of a slash in the path of an accepted URI, and no segment
is empty, so that the path is left as it is when it is normalised again. -/
theorem parse_path_normal {ports : SchemePorts} {s : Bytes} {w u : Uri} {errno errno' : Imperr}
    (h : parse ports s (some w) errno = .ok (true, some u, errno')) :
    Undotted u.path ∧ SingleSlashed u.path ∧ pathNormalize u.path = .ok u.path := by
  by_cases hNil : s = []
  · subst hNil
    cases h
    exact ⟨settled_nil.undotted, settled_nil.singleSlashed, rfl⟩
  · obtain ⟨parts, -, hParts, hResult⟩ := parse_split hNil h
    obtain ⟨path, hPath, hValue⟩ := hResult w rfl
    obtain rfl := Option.some.inj hValue
    obtain ⟨hUndotted, hSlashed⟩ := hParts.hier.path_settled hPath
    exact ⟨hUndotted, hSlashed, (pathNormalize_eq_self_iff path).mpr hUndotted⟩

theorem parse_path_normal_literal :
    Undotted literalUri.path ∧ SingleSlashed literalUri.path ∧ pathNormalize literalUri.path = .ok literalUri.path :=
  @parse_path_normal ⟨[], [], -1⟩ literalText empty literalUri .success .success (by decide +kernel)

end ImpactSockets.Uri
