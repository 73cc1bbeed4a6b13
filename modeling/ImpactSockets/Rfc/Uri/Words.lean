import ImpactSockets.Rfc.Uri.Authority
import ImpactSockets.Rfc.Uri.CleanLiteral
import ImpactSockets.Rfc.Uri.Components

/-! The words of the grammar: what they are put together from, and the
characters that they are made of. -/
namespace ImpactSockets.Uri

open Abnf AbnfOps Ascii
open scoped Computability

/-! ### Paths -/

set_option maxRecDepth 4000 in
theorem encodable_pchar : Encodable Grammar.pchar := by
  constructor <;> decide

/-- A segment that is not empty, by its characters. -/
theorem segmentNz_text {segment : Bytes} (h : segment ∈ Grammar.segmentNz) :
    segment ∈ Grammar.encodedText pathPlain ∧ slash ∉ segment ∧ segment ≠ [] := by
  obtain ⟨first, hFirst, rest, hRest, rfl⟩ := Language.mem_mul.mp h
  have hSegment : first ++ rest ∈ Grammar.encodedText Grammar.pchar :=
    append_mem_kstar (mem_kstar_of_mem hFirst) hRest
  refine ⟨encodedText_mono encodable_pchar encodable_pathPlain (fun c hc => by simp [pathPlain, hc]) hSegment,
    fun hMem => ?_, fun hNil => ?_⟩
  · exact absurd (encodedText_chars encodable_pchar hSegment slash hMem) (by decide)
  · obtain ⟨rfl, -⟩ := List.append_eq_nil_iff.mp hNil
    rcases (Language.mem_add _ _ _).mp hFirst with ⟨c, _, hEq⟩ | hTriplet
    · cases hEq
    · obtain ⟨high, low, _, _, hEq⟩ := mem_pctEncoded.mp hTriplet
      cases hEq

/-- A text of segments is a segment and a rooted path. -/
theorem segments_split {text : Bytes} (h : text ∈ Grammar.encodedText pathPlain) :
    ∃ segment ∈ Grammar.segment, ∃ rest ∈ Grammar.pathAbempty, text = segment ++ rest := by
  refine @encodedText_induction pathPlain (fun text => ∃ segment ∈ Grammar.segment, ∃ rest ∈ Grammar.pathAbempty,
    text = segment ++ rest) ⟨[], Language.nil_mem_kstar _, [], Language.nil_mem_kstar _, rfl⟩ ?_ ?_ text h
  · rintro c _ hc ⟨segment, hSegment, rest, hRest, rfl⟩
    by_cases hSlash : c = slash
    · subst hSlash
      have hRooted : slash :: segment ∈ literal [slash] * Grammar.segment := mem_literal_mul.mpr ⟨segment, hSegment, rfl⟩
      exact ⟨[], Language.nil_mem_kstar _, slash :: segment ++ rest,
        append_mem_kstar (mem_kstar_of_mem hRooted) hRest, rfl⟩
    · have hPchar : Grammar.pchar c = true := by simpa [pathPlain, hSlash] using hc
      exact ⟨c :: segment, cons_mem_encodedText hPchar hSegment, rest, hRest, rfl⟩
  · rintro high low _ hHigh hLow ⟨segment, hSegment, rest, hRest, rfl⟩
    exact ⟨percent :: high :: low :: segment, triplet_mem_encodedText hHigh hLow hSegment, rest, hRest, rfl⟩

theorem segment_encoded {segment : Bytes} (h : segment ∈ Grammar.segment) :
    segment ∈ Grammar.encodedText pathPlain :=
  encodedText_mono encodable_pchar encodable_pathPlain (fun c hc => by simp [pathPlain, hc]) h

/-- A path behind an authority is empty or a slash and segments. -/
theorem mem_pathAbempty {text : Bytes} :
    text ∈ Grammar.pathAbempty ↔ text = [] ∨ ∃ tail ∈ Grammar.encodedText pathPlain, text = slash :: tail := by
  constructor
  · intro h
    refine @kstar_induction _ _ (fun text => text = [] ∨ ∃ tail ∈ Grammar.encodedText pathPlain, text = slash :: tail)
      (.inl rfl) ?_ text h
    rintro _ hFirst rest hRest
    obtain ⟨segment, hSegment, rfl⟩ := mem_literal_mul.mp hFirst
    refine .inr ⟨segment ++ rest, append_mem_kstar (segment_encoded hSegment) ?_, rfl⟩
    rcases hRest with rfl | ⟨tail, hTail, rfl⟩
    · exact Language.nil_mem_kstar _
    · exact cons_mem_encodedText (by decide) hTail
  · rintro (rfl | ⟨tail, hTail, rfl⟩)
    · exact Language.nil_mem_kstar _
    · obtain ⟨segment, hSegment, rest, hRest, rfl⟩ := segments_split hTail
      exact append_mem_kstar (mem_kstar_of_mem (mem_literal_mul.mpr ⟨segment, hSegment, rfl⟩)) hRest

theorem pathAbempty_encoded {text : Bytes} (h : text ∈ Grammar.pathAbempty) : text ∈ Grammar.encodedText pathPlain := by
  rcases mem_pathAbempty.mp h with rfl | ⟨tail, hTail, rfl⟩
  · exact Language.nil_mem_kstar _
  · exact cons_mem_encodedText (by decide) hTail

/-- A path without a root is made of segments, the first of which is not empty. -/
theorem mem_pathRootless {text : Bytes} :
    text ∈ Grammar.pathRootless ↔
      text ∈ Grammar.encodedText pathPlain ∧ text ≠ [] ∧ text.head? ≠ some slash := by
  constructor
  · intro h
    obtain ⟨segment, hSegment, rest, hRest, rfl⟩ := Language.mem_mul.mp h
    obtain ⟨hEncoded, hSlash, hNe⟩ := segmentNz_text hSegment
    refine ⟨append_mem_kstar hEncoded (pathAbempty_encoded hRest), by simp [hNe], ?_⟩
    rw [List.head?_append_of_ne_nil _ hNe]
    exact fun hHead => hSlash (List.mem_of_head? hHead)
  · rintro ⟨hText, hNe, hHead⟩
    obtain ⟨segment, hSegment, rest, hRest, rfl⟩ := segments_split hText
    refine Language.append_mem_mul (mem_atLeastOne_of_ne_nil hSegment ?_) hRest
    rintro rfl
    rcases mem_pathAbempty.mp hRest with rfl | ⟨tail, _, rfl⟩
    · exact hNe rfl
    · exact hHead rfl

/-- An absolute path, by its first two characters. -/
theorem mem_pathAbsolute {text : Bytes} :
    text ∈ Grammar.pathAbsolute ↔
      ∃ tail ∈ Grammar.encodedText pathPlain, tail.head? ≠ some slash ∧ text = slash :: tail := by
  rw [Grammar.pathAbsolute, mem_literal_mul]
  constructor
  · rintro ⟨tail, hTail, rfl⟩
    rcases mem_optional.mp hTail with rfl | hTail
    · exact ⟨[], Language.nil_mem_kstar _, by simp, rfl⟩
    · obtain ⟨hEncoded, _, hHead⟩ := mem_pathRootless.mp hTail
      exact ⟨tail, hEncoded, hHead, rfl⟩
  · rintro ⟨tail, hEncoded, hHead, rfl⟩
    refine ⟨tail, mem_optional.mpr ?_, rfl⟩
    by_cases hNil : tail = []
    · exact .inl hNil
    · exact .inr (mem_pathRootless.mpr ⟨hEncoded, hNil, hHead⟩)

/-- A hierarchical part has an authority, or is a text of segments that does not
begin like one with an authority. -/
theorem mem_hierPart {w : Bytes} :
    w ∈ Grammar.hierPart ↔
      (∃ authority ∈ Grammar.authority, ∃ path ∈ Grammar.pathAbempty, w = slash :: slash :: (authority ++ path)) ∨
        w ∈ Grammar.encodedText pathPlain ∧ w.take 2 ≠ [slash, slash] := by
  simp only [Grammar.hierPart, Language.mem_add, Language.mem_one, or_assoc]
  refine or_congr ?_ ⟨?_, ?_⟩
  · rw [mem_literal_mul]
    constructor
    · rintro ⟨_, ⟨authority, hAuthority, path, hPath, rfl⟩, rfl⟩
      exact ⟨authority, hAuthority, path, hPath, rfl⟩
    · rintro ⟨authority, hAuthority, path, hPath, rfl⟩
      exact ⟨_, ⟨authority, hAuthority, path, hPath, rfl⟩, rfl⟩
  · rintro (h | h | rfl)
    · obtain ⟨tail, hEncoded, hHead, rfl⟩ := mem_pathAbsolute.mp h
      refine ⟨cons_mem_encodedText (by decide) hEncoded, fun hTake => hHead ?_⟩
      rcases tail with _ | ⟨c, tail⟩
      · cases hTake
      · simpa using hTake
    · obtain ⟨hEncoded, _, hHead⟩ := mem_pathRootless.mp h
      refine ⟨hEncoded, fun hTake => hHead ?_⟩
      rcases w with _ | ⟨c, tail⟩
      · cases hTake
      · exact congrArg some (List.cons.inj hTake).1
    · exact ⟨Language.nil_mem_kstar _, by simp⟩
  · rintro ⟨hEncoded, hTake⟩
    rcases w with _ | ⟨c, tail⟩
    · exact .inr (.inr rfl)
    · by_cases hSlash : c = slash
      · subst hSlash
        have hTail : tail ∈ Grammar.encodedText pathPlain :=
          (@append_mem_encodedText pathPlain encodable_pathPlain [slash] tail (by simp [pathPlain])).mp hEncoded
        refine .inl (mem_pathAbsolute.mpr ⟨tail, hTail, fun hHead => hTake ?_, rfl⟩)
        obtain ⟨rest, rfl⟩ := List.head?_eq_some_iff.mp hHead
        rfl
      · exact .inr (.inl (mem_pathRootless.mpr ⟨hEncoded, by simp, by simpa using hSlash⟩))

/-! ### Authorities -/

/-- An authority, by its parts. -/
theorem mem_authority {w : Bytes} :
    w ∈ Grammar.authority ↔ ∃ (userinfo : Option Bytes) (host : Bytes) (port : Option Bytes),
      (∀ text ∈ userinfo, text ∈ Grammar.userinfo) ∧ host ∈ Grammar.host ∧ (∀ text ∈ port, text ∈ Grammar.port) ∧
        w = (userinfo.map (· ++ [at_])).getD [] ++ host ++ (port.map (colon :: ·)).getD [] := by
  rw [Grammar.authority, Language.mem_mul]
  constructor
  · rintro ⟨_, ⟨first, hFirst, host, hHost, rfl⟩, last, hLast, rfl⟩
    obtain ⟨userinfo, hUserinfo, rfl⟩ := mem_optional_mul_literal.mp hFirst
    obtain ⟨port, hPort, rfl⟩ := mem_optional_literal_mul.mp hLast
    exact ⟨userinfo, host, port, hUserinfo, hHost, hPort, rfl⟩
  · rintro ⟨userinfo, host, port, hUserinfo, hHost, hPort, rfl⟩
    exact ⟨_, ⟨_, mem_optional_mul_literal.mpr ⟨userinfo, hUserinfo, rfl⟩, host, hHost, rfl⟩, _,
      mem_optional_literal_mul.mpr ⟨port, hPort, rfl⟩, rfl⟩

theorem mem_encodedText_of_chars {plain : UInt8 → Bool} {text : Bytes} (h : ∀ c ∈ text, plain c = true) :
    text ∈ Grammar.encodedText plain := by
  induction text with
  | nil => exact Language.nil_mem_kstar _
  | cons c text ih =>
      rw [List.forall_mem_cons] at h
      exact cons_mem_encodedText h.1 (ih h.2)

set_option maxRecDepth 4000 in
theorem regNamePlain_of_digit : ∀ c : UInt8, (digit c || c == dot) = true → regNamePlain c = true := by
  decide

/-- A host is a literal in brackets or a reg-name, and an IPv4 address is also one. -/
theorem mem_host {w : Bytes} :
    w ∈ Grammar.host ↔
      (∃ inner ∈ Grammar.ipv6Address + Grammar.ipvFuture, w = openBracket :: inner ++ [closeBracket]) ∨
        w ∈ Grammar.regName := by
  have hLiteral : w ∈ Grammar.ipLiteral ↔
      ∃ inner ∈ Grammar.ipv6Address + Grammar.ipvFuture, w = openBracket :: inner ++ [closeBracket] := by
    rw [Grammar.ipLiteral, mul_assoc, mem_literal_mul]
    constructor
    · rintro ⟨_, ⟨inner, hInner, _, rfl, rfl⟩, rfl⟩
      exact ⟨inner, hInner, rfl⟩
    · rintro ⟨inner, hInner, rfl⟩
      exact ⟨_, ⟨inner, hInner, _, rfl, rfl⟩, rfl⟩
  have hName (h : w ∈ Grammar.ipv4Address) : w ∈ Grammar.regName :=
    mem_encodedText_of_chars fun c hc => regNamePlain_of_digit c
      (within_looseQuad w (looseQuad_of_ipv4Address h) c hc)
  rw [Grammar.host, Language.mem_add, Language.mem_add, hLiteral, or_assoc]
  exact or_congr_right ⟨fun h => h.elim hName id, .inr⟩

set_option maxRecDepth 4000 in
theorem ipvFutureChar_of_hexdig : ∀ c : UInt8, hexdig c = true → ipvFutureChar c = true := by
  decide

theorem within_h16 : Within ipvFutureChar Grammar.h16 :=
  (within_oneOf ipvFutureChar_of_hexdig).mul ((within_oneOf ipvFutureChar_of_hexdig).upTo 3)

theorem within_h16Colon : Within ipvFutureChar Grammar.h16Colon :=
  within_h16.mul (within_literal (by simp [ipvFutureChar]))

theorem within_groups (n : Nat) : Within ipvFutureChar (Grammar.groups n) := by
  cases n with
  | zero =>
      rintro w rfl
      simp
  | succ n => exact (within_h16Colon.pow n).mul within_h16

theorem within_lastGroups (n : Nat) : Within ipvFutureChar (Grammar.lastGroups n) := by
  intro w hw c hc
  rcases Grammar.mem_lastGroups hw with hw | ⟨b, _, front, hFront, quad, hQuad, rfl⟩
  · exact within_groups n w hw c hc
  · rcases List.mem_append.mp hc with hc | hc
    · exact within_h16Colon.pow b front hFront c hc
    · have hName := regNamePlain_of_digit c (within_looseQuad quad (looseQuad_of_ipv4Address hQuad) c hc)
      simp only [ipvFutureChar, Bool.or_eq_true]
      exact .inl (by simpa [regNamePlain] using hName)

/-- The characters of IP literals between the brackets. -/
theorem within_ipLiteral : Within ipvFutureChar (Grammar.ipv6Address + Grammar.ipvFuture) := by
  refine Within.add (fun w hw c hc => ?_) ?_
  · rcases Grammar.mem_ipv6Address.mp hw with hw | ⟨a, b, _, front, hFront, back, hBack, rfl⟩
    · exact within_lastGroups 8 w hw c hc
    · simp only [List.mem_append, List.mem_cons] at hc
      rcases hc with hc | rfl | rfl | hc
      · exact within_groups a front hFront c hc
      · decide
      · decide
      · exact within_lastGroups b back hBack c hc
  · have hVersion : Within ipvFutureChar (oneOf fun c => c == 0x76 || c == 0x56) := by
      refine within_oneOf fun c hc => ?_
      have hc : c = 0x76 ∨ c = 0x56 := by simpa using hc
      rcases hc with rfl | rfl <;> decide
    have hDot : Within ipvFutureChar (literal [dot]) := within_literal (by simp [ipvFutureChar, unreserved])
    exact ((hVersion.mul (within_oneOf ipvFutureChar_of_hexdig).atLeastOne).mul hDot).mul
      (within_oneOf fun c hc => hc).atLeastOne

/-- The characters of a host. -/
theorem within_host : Within (fun c => hostPlain c || c == percent) Grammar.host := by
  intro w hw c hc
  rcases mem_host.mp hw with ⟨inner, hInner, rfl⟩ | hName
  · simp only [List.mem_append, List.mem_cons, List.not_mem_nil, or_false] at hc
    rcases hc with (rfl | hc) | rfl
    · decide
    · have hChar := within_ipLiteral inner hInner c hc
      simp only [ipvFutureChar, Bool.or_eq_true] at hChar
      simp only [hostPlain, regNamePlain, Bool.or_eq_true]
      tauto
    · decide
  · have hChar := encodedText_chars encodable_regNamePlain hName c hc
    simp only [hostPlain, Bool.or_eq_true, beq_iff_eq]
    tauto

/-- The characters of an authority. -/
theorem within_authority : Within authorityChar Grammar.authority := by
  intro w hw c hc
  obtain ⟨userinfo, host, port, hUserinfo, hHost, hPort, rfl⟩ := mem_authority.mp hw
  rcases List.mem_append.mp hc with hc | hc
  · rcases List.mem_append.mp hc with hc | hc
    · cases userinfo with
      | none => cases hc
      | some text =>
          rcases List.mem_append.mp hc with hc | hc
          · exact (userinfo_chars (hUserinfo text rfl)).2.2 c hc
          · rw [List.mem_singleton.mp hc]
            decide
    · have hChar := within_host host hHost c hc
      simp only [Bool.or_eq_true, beq_iff_eq] at hChar
      exact (authorityChar_of_hostPlain hChar).1
  · cases port with
    | none => cases hc
    | some text =>
        rcases List.mem_cons.mp hc with rfl | hc
        · decide
        · have hDigit := mem_kstar_oneOf.mp (hPort text rfl) c hc
          have hName := regNamePlain_of_digit c (by simp [hDigit])
          exact (authorityChar_of_hostPlain (.inl (by simp [hostPlain, hName]))).1

/-! ### URIs -/

/-- A URI, by its components. -/
theorem mem_uri {w : Bytes} :
    w ∈ Grammar.uri ↔ ∃ scheme ∈ Grammar.scheme, ∃ hier ∈ Grammar.hierPart, ∃ query fragment : Option Bytes,
      (∀ text ∈ query, text ∈ Grammar.query) ∧ (∀ text ∈ fragment, text ∈ Grammar.fragment) ∧
        w = scheme ++ colon :: (hier ++ ((query.map (question :: ·)).getD [] ++
          (fragment.map (hash :: ·)).getD [])) := by
  rw [Grammar.uri, Language.mem_mul]
  constructor
  · rintro ⟨_, ⟨_, ⟨_, ⟨scheme, hScheme, _, rfl, rfl⟩, hier, hHier, rfl⟩, first, hFirst, rfl⟩, last, hLast, rfl⟩
    obtain ⟨query, hQuery, rfl⟩ := mem_optional_literal_mul.mp hFirst
    obtain ⟨fragment, hFragment, rfl⟩ := mem_optional_literal_mul.mp hLast
    exact ⟨scheme, hScheme, hier, hHier, query, fragment, hQuery, hFragment, by simp⟩
  · rintro ⟨scheme, hScheme, hier, hHier, query, fragment, hQuery, hFragment, rfl⟩
    exact ⟨_, ⟨_, ⟨_, ⟨scheme, hScheme, _, rfl, rfl⟩, hier, hHier, rfl⟩, _,
      mem_optional_literal_mul.mpr ⟨query, hQuery, rfl⟩, rfl⟩, _,
      mem_optional_literal_mul.mpr ⟨fragment, hFragment, rfl⟩, by simp⟩

end ImpactSockets.Uri
