import ImpactSockets.Rfc.Uri.Reencoding

/-! Texts that differ in the encoding of an unreserved character are parsed to
the same components, but for an upper-case letter of a host: it is lower-cased
where it stands for itself, and not where a triplet encodes it. -/
namespace ImpactSockets.Uri

open Abnf AbnfOps Ascii
open scoped Computability

/-- The components that are decoded. -/
inductive Component where
  | userinfo
  | host
  | path
  | query
  | fragment
deriving DecidableEq

namespace Parts

/-- The text of a component, with what is in front of it and what is behind it. -/
def around (parts : Parts) : Component → Option (Bytes × Bytes × Bytes)
  | .userinfo => do
      let authority ← parts.authority
      let userinfo ← authority.userinfo
      some (parts.scheme ++ [colon, slash, slash], userinfo,
        at_ :: authority.behindUserinfo ++ parts.path ++ parts.queryText ++ parts.rest)
  | .host => do
      let authority ← parts.authority
      some (parts.scheme ++ [colon, slash, slash] ++ authority.userinfoText ++ authority.skipped, authority.host,
        authority.trailing ++ authority.portText ++ parts.path ++ parts.queryText ++ parts.rest)
  | .path => some (parts.scheme ++ colon :: authorityText parts.authority, parts.path, parts.queryText ++ parts.rest)
  | .query => do
      let query ← parts.query
      some (parts.scheme ++ colon :: authorityText parts.authority ++ parts.path ++ [question], query, parts.rest)
  | .fragment =>
      if parts.rest.head? = some Ascii.hash then
        some (parts.scheme ++ colon :: authorityText parts.authority ++ parts.path ++ parts.queryText ++ [Ascii.hash],
          parts.rest.tail, [])
      else none

/-- The parts with another text for a component that they have. -/
def put (parts : Parts) (text : Bytes) : Component → Parts
  | .userinfo => { parts with authority := parts.authority.map fun authority => { authority with userinfo := some text } }
  | .host => { parts with authority := parts.authority.map fun authority => { authority with host := text } }
  | .path => { parts with path := text }
  | .query => { parts with query := some text }
  | .fragment => { parts with rest := Ascii.hash :: text }

def hostText (parts : Parts) : Bytes := (parts.authority.map fun authority => authority.host).getD []

/-- The host is no IP literal. -/
def Named (parts : Parts) : Prop := parts.hostText.head? ≠ some openBracket

end Parts

section

variable {parts : Parts} {component : Component} {left text right : Bytes}

theorem authority_of_around_userinfo (h : parts.around .userinfo = some (left, text, right)) :
    ∃ authority, parts.authority = some authority ∧ authority.userinfo = some text ∧
      left = parts.scheme ++ [colon, slash, slash] ∧
      right = at_ :: authority.behindUserinfo ++ parts.path ++ parts.queryText ++ parts.rest := by
  obtain ⟨authority, hAuthority, h⟩ := Option.bind_eq_some_iff.mp h
  obtain ⟨userinfo, hUserinfo, h⟩ := Option.bind_eq_some_iff.mp h
  simp only [Option.some.injEq, Prod.mk.injEq] at h
  obtain ⟨rfl, rfl, rfl⟩ := h
  exact ⟨authority, hAuthority, hUserinfo, rfl, rfl⟩

theorem authority_of_around_host (h : parts.around .host = some (left, text, right)) :
    ∃ authority, parts.authority = some authority ∧ authority.host = text ∧
      left = parts.scheme ++ [colon, slash, slash] ++ authority.userinfoText ++ authority.skipped ∧
      right = authority.trailing ++ authority.portText ++ parts.path ++ parts.queryText ++ parts.rest := by
  obtain ⟨authority, hAuthority, h⟩ := Option.bind_eq_some_iff.mp h
  simp only [Option.some.injEq, Prod.mk.injEq] at h
  obtain ⟨rfl, rfl, rfl⟩ := h
  exact ⟨authority, hAuthority, rfl, rfl, rfl⟩

theorem query_of_around (h : parts.around .query = some (left, text, right)) :
    parts.query = some text ∧ right = parts.rest ∧
      left = parts.scheme ++ colon :: authorityText parts.authority ++ parts.path ++ [question] := by
  obtain ⟨query, hQuery, h⟩ := Option.bind_eq_some_iff.mp h
  simp only [Option.some.injEq, Prod.mk.injEq] at h
  obtain ⟨rfl, rfl, rfl⟩ := h
  exact ⟨hQuery, rfl, rfl⟩

theorem rest_of_around (h : parts.around .fragment = some (left, text, right)) :
    parts.rest = hash :: text ∧ right = [] ∧
      left = parts.scheme ++ colon :: authorityText parts.authority ++ parts.path ++ parts.queryText ++ [hash] := by
  simp only [Parts.around] at h
  split_ifs at h with hHead
  simp only [Option.some.injEq, Prod.mk.injEq] at h
  obtain ⟨rfl, rfl, rfl⟩ := h
  obtain ⟨tail, hTail⟩ := List.head?_eq_some_iff.mp hHead
  rw [hTail]
  exact ⟨rfl, rfl, rfl⟩

/-- Nothing else changes. -/
theorem text_put (h : parts.around component = some (left, text, right)) (other : Bytes) :
    (parts.put other component).text = left ++ (other ++ right) := by
  cases component with
  | userinfo =>
      obtain ⟨authority, hAuthority, _, rfl, rfl⟩ := authority_of_around_userinfo h
      simp [Parts.put, Parts.text, Parts.queryText, hAuthority, authorityText, AuthorityText.text,
        AuthorityText.userinfoText]
  | host =>
      obtain ⟨authority, hAuthority, _, rfl, rfl⟩ := authority_of_around_host h
      simp [Parts.put, Parts.text, Parts.queryText, hAuthority, authorityText, AuthorityText.text,
        AuthorityText.userinfoText, HostPort.behindUserinfo, HostPort.portText]
  | path =>
      simp only [Parts.around, Option.some.injEq, Prod.mk.injEq] at h
      obtain ⟨rfl, rfl, rfl⟩ := h
      simp [Parts.put, Parts.text, Parts.queryText]
  | query =>
      obtain ⟨_, rfl, rfl⟩ := query_of_around h
      simp [Parts.put, Parts.text, Parts.queryText]
  | fragment =>
      obtain ⟨_, rfl, rfl⟩ := rest_of_around h
      simp [Parts.put, Parts.text, Parts.queryText]

/-- A component put in its own place. -/
theorem put_self (h : parts.around component = some (left, text, right)) : parts.put text component = parts := by
  cases component with
  | userinfo =>
      obtain ⟨authority, hAuthority, hUserinfo, _, _⟩ := authority_of_around_userinfo h
      rw [Parts.put, hAuthority, Option.map_some, ← hUserinfo, ← hAuthority]
  | host =>
      obtain ⟨authority, hAuthority, hHost, _, _⟩ := authority_of_around_host h
      rw [Parts.put, hAuthority, Option.map_some, ← hHost, ← hAuthority]
  | path =>
      simp only [Parts.around, Option.some.injEq, Prod.mk.injEq] at h
      rw [Parts.put, ← h.2.1]
  | query => rw [Parts.put, ← (query_of_around h).1]
  | fragment => rw [Parts.put, ← (rest_of_around h).1]

/-- The text around a component, with the component in between. -/
theorem text_around (h : parts.around component = some (left, text, right)) : parts.text = left ++ (text ++ right) := by
  rw [← text_put h, put_self h]

end

/-! ### One character -/

/-- An unreserved character that stands for itself in a component of an accepted
text whose host is no IP literal. -/
structure Occurrence where
  parts : Parts
  component : Component
  left : Bytes
  before : Bytes
  c : UInt8
  after : Bytes
  right : Bytes
  accepted : parts.Accepted
  named : parts.Named
  around : parts.around component = some (left, before ++ c :: after, right)
  literal : Whole (visible before)
  unreserved : unreserved c = true

namespace Occurrence

variable (spot : Occurrence)

/-- The accepted text. -/
def text : Bytes := spot.left ++ (spot.before ++ spot.c :: spot.after ++ spot.right)

/-- The text with a triplet in place of the character. -/
def reencoded (triplet : Triplet spot.c) : Bytes :=
  spot.left ++ (spot.before ++ (triplet.text ++ spot.after) ++ spot.right)

def reencodedParts (triplet : Triplet spot.c) : Parts :=
  spot.parts.put (spot.before ++ (triplet.text ++ spot.after)) spot.component

theorem text_eq : spot.text = spot.parts.text := (text_around spot.around).symm

theorem reencoded_eq (triplet : Triplet spot.c) : spot.reencoded triplet = (spot.reencodedParts triplet).text :=
  (text_put spot.around _).symm

end Occurrence

/-- Accepted parts that are parsed to the same, but for the host. -/
structure Parts.Alike (parts other : Parts) : Prop where
  accepted : other.Accepted
  path : percentNormal id other.path = percentNormal id parts.path
  value : ∀ ports path, other.value ports path = { parts.value ports path with host := lowered other.hostText }

theorem whole_of_chars {plain : UInt8 → Bool} (hPlain : Encodable plain) {before after : Bytes} {c : UInt8}
    (h : before ++ c :: after ∈ Grammar.encodedText plain) (hWhole : Whole (visible before)) : Whole before := by
  rwa [visible_of_encodable hPlain fun d hd => encodedText_chars hPlain h d (List.mem_append_left _ hd)] at hWhole

set_option maxRecDepth 4000 in
theorem unreserved_not_space : ∀ c : UInt8, unreserved c = true → isspace c = false := by
  decide

theorem visible_character {c : UInt8} (hc : unreserved c = true) (before after : Bytes) :
    visible (before ++ c :: after) = visible before ++ c :: visible after := by
  simp [visible, unreserved_not_space c hc]

/-- A triplet is visible, character by character. -/
theorem visible_triplet {c : UInt8} (triplet : Triplet c) (before after : Bytes) :
    visible (before ++ (triplet.text ++ after)) = visible before ++ (triplet.text ++ visible after) := by
  have hPercent : isspace percent = false := by decide
  simp [visible, Triplet.text, hexdig_not_space _ triplet.hHigh, hexdig_not_space _ triplet.hLow, hPercent]

/-- The authority of an accepted text. -/
theorem HierText.authority_accepted {authority : AuthorityText} {path rest : Bytes}
    (h : HierText (some authority) path rest) : authority.Accepted ∧ Abempty path rest := by
  cases h with
  | authority hParts hPath => exact ⟨hParts, hPath⟩

section

variable {parts : Parts} {left before after right : Bytes} {c : UInt8} (hAccepted : parts.Accepted)
  (hLiteral : Whole (visible before)) (hc : unreserved c = true) (triplet : Triplet c)

include hAccepted hLiteral hc

/-- A triplet in the userinfo does not matter. -/
theorem alike_userinfo (h : parts.around .userinfo = some (left, before ++ c :: after, right)) :
    parts.Alike (parts.put (before ++ (triplet.text ++ after)) .userinfo) := by
  obtain ⟨authority, hAuthority, hUserinfo, _, _⟩ := authority_of_around_userinfo h
  have hHier := hAccepted.hier
  rw [hAuthority] at hHier
  obtain ⟨hParts, hPath⟩ := hHier.authority_accepted
  have hWhole := whole_of_chars encodable_userinfoPlain (hParts.userinfo _ hUserinfo) hLiteral
  refine ⟨⟨hAccepted.scheme, ?_, hAccepted.query, hAccepted.rest, hAccepted.fragment⟩, rfl, ?_⟩
  · simp only [Parts.put, hAuthority, Option.map_some]
    exact .authority (hParts.reuser hUserinfo hWhole hc triplet) hPath
  · intro ports path
    simp only [Parts.value, Parts.put, Parts.hostText, Parts.fragment, hAuthority, hUserinfo, Option.map_some,
      Option.bind_some, Option.getD_some, Option.isSome_some, percentNormal_reencoded hWhole hc triplet]

/-- A triplet in a host that is a name does not matter. -/
theorem alike_host (hNamed : parts.Named) (h : parts.around .host = some (left, before ++ c :: after, right)) :
    parts.Alike (parts.put (before ++ (triplet.text ++ after)) .host) := by
  obtain ⟨authority, hAuthority, hHost, _, _⟩ := authority_of_around_host h
  have hHier := hAccepted.hier
  rw [hAuthority] at hHier
  obtain ⟨hParts, hPath⟩ := hHier.authority_accepted
  have hWhole := whole_of_chars encodable_hostPlain (hHost ▸ hParts.host.encoded) hLiteral
  have hName : authority.host.head? ≠ some openBracket := by
    simpa [Parts.Named, Parts.hostText, hAuthority] using hNamed
  refine ⟨⟨hAccepted.scheme, ?_, hAccepted.query, hAccepted.rest, hAccepted.fragment⟩, rfl, ?_⟩
  · simp only [Parts.put, hAuthority, Option.map_some]
    exact .authority (hParts.rehost hName hHost hWhole hc triplet) hPath
  · intro ports path
    simp only [Parts.value, Parts.put, Parts.hostText, Parts.fragment, hAuthority, Option.map_some,
      Option.bind_some, Option.getD_some, Option.isSome_some]

theorem alike_path (h : parts.around .path = some (left, before ++ c :: after, right)) :
    parts.Alike (parts.put (before ++ (triplet.text ++ after)) .path) := by
  have hPath : parts.path = before ++ c :: after := by
    simp only [Parts.around, Option.some.injEq, Prod.mk.injEq] at h
    exact h.2.1
  have hHier := hAccepted.hier
  rw [hPath] at hHier
  have hWhole := whole_of_chars encodable_pathPlain hHier.path_encoded hLiteral
  refine ⟨⟨hAccepted.scheme, hHier.reencoded hWhole hc triplet, hAccepted.query, hAccepted.rest,
    hAccepted.fragment⟩, ?_, fun ports path => rfl⟩
  rw [Parts.put, hPath, percentNormal_reencoded hWhole hc triplet]

theorem alike_query (h : parts.around .query = some (left, before ++ c :: after, right)) :
    parts.Alike (parts.put (before ++ (triplet.text ++ after)) .query) := by
  obtain ⟨hQuery, _, _⟩ := query_of_around h
  have hMem := hAccepted.query _ hQuery
  have hWhole := whole_of_chars encodable_queryPlain hMem hLiteral
  refine ⟨⟨hAccepted.scheme, ?_, ?_, hAccepted.rest, hAccepted.fragment⟩, rfl, ?_⟩
  · apply hAccepted.hier.congr
    simp [Parts.put, Parts.queryText, hQuery]
  · intro text hText
    obtain rfl := Option.some.inj hText
    exact triplet_mem encodable_queryPlain.percent encodable_queryPlain.hexdig hWhole
      (unreserved_not_reserved c hc).2 triplet hMem
  · intro ports path
    simp only [Parts.value, Parts.put, Parts.hostText, Parts.fragment, hQuery, Option.getD_some,
      percentNormal_reencoded hWhole hc triplet]
    rfl

theorem alike_fragment (h : parts.around .fragment = some (left, before ++ c :: after, right)) :
    parts.Alike (parts.put (before ++ (triplet.text ++ after)) .fragment) := by
  obtain ⟨hRest, _, _⟩ := rest_of_around h
  have hFragment : parts.fragment = before ++ c :: after := by
    rw [Parts.fragment, hRest, List.head?_cons, if_pos rfl, List.tail_cons]
  have hOther :
      (parts.put (before ++ (triplet.text ++ after)) .fragment).fragment = before ++ (triplet.text ++ after) := by
    rw [Parts.put, Parts.fragment, List.head?_cons, if_pos rfl, List.tail_cons]
  have hMem := hAccepted.fragment
  rw [hFragment, visible_character hc] at hMem
  refine ⟨⟨hAccepted.scheme, ?_, hAccepted.query, ?_, ?_⟩, rfl, ?_⟩
  · apply hAccepted.hier.congr
    simp [Parts.put, Parts.queryText, hRest]
  · have hBoundary := hAccepted.rest
    rw [hRest, boundary_cons] at hBoundary
    exact boundary_cons.mpr hBoundary
  · rw [hOther, visible_triplet]
    exact triplet_mem (by decide) hexdig_ne_percent hLiteral (unreserved_not_reserved c hc).2 triplet hMem
  · intro ports path
    have hSame : percentNormal id (visible (parts.put (before ++ (triplet.text ++ after)) .fragment).fragment) =
        percentNormal id (visible parts.fragment) := by
      rw [hOther, hFragment, visible_triplet, visible_character hc, percentNormal_reencoded hLiteral hc triplet]
    rw [Parts.value, hSame]
    rfl

end

namespace Occurrence

variable (spot : Occurrence) (triplet : Triplet spot.c)

theorem alike : spot.parts.Alike (spot.reencodedParts triplet) := by
  obtain ⟨parts, component, left, before, c, after, right, hAccepted, hNamed, hAround, hLiteral, hUnreserved⟩ := spot
  cases component with
  | userinfo => exact alike_userinfo hAccepted hLiteral hUnreserved triplet hAround
  | host => exact alike_host hAccepted hLiteral hUnreserved triplet hNamed hAround
  | path => exact alike_path hAccepted hLiteral hUnreserved triplet hAround
  | query => exact alike_query hAccepted hLiteral hUnreserved triplet hAround
  | fragment => exact alike_fragment hAccepted hLiteral hUnreserved triplet hAround

/-- The host is the same unless an upper-case letter of it is encoded. -/
theorem host_iff :
    lowered (spot.reencodedParts triplet).hostText = lowered spot.parts.hostText ↔
      ¬(spot.component = .host ∧ upper spot.c = true) := by
  obtain ⟨parts, component, left, before, c, after, right, hAccepted, hNamed, hAround, hLiteral, hUnreserved⟩ := spot
  cases component with
  | userinfo =>
      apply iff_of_true
      · obtain ⟨authority, hAuthority, _⟩ := authority_of_around_userinfo hAround
        simp only [reencodedParts, Parts.put, Parts.hostText, hAuthority, Option.map_some]
      · simp
  | host =>
      obtain ⟨authority, hAuthority, hHost, _, _⟩ := authority_of_around_host hAround
      have hAccepted := hAccepted.hier
      rw [hAuthority] at hAccepted
      have hEncoded := hAccepted.authority_accepted.1.host.encoded
      have hWhole := whole_of_chars encodable_hostPlain (hHost ▸ hEncoded) hLiteral
      simp only [reencodedParts, Parts.put, Parts.hostText, hAuthority, Option.map_some, Option.getD_some, hHost,
        lowered_reencoded hWhole hUnreserved triplet, true_and, Bool.not_eq_true]
  | path => exact iff_of_true rfl (by simp)
  | query => exact iff_of_true rfl (by simp)
  | fragment => exact iff_of_true rfl (by simp)

end Occurrence

/-- The components that a caller can ask for. -/
def components (u : Uri) : Bytes × Bytes × Bytes × Int × Bytes × Bytes × Bytes :=
  (u.scheme, u.userinfo, u.host, u.port, u.path, u.query, u.fragment)

/-- The text is accepted, and parsed to the components of `v`. -/
def Identified (ports : SchemePorts) (s : Bytes) (v : Uri) : Prop :=
  ∀ u prior, ∃ w errno, parse ports s (some u) prior = .ok (true, some w, errno) ∧ components w = components v

/-- A character may be written as a triplet unless it is an upper-case letter of
the host. -/
theorem identified_iff (spot : Occurrence) (triplet : Triplet spot.c) {ports : SchemePorts} {u v : Uri}
    {prior errno : Imperr} (h : parse ports spot.text (some u) prior = .ok (true, some v, errno)) :
    Identified ports (spot.reencoded triplet) v ↔ ¬(spot.component = .host ∧ upper spot.c = true) := by
  have hAlike := spot.alike triplet
  obtain ⟨_, hText⟩ := parse_text spot.accepted ports u prior
  rw [← spot.text_eq, h] at hText
  obtain ⟨path, hPath, hValue⟩ := bind_ok.mp hText.symm
  obtain rfl : spot.parts.value ports path = v := by
    simpa using congrArg (fun outcome => outcome.2.1) (Except.ok.inj hValue)
  have hRun (u : Uri) (prior : Imperr) : ∃ errno, parse ports (spot.reencoded triplet) (some u) prior =
      .ok (true, some ((spot.reencodedParts triplet).value ports path), errno) := by
    obtain ⟨errno, hRun⟩ := parse_text hAlike.accepted ports u prior
    rw [hAlike.path, hPath] at hRun
    exact ⟨errno, (spot.reencoded_eq triplet) ▸ hRun⟩
  rw [← spot.host_iff triplet]
  constructor
  · intro hIdentified
    obtain ⟨w, _, hParse, hSame⟩ := hIdentified u prior
    obtain ⟨_, hOther⟩ := hRun u prior
    cases hOther.symm.trans hParse
    exact congrArg (fun parts => parts.2.2.1) hSame
  · intro hHost u prior
    obtain ⟨errno, hOther⟩ := hRun u prior
    refine ⟨_, errno, hOther, ?_⟩
    rw [hAlike.value, hHost]
    rfl

/-- The text "a://b". -/
def plainHost : Parts := ⟨[0x61], some ⟨⟨[], [0x62], [], none⟩, none⟩, [], none, []⟩

theorem plainHost_accepted : plainHost.Accepted := by
  have hHost : AuthorityText.Accepted ⟨⟨[], [0x62], [], none⟩, none⟩ := by
    refine ⟨by simp, .name ?_ (by decide), .inl ?_, by simp, by simp, by simp⟩
    · constructor <;> decide
    · exact cons_mem_encodedText (by decide) (Language.nil_mem_kstar _)
  refine ⟨mem_scheme.mpr ⟨0x61, [], rfl, by decide, by simp⟩, ?_, by simp [plainHost], boundary_nil _,
    Language.nil_mem_kstar _⟩
  exact .authority hHost (.inl ⟨rfl, by simp [plainHost, Parts.queryText]⟩)

/-- The host of "a://b". -/
def plainHostSpot : Occurrence where
  parts := plainHost
  component := .host
  left := [0x61, colon, slash, slash]
  before := []
  c := 0x62
  after := []
  right := []
  accepted := plainHost_accepted
  named := by
    change plainHost.hostText.head? ≠ some openBracket
    decide
  around := rfl
  literal := Language.nil_mem_kstar _
  unreserved := rfl

/-- "a://b" and "a://%62" are the same. -/
theorem identified_iff_plainHost :
    Identified ⟨[], [], -1⟩ [0x61, colon, slash, slash, percent, 0x36, 0x32]
      ⟨[0x61], [], [0x62], [], [], [], -1, true, false⟩ :=
  (@identified_iff plainHostSpot ⟨0x36, 0x32, rfl, rfl, rfl⟩ ⟨[], [], -1⟩ empty _ .success .success
    (by decide +kernel)).mpr (by decide)

/-- The text "foo://Bar/", and the one with a triplet in place of the "B". -/
def upperHost : Bytes × Bytes :=
  ([0x66, 0x6F, 0x6F, colon, slash, slash, 0x42, 0x61, 0x72, slash],
    [0x66, 0x6F, 0x6F, colon, slash, slash, percent, 0x34, 0x32, 0x61, 0x72, slash])

/-- The hosts are "bar" and "Bar". -/
theorem upperHost_not_identified :
    ∃ v w, parse ⟨[], [], -1⟩ upperHost.1 (some empty) .success = .ok (true, some v, .success) ∧
      parse ⟨[], [], -1⟩ upperHost.2 (some empty) .success = .ok (true, some w, .success) ∧
      v.host = [0x62, 0x61, 0x72] ∧ w.host = [0x42, 0x61, 0x72] ∧ ¬Identified ⟨[], [], -1⟩ upperHost.2 v := by
  have hFirst : parse ⟨[], [], -1⟩ upperHost.1 (some empty) .success =
      .ok (true, some ⟨[0x66, 0x6F, 0x6F], [], [0x62, 0x61, 0x72], [slash], [], [], -1, true, false⟩, .success) := by
    decide +kernel
  have hSecond : parse ⟨[], [], -1⟩ upperHost.2 (some empty) .success =
      .ok (true, some ⟨[0x66, 0x6F, 0x6F], [], [0x42, 0x61, 0x72], [slash], [], [], -1, true, false⟩, .success) := by
    decide +kernel
  refine ⟨_, _, hFirst, hSecond, rfl, rfl, fun hIdentified => ?_⟩
  obtain ⟨w, _, hParse, hSame⟩ := hIdentified empty .success
  cases hSecond.symm.trans hParse
  have hHost := congrArg (fun parts => parts.2.2.1) hSame
  exact absurd hHost (by decide)

end ImpactSockets.Uri
