import ImpactSockets.Rfc.Uri.ErrorReport

/-! What the result of a parse depends on. `_S_clear` leaves the flag for a
default port, which is read again when a parse fails behind the port. -/
namespace ImpactSockets.Uri

open Abnf AbnfOps Ascii
open scoped Computability

/-- What the observers return. -/
structure Observed where
  scheme : Bytes
  authority : Bytes
  userinfo : Bytes
  host : Bytes
  port : Int
  path : Bytes
  query : Bytes
  fragment : Bytes
  hierPart : Bytes
  str : Bytes
  absStr : Bytes
deriving DecidableEq

def observe (u : Uri) : Observed where
  scheme := u.scheme
  authority := authority u
  userinfo := u.userinfo
  host := u.host
  port := u.port
  path := u.path
  query := u.query
  fragment := u.fragment
  hierPart := hierPart u
  str := str u
  absStr := absStr u

/-- The objects that a program can have. `uri::operator=` does not assign the
flag for a default port, and what a move leaves in the strings is unspecified. -/
inductive History : Uri → Prop where
  | fresh : History empty
  | constructed {ports : SchemePorts} {s : Bytes} {raw u : Uri} {prior : Imperr}
      (h : construct ports s raw prior = .ok (.ok u)) : History u
  | parsed {ports : SchemePorts} {s : Bytes} {u v : Uri} {prior errno : Imperr} {ok : Bool} (hHistory : History u)
      (h : parse ports s (some u) prior = .ok (ok, some v, errno)) : History v
  | assigned {u v : Uri} (hTarget : History u) (hSource : History v) :
      History { v with hasDefaultPort := u.hasDefaultPort }
  | moved {u v : Uri} (hHistory : History u) (hPort : v.port = u.port) (hAuth : v.hasAuth = u.hasAuth)
      (hDefaultPort : v.hasDefaultPort = u.hasDefaultPort) : History v

/-- The parse of a text does the same with any two objects, and returns the same
without an object. -/
def Independent (ports : SchemePorts) (s : Bytes) : Prop :=
  ∀ u₁ u₂, History u₁ → History u₂ → ∀ prior₁ prior₂ prior₃, ∃ ok v₁ v₂ errno₁ errno₂ errno₃,
    parse ports s (some u₁) prior₁ = .ok (ok, some v₁, errno₁) ∧
      parse ports s (some u₂) prior₂ = .ok (ok, some v₂, errno₂) ∧
      parse ports s none prior₃ = .ok (ok, none, errno₃) ∧ observe v₁ = observe v₂

/-! ### The flag for a default port -/

theorem clear_eq (u : Uri) : clear u = { empty with hasDefaultPort := u.hasDefaultPort } := rfl

theorem authority_no_port {u : Uri} (h : u.port < 0) (flag : Bool) :
    authority { u with hasDefaultPort := flag } = authority u := by
  have hPort : ¬0 ≤ u.port := by omega
  simp only [authority, hPort, false_and, if_false]

/-- No observer reads the flag when there is no port. -/
theorem observe_no_port {u : Uri} (h : u.port < 0) (flag : Bool) :
    observe { u with hasDefaultPort := flag } = observe u := by
  simp only [observe, hierPart, str, absStr, authority_no_port h]

theorem authority_default_ne {u : Uri} (h : 0 ≤ u.port) :
    authority { u with hasDefaultPort := true } ≠ authority { u with hasDefaultPort := false } := by
  intro hEq
  have hLength := congrArg List.length hEq
  simp [authority, h] at hLength

/-- The scheme "http" at port 80. -/
def httpPorts : SchemePorts := ⟨[([0x68, 0x74, 0x74, 0x70], 80)], [], -1⟩

/-- What "http:" is parsed to. -/
def httpDefault : Uri := ⟨[0x68, 0x74, 0x74, 0x70], [], [], [], [], [], 80, false, true⟩

theorem history_httpDefault : History httpDefault := by
  have hRun : parse httpPorts [0x68, 0x74, 0x74, 0x70, colon] (some empty) .success =
      .ok (true, some httpDefault, .success) := by decide +kernel
  exact .parsed .fresh hRun

/-! ### The two runs -/

variable {ports : SchemePorts} {s : Bytes} {effect : Effect}

/-- What the parser accepts as a whole. -/
def AcceptedText (s : Bytes) : Prop := ∃ parts : Parts, parts.Accepted ∧ s = parts.text

theorem ok_iff_accepted (hs : s ≠ []) (hDoes : Does readComponents s 0 effect) :
    effect.ok = true ↔ AcceptedText s := by
  constructor
  · intro hOk
    have hRun := parse_of_effect hs hDoes ⟨[], [], -1⟩ none .success
    rw [hOk, if_pos rfl] at hRun
    obtain ⟨parts, hText, hParts, _⟩ := parse_split hs hRun
    exact ⟨parts, hParts, hText⟩
  · rintro ⟨parts, hParts, rfl⟩
    obtain ⟨errno, hRun⟩ := parse_text hParts ⟨[], [], -1⟩ empty .success
    rw [parse_of_effect hs hDoes] at hRun
    by_contra hFailed
    rw [if_neg hFailed] at hRun
    cases hPath : pathNormalize (percentNormal id parts.path) with
    | error fault =>
        rw [hPath] at hRun
        cases hRun
    | ok path =>
        rw [hPath] at hRun
        cases hRun

/-- A parse that fails leaves the flag, and changes all else to the same. -/
theorem parse_failed (hs : s ≠ []) (hDoes : Does readComponents s 0 effect) (hBlind : effect.Blind)
    (hFailed : effect.ok = false) (u : Uri) (prior : Imperr) :
    parse ports s (some u) prior =
      .ok (false, some { effect.change empty with hasDefaultPort := u.hasDefaultPort }, effect.errno .success) := by
  rw [parse_of_effect hs hDoes, hFailed, if_neg (by decide), Option.map_some, Option.map_some, clear_eq, hBlind]

theorem parse_none (hs : s ≠ []) (hDoes : Does readComponents s 0 effect) (ports : SchemePorts) (prior : Imperr) :
    parse ports s none prior = .ok (effect.ok, none, effect.errno .success) := by
  rw [parse_of_effect hs hDoes]
  cases effect.ok <;> rfl

theorem independent_of_failed (hs : s ≠ []) (hDoes : Does readComponents s 0 effect) (hBlind : effect.Blind)
    (hFailed : effect.ok = false) (hPort : (effect.change empty).port < 0) : Independent ports s := by
  intro u₁ u₂ _ _ prior₁ prior₂ prior₃
  refine ⟨false, _, _, _, _, effect.errno .success, parse_failed hs hDoes hBlind hFailed u₁ prior₁,
    parse_failed hs hDoes hBlind hFailed u₂ prior₂, ?_, ?_⟩
  · rw [parse_none hs hDoes, hFailed]
  · exact (observe_no_port hPort _).trans (observe_no_port hPort _).symm

theorem independent_of_accepted (hs : s ≠ []) (hDoes : Does readComponents s 0 effect) {parts : Parts}
    (hParts : parts.Accepted) (hText : s = parts.text) {path : Bytes}
    (hPath : pathNormalize (percentNormal id parts.path) = .ok path) : Independent ports s := by
  intro u₁ u₂ _ _ prior₁ prior₂ prior₃
  have hRun (u : Uri) (prior : Imperr) :
      ∃ errno, parse ports s (some u) prior = .ok (true, some (parts.value ports path), errno) := by
    obtain ⟨errno, hRun⟩ := parse_text hParts ports u prior
    rw [hPath] at hRun
    exact ⟨errno, hText ▸ hRun⟩
  obtain ⟨errno₁, hFirst⟩ := hRun u₁ prior₁
  obtain ⟨errno₂, hSecond⟩ := hRun u₂ prior₂
  refine ⟨true, _, _, errno₁, errno₂, effect.errno .success, hFirst, hSecond, ?_, rfl⟩
  rw [parse_none hs hDoes, (ok_iff_accepted hs hDoes).mpr ⟨parts, hParts, hText⟩]

/-- A port that has been stored when the parse fails is shown or not. -/
theorem not_independent_of_stored (hs : s ≠ []) (hDoes : Does readComponents s 0 effect) (hBlind : effect.Blind)
    (hFailed : effect.ok = false) (hPort : 0 ≤ (effect.change empty).port) : ¬Independent ports s := by
  intro h
  obtain ⟨ok, v₁, v₂, _, _, _, hFirst, hSecond, _, hSame⟩ :=
    h httpDefault empty history_httpDefault .fresh .success .success .success
  rw [parse_failed hs hDoes hBlind hFailed] at hFirst hSecond
  cases hFirst
  cases hSecond
  exact authority_default_ne hPort (congrArg Observed.authority hSame)

/-- The result is independent of what it held before if and only if no port is
stored in a text that is then refused, and the dot segments of an accepted text
can be removed. -/
theorem independent_iff (ports : SchemePorts) (s : Bytes) :
    Independent ports s ↔
      ((∃ parts, HasAuthority s parts ∧ parts.StoresPort) → AcceptedText s) ∧
        ∀ parts : Parts, parts.Accepted → s = parts.text →
          ∃ path, pathNormalize (percentNormal id parts.path) = .ok path := by
  by_cases hs : s = []
  · subst hs
    apply iff_of_true
    · intro u₁ u₂ _ _ prior₁ prior₂ prior₃
      have hPort : empty.port < 0 := by decide
      refine ⟨true, clear u₁, clear u₂, .success, .success, .success, rfl, rfl, rfl, ?_⟩
      exact (observe_no_port hPort u₁.hasDefaultPort).trans (observe_no_port hPort u₂.hasDefaultPort).symm
    · refine ⟨?_, ?_⟩
      · rintro ⟨parts, ⟨hText, _, _⟩, _⟩
        simp at hText
      · intro parts _ hText
        simp [Parts.text] at hText
  obtain ⟨effect, hDoes, hKnown⟩ := readComponents_effect hs
  have hAccepted := ok_iff_accepted hs hDoes
  constructor
  · intro h
    constructor
    · intro hStored
      by_contra hRefused
      have hFailed : effect.ok = false := by
        rw [← Bool.not_eq_true, hAccepted]
        exact hRefused
      exact not_independent_of_stored hs hDoes hKnown.blind hFailed (hKnown.stored hStored empty) h
    · rintro parts hParts rfl
      obtain ⟨ok, v, _, errno, _, _, hRun, _⟩ := h empty empty .fresh .fresh .success .success .success
      obtain ⟨_, hText⟩ := parse_text hParts ports empty .success
      obtain ⟨path, hPath, _⟩ := bind_ok.mp (hText.symm.trans hRun)
      exact ⟨path, hPath⟩
  · rintro ⟨hStored, hPaths⟩
    cases hOk : effect.ok with
    | true =>
        obtain ⟨parts, hParts, hText⟩ := hAccepted.mp hOk
        obtain ⟨path, hPath⟩ := hPaths parts hParts hText
        exact independent_of_accepted hs hDoes hParts hText hPath
    | false =>
        have hNone : ¬∃ parts, HasAuthority s parts ∧ parts.StoresPort := by
          intro hStores
          have hTrue := hAccepted.mpr (hStored hStores)
          rw [hOk] at hTrue
          cases hTrue
        apply independent_of_failed hs hDoes hKnown.blind hOk
        rw [hKnown.kept hNone]
        decide

/-- The text "foo://bar:80//". -/
def emptySegment : Bytes :=
  [0x66, 0x6F, 0x6F, colon, slash, slash, 0x62, 0x61, 0x72, colon, 0x38, 0x30, slash, slash]

/-- The path is refused behind the port. An object that "http:" has been parsed
into keeps the flag for a default port, and does not show the port. -/
theorem emptySegment_remembered :
    (∃ v, parse ⟨[], [], -1⟩ emptySegment (some empty) .success = .ok (false, some v, .uriPathdelim) ∧
        authority v = [0x62, 0x61, 0x72, colon, 0x38, 0x30]) ∧
      (∃ v, parse ⟨[], [], -1⟩ emptySegment (some httpDefault) .success = .ok (false, some v, .uriPathdelim) ∧
        authority v = [0x62, 0x61, 0x72]) ∧
      ¬Independent ⟨[], [], -1⟩ emptySegment := by
  have hFresh : parse ⟨[], [], -1⟩ emptySegment (some empty) .success =
      .ok (false, some ⟨[0x66, 0x6F, 0x6F], [], [0x62, 0x61, 0x72], [], [], [], 80, true, false⟩, .uriPathdelim) := by
    decide +kernel
  have hUsed : parse ⟨[], [], -1⟩ emptySegment (some httpDefault) .success =
      .ok (false, some ⟨[0x66, 0x6F, 0x6F], [], [0x62, 0x61, 0x72], [], [], [], 80, true, true⟩, .uriPathdelim) := by
    decide +kernel
  refine ⟨⟨_, hFresh, by decide⟩, ⟨_, hUsed, by decide⟩, fun h => ?_⟩
  obtain ⟨_, _, _, _, _, _, hFirst, hSecond, _, hSame⟩ :=
    h empty httpDefault .fresh history_httpDefault .success .success .success
  cases hFresh.symm.trans hFirst
  cases hUsed.symm.trans hSecond
  have hAuthority := congrArg Observed.authority hSame
  exact absurd hAuthority (by decide)

end ImpactSockets.Uri
