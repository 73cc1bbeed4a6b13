import ImpactSockets.Rfc.Uri.ResultHistory
import ImpactSockets.Rfc.Uri.SchemeRegistry

/-! The bookkeeping of default ports in `_S_post_parse`: what it dereferences, and
what its flag says about the port. -/
namespace ImpactSockets.Uri

open AbnfOps Ascii

/-- The part of `_S_post_parse` that is about the port. The result is `none` when
it dereferences the iterator of a lookup that has found no entry. -/
def postParsePortChecked (ports : SchemePorts) (scheme : Bytes) (port : Int) : Option (Int × Bool) :=
  let token := ports.lookup scheme
  if 0 ≤ port then token.map fun second => (port, port == second)
  else
    match token with
    | some second => if 0 ≤ second then some (second, true) else some (port, false)
    | none => some (port, false)

/-- The object that `_S_post_parse` gets when the text is parsed into `u`. -/
def PostParses (s : Bytes) (u w : Uri) : Prop :=
  ∃ ctx, readComponents ⟨0, s, some (clear u), .success⟩ = .ok (true, ctx) ∧ ctx.result = some w

/-- The port of the object is the one its scheme is registered with. -/
def HasDefault (ports : SchemePorts) (v : Uri) : Prop :=
  ∃ second, ports.lookup v.scheme = some second ∧ 0 ≤ second ∧ v.port = second

/-- What `authority()` returns without the port. -/
def portless (v : Uri) : Bytes := (if v.userinfo.length ≠ 0 then v.userinfo ++ [at_] else []) ++ v.host

/-- The bookkeeping of one call, which gets `w` and leaves `v`. -/
structure Bookkeeping (ports : SchemePorts) (w v : Uri) : Prop where
  found : postParsePortChecked ports (w.scheme.map tolower) w.port ≠ none
  flag : v.hasDefaultPort = true ↔ HasDefault ports v
  shown : authority v = portless v ↔ v.port < 0 ∨ HasDefault ports v

/-! ### The port -/

/-- Where nothing but entries is dereferenced, the check changes nothing. -/
theorem postParsePort_of_checked {ports : SchemePorts} {scheme : Bytes} {port : Int} {outcome : Int × Bool}
    (h : postParsePortChecked ports scheme port = some outcome) : postParsePort ports scheme port = outcome := by
  unfold postParsePortChecked at h
  unfold postParsePort
  cases hToken : ports.lookup scheme with
  | none =>
      simp only [hToken, Option.map_none] at h ⊢
      split_ifs at h ⊢
      exact Option.some.inj h
  | some second =>
      simp only [hToken, Option.map_some, Option.getD_some] at h ⊢
      split_ifs at h ⊢ <;> exact Option.some.inj h

theorem checked_eq_none_iff (ports : SchemePorts) (scheme : Bytes) (port : Int) :
    postParsePortChecked ports scheme port = none ↔ 0 ≤ port ∧ ports.lookup scheme = none := by
  unfold postParsePortChecked
  by_cases hPort : 0 ≤ port
  · simp [hPort]
  · cases hToken : ports.lookup scheme with
    | none => simp [hPort]
    | some second =>
        by_cases hSecond : 0 ≤ second
        · simp [hPort, hSecond]
        · simp [hPort, hSecond]

/-- The flag, by the cases of the code. -/
theorem flag_of_checked {ports : SchemePorts} {scheme : Bytes} {port : Int} {outcome : Int × Bool}
    (h : postParsePortChecked ports scheme port = some outcome) :
    outcome.2 = true ↔ ∃ second, ports.lookup scheme = some second ∧ 0 ≤ second ∧ outcome.1 = second := by
  unfold postParsePortChecked at h
  cases hToken : ports.lookup scheme with
  | none =>
      simp only [hToken, Option.map_none] at h
      split_ifs at h
      obtain rfl := Option.some.inj h
      simp
  | some second =>
      simp only [hToken, Option.map_some] at h
      split_ifs at h with hPort hSecond
      · -- the text states a port
        obtain rfl := Option.some.inj h
        constructor
        · intro hEq
          have hSame : port = second := by simpa using hEq
          exact ⟨second, rfl, hSame ▸ hPort, hSame⟩
        · rintro ⟨_, hSome, _, hSame⟩
          obtain rfl := Option.some.inj hSome
          simpa using hSame
      · -- the scheme has a port
        obtain rfl := Option.some.inj h
        exact ⟨fun _ => ⟨second, rfl, hSecond, rfl⟩, fun _ => rfl⟩
      · -- the scheme has none
        obtain rfl := Option.some.inj h
        constructor
        · intro hFalse
          cases hFalse
        · rintro ⟨_, hSome, hOther, _⟩
          obtain rfl := Option.some.inj hSome
          exact absurd hOther hSecond

theorem authority_eq_portless (v : Uri) : authority v = portless v ↔ v.port < 0 ∨ v.hasDefaultPort = true := by
  have hAuthority : authority v =
      portless v ++ if 0 ≤ v.port ∧ ¬v.hasDefaultPort then colon :: authority.toString_ v.port else [] := rfl
  rw [hAuthority, List.append_right_eq_self]
  by_cases hShown : 0 ≤ v.port ∧ ¬v.hasDefaultPort = true
  · rw [if_pos hShown]
    refine iff_of_false (by simp) ?_
    rintro (hPort | hFlag)
    · exact absurd hShown.1 (by omega)
    · exact hShown.2 hFlag
  · rw [if_neg hShown]
    refine iff_of_true rfl ?_
    by_cases hPort : v.port < 0
    · exact .inl hPort
    · exact .inr (by_contra fun hFlag => hShown ⟨by omega, hFlag⟩)

/-! ### The call -/

/-- What `_S_post_parse` makes of the port, by the members it gets and leaves. -/
theorem postParse_port {ports : SchemePorts} {ctx next : Context} {w v : Uri} (hW : ctx.result = some w)
    (hV : next.result = some v) (h : postParse ports ctx = .ok next) :
    v.scheme = w.scheme.map tolower ∧ (v.port, v.hasDefaultPort) = postParsePort ports (w.scheme.map tolower) w.port := by
  unfold postParse at h
  rw [hW] at h
  obtain ⟨path, _, hNext⟩ := bind_ok.mp h
  rw [← Except.ok.inj hNext] at hV
  obtain rfl := Option.some.inj hV
  exact ⟨rfl, rfl⟩

/-- The books are kept if and only if the port of the object has no need of an
entry that is missing. -/
theorem bookkeeping_of_post {ports : SchemePorts} {w v : Uri} (hScheme : v.scheme = w.scheme.map tolower)
    (hPort : (v.port, v.hasDefaultPort) = postParsePort ports (w.scheme.map tolower) w.port) :
    Bookkeeping ports w v ↔ (0 ≤ w.port → ports.lookup (w.scheme.map tolower) ≠ none) := by
  constructor
  · intro h hStored hNone
    exact h.found ((checked_eq_none_iff _ _ _).mpr ⟨hStored, hNone⟩)
  · intro h
    have hFound : postParsePortChecked ports (w.scheme.map tolower) w.port ≠ none := by
      rw [Ne, checked_eq_none_iff, not_and]
      exact h
    obtain ⟨outcome, hOutcome⟩ := Option.ne_none_iff_exists'.mp hFound
    rw [postParsePort_of_checked hOutcome] at hPort
    obtain rfl := hPort
    have hFlag : v.hasDefaultPort = true ↔ HasDefault ports v := by
      unfold HasDefault
      rw [hScheme]
      exact flag_of_checked hOutcome
    exact ⟨hFound, hFlag, by rw [authority_eq_portless, hFlag]⟩

/-- The call, as the parsers of the components and then `_S_post_parse`. -/
theorem parse_post {ports : SchemePorts} {s : Bytes} (hs : s ≠ []) {effect : Effect}
    (hDoes : Does readComponents s 0 effect) {u v : Uri} {prior errno : Imperr}
    (h : parse ports s (some u) prior = .ok (true, some v, errno)) :
    effect.ok = true ∧ v.scheme = (effect.change (clear u)).scheme.map tolower ∧
      (v.port, v.hasDefaultPort) = postParsePort ports v.scheme (effect.change (clear u)).port := by
  rw [parse_of_effect hs hDoes] at h
  cases hOk : effect.ok with
  | false =>
      rw [hOk, if_neg (by decide)] at h
      cases h
  | true =>
      rw [hOk, if_pos rfl] at h
      obtain ⟨next, hPost, hNext⟩ := bind_ok.mp h
      obtain ⟨_, hResult⟩ := Prod.mk.inj (Except.ok.inj hNext)
      obtain ⟨hScheme, hPort⟩ := postParse_port rfl (Prod.mk.inj hResult).1 hPost
      rw [hScheme]
      exact ⟨rfl, rfl, hPort⟩

/-- The port in front of `_S_post_parse` is the one of the text. The parse with
empty dictionaries shows it. -/
theorem stored_port {parts : Parts} (hParts : parts.Accepted) {effect : Effect}
    (hDoes : Does readComponents parts.text 0 effect) {u : Uri} {path : Bytes}
    (hPath : pathNormalize (percentNormal id parts.path) = .ok path) :
    (effect.change (clear u)).port = portNumber parts.portText ∧
      (effect.change (clear u)).scheme.map tolower = parts.scheme.map tolower := by
  obtain ⟨errno, hRun⟩ := parse_text hParts ⟨[], [], -1⟩ u .success
  rw [hPath] at hRun
  obtain ⟨_, hScheme, hPort⟩ := parse_post (by simp [Parts.text]) hDoes hRun
  have hPlain (port : Int) : (postParsePort ⟨[], [], -1⟩ (parts.value ⟨[], [], -1⟩ path).scheme port).1 = port := by
    unfold postParsePort
    split_ifs <;> rfl
  refine ⟨?_, hScheme.symm⟩
  rw [← hPlain (effect.change (clear u)).port, ← congrArg Prod.fst hPort]
  exact hPlain (portNumber parts.portText)

theorem portNumber_nonneg_iff (text : Bytes) : 0 ≤ portNumber text ↔ text ≠ [] := by
  unfold portNumber
  split_ifs with hNil
  · simp [hNil]
  · simp [hNil]

/-- The books are kept when a text is accepted if and only if it states no port or
its scheme is registered. -/
theorem bookkeeping_iff {ports : SchemePorts} {s : Bytes} {u v : Uri} {prior errno : Imperr}
    (h : parse ports s (some u) prior = .ok (true, some v, errno)) (hScheme : v.scheme ≠ []) :
    (∃ w, PostParses s u w ∧ Bookkeeping ports w v) ↔
      ∀ parts : Parts, parts.Accepted → s = parts.text → parts.portText ≠ [] →
        ports.lookup (parts.scheme.map tolower) ≠ none := by
  have hs : s ≠ [] := by
    rintro rfl
    cases h
    exact hScheme rfl
  obtain ⟨effect, hDoes, _⟩ := readComponents_effect hs
  obtain ⟨hOk, hLower, hPort⟩ := parse_post hs hDoes h
  rw [hLower] at hPort
  have hBooks := bookkeeping_of_post hLower hPort
  have hPosts (w : Uri) : PostParses s u w ↔ effect.change (clear u) = w := by
    unfold PostParses
    rw [hDoes, hOk]
    constructor
    · rintro ⟨ctx, hRun, hResult⟩
      rw [← (Prod.mk.inj (Except.ok.inj hRun)).2] at hResult
      exact Option.some.inj hResult
    · rintro rfl
      exact ⟨_, rfl, rfl⟩
  simp only [hPosts, exists_eq_left', hBooks]
  obtain ⟨parts, hText, hParts, hValue⟩ := parse_split hs h
  obtain ⟨path, hPath, _⟩ := hValue u rfl
  have hStored (other : Parts) (hOther : other.Accepted) (hOtherText : s = other.text) :
      (effect.change (clear u)).port = portNumber other.portText ∧
        (effect.change (clear u)).scheme.map tolower = other.scheme.map tolower := by
    obtain ⟨_, hRun⟩ := parse_text hOther ports u prior
    rw [← hOtherText, h] at hRun
    obtain ⟨otherPath, hOtherPath, _⟩ := bind_ok.mp hRun.symm
    subst hOtherText
    exact stored_port hOther hDoes hOtherPath
  constructor
  · intro hFound other hOther hOtherText hStates
    obtain ⟨hNumber, hSame⟩ := hStored other hOther hOtherText
    rw [hNumber, portNumber_nonneg_iff, hSame] at hFound
    exact hFound hStates
  · intro hRegistered hNonneg
    obtain ⟨hNumber, hSame⟩ := hStored parts hParts hText
    rw [hNumber, portNumber_nonneg_iff] at hNonneg
    rw [hSame]
    exact hRegistered parts hParts hText hNonneg

/-- The text "http://h:8080", of a scheme with port 80. -/
theorem bookkeeping_iff_registered :
    ∃ w, PostParses (ascii "http://h:8080") empty w ∧
      Bookkeeping httpPorts w ⟨ascii "http", [], ascii "h", [], [], [], 8080, true, false⟩ := by
  have hRun : parse httpPorts (ascii "http://h:8080") (some empty) .success =
      .ok (true, some ⟨ascii "http", [], ascii "h", [], [], [], 8080, true, false⟩, .success) := by decide +kernel
  refine (bookkeeping_iff hRun (by decide)).mpr ?_
  intro parts hParts hText _
  have hHttp : [0x68, 0x74, 0x74, 0x70] ∈ Grammar.scheme :=
    mem_scheme.mpr ⟨0x68, [0x74, 0x74, 0x70], rfl, by decide, List.all_eq_true.mp (by decide)⟩
  have hCut : [0x68, 0x74, 0x74, 0x70] ++ colon :: ascii "//h:8080" = parts.text := by
    rw [← hText]
    decide
  obtain ⟨hScheme, _⟩ := scheme_unique hHttp (boundary_cons.mpr (by decide)) hParts.scheme hCut
  rw [← hScheme]
  decide

/-- The text "foo://bar:80". -/
def unregisteredPort : Bytes := ascii "foo://bar:80"

/-- The scheme is not registered, and the port is compared with what is behind the
end iterator. When that is 80, `authority()` does not show the port. -/
theorem unregisteredPort_dereferenced :
    ∃ v, parse ⟨[], [], 80⟩ unregisteredPort (some empty) .success = .ok (true, some v, .success) ∧ v.scheme ≠ [] ∧
      v.port = 80 ∧ v.hasDefaultPort = true ∧ authority v = ascii "bar" ∧
      ¬∃ w, PostParses unregisteredPort empty w ∧ Bookkeeping ⟨[], [], 80⟩ w v := by
  have hRun : parse ⟨[], [], 80⟩ unregisteredPort (some empty) .success =
      .ok (true, some ⟨ascii "foo", [], ascii "bar", [], [], [], 80, true, true⟩, .success) := by decide +kernel
  refine ⟨_, hRun, by decide, rfl, rfl, by decide, ?_⟩
  rintro ⟨w, _, hBooks⟩
  obtain ⟨_, hFound, _⟩ := hBooks.flag.mp rfl
  cases hFound

end ImpactSockets.Uri
