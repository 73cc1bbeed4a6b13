import ImpactSockets.Rfc.Uri.ResultHistory
import ImpactSockets.Rfc.Uri.SchemeRegistry

/-! What the observers of an object have in common: `hier_part()` and `abs_str()`,
which join authority and path each on its own, and all of them before and after
a move. -/
namespace ImpactSockets.Uri

open AbnfOps Ascii

/-! ### The two recompositions -/

/-- The observers write the authority of the object. -/
def ShowsAuthority (u : Uri) : Prop := (authority u).length ≠ 0 ∨ u.hasAuth

instance (u : Uri) : Decidable (ShowsAuthority u) := inferInstanceAs (Decidable (_ ∨ _))

/-- What the two recompositions write in front of the path. Only `abs_str()` looks
at the path for the slash that it needs. -/
def authorityPrefix (u : Uri) (needsSlash : Prop) [Decidable needsSlash] : Bytes :=
  if ShowsAuthority u then slash :: slash :: authority u ++ if needsSlash then [slash] else [] else []

/-- `abs_str()` is made of `scheme()`, `hier_part()` and `query()`. -/
def Agrees (u : Uri) : Prop :=
  absStr u = (if u.scheme.length ≠ 0 then u.scheme ++ [colon] else []) ++ hierPart u ++
    if u.query.length ≠ 0 then question :: u.query else []

/-- The authority in front of the path, with a slash between them for every path that is not
empty. -/
theorem hierPart_eq (u : Uri) : hierPart u = authorityPrefix u (u.path.length ≠ 0) ++ u.path := rfl

/-- Here the slash is written only where the path does not bring its own. -/
theorem absStr_eq (u : Uri) :
    absStr u = (if u.scheme.length ≠ 0 then u.scheme ++ [colon] else []) ++
      (authorityPrefix u (u.path.length ≠ 0 ∧ u.path.head? ≠ some slash) ++ u.path) ++
      if u.query.length ≠ 0 then question :: u.query else [] := by
  rw [← List.append_assoc _ _ u.path]
  rfl

/-- The two recompositions differ by a slash if and only if the path behind an
authority brings its own. -/
theorem agrees_iff (u : Uri) : Agrees u ↔ ¬(ShowsAuthority u ∧ u.path.head? = some slash) := by
  rw [Agrees, absStr_eq, hierPart_eq, List.append_left_inj, List.append_right_inj, List.append_left_inj]
  unfold authorityPrefix
  by_cases hShows : ShowsAuthority u
  · rw [if_pos hShows, if_pos hShows, List.append_right_inj]
    by_cases hHead : u.path.head? = some slash
    · have hPath : u.path.length ≠ 0 := by
        intro hNil
        rw [List.length_eq_zero_iff.mp hNil] at hHead
        cases hHead
      simp [hShows, hHead, hPath]
    · simp [hHead]
  · simp [hShows]

/-- The text "foo://bar/baz". -/
def rootedPath : Bytes := ascii "foo://bar/baz"

/-- `hier_part()` writes a second slash. -/
theorem rootedPath_disagrees :
    ∃ u, parse ⟨[], [], -1⟩ rootedPath (some empty) .success = .ok (true, some u, .success) ∧
      absStr u = ascii "foo://bar/baz" ∧ hierPart u = ascii "//bar//baz" ∧ ¬Agrees u := by
  have hRun : parse ⟨[], [], -1⟩ rootedPath (some empty) .success =
      .ok (true, some ⟨ascii "foo", [], ascii "bar", ascii "/baz", [], [], -1, true, false⟩, .success) := by
    decide +kernel
  exact ⟨_, hRun, by decide, by decide, by unfold Agrees; decide⟩

/-! ### Moves -/

/-- `uri::uri(uri&&)`. -/
def moveConstruct (value : Uri) : Uri where
  scheme := value.scheme
  userinfo := value.userinfo
  host := value.host
  path := value.path
  query := value.query
  fragment := value.fragment
  port := value.port
  hasAuth := value.hasAuth
  hasDefaultPort := value.hasDefaultPort

/-- `uri::operator=(uri&&)`, which has no line for `m_has_default_port_`. -/
def moveAssign (target rvalue : Uri) : Uri :=
  { target with
    scheme := rvalue.scheme, userinfo := rvalue.userinfo, host := rvalue.host, path := rvalue.path
    query := rvalue.query, fragment := rvalue.fragment, port := rvalue.port, hasAuth := rvalue.hasAuth }

/-- What the `norm_` observers return. -/
def normObserve (u : Uri) : List Bytes :=
  [normHierPart u, normAuthority u, normStr u, normAbsStr u, normUserinfo u, normHost u, normPath u, normQuery u,
    normFragment u]

/-- No observer tells the objects apart. -/
structure Alike (u v : Uri) : Prop where
  observed : observe u = observe v
  normObserved : normObserve u = normObserve v

/-- What a move is for: the object moved to is like the one that is moved. -/
structure MovePreserves (target rvalue : Uri) : Prop where
  assigned : Alike (moveAssign target rvalue) rvalue
  constructed : Alike (moveConstruct rvalue) rvalue

/-- The assignment moves everything but the flag for a default port. -/
theorem moveAssign_eq (target rvalue : Uri) :
    moveAssign target rvalue = { rvalue with hasDefaultPort := target.hasDefaultPort } := rfl

/-- The `norm_` observers depend on what the others return. -/
theorem normObserve_of_observe {u v : Uri} (h : observe u = observe v) : normObserve u = normObserve v := by
  have hHierPart : hierPart u = hierPart v := congrArg Observed.hierPart h
  have hAuthority : authority u = authority v := congrArg Observed.authority h
  have hStr : str u = str v := congrArg Observed.str h
  have hAbsStr : absStr u = absStr v := congrArg Observed.absStr h
  have hUserinfo : u.userinfo = v.userinfo := congrArg Observed.userinfo h
  have hHost : u.host = v.host := congrArg Observed.host h
  have hPath : u.path = v.path := congrArg Observed.path h
  have hQuery : u.query = v.query := congrArg Observed.query h
  have hFragment : u.fragment = v.fragment := congrArg Observed.fragment h
  simp only [normObserve, normHierPart, normAuthority, normStr, normAbsStr, normUserinfo, normHost, normPath, normQuery,
    normFragment, hHierPart, hAuthority, hStr, hAbsStr, hUserinfo, hHost, hPath, hQuery, hFragment]

/-- Objects that the plain observers do not tell apart are alike. -/
theorem alike_of_observe {u v : Uri} (h : observe u = observe v) : Alike u v := ⟨h, normObserve_of_observe h⟩

/-- Only a port brings the flag to light. -/
theorem observe_flag_iff (u : Uri) (flag : Bool) :
    observe { u with hasDefaultPort := flag } = observe u ↔ u.port < 0 ∨ flag = u.hasDefaultPort := by
  constructor
  · intro h
    by_contra hNot
    obtain ⟨hPort, hFlag⟩ := not_or.mp hNot
    have hShown := authority_default_ne (not_lt.mp hPort)
    have hSame : authority { u with hasDefaultPort := flag } = authority u := congrArg Observed.authority h
    obtain ⟨scheme, userinfo, host, path, query, fragment, port, hasAuth, old⟩ := u
    cases flag <;> cases old
    · exact hFlag rfl
    · exact hShown hSame.symm
    · exact hShown hSame
    · exact hFlag rfl
  · rintro (hPort | rfl)
    · exact observe_no_port hPort flag
    · rfl

/-- An assignment keeps what the observers return if and only if the object has no
port or the flag of the target is the one that it would have to be. -/
theorem movePreserves_iff (target rvalue : Uri) :
    MovePreserves target rvalue ↔ rvalue.port < 0 ∨ target.hasDefaultPort = rvalue.hasDefaultPort := by
  rw [← observe_flag_iff, ← moveAssign_eq]
  constructor
  · exact fun h => h.assigned.observed
  · exact fun h => ⟨alike_of_observe h, alike_of_observe rfl⟩

/-- An object that "http:" has been parsed into, moved to a new one. -/
theorem httpDefault_not_preserved :
    History empty ∧ History httpDefault ∧ authority httpDefault = [] ∧
      authority (moveAssign empty httpDefault) = ascii ":80" ∧ ¬MovePreserves empty httpDefault := by
  refine ⟨.fresh, history_httpDefault, by decide, by decide, ?_⟩
  intro h
  have hAuthority := congrArg Observed.authority h.assigned.observed
  exact absurd hAuthority (by decide)

end ImpactSockets.Uri
