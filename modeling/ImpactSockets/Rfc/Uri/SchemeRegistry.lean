import ImpactSockets.Library.Transition
import ImpactSockets.Rfc.Uri.Parts

/-! The registry of scheme ports: the dictionary of permanent schemes, the one
of the user, and the calls that change the second and read both. -/
namespace ImpactSockets.Uri

open Ascii Transition

/-- The bytes of a string of ASCII characters. -/
def ascii (s : String) : Bytes := s.toList.map Char.toUInt8

/-- `s_scheme_port_dictionary_`, based on the IANA registry. A scheme without a
port of its own has -1. -/
def permanentPorts : List (Bytes × Int) :=
  [("aaa", 3868), ("aaas", 5658), ("about", 2019), ("acap", 674), ("acct", -1), ("cap", 1026),
    ("cid", -1), ("coap", 5683), ("coap+tcp", 5683), ("coap+ws", 5683), ("coaps", 5684),
    ("coaps+tcp", 5684), ("coaps+ws", 5684), ("crid", -1), ("data", -1), ("dav", -1),
    ("dict", 2628), ("dns", -1), ("example", -1), ("file", -1), ("ftp", 21), ("geo", -1),
    ("go", 1096), ("gopher", 70), ("h323", -1), ("http", 80), ("https", 443), ("iax", 4569),
    ("icap", 1344), ("im", -1), ("imap", 143), ("info", -1), ("ipp", 631), ("ipps", 631),
    ("iris", -1), ("iris.beep", 702), ("iris.lwz", 715), ("iris.xpc", 713), ("iris.xpcs", 714),
    ("jabber", -1), ("ldap", 389), ("mailto", -1), ("mid", -1), ("msrp", 2855), ("msrps", 2855),
    ("mtqp", 1038), ("mupdate", 3905), ("news", 2009), ("nfs", 2049), ("ni", -1), ("nih", -1),
    ("nntp", 119), ("opaquelocktoken", -1), ("pkcs11", -1), ("pop", 110), ("pres", -1),
    ("reload", 6084), ("reload-config", 6084), ("rtsp", 554), ("rtsps", 322), ("rtspu", -1),
    ("service", -1), ("session", -1), ("shttp", 80), ("sieve", 4190), ("sip", 5060),
    ("sips", 5061), ("sms", -1), ("snmp", 161), ("soap.beep", -1), ("soap.beeps", -1),
    ("stun", 3478), ("stuns", 5349), ("tag", -1), ("tel", -1), ("telnet", 23), ("tftp", 69),
    ("thismessage", -1), ("tip", 3372), ("tn3270", 23), ("turn", 3478), ("turns", 5349),
    ("tv", -1), ("urn", -1), ("vemmi", 575), ("vnc", 5900), ("ws", 80), ("wss", 443),
    ("xcon", -1), ("xcon-userid", -1), ("xmlrpc.beep", 602), ("xmlrpc.beeps", 602), ("xmpp", -1),
    ("z39.50r", 210), ("z39.50s", 210)].map fun entry => (ascii entry.1, entry.2)

/-- `s_scheme_port_dictionary_usr_`, and the thread's `imp_errno`. -/
structure Registry where
  user : List (Bytes × Int)
  errno : Imperr
deriving DecidableEq, Repr

/-- The `erase` of a dictionary. -/
def erase (dictionary : List (Bytes × Int)) (scheme : Bytes) : List (Bytes × Int) :=
  dictionary.filter fun entry => entry.1 != scheme

/-- Assignment through the `operator[]` of a dictionary. -/
def assign (dictionary : List (Bytes × Int)) (scheme : Bytes) (port : Int) : List (Bytes × Int) :=
  (scheme, port) :: erase dictionary scheme

/-- `register_scheme_port`, whose first test is on the schemes that are not
permanent. -/
def registerSchemePort (scheme : Bytes) (port : Int) (registry : Registry) : Bool × Registry :=
  if find permanentPorts scheme = none then (false, { registry with errno := .uriSchemeRsv })
  else (true, ⟨assign registry.user scheme port, .success⟩)

/-- `deregister_scheme_port`. -/
def deregisterSchemePort (scheme : Bytes) (registry : Registry) : Bool × Registry :=
  if find registry.user scheme = none then (false, { registry with errno := .uriSchemeNotfound })
  else (true, ⟨erase registry.user scheme, .success⟩)

/-- What `_S_post_parse` looks up ports in, `endSecond` being behind the end
iterator of the user's dictionary. -/
def Registry.ports (registry : Registry) (endSecond : Int) : SchemePorts :=
  ⟨permanentPorts, registry.user, endSecond⟩

/-- A call of one of the static functions of `uri`. -/
inductive Call where
  | register (scheme : Bytes) (port : Int)
  | deregister (scheme : Bytes)
  | parse (value : Bytes) (result : Option Uri) (endSecond : Int)
deriving DecidableEq, Repr

/-- What a call leaves. A call of `parse` that does not return leaves nothing. -/
def Registry.step (registry : Registry) : Call → Option Registry
  | .register scheme port => some (registerSchemePort scheme port registry).2
  | .deregister scheme => some (deregisterSchemePort scheme registry).2
  | .parse value result endSecond =>
      match Uri.parse (registry.ports endSecond) value result registry.errno with
      | .ok (_, _, errno) => some { registry with errno := errno }
      | .error _ => none

/-- The call registers or deregisters the scheme. -/
def Call.concerns (scheme : Bytes) : Call → Prop
  | .register other _ => other = scheme
  | .deregister other => other = scheme
  | .parse .. => False

/-- The last call of the history for the scheme has registered the port with
success. -/
def Registered (start : Registry) (history : List Call) (scheme : Bytes) (port : Int) : Prop :=
  ∃ earlier later registry, history = earlier ++ Call.register scheme port :: later ∧
    Runs Registry.step start earlier registry ∧ (registerSchemePort scheme port registry).1 = true ∧
    ∀ call ∈ later, ¬call.concerns scheme

/-- The last call of the history for the scheme has deregistered it. -/
def Deregistered (history : List Call) (scheme : Bytes) : Prop :=
  ∃ earlier later, history = earlier ++ Call.deregister scheme :: later ∧ ∀ call ∈ later, ¬call.concerns scheme

/-- The port that the text of a URI states, which may be empty. -/
def Parts.portText (parts : Parts) : Bytes :=
  (parts.authority.bind fun authority => authority.port).getD []

/-- What a registry of ports promises of a call after those of the history: it
reserves the permanent schemes, and a URI that states no port gets the one of
its scheme. -/
def Promised (start : Registry) (history : List Call) (registry : Registry) : Call → Prop
  | .register scheme port =>
      let answer := registerSchemePort scheme port registry
      (answer.1 = true ↔ find permanentPorts scheme = none) ∧
        (answer.1 = false → answer.2 = { registry with errno := .uriSchemeRsv })
  | .deregister _ => True
  | .parse _ none _ => True
  | .parse value (some before) endSecond =>
      ∀ (parts : Parts) (u : Uri) (errno : Imperr), parts.Accepted → value = parts.text → parts.portText = [] →
        Uri.parse (registry.ports endSecond) value (some before) registry.errno = .ok (true, some u, errno) →
        (∀ port, find permanentPorts u.scheme = some port → u.port = port) ∧
          (∀ port, 0 ≤ port → Registered start history u.scheme port → u.port = port) ∧
          (find permanentPorts u.scheme = none → Deregistered history u.scheme → u.port = -1)

/-! ### The dictionaries -/

theorem mem_of_find {dictionary : List (Bytes × Int)} {scheme : Bytes} {port : Int}
    (h : find dictionary scheme = some port) : (scheme, port) ∈ dictionary := by
  unfold find at h
  obtain ⟨⟨name, value⟩, hEntry, rfl⟩ := Option.map_eq_some_iff.mp h
  have hName : name = scheme := by simpa using List.find?_some hEntry
  subst hName
  exact List.mem_of_find?_eq_some hEntry

/-- A permanent scheme has a port or the value that stands for none. -/
theorem permanent_port {scheme : Bytes} {port : Int} (h : find permanentPorts scheme = some port) :
    port = -1 ∨ 0 ≤ port := by
  have hAll : ∀ entry ∈ permanentPorts, entry.2 = -1 ∨ 0 ≤ entry.2 := by decide
  exact hAll _ (mem_of_find h)

/-- The user's dictionary has entries for permanent schemes only. -/
def Shadowed (registry : Registry) : Prop :=
  ∀ entry ∈ registry.user, find permanentPorts entry.1 ≠ none

theorem register_shadowed {registry : Registry} (h : Shadowed registry) (scheme : Bytes) (port : Int) :
    Shadowed (registerSchemePort scheme port registry).2 := by
  unfold registerSchemePort
  split_ifs with hPermanent
  · exact h
  · intro entry hEntry
    rcases List.mem_cons.mp hEntry with rfl | hKept
    · exact hPermanent
    · exact h entry (List.mem_of_mem_filter hKept)

theorem deregister_shadowed {registry : Registry} (h : Shadowed registry) (scheme : Bytes) :
    Shadowed (deregisterSchemePort scheme registry).2 := by
  unfold deregisterSchemePort
  split_ifs
  · exact h
  · intro entry hEntry
    exact h entry (List.mem_of_mem_filter hEntry)

theorem step_shadowed {registry next : Registry} (h : Shadowed registry) {call : Call}
    (hStep : registry.step call = some next) : Shadowed next := by
  cases call with
  | register scheme port =>
      cases hStep
      exact register_shadowed h scheme port
  | deregister scheme =>
      cases hStep
      exact deregister_shadowed h scheme
  | parse value result endSecond =>
      dsimp only [Registry.step] at hStep
      split at hStep
      · cases hStep
        exact h
      · cases hStep

/-- No sequence of calls brings an entry for another scheme into the user's
dictionary. -/
theorem run_shadowed {errno : Imperr} {calls : List Call} {registry : Registry}
    (run : Runs Registry.step ⟨[], errno⟩ calls registry) : Shadowed registry := by
  apply run.invariant
  · simp [Shadowed]
  · intro call before after h hStep
    exact step_shadowed h hStep

/-- The permanent dictionary is looked into first, so the user's never counts. -/
theorem lookup_shadowed {registry : Registry} (h : Shadowed registry) (endSecond : Int) (scheme : Bytes) :
    (registry.ports endSecond).lookup scheme = find permanentPorts scheme := by
  unfold SchemePorts.lookup Registry.ports
  cases hPermanent : find permanentPorts scheme with
  | some port => rfl
  | none =>
      cases hUser : find registry.user scheme with
      | none => rfl
      | some port => exact absurd hPermanent (h _ (mem_of_find hUser))

/-! ### The ports of parsed URIs -/

/-- A text that states no port gets the one the lookup yields, if there is one. -/
theorem postParsePort_none (ports : SchemePorts) (scheme : Bytes) :
    (postParsePort ports scheme (-1)).1 = match ports.lookup scheme with
      | some value => if 0 ≤ value then value else -1
      | none => -1 := by
  unfold postParsePort
  rw [if_neg (by decide)]
  cases ports.lookup scheme with
  | none => rfl
  | some value => exact apply_ite Prod.fst _ _ _

/-- The port of a URI that states none, in any state of the registry that calls
lead to. -/
theorem parsed_port {registry : Registry} (hShadowed : Shadowed registry) {parts : Parts} (h : parts.Accepted)
    (hPort : parts.portText = []) {endSecond : Int} {before u : Uri} {errno errno' : Imperr}
    (hRun : Uri.parse (registry.ports endSecond) parts.text (some before) errno = .ok (true, some u, errno')) :
    u.port = (find permanentPorts u.scheme).getD (-1) := by
  obtain ⟨last, hText⟩ := parse_text h (registry.ports endSecond) before errno
  rw [hText] at hRun
  obtain ⟨path, _, hValue⟩ := bind_ok.mp hRun
  obtain rfl : parts.value (registry.ports endSecond) path = u :=
    Option.some.inj (congrArg (fun outcome => outcome.2.1) (Except.ok.inj hValue))
  unfold Parts.value
  dsimp only
  rw [show (parts.authority.bind fun authority => authority.port).getD [] = [] from hPort, portNumber,
    if_pos rfl, postParsePort_none, lookup_shadowed hShadowed]
  cases hFind : find permanentPorts (parts.scheme.map tolower) with
  | none => rfl
  | some value =>
      dsimp only [Option.getD_some]
      split_ifs with hValue
      · rfl
      · exact ((permanent_port hFind).resolve_right hValue).symm

/-! ### The calls of a run -/

theorem register_breaks (start registry : Registry) (history : List Call) (scheme : Bytes) (port : Int) :
    ¬Promised start history registry (.register scheme port) := by
  intro h
  have hAnswer := h.1
  unfold registerSchemePort at hAnswer
  split_ifs at hAnswer with hPermanent
  · exact absurd (hAnswer.mpr hPermanent) (by decide)
  · exact hPermanent (hAnswer.mp rfl)

theorem parse_promised {start registry : Registry} {history : List Call} (hShadowed : Shadowed registry)
    (hHistory : ∀ scheme port, Call.register scheme port ∉ history) (value : Bytes) (result : Option Uri)
    (endSecond : Int) : Promised start history registry (.parse value result endSecond) := by
  cases result with
  | none => trivial
  | some before =>
      intro parts u errno hParts hValue hPort hRun
      subst hValue
      have hU := parsed_port hShadowed hParts hPort hRun
      refine ⟨?_, ?_, ?_⟩
      · intro port hFind
        rw [hU, hFind, Option.getD_some]
      · rintro port _ ⟨earlier, later, _, rfl, _⟩
        exact absurd (List.mem_append_right earlier List.mem_cons_self) (hHistory u.scheme port)
      · intro hFind _
        rw [hU, hFind, Option.getD_none]

/-- The promises are kept in a run if and only if it registers nothing. -/
theorem promised_iff {errno : Imperr} {calls : List Call} {registry : Registry}
    (run : Runs Registry.step ⟨[], errno⟩ calls registry) :
    EachStep Registry.step ⟨[], errno⟩ calls (Promised ⟨[], errno⟩) ↔
      ∀ scheme port, Call.register scheme port ∉ calls := by
  constructor
  · intro h scheme port hCall
    obtain ⟨before, after, hCalls⟩ := List.append_of_mem hCall
    have hBefore : before ++ [Call.register scheme port] <+: calls := ⟨after, by simp [hCalls]⟩
    obtain ⟨middle, hMiddle⟩ := run.passes ((List.prefix_append before _).trans hBefore)
    exact register_breaks _ middle before scheme port (h before _ middle hBefore hMiddle)
  · intro h before call middle hBefore hMiddle
    cases call with
    | register scheme port => exact absurd (hBefore.subset (by simp)) (h scheme port)
    | deregister scheme => trivial
    | parse value result endSecond =>
        apply parse_promised (run_shadowed hMiddle)
        intro scheme port hCall
        exact h scheme port (hBefore.subset (List.mem_append_left _ hCall))

/-- A run that deregisters a scheme and parses a URI of it. -/
def unregisteredRun : List Call :=
  [.deregister (ascii "foo"), .parse (ascii "foo://h/") (some empty) 0]

theorem unregisteredRun_runs :
    Runs Registry.step ⟨[], .success⟩ unregisteredRun ⟨[], .success⟩ :=
  runs_iff_foldlM.mpr (by decide +kernel)

theorem promised_iff_unregistered :
    EachStep Registry.step ⟨[], .success⟩ unregisteredRun (Promised ⟨[], .success⟩) := by
  apply (promised_iff unregisteredRun_runs).mpr
  intro scheme port hCall
  simp [unregisteredRun] at hCall

/-- A scheme that is not permanent is refused as reserved. -/
theorem otherScheme_refused :
    find permanentPorts (ascii "foo") = none ∧
      registerSchemePort (ascii "foo") 8080 ⟨[], .success⟩ = (false, ⟨[], .uriSchemeRsv⟩) ∧
      ¬EachStep Registry.step ⟨[], .success⟩ [.register (ascii "foo") 8080] (Promised ⟨[], .success⟩) := by
  refine ⟨by decide, by decide, ?_⟩
  intro h
  exact register_breaks _ _ _ _ _ (h [] _ _ (List.prefix_refl _) Runs.nil)

end ImpactSockets.Uri
