import ImpactSockets.Rfc.Uri.ParseEffect

/-! Whether `imp_errno` agrees with what `uri::parse` returns. It does unless the
userinfo is refused and the host behind it is decoded, which sets `imp_errno`
back to success. -/
namespace ImpactSockets.Uri

open Abnf AbnfOps Ascii

theorem postParse_errno {ports : SchemePorts} {ctx last : Context} (h : postParse ports ctx = .ok last) :
    last.errno = ctx.errno := by
  unfold postParse at h
  cases hResult : ctx.result with
  | none =>
      rw [hResult] at h
      rw [← Except.ok.inj h]
  | some u =>
      rw [hResult] at h
      obtain ⟨path, _, h⟩ := bind_ok.mp h
      rw [← Except.ok.inj h]

/-- `uri::parse` as the effect of the parsers of the components. -/
theorem parse_of_effect {s : Bytes} (hs : s ≠ []) {effect : Effect} (hDoes : Does readComponents s 0 effect)
    (ports : SchemePorts) (result : Option Uri) (errno : Imperr) :
    parse ports s result errno =
      if effect.ok then do
        let ctx ← postParse ports
          ⟨effect.currentIdx, s, (result.map clear).map effect.change, effect.errno .success⟩
        .ok (true, ctx.result, ctx.errno)
      else .ok (false, (result.map clear).map effect.change, effect.errno .success) := by
  rw [parse, parseUri_of_ne_nil hs, parseComponents_eq_read, unlessFailed]
  simp only [place, List.length_nil, List.nil_append, hDoes _ _, bind, Except.bind]
  cases effect.ok with
  | false => rfl
  | true =>
      simp only [Bool.not_true, Bool.false_eq_true, if_false, if_true]
      cases postParse ports ⟨effect.currentIdx, s, (result.map clear).map effect.change, effect.errno .success⟩ <;> rfl

theorem errorString_eq_success {errno : Imperr} (h : errorString errno = "Success") : errno = .success := by
  cases errno <;> simp [errorString] at h ⊢

/-- What the callers of the parser rely on: `imp_errno` is success exactly when
it has returned true, and no exception has the text "Success". -/
structure Reports (ports : SchemePorts) (s : Bytes) : Prop where
  errno : ∀ result prior ok result' errno, parse ports s result prior = .ok (ok, result', errno) →
    (ok = true ↔ errno = .success)
  thrown : ∀ raw prior, construct ports s raw prior ≠ .ok (.error "Success")

/-- The constructor throws what the parser has reported. -/
theorem reports_of_errno {ports : SchemePorts} {s : Bytes}
    (h : ∀ result prior ok result' errno, parse ports s result prior = .ok (ok, result', errno) →
      (ok = true ↔ errno = .success)) : Reports ports s := by
  refine ⟨h, ?_⟩
  intro raw prior hThrown
  obtain ⟨⟨ok, result, errno⟩, hParse, hThrown⟩ := bind_ok.mp hThrown
  cases ok with
  | true => cases hThrown
  | false =>
      have hText : errorString errno = "Success" := by simpa using hThrown
      have hOk := (h _ _ _ _ _ hParse).mpr (errorString_eq_success hText)
      cases hOk

theorem reports_of_honest {ports : SchemePorts} {s : Bytes} (hs : s ≠ []) {effect : Effect}
    (hDoes : Does readComponents s 0 effect) (hHonest : effect.Honest) : Reports ports s := by
  apply reports_of_errno
  intro result prior ok result' errno hRun
  rw [parse_of_effect hs hDoes] at hRun
  cases hOk : effect.ok with
  | false =>
      rw [hOk] at hRun
      cases hRun
      exact iff_of_false (by decide) (hHonest.failure hOk _)
  | true =>
      rw [hOk, if_pos rfl] at hRun
      obtain ⟨last, hPost, hRun⟩ := bind_ok.mp hRun
      cases hRun
      exact iff_of_true rfl ((postParse_errno hPost).trans (hHonest.success hOk))

/-- Errors are reported unless the text has an authority with a userinfo that is
refused, in front of a host that is not empty, and neither this host nor the
port is refused. -/
theorem reports_iff (ports : SchemePorts) (s : Bytes) :
    Reports ports s ↔ ¬∃ parts, HasAuthority s parts ∧ parts.Masked := by
  by_cases hs : s = []
  · subst hs
    apply iff_of_true
    · apply reports_of_errno
      intro result prior ok result' errno hRun
      cases hRun
      exact iff_of_true rfl rfl
    · rintro ⟨parts, ⟨hText, _, _⟩, _⟩
      simp at hText
  obtain ⟨effect, hDoes, hKnown⟩ := readComponents_effect hs
  constructor
  · intro hReports hMasked
    obtain ⟨hFailed, hSuccess⟩ := hKnown.masked hMasked
    have hRun := parse_of_effect hs hDoes ports none .success
    rw [hFailed, if_neg (by decide), hSuccess] at hRun
    have hOk := (hReports.errno _ _ _ _ _ hRun).mpr rfl
    cases hOk
  · intro hNot
    exact reports_of_honest hs hDoes (hKnown.honest hNot)

/-- The text "foo://a%zz@host/". -/
def maskedUserinfo : Bytes :=
  [0x66, 0x6F, 0x6F, colon, slash, slash, 0x61, percent, 0x7A, 0x7A, at_, 0x68, 0x6F, 0x73, 0x74, slash]

/-- The malformed triplet of the userinfo is refused without an error, and the
constructor throws "Success". -/
theorem maskedUserinfo_unreported :
    parse ⟨[], [], -1⟩ maskedUserinfo none .success = .ok (false, none, .success) ∧
      construct ⟨[], [], -1⟩ maskedUserinfo empty .success = .ok (.error "Success") ∧
      ¬Reports ⟨[], [], -1⟩ maskedUserinfo := by
  have hRun : parse ⟨[], [], -1⟩ maskedUserinfo none .success = .ok (false, none, .success) := by decide +kernel
  refine ⟨hRun, by rfl, fun hReports => ?_⟩
  have hOk := (hReports.errno _ _ _ _ _ hRun).mpr rfl
  cases hOk

end ImpactSockets.Uri
