import ImpactSockets.Rfc.Uri.AuthorityCuts
import ImpactSockets.Rfc.Uri.RoundTrip

/-! What the parser of an authority does to the result and to `imp_errno`. It
goes on after one of its parts has failed, and the next one may set `imp_errno`
back. -/
namespace ImpactSockets.Uri

open Abnf AbnfOps Ascii Total

variable {data text : Bytes} {i : Nat} {parser : Context → Exec Parsed} {effect : Effect}

/-- What a parser does in which one part may fail without a trace in `imp_errno`,
and which may store a port. -/
structure Effect.Known (data : Bytes) (masked stored : Prop) (effect : Effect) : Prop where
  inside : effect.currentIdx ≤ data.length
  blind : effect.Blind
  honest : ¬masked → effect.Honest
  masked : masked → effect.ok = false ∧ ∀ errno, effect.errno errno = .success
  kept : ¬stored → ∀ u, (effect.change u).port = u.port
  stored : stored → ∀ u, 0 ≤ (effect.change u).port

theorem Effect.Plain.known (h : effect.Plain data) {masked stored : Prop} (hMasked : ¬masked) (hStored : ¬stored) :
    effect.Known data masked stored where
  inside := h.inside
  blind := h.blind
  honest _ := h.toHonest
  masked hTrue := (hMasked hTrue).elim
  kept _ := h.port
  stored hTrue := (hStored hTrue).elim

/-- What is parsed behind the authority changes neither. -/
theorem Effect.Known.andThen {after : Effect} {masked stored : Prop} (h : effect.Known data masked stored)
    (hAfter : effect.ok = true → after.Plain data) : (effect.andThen after).Known data masked stored := by
  constructor
  · unfold Effect.andThen
    split_ifs with hOk
    · exact (hAfter hOk).inside
    · exact h.inside
  · exact h.blind.andThen fun hOk => (hAfter hOk).blind
  · exact fun hMasked => (h.honest hMasked).andThen fun hOk => (hAfter hOk).toHonest
  · intro hMasked
    rw [Effect.andThen, (h.masked hMasked).1, if_neg (by decide)]
    exact h.masked hMasked
  · intro hStored u
    unfold Effect.andThen
    split_ifs with hOk
    · exact ((hAfter hOk).port _).trans (h.kept hStored u)
    · exact h.kept hStored u
  · intro hStored u
    unfold Effect.andThen
    split_ifs with hOk
    · exact ((hAfter hOk).port _).symm ▸ h.stored hStored u
    · exact h.stored hStored u

/-- Nor does what has been parsed in front of it. -/
theorem Effect.Known.after {after : Effect} {masked stored : Prop} (h : after.Known data masked stored)
    (hFirst : effect.Plain data) (hOk : effect.ok = true) : (effect.andThen after).Known data masked stored := by
  constructor
  · rw [Effect.andThen, hOk, if_pos rfl]
    exact h.inside
  · exact hFirst.blind.andThen fun _ => h.blind
  · exact fun hMasked => hFirst.toHonest.andThen fun _ => h.honest hMasked
  · intro hMasked
    rw [Effect.andThen, hOk, if_pos rfl]
    exact ⟨(h.masked hMasked).1, fun errno => (h.masked hMasked).2 _⟩
  · intro hStored u
    rw [Effect.andThen, hOk, if_pos rfl]
    exact (h.kept hStored _).trans (hFirst.port u)
  · intro hStored u
    rw [Effect.andThen, hOk, if_pos rfl]
    exact h.stored hStored _

/-! ### The parts -/

theorem Does.ok_iff (h : Does parser text 0 effect) :
    effect.ok = true ↔ ∃ last, parser ⟨0, text, none, .success⟩ = .ok (true, last) := by
  rw [h none .success]
  constructor
  · intro hOk
    exact ⟨_, by rw [hOk]⟩
  · rintro ⟨last, hRun⟩
    exact congrArg Prod.fst (Except.ok.inj hRun)

theorem ReadsAll.accepts {u v : Uri} (h : ReadsAll parser text u v) :
    ∃ last, parser ⟨0, text, none, .success⟩ = .ok (true, last) := by
  obtain ⟨last, hRun, _⟩ := h none .success
  exact ⟨last, hRun⟩

theorem parseUserinfo_effect (text : Bytes) :
    ∃ effect, Does parseUserinfo text 0 effect ∧ effect.Plain text ∧ (effect.ok = true ↔ text ∈ Grammar.userinfo) := by
  have hPlainly : Plainly parseUserinfo text 0 := by
    cases hAll : text.all userinfoChar with
    | false =>
        apply (plainly_fail (Nat.zero_le _) (show Imperr.uriUserinfoSym ≠ .success by decide)).congr
        intro result errno
        simp only [parseUserinfo, hAll]
        rfl
    | true =>
        apply (@plainly_decode text 0 text false 0 (Nat.zero_le _) (fun u decoded => { u with userinfo := decoded })
          (fun _ _ _ => rfl) (fun _ _ => rfl)).congr
        intro result errno
        simp only [parseUserinfo, hAll]
        rfl
  obtain ⟨effect, hDoes, hPlain⟩ := hPlainly
  refine ⟨effect, hDoes, hPlain, hDoes.ok_iff.trans ⟨?_, ?_⟩⟩
  · rintro ⟨last, hRun⟩
    exact parseUserinfo_split hRun
  · intro hText
    exact (parseUserinfo_reads hText empty).accepts

theorem percentDecode_settled (hText : text ≠ []) (lowerCase : Bool) (first second : Imperr) :
    percentDecode text lowerCase first = percentDecode text lowerCase second := by
  have hLength : text.length ≠ 0 := by simpa using hText
  rw [percentDecode, if_neg hLength, percentDecode, if_neg hLength]

theorem percentDecode_success (hText : text ≠ []) {lowerCase : Bool} {errno : Imperr}
    (hOk : (percentDecode text lowerCase errno).ok = true) : (percentDecode text lowerCase errno).errno = .success := by
  rw [percentDecode_settled hText lowerCase errno .success] at hOk ⊢
  exact (decodeEffect_honest text lowerCase 0 fun u _ => u).success hOk

/-- Whether a host is refused for its characters does not depend on what
`imp_errno` was. -/
theorem hostVerdict_cases (text : Bytes) :
    (∃ failure, failure ≠ .success ∧ ∀ errno, hostVerdict text errno = .ok (false, failure)) ∨
      ∀ errno, ∃ errno', hostVerdict text errno = .ok (true, errno') := by
  by_cases hHead : text.head? = some openBracket
  · have hVerdict (errno : Imperr) : hostVerdict text errno = parseIpLiteral text := if_pos hHead
    obtain ⟨⟨ok, errno'⟩, hRun, hJudged⟩ := parseIpLiteral_ends text
    cases ok with
    | false => exact .inl ⟨errno', hJudged rfl, fun errno => (hVerdict errno).trans hRun⟩
    | true => exact .inr fun errno => ⟨errno', (hVerdict errno).trans hRun⟩
  · have hVerdict (errno : Imperr) :
        hostVerdict text errno = .ok (if text.all regNameChar then (true, errno) else (false, .uriHostSym)) :=
      if_neg hHead
    by_cases hAll : text.all regNameChar = true
    · exact .inr fun errno => ⟨errno, by rw [hVerdict, if_pos hAll]⟩
    · exact .inl ⟨.uriHostSym, by decide, fun errno => by rw [hVerdict, if_neg hAll]⟩

theorem parseHost_plainly (text : Bytes) : Plainly parseHost text 0 := by
  rcases text with _ | ⟨c, tail⟩
  · apply (plainly_success (Nat.le_refl 0)).congr
    intro result errno
    rfl
  rcases hostVerdict_cases (c :: tail) with ⟨failure, hFailure, hVerdict⟩ | hVerdict
  · apply (@plainly_fail (c :: tail) 0 0 (Nat.zero_le _) failure hFailure).congr
    intro result errno
    rw [parseHost_cons, hVerdict]
    rfl
  · apply (@plainly_decode (c :: tail) 0 (c :: tail) true 0 (Nat.zero_le _)
      (fun u decoded => { u with host := decoded }) (fun _ _ _ => rfl) (fun _ _ => rfl)).congr
    intro result errno
    obtain ⟨errno', hRun⟩ := hVerdict errno
    rw [parseHost_cons, hRun]
    simp only [bind, Except.bind, percentDecode_settled (List.cons_ne_nil c tail) true errno' errno]
    rfl

/-- The characters of a host that is accepted. -/
theorem parseHost_chars (hBrackets : BothBrackets text) {result : Option Uri} {errno : Imperr} {last : Context}
    (h : parseHost ⟨0, text, result, errno⟩ = .ok (true, last)) : ∀ c ∈ text, hostPlain c = true ∨ c = percent := by
  rcases text with _ | ⟨c, tail⟩
  · simp
  rw [parseHost_cons] at h
  obtain ⟨⟨ok, errno'⟩, hVerdict, h⟩ := bind_ok.mp h
  cases ok with
  | false => exact (fail_ne h).elim
  | true =>
      unfold hostVerdict at hVerdict
      split_ifs at hVerdict with hHead hAll
      · obtain ⟨inner, hInner⟩ := hBrackets hHead
        rw [hInner] at hVerdict ⊢
        have hChars : ∀ c ∈ inner, ipvFutureChar c = true := by
          rcases parseIpLiteral_split hVerdict with ⟨_, hFuture⟩ | ⟨_, hAddress⟩
          · exact ipvFuture_chars hFuture
          · exact acceptedAddress_chars hAddress
        intro d hd
        left
        rcases List.mem_append.mp hd with hd | hd
        · rcases List.mem_cons.mp hd with rfl | hd
          · decide
          · exact hostPlain_of_ipvFutureChar d (hChars d hd)
        · rw [List.mem_singleton.mp hd]
          decide
      · intro d hd
        apply ((regNameChar_iff d).mp (List.all_eq_true.mp hAll d hd)).imp_left
        intro hPlain
        simp [hostPlain, hPlain]
      · cases hVerdict

/-- A host that is not empty and decoded leaves `imp_errno` at success, whatever
it was. -/
theorem parseHost_settles (hText : text ≠ []) {result : Option Uri} {errno : Imperr} {last : Context}
    (h : parseHost ⟨0, text, result, errno⟩ = .ok (true, last)) : last.errno = .success := by
  obtain ⟨c, tail, rfl⟩ := List.exists_cons_of_ne_nil hText
  rw [parseHost_cons] at h
  obtain ⟨⟨ok, errno'⟩, _, h⟩ := bind_ok.mp h
  cases ok with
  | false => exact (fail_ne h).elim
  | true =>
      obtain ⟨hOk, hLast⟩ := Prod.mk.inj (Except.ok.inj h)
      rw [← hLast]
      exact percentDecode_success hText hOk

/-- What the parser of a host does to `imp_errno`. -/
theorem parseHost_effect (hBrackets : BothBrackets text) :
    ∃ effect, Does parseHost text 0 effect ∧ effect.Plain text ∧ (effect.ok = true ↔ HostText text) ∧
      (text = [] → effect.errno = id) ∧
      (text ≠ [] → effect.ok = true → ∀ errno, effect.errno errno = .success) := by
  obtain ⟨effect, hDoes, hPlain⟩ := parseHost_plainly text
  refine ⟨effect, hDoes, hPlain, hDoes.ok_iff.trans ⟨?_, ?_⟩, ?_, ?_⟩
  · rintro ⟨last, hRun⟩
    exact parseHost_split (parseHost_chars hBrackets hRun) hRun
  · intro hText
    exact (parseHost_reads hText (u := empty) rfl).accepts
  · rintro rfl
    funext errno
    have hRun := hDoes none errno
    exact (congrArg (fun parsed => parsed.2.errno) (Except.ok.inj hRun)).symm
  · intro hText hOk errno
    have hRun := hDoes none errno
    rw [hOk] at hRun
    exact parseHost_settles hText hRun

/-- What the parser of a port does. -/
theorem parsePort_effect (text : Bytes) :
    ∃ effect, Does parsePort text 0 effect ∧ effect.Known text False (text ≠ [] ∧ PortText text) ∧
      (effect.ok = true ↔ PortText text) ∧ (effect.ok = true → effect.errno = id) := by
  by_cases hText : PortText text
  · have hDigits := mem_kstar_oneOf.mp hText.1
    have hAll : text.all digit = true := List.all_eq_true.mpr hDigits
    have hShort : ¬9 < text.length := Nat.not_lt.mpr hText.2
    by_cases hNil : text = []
    · subst hNil
      refine ⟨⟨true, 0, id, id⟩, ?_, ⟨Nat.le_refl 0, fun _ _ => rfl, ?_, False.elim, fun _ _ => rfl, ?_⟩, ?_, ?_⟩
      · intro result errno
        simp [parsePort]
      · exact fun _ => honest_of_id _ _
      · exact fun hStored => (hStored.1 rfl).elim
      · exact iff_of_true rfl hText
      · exact fun _ => rfl
    · have hLt : decimalValue text < 2 ^ 31 :=
        (decimalValue_lt hDigits).trans_le ((Nat.pow_le_pow_right (by decide) hText.2).trans (by decide))
      have hLength : text.length ≠ 0 := by simpa using hNil
      have hStoi : stoi text = .ok (decimalValue text : Int) := if_pos ⟨hLength, hAll, hLt⟩
      refine ⟨⟨true, 0, fun u => { u with port := decimalValue text }, id⟩, ?_,
        ⟨Nat.zero_le _, fun _ _ => rfl, ?_, False.elim, ?_, ?_⟩, ?_, ?_⟩
      · intro result errno
        cases result <;> simp [parsePort, hAll, hShort, hNil, hStoi, bind, Except.bind, Context.modify]
      · exact fun _ => honest_of_id _ _
      · exact fun hKept => (hKept ⟨hNil, hText⟩).elim
      · exact fun _ _ => Int.natCast_nonneg _
      · exact iff_of_true rfl hText
      · exact fun _ => rfl
  · obtain ⟨effect, hDoes, hPlain⟩ : Plainly parsePort text 0 := by
      cases hAll : text.all digit with
      | false =>
          apply (plainly_fail (Nat.zero_le _) (show Imperr.uriPortSym ≠ .success by decide)).congr
          intro result errno
          simp only [parsePort, hAll]
          rfl
      | true =>
          have hLong : 9 < text.length := by
            by_contra hShort
            exact hText ⟨mem_kstar_oneOf.mpr (List.all_eq_true.mp hAll), Nat.not_lt.mp hShort⟩
          apply (plainly_fail (Nat.zero_le _) (show Imperr.uriPortLimit ≠ .success by decide)).congr
          intro result errno
          simp only [parsePort, hAll, hLong]
          rfl
    have hFails : ¬effect.ok = true := by
      intro hOk
      obtain ⟨last, hRun⟩ := hDoes.ok_iff.mp hOk
      exact hText (parsePort_split hRun)
    refine ⟨effect, hDoes, hPlain.known id fun hStored => hText hStored.2, iff_of_false hFails hText, ?_⟩
    exact fun hOk => (hFails hOk).elim

/-! ### The authority -/

/-- The userinfo is refused, and the host and the port are not, so that decoding
the host sets `imp_errno` back. -/
structure AuthorityParts.Masked (parts : AuthorityParts) : Prop where
  userinfo : parts.userinfo ∉ Grammar.userinfo
  notEmpty : parts.host ≠ []
  host : HostText parts.host
  port : PortText parts.port

/-- There is a port that is stored. -/
structure AuthorityParts.StoresPort (parts : AuthorityParts) : Prop where
  notEmpty : parts.port ≠ []
  port : PortText parts.port

/-- The parts are parsed one after the other, whether they are accepted or not. -/
def authorityEffect (userinfo host port : Effect) (next : Nat) : Effect where
  ok := userinfo.ok && host.ok && port.ok
  currentIdx := next
  change u := { port.change (host.change (userinfo.change u)) with hasAuth := true }
  errno errno := port.errno (host.errno (userinfo.errno errno))

theorem parseParts_effect {parts : AuthorityParts} (hBrackets : BothBrackets parts.host) {next : Nat}
    (hNext : next ≤ data.length) :
    ∃ userinfo host port : Effect, Does parseUserinfo parts.userinfo 0 userinfo ∧ Does parseHost parts.host 0 host ∧
      Does parsePort parts.port 0 port ∧
      (authorityEffect userinfo host port next).Known data parts.Masked parts.StoresPort := by
  obtain ⟨userinfo, hUserinfo, hUserinfoPlain, hUserinfoOk⟩ := parseUserinfo_effect parts.userinfo
  obtain ⟨host, hHost, hHostPlain, hHostOk, hEmpty, hSettles⟩ := parseHost_effect hBrackets
  obtain ⟨port, hPort, hPortKnown, hPortOk, hPortErrno⟩ := parsePort_effect parts.port
  have hPortHonest := hPortKnown.honest id
  refine ⟨userinfo, host, port, hUserinfo, hHost, hPort, hNext, ?_, ?_, ?_, ?_, ?_⟩
  · intro u flag
    simp only [authorityEffect]
    rw [hUserinfoPlain.blind, hHostPlain.blind, hPortKnown.blind]
  · intro hMasked
    constructor
    · intro hFailed errno
      simp only [authorityEffect, Bool.and_eq_false_iff] at hFailed ⊢
      cases hPortCase : port.ok with
      | false => exact hPortHonest.failure hPortCase _
      | true =>
          rw [hPortErrno hPortCase, id]
          cases hHostCase : host.ok with
          | false => exact hHostPlain.failure hHostCase _
          | true =>
              have hUserinfoCase : userinfo.ok = false := by simpa [hPortCase, hHostCase] using hFailed
              -- the host is empty, as the failure would be masked else
              have hNil : parts.host = [] := by
                by_contra hNe
                apply hMasked
                refine ⟨?_, hNe, hHostOk.mp hHostCase, hPortOk.mp hPortCase⟩
                rw [← hUserinfoOk, hUserinfoCase]
                decide
              rw [hEmpty hNil, id]
              exact hUserinfoPlain.failure hUserinfoCase errno
    · intro hOk
      simp only [authorityEffect, Bool.and_eq_true] at hOk ⊢
      rw [hUserinfoPlain.success hOk.1.1, hHostPlain.success hOk.1.2, hPortHonest.success hOk.2]
  · intro hMasked
    have hFailed : userinfo.ok = false := by
      rw [← Bool.not_eq_true, hUserinfoOk]
      exact hMasked.userinfo
    simp only [authorityEffect, hFailed, Bool.false_and, true_and]
    intro errno
    rw [hPortErrno (hPortOk.mpr hMasked.port), id, hSettles hMasked.notEmpty (hHostOk.mpr hMasked.host)]
  · intro hStored u
    exact (hPortKnown.kept (fun hPort => hStored ⟨hPort.1, hPort.2⟩) _).trans
      ((hHostPlain.port _).trans (hUserinfoPlain.port u))
  · intro hStored u
    exact hPortKnown.stored ⟨hStored.notEmpty, hStored.port⟩ _

/-- An error of the loop is one that is set, at a place in the data. -/
theorem scanAuthority_error {suffix : Bytes} {i j : Nat} {st : AuthorityScan} {errno : Imperr}
    (h : scanAuthority suffix i st = (j, .error errno)) : errno ≠ .success ∧ j ≤ i + suffix.length := by
  induction suffix generalizing i st with
  | nil => cases h
  | cons c suffix ih =>
      have hStep {st : AuthorityScan} (h : scanAuthority suffix (i + 1) st = (j, .error errno)) :
          errno ≠ .success ∧ j ≤ i + (c :: suffix).length := by
        obtain ⟨hErrno, hIndex⟩ := ih h
        rw [List.length_cons]
        exact ⟨hErrno, by omega⟩
      rw [scanAuthority] at h
      split_ifs at h
      · cases h
        exact ⟨by decide, Nat.le_add_right _ _⟩
      · exact hStep h
      · exact hStep h
      · exact hStep h
      · cases h
        exact ⟨by decide, Nat.le_add_right _ _⟩
      · exact hStep h
      · cases h
        exact ⟨by decide, Nat.le_add_right _ _⟩
      · exact hStep h
      · cases h
      · exact hStep h

/-- What the parser of an authority does on every text. -/
theorem parseAuthority_effect {before text rest : Bytes} (hNe : before ≠ [])
    (hChars : ∀ c ∈ text, authorityChar c = true) (hRest : Boundary authorityChar rest) :
    ∃ effect, Does parseAuthority (before ++ (text ++ rest)) before.length effect ∧
      effect.Known (before ++ (text ++ rest)) (∃ parts, Cuts text parts ∧ parts.Masked)
        (∃ parts, Cuts text parts ∧ parts.StoresPort) := by
  have hNone := sizePred_lt hNe
  have hScan := scanAuthority_text hChars hRest [] _ (scanned_nil hNone)
  simp only [List.length_nil, Nat.add_zero, List.nil_append, ← List.length_append] at hScan
  rcases hScan with ⟨st, hScan, hScanned⟩ | ⟨⟨j, errno, hScan⟩, d, hDelimiter, hTwice⟩
  · have hInside : (before ++ text).length ≤ (before ++ (text ++ rest)).length := by simp
    rcases splitAuthority_cases rest hNone hScanned with ⟨parts, hCuts⟩ | ⟨errno, hErrno, hSplit⟩
    · have hSplit := splitAuthority_of_cuts rest hNone hScanned hCuts
      have hUnique (property : AuthorityParts → Prop) : (∃ parts, Cuts text parts ∧ property parts) ↔ property parts := by
        constructor
        · rintro ⟨other, hOther, h⟩
          have hSame := (splitAuthority_of_cuts rest hNone hScanned hOther).symm.trans hSplit
          rw [← Except.ok.inj (Except.ok.inj hSame)]
          exact h
        · exact fun h => ⟨parts, hCuts, h⟩
      obtain ⟨userinfo, host, port, hUserinfo, hHost, hPort, hKnown⟩ := parseParts_effect hCuts.bothBrackets hInside
      rw [hUnique, hUnique]
      refine ⟨_, ?_, hKnown⟩
      intro result errno
      simp only [parseAuthority, List.drop_left, hScan, hSplit, hUserinfo _ _, hHost _ _, hPort _ _, bind, Except.bind]
      simp [Context.modify, authorityEffect, Function.comp_def]
    · obtain ⟨effect, hDoes, hPlain⟩ := @plainly_fail (before ++ (text ++ rest)) before.length _ hInside errno hErrno
      have hNotCut (property : AuthorityParts → Prop) : ¬∃ parts, Cuts text parts ∧ property parts := by
        rintro ⟨parts, hCuts, _⟩
        rw [splitAuthority_of_cuts rest hNone hScanned hCuts] at hSplit
        cases hSplit
      refine ⟨effect, hDoes.congr ?_, hPlain.known (hNotCut _) (hNotCut _)⟩
      intro result errno
      simp only [parseAuthority, List.drop_left, hScan, hSplit, bind, Except.bind]
  · obtain ⟨hErrno, hIndex⟩ := scanAuthority_error hScan
    have hInside : j ≤ (before ++ (text ++ rest)).length := by simpa using hIndex
    obtain ⟨effect, hDoes, hPlain⟩ := @plainly_fail (before ++ (text ++ rest)) before.length j hInside errno hErrno
    have hNotCut (property : AuthorityParts → Prop) : ¬∃ parts, Cuts text parts ∧ property parts := by
      rintro ⟨parts, hCuts, _⟩
      exact absurd (hCuts.count_le d hDelimiter) (Nat.not_le.mpr hTwice)
    refine ⟨effect, hDoes.congr ?_, hPlain.known (hNotCut _) (hNotCut _)⟩
    intro result errno
    simp only [parseAuthority, List.drop_left, hScan]

end ImpactSockets.Uri
