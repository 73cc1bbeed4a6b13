import ImpactSockets.Rfc.Uri.AuthorityScan

/-! The texts that the parser of an authority reads: a userinfo, a host and a
port, and around a bracketed host characters that belong to none of them. -/
namespace ImpactSockets.Uri

open Abnf AbnfOps Ascii
open scoped Computability

/-- The part of an authority behind the userinfo. The parser looks for a
bracketed host in it and passes over what is around the brackets. -/
structure HostPort where
  skipped : Bytes
  host : Bytes
  trailing : Bytes
  port : Option Bytes

def HostPort.portText (parts : HostPort) : Bytes := (parts.port.map (colon :: ·)).getD []

def HostPort.behindUserinfo (parts : HostPort) : Bytes :=
  parts.skipped ++ parts.host ++ parts.trailing ++ parts.portText

/-- The characters of a text that is cut by the positions of its delimiters. -/
def Unbracketed (text : Bytes) : Prop := openBracket ∉ text ∧ closeBracket ∉ text

theorem Unbracketed.append {first second : Bytes} (hFirst : Unbracketed first) (hSecond : Unbracketed second) :
    Unbracketed (first ++ second) := by
  simp [Unbracketed, hFirst.1, hFirst.2, hSecond.1, hSecond.2]

theorem Unbracketed.cons_colon {text : Bytes} (h : Unbracketed text) : Unbracketed (colon :: text) := by
  have hColon : Unbracketed [colon] := by
    constructor <;> decide
  exact hColon.append h

/-- Where the delimiters are that the text is cut at. -/
inductive HostPort.Cut : HostPort → Prop where
  | name {host : Bytes} (hHost : Unbracketed host) (hColon : colon ∉ host) : Cut ⟨[], host, [], none⟩
  | namePort {host port : Bytes} (hHost : Unbracketed host) (hPort : Unbracketed port)
      (hColon : colon ∉ port) : Cut ⟨[], host, [], some port⟩
  | literal {skipped inner trailing : Bytes} (hSkipped : Unbracketed skipped) (hInner : Unbracketed inner)
      (hTrailing : Unbracketed trailing) (hColon : colon ∉ trailing) :
      Cut ⟨skipped, openBracket :: inner ++ [closeBracket], trailing, none⟩
  | literalPort {skipped inner port : Bytes} (hSkipped : Unbracketed skipped) (hInner : Unbracketed inner)
      (hPort : Unbracketed port) (hColon : colon ∉ port) :
      Cut ⟨skipped, openBracket :: inner ++ [closeBracket], [], some port⟩

/-- What the locals say about the text behind the userinfo, which starts at
`start`. -/
structure Located (start none_ : Nat) (text : Bytes) (st : AuthorityScan) : Prop where
  opens : Once openBracket start none_ text st.ipLitACount st.ipLitAIndex
  closes : Once closeBracket start none_ text st.ipLitBCount st.ipLitBIndex
  colon : LastMet colon start text st.portColonIndex

theorem cut_eq (before text rest : Bytes) {data : Bytes} {first last : Nat} (hData : data = before ++ (text ++ rest))
    (hFirst : first = before.length) (hLast : last = before.length + text.length) :
    cut data first last = .ok text := by
  rw [hData, hFirst, hLast]
  exact cut_place before text rest

/-- The port behind the last colon. -/
theorem cut_port (lead front port rest : Bytes) {index : Nat} (hIndex : index = lead.length + front.length) :
    cut (lead ++ (front ++ colon :: port ++ rest)) (index + 1) (lead ++ (front ++ colon :: port)).length = .ok port := by
  refine cut_eq (lead ++ front ++ [colon]) port rest (by simp) (by simp [hIndex, Nat.add_assoc]) ?_
  simp only [List.length_append, List.length_cons, List.length_nil]
  omega

section

variable {none_ : Nat} {skipped inner behind : Bytes} {st : AuthorityScan}

/-- The locals behind a text without brackets. -/
theorem Located.unbracketed {start : Nat} {text : Bytes} (h : Located start none_ text st) (hText : Unbracketed text) :
    st.ipLitACount = 0 ∧ st.ipLitBCount = 0 ∧ st.ipLitAIndex = st.ipLitBIndex := by
  obtain ⟨hA, hAIndex⟩ := h.opens.of_not_mem hText.1
  obtain ⟨hB, hBIndex⟩ := h.closes.of_not_mem hText.2
  exact ⟨hA, hB, hAIndex.trans hBIndex.symm⟩

/-- The locals behind a text with one pair of brackets. -/
theorem Located.bracketed {start : Nat}
    (h : Located start none_ ((skipped ++ openBracket :: inner ++ [closeBracket]) ++ behind) st)
    (hInner : Unbracketed inner) (hBehind : Unbracketed behind) :
    st.ipLitACount = 1 ∧ st.ipLitBCount = 1 ∧ st.ipLitAIndex = start + skipped.length ∧
      st.ipLitBIndex = start + skipped.length + inner.length + 1 := by
  have hOpen : openBracket ∉ inner ++ closeBracket :: behind := by
    simp only [List.mem_append, List.mem_cons, hInner.1, hBehind.1, false_or, or_false]
    decide
  obtain ⟨hA, hAIndex⟩ := @Once.of_split _ _ _ _ _ _ h.opens skipped (inner ++ closeBracket :: behind) (by simp) hOpen
  obtain ⟨hB, hBIndex⟩ :=
    @Once.of_split _ _ _ _ _ _ h.closes (skipped ++ openBracket :: inner) behind (by simp) hBehind.2
  rw [List.length_append, List.length_cons] at hBIndex
  exact ⟨hA, hB, hAIndex, by omega⟩

/-- The host between them. -/
theorem Located.cut_host {lead : Bytes} (rest : Bytes)
    (h : Located lead.length none_ ((skipped ++ openBracket :: inner ++ [closeBracket]) ++ behind) st)
    (hInner : Unbracketed inner) (hBehind : Unbracketed behind) :
    cut (lead ++ ((skipped ++ openBracket :: inner ++ [closeBracket]) ++ behind ++ rest)) st.ipLitAIndex
      (st.ipLitBIndex + 1) = .ok (openBracket :: inner ++ [closeBracket]) := by
  obtain ⟨_, _, hAIndex, hBIndex⟩ := h.bracketed hInner hBehind
  refine cut_eq (lead ++ skipped) _ (behind ++ rest) (by simp) (by simp [hAIndex]) ?_
  simp only [List.length_append, List.length_cons, List.length_nil]
  omega

end

/-- A text that is cut well passes the checks, and its parts are cut out. -/
theorem splitHost_cut {lead : Bytes} (rest : Bytes) {none_ : Nat} {parts : HostPort} {st : AuthorityScan}
    (hCut : parts.Cut) (h : Located lead.length none_ parts.behindUserinfo st)
    (hBehind : (if st.atCount ≠ 0 then st.atIndex + 1 else lead.length) = lead.length) :
    st.ipLitACount = st.ipLitBCount ∧ st.ipLitAIndex ≤ st.ipLitBIndex ∧
      splitHost (lead ++ (parts.behindUserinfo ++ rest)) lead.length (lead ++ parts.behindUserinfo).length st =
        .ok (.ok (parts.host, parts.port.getD [])) := by
  cases hCut with
  | @name host hHost hColon =>
      have hText : HostPort.behindUserinfo ⟨[], host, [], none⟩ = host := by
        simp [HostPort.behindUserinfo, HostPort.portText]
      rw [hText] at h ⊢
      obtain ⟨hA, hB, hIndices⟩ := h.unbracketed hHost
      have hIndex := h.colon.of_not_mem hColon
      refine ⟨hA.trans hB.symm, hIndices.le, ?_⟩
      rw [splitHost, if_neg (by simpa using hA)]
      dsimp only
      rw [if_neg (by omega), hBehind]
      exact bind_ok.mpr ⟨host, cut_eq lead host rest rfl rfl (by simp), rfl⟩
  | @namePort host port hHost hPort hColon =>
      have hText : HostPort.behindUserinfo ⟨[], host, [], some port⟩ = host ++ colon :: port := by
        simp [HostPort.behindUserinfo, HostPort.portText]
      rw [hText] at h ⊢
      obtain ⟨hA, hB, hIndices⟩ := h.unbracketed (hHost.append hPort.cons_colon)
      have hIndex := h.colon.of_split rfl hColon
      refine ⟨hA.trans hB.symm, hIndices.le, ?_⟩
      rw [splitHost, if_neg (by simpa using hA)]
      dsimp only
      rw [if_pos (by omega), hBehind]
      refine bind_ok.mpr ⟨port, cut_port lead host port rest hIndex, bind_ok.mpr ⟨host, ?_, rfl⟩⟩
      exact cut_eq lead host (colon :: port ++ rest) (by simp) rfl hIndex
  | @literal skipped inner trailing hSkipped hInner hTrailing hColon =>
      have hText : HostPort.behindUserinfo ⟨skipped, openBracket :: inner ++ [closeBracket], trailing, none⟩ =
          (skipped ++ openBracket :: inner ++ [closeBracket]) ++ trailing := by
        simp [HostPort.behindUserinfo, HostPort.portText]
      rw [hText] at h ⊢
      obtain ⟨hA, hB, hAIndex, hBIndex⟩ := h.bracketed hInner hTrailing
      have hIndex := h.colon.behind.of_not_mem hColon
      simp only [List.length_append, List.length_cons, List.length_nil] at hIndex
      refine ⟨hA.trans hB.symm, by omega, ?_⟩
      rw [splitHost, if_pos (by simp [hA]), if_neg (by omega)]
      exact bind_ok.mpr ⟨_, h.cut_host rest hInner hTrailing, rfl⟩
  | @literalPort skipped inner port hSkipped hInner hPort hColon =>
      have hText : HostPort.behindUserinfo ⟨skipped, openBracket :: inner ++ [closeBracket], [], some port⟩ =
          (skipped ++ openBracket :: inner ++ [closeBracket]) ++ colon :: port := by
        simp [HostPort.behindUserinfo, HostPort.portText]
      rw [hText] at h ⊢
      obtain ⟨hA, hB, hAIndex, hBIndex⟩ := h.bracketed hInner hPort.cons_colon
      have hIndex := h.colon.of_split rfl hColon
      have hPortCut := cut_port lead (skipped ++ openBracket :: inner ++ [closeBracket]) port rest hIndex
      simp only [List.length_append, List.length_cons, List.length_nil] at hIndex
      refine ⟨hA.trans hB.symm, by omega, ?_⟩
      rw [splitHost, if_pos (by simp [hA]), if_pos (by omega), if_neg (by omega)]
      exact bind_ok.mpr ⟨port, hPortCut, bind_ok.mpr ⟨_, h.cut_host rest hInner hPort.cons_colon, rfl⟩⟩

theorem Unbracketed.of_append {first second : Bytes} (h : Unbracketed (first ++ second)) :
    Unbracketed first ∧ Unbracketed second := by
  simp only [Unbracketed, List.mem_append, not_or] at h ⊢
  tauto

/-- The brackets, when both are met in their order. -/
theorem split_at_brackets {text before after before' after' : Bytes}
    (hOpen : text = before ++ openBracket :: after) (hClose : text = before' ++ closeBracket :: after')
    (hOrder : before.length ≤ before'.length) :
    ∃ inner, before' = before ++ openBracket :: inner ∧ after = inner ++ closeBracket :: after' := by
  rw [hOpen] at hClose
  rcases List.append_eq_append_iff.mp hClose with ⟨middle, rfl, hMiddle⟩ | ⟨middle, rfl, hMiddle⟩
  · rcases middle with _ | ⟨c, inner⟩
    · exact absurd (List.cons.inj hMiddle).1 (by decide)
    · obtain ⟨rfl, hAfter⟩ := List.cons.inj hMiddle
      exact ⟨inner, rfl, hAfter⟩
  · rcases middle with _ | ⟨c, inner⟩
    · exact absurd (List.cons.inj hMiddle).1 (by decide)
    · simp only [List.length_append, List.length_cons] at hOrder
      omega

/-- A text whose brackets match is cut well, unless its last colon stands behind
the brackets but not right behind them. -/
theorem splitHost_cases {lead text : Bytes} (rest : Bytes) {none_ : Nat} {st : AuthorityScan}
    (h : Located lead.length none_ text st) (hCounts : st.ipLitACount = st.ipLitBCount)
    (hOrder : st.ipLitAIndex ≤ st.ipLitBIndex) :
    (∃ parts : HostPort, text = parts.behindUserinfo ∧ parts.Cut) ∨
      splitHost (lead ++ (text ++ rest)) lead.length (lead ++ text).length st = .ok (.error .uriColon) := by
  rcases h.opens.eq_or_split with ⟨hOpen, hA, _⟩ | ⟨skipped, after, hOpen, hSkippedOpen, hAfter, hA, hAIndex⟩
  · left
    obtain ⟨hClose, _⟩ | ⟨_, _, _, _, _, hB, _⟩ := h.closes.eq_or_split
    · rcases h.colon.lt_or_split with ⟨hColon, _⟩ | ⟨host, port, rfl, hColon, _⟩
      · exact ⟨⟨[], text, [], none⟩, by simp [HostPort.behindUserinfo, HostPort.portText], .name ⟨hOpen, hClose⟩ hColon⟩
      · obtain ⟨hHost, hPort⟩ := Unbracketed.of_append ⟨hOpen, hClose⟩
        refine ⟨⟨[], host, [], some port⟩, ?_, .namePort hHost ?_ hColon⟩
        · simp [HostPort.behindUserinfo, HostPort.portText]
        exact (@Unbracketed.of_append [colon] port hPort).2
    · omega
  · obtain ⟨_, hB, _⟩ | ⟨before, trailing, hClose, hBefore, hTrailingClose, hB, hBIndex⟩ := h.closes.eq_or_split
    · omega
    · obtain ⟨inner, rfl, rfl⟩ := split_at_brackets hOpen hClose (by omega)
      have hSkipped : Unbracketed skipped := ⟨hSkippedOpen, fun hMem => hBefore (by simp [hMem])⟩
      have hInner : Unbracketed inner := ⟨fun hMem => hAfter (by simp [hMem]), fun hMem => hBefore (by simp [hMem])⟩
      have hTrailing : Unbracketed trailing := ⟨fun hMem => hAfter (by simp [hMem]), hTrailingClose⟩
      have hLast : text = (skipped ++ openBracket :: inner ++ [closeBracket]) ++ trailing := by
        rw [hOpen]
        simp
      rcases (hLast ▸ h.colon).behind.lt_or_split with ⟨hColon, _⟩ | ⟨gap, port, rfl, hColon, hIndex⟩
      · left
        refine ⟨⟨skipped, openBracket :: inner ++ [closeBracket], trailing, none⟩, ?_,
          .literal hSkipped hInner hTrailing hColon⟩
        simp [HostPort.behindUserinfo, HostPort.portText, hLast]
      · obtain ⟨_, hPort⟩ := hTrailing.of_append
        simp only [List.length_append, List.length_cons, List.length_nil] at hBIndex hIndex
        by_cases hGap : gap = []
        · left
          subst hGap
          refine ⟨⟨skipped, openBracket :: inner ++ [closeBracket], [], some port⟩, ?_,
            .literalPort hSkipped hInner (@Unbracketed.of_append [colon] port hPort).2 hColon⟩
          simp [HostPort.behindUserinfo, HostPort.portText, hLast]
        · right
          have hPositive := List.length_pos_iff.mpr hGap
          rw [splitHost, if_pos (by omega), if_pos (by omega), if_pos (by omega)]

/-- A text whose host and port are cut out is cut well. -/
theorem splitHost_split {lead text rest : Bytes} {none_ : Nat} {st : AuthorityScan} {host port : Bytes}
    (h : Located lead.length none_ text st)
    (hBehind : (if st.atCount ≠ 0 then st.atIndex + 1 else lead.length) = lead.length)
    (hCounts : st.ipLitACount = st.ipLitBCount) (hOrder : st.ipLitAIndex ≤ st.ipLitBIndex)
    (hSplit : splitHost (lead ++ (text ++ rest)) lead.length (lead ++ text).length st = .ok (.ok (host, port))) :
    ∃ parts : HostPort, text = parts.behindUserinfo ∧ parts.Cut ∧ host = parts.host ∧ port = parts.port.getD [] := by
  rcases splitHost_cases rest h hCounts hOrder with ⟨parts, rfl, hCut⟩ | hColon
  · have hEq := hSplit.symm.trans (splitHost_cut rest hCut h hBehind).2.2
    have hPair := Except.ok.inj (Except.ok.inj hEq)
    exact ⟨parts, rfl, hCut, congrArg Prod.fst hPair, congrArg Prod.snd hPair⟩
  · cases hColon.symm.trans hSplit

/-! ### The whole authority -/

/-- The text of an authority in its parts. -/
structure AuthorityText extends HostPort where
  userinfo : Option Bytes

def AuthorityText.userinfoText (parts : AuthorityText) : Bytes :=
  (parts.userinfo.map (· ++ [at_])).getD []

def AuthorityText.text (parts : AuthorityText) : Bytes := parts.userinfoText ++ parts.behindUserinfo

/-- What the parser of an authority accepts. -/
structure AuthorityText.Accepted (parts : AuthorityText) : Prop where
  userinfo : ∀ text ∈ parts.userinfo, text ∈ Grammar.userinfo
  cut : parts.toHostPort.Cut
  host : HostText parts.host
  port : ∀ text ∈ parts.port, PortText text
  skipped : ∀ c ∈ parts.skipped, regNameChar c = true ∨ c = colon
  trailing : ∀ c ∈ parts.trailing, regNameChar c = true

/-- What the parser makes of the result. -/
def AuthorityText.apply (parts : AuthorityText) (u : Uri) : Uri :=
  { u with
    userinfo := percentNormal id (parts.userinfo.getD [])
    host := lowered parts.host
    port := portNumber (parts.port.getD [])
    hasAuth := true }

theorem hostPlain_of_authorityChar {c : UInt8} (hc : authorityChar c = true) (hAt : c ≠ at_) :
    hostPlain c = true ∨ c = percent := by
  have hRegName := regNameChar_iff c
  simp only [authorityChar, hostPlain, Bool.or_eq_true, beq_iff_eq] at hc ⊢
  tauto

theorem authorityChar_of_hostPlain {c : UInt8} (hc : hostPlain c = true ∨ c = percent) :
    authorityChar c = true ∧ c ≠ at_ := by
  have hRegName := regNameChar_iff c
  refine ⟨?_, ?_⟩
  · simp only [authorityChar, hostPlain, Bool.or_eq_true, beq_iff_eq] at hc ⊢
    tauto
  · rintro rfl
    exact absurd hc (by decide)

theorem userinfo_chars {text : Bytes} (h : text ∈ Grammar.userinfo) :
    Unbracketed text ∧ at_ ∉ text ∧ ∀ c ∈ text, authorityChar c = true := by
  have hChars := encodedText_chars encodable_userinfoPlain h
  refine ⟨⟨fun hMem => ?_, fun hMem => ?_⟩, fun hMem => ?_, fun c hc => ?_⟩
  · exact absurd (hChars _ hMem) (by decide)
  · exact absurd (hChars _ hMem) (by decide)
  · exact absurd (hChars _ hMem) (by decide)
  · have hUserinfo := (userinfoChar_iff c).mpr (hChars c hc)
    simp only [userinfoChar, authorityChar, regNameChar, Bool.or_eq_true] at hUserinfo ⊢
    tauto

theorem port_chars {text : Bytes} (h : PortText text) : ∀ c ∈ text, hostPlain c = true ∨ c = percent := by
  intro c hc
  have hDigit := mem_kstar_oneOf.mp h.1 c hc
  exact .inl (by simp [hostPlain, regNamePlain, unreserved, hDigit])

/-- The characters behind the userinfo. -/
theorem AuthorityText.Accepted.hostPort_chars {parts : AuthorityText} (h : parts.Accepted) :
    ∀ c ∈ parts.behindUserinfo, hostPlain c = true ∨ c = percent := by
  have hRegName (c : UInt8) (hc : regNameChar c = true) : hostPlain c = true ∨ c = percent := by
    rw [regNameChar_iff] at hc
    exact hc.imp_left fun hPlain => by simp [hostPlain, hPlain]
  intro c hc
  simp only [HostPort.behindUserinfo, HostPort.portText, List.mem_append] at hc
  rcases hc with ((hc | hc) | hc) | hc
  · rcases h.skipped c hc with hc | rfl
    · exact hRegName c hc
    · exact .inl (by decide)
  · exact encodedText_chars encodable_hostPlain h.host.encoded c hc
  · exact hRegName c (h.trailing c hc)
  · cases hPort : parts.port with
    | none => simp [hPort] at hc
    | some port =>
        simp only [hPort, Option.map_some, Option.getD_some, List.mem_cons] at hc
        rcases hc with rfl | hc
        · exact .inl (by decide)
        · exact port_chars (h.port port hPort) c hc

theorem Unbracketed.count {text : Bytes} (h : Unbracketed text) :
    text.count openBracket = 0 ∧ text.count closeBracket = 0 :=
  ⟨List.count_eq_zero.mpr h.1, List.count_eq_zero.mpr h.2⟩

theorem HostPort.Cut.count_le {parts : HostPort} (h : parts.Cut) :
    parts.behindUserinfo.count openBracket ≤ 1 ∧ parts.behindUserinfo.count closeBracket ≤ 1 := by
  have hNe : openBracket ≠ closeBracket := by decide
  cases h with
  | name hHost _ => simp [HostPort.behindUserinfo, HostPort.portText, hHost.count]
  | namePort hHost hPort _ =>
      simp [HostPort.behindUserinfo, HostPort.portText, hHost.count, hPort.cons_colon.count]
  | literal hSkipped hInner hTrailing _ =>
      simp [HostPort.behindUserinfo, HostPort.portText, hSkipped.count, hInner.count, hTrailing.count, hNe, hNe.symm]
  | literalPort hSkipped hInner hPort _ =>
      simp [HostPort.behindUserinfo, HostPort.portText, hSkipped.count, hInner.count, hPort.cons_colon.count,
        hNe, hNe.symm]

/-- Without brackets there is at most the colon in front of the port. -/
theorem AuthorityText.Accepted.colons_le {parts : AuthorityText} (h : parts.Accepted)
    (hOpen : openBracket ∉ parts.behindUserinfo) : parts.behindUserinfo.count colon ≤ 1 := by
  have hHost : HostText parts.host → openBracket ∉ parts.host → parts.host.count colon = 0 := by
    rintro (hName | hBracketed) hNot
    · refine List.count_eq_zero.mpr fun hMem => ?_
      exact absurd (encodedText_chars encodable_regNamePlain hName _ hMem) (by decide)
    · exact (hNot (List.mem_of_head? hBracketed.head)).elim
  have hHost := hHost h.host
  have hCut := h.cut
  obtain ⟨⟨skipped, host, trailing, port⟩, userinfo⟩ := parts
  cases hCut with
  | name hUnbracketed _ => simp [HostPort.behindUserinfo, HostPort.portText, hHost hUnbracketed.1]
  | namePort hUnbracketed _ hColon =>
      simp [HostPort.behindUserinfo, HostPort.portText, hHost hUnbracketed.1, List.count_eq_zero.mpr hColon]
  | literal => simp [HostPort.behindUserinfo] at hOpen
  | literalPort => simp [HostPort.behindUserinfo] at hOpen

theorem AuthorityText.Accepted.text_chars {parts : AuthorityText} (h : parts.Accepted) :
    (∀ c ∈ parts.text, authorityChar c = true) ∧
      ∀ d, (d = at_ ∨ d = openBracket ∨ d = closeBracket) → parts.text.count d ≤ 1 := by
  have hHostPort := h.hostPort_chars
  have hAt : parts.behindUserinfo.count at_ = 0 :=
    List.count_eq_zero.mpr fun hMem => (authorityChar_of_hostPlain (hHostPort _ hMem)).2 rfl
  have hUserinfo : (∀ c ∈ parts.userinfoText, authorityChar c = true) ∧
      parts.userinfoText.count at_ ≤ 1 ∧ Unbracketed parts.userinfoText := by
    cases hSome : parts.userinfo with
    | none => simp [AuthorityText.userinfoText, hSome, Unbracketed]
    | some text =>
        obtain ⟨hUnbracketed, hNotAt, hChars⟩ := userinfo_chars (h.userinfo text hSome)
        have hDelimiter : authorityChar at_ = true ∧ Unbracketed [at_] := by
          refine ⟨by decide, ?_⟩
          constructor <;> decide
        simp only [AuthorityText.userinfoText, hSome, Option.map_some, Option.getD_some]
        refine ⟨?_, by simp [List.count_eq_zero.mpr hNotAt], hUnbracketed.append hDelimiter.2⟩
        intro c hc
        rcases List.mem_append.mp hc with hc | hc
        · exact hChars c hc
        · rw [List.mem_singleton.mp hc]
          exact hDelimiter.1
  refine ⟨fun c hc => ?_, ?_⟩
  · rcases List.mem_append.mp hc with hc | hc
    · exact hUserinfo.1 c hc
    · exact (authorityChar_of_hostPlain (hHostPort c hc)).1
  · rintro d (rfl | rfl | rfl)
    · rw [AuthorityText.text, List.count_append, hAt]
      exact hUserinfo.2.1
    · rw [AuthorityText.text, List.count_append, hUserinfo.2.2.count.1, Nat.zero_add]
      exact h.cut.count_le.1
    · rw [AuthorityText.text, List.count_append, hUserinfo.2.2.count.2, Nat.zero_add]
      exact h.cut.count_le.2

theorem Scanned.located {before text userinfo rest : Bytes} {none_ : Nat} {st : AuthorityScan}
    (h : Scanned before.length none_ text st) (hText : text = (userinfo ++ [at_]) ++ rest)
    (hUserinfo : Unbracketed userinfo) :
    Located (before ++ (userinfo ++ [at_])).length none_ rest st := by
  have hLead : Unbracketed (userinfo ++ [at_]) := hUserinfo.append (by constructor <;> decide)
  rw [hText] at h
  rw [List.length_append]
  exact ⟨h.opens.behind hLead.1, h.closes.behind hLead.2, h.colon.behind⟩

/-- The parts that are cut out of an accepted text. -/
theorem splitAuthority_cut {before : Bytes} (rest : Bytes) {none_ : Nat} (hNone : none_ < before.length)
    {parts : AuthorityText} (h : parts.Accepted) {st : AuthorityScan}
    (hScanned : Scanned before.length none_ parts.text st) :
    splitAuthority (before ++ (parts.text ++ rest)) before.length (before ++ parts.text).length st =
      .ok (.ok ⟨parts.userinfo.getD [], parts.host, parts.port.getD []⟩) := by
  have hAt : at_ ∉ parts.behindUserinfo := fun hMem =>
    (authorityChar_of_hostPlain (h.hostPort_chars _ hMem)).2 rfl
  unfold splitAuthority
  cases hSome : parts.userinfo with
  | none =>
      have hText : parts.text = parts.behindUserinfo := by
        simp [AuthorityText.text, AuthorityText.userinfoText, hSome]
      rw [hText] at hScanned ⊢
      obtain ⟨hCount, hIndex⟩ := hScanned.ats.of_not_mem hAt
      obtain ⟨hCounts, hOrder, hSplit⟩ :=
        splitHost_cut rest h.cut ⟨hScanned.opens, hScanned.closes, hScanned.colon⟩ (by simp [hCount])
      rw [if_neg (not_not.mpr hCounts), if_neg (by omega), if_neg (by omega), if_neg (by omega)]
      exact bind_ok.mpr ⟨_, hSplit, rfl⟩
  | some text =>
      obtain ⟨hUnbracketed, hNotAt, _⟩ := userinfo_chars (h.userinfo text hSome)
      have hText : parts.text = (text ++ [at_]) ++ parts.behindUserinfo := by
        simp [AuthorityText.text, AuthorityText.userinfoText, hSome]
      have hTextAt : parts.text = text ++ at_ :: parts.behindUserinfo := hText.trans (by simp)
      obtain ⟨hCount, hIndex⟩ := hScanned.ats.of_split hTextAt hAt
      have hLocated := hScanned.located hText hUnbracketed
      have hLead : (before ++ (text ++ [at_])).length = st.atIndex + 1 := by
        simp [hIndex, Nat.add_assoc]
      obtain ⟨hCounts, hOrder, hSplit⟩ := splitHost_cut rest h.cut hLocated (by simp [hCount, hLead])
      have hColons : ¬(st.ipLitACount = 0 ∧ st.atCount ≠ 0 ∧ 1 < st.colonCountAfter) := by
        rintro ⟨hOpen, _, hColons⟩
        rw [hScanned.colons_after _ _ hTextAt hAt] at hColons
        have hLe := h.colons_le (List.count_eq_zero.mp (hLocated.opens.count_eq.trans hOpen))
        omega
      rw [if_neg (not_not.mpr hCounts), if_neg (by omega), if_neg hColons, if_pos (by omega)]
      refine bind_ok.mpr ⟨text, ?_, bind_ok.mpr ⟨.ok (parts.host, parts.port.getD []), ?_, rfl⟩⟩
      · exact cut_eq before text (at_ :: parts.behindUserinfo ++ rest) (by simp [hText]) rfl hIndex
      · rw [← hLead, hText]
        simpa using hSplit

theorem AuthorityText.Accepted.userinfo_mem {parts : AuthorityText} (h : parts.Accepted) :
    parts.userinfo.getD [] ∈ Grammar.userinfo := by
  cases hSome : parts.userinfo with
  | none => exact Language.nil_mem_kstar _
  | some text => exact h.userinfo text hSome

theorem AuthorityText.Accepted.portText {parts : AuthorityText} (h : parts.Accepted) :
    PortText (parts.port.getD []) := by
  cases hSome : parts.port with
  | none => exact ⟨Language.nil_mem_kstar _, by simp⟩
  | some text => exact h.port text hSome

theorem sizePred_lt {before : Bytes} (h : before ≠ []) : sizePred before.length < before.length := by
  have hPositive := List.length_pos_iff.mpr h
  rw [sizePred, if_neg (by omega)]
  omega

theorem parseAuthority_reads {parts : AuthorityText} (h : parts.Accepted) {rest : Bytes}
    (hRest : Boundary authorityChar rest) {u : Uri} (hHost : u.host = []) (hPort : u.port = -1) :
    Reads parseAuthority parts.text rest u (parts.apply u) := by
  intro before hNe result errno
  have hNone := sizePred_lt hNe
  obtain ⟨hChars, hCounts⟩ := h.text_chars
  have hScan := scanAuthority_text hChars hRest [] _ (scanned_nil hNone)
  rcases hScan with ⟨st, hScan, hScanned⟩ | ⟨_, d, hd, hTwice⟩
  · have hSplit := splitAuthority_cut rest hNone h hScanned
    obtain ⟨first, hFirst, hFirstResult⟩ := parseUserinfo_reads h.userinfo_mem u result errno
    obtain ⟨second, hSecond, hSecondResult⟩ := parseHost_reads h.host (u := { u with
      userinfo := percentNormal id (parts.userinfo.getD []) }) hHost result first.errno
    obtain ⟨third, hThird, hThirdResult⟩ := parsePort_reads h.portText (u := { u with
      userinfo := percentNormal id (parts.userinfo.getD [])
      host := lowered parts.host }) hPort result second.errno
    rw [← hFirstResult] at hSecond
    rw [← hSecondResult] at hThird
    refine ⟨third.errno, ?_⟩
    simp only [List.length_nil, Nat.add_zero, List.nil_append, ← List.length_append] at hScan
    simp only [parseAuthority, place, List.drop_left, hScan, hSplit, hFirst, hSecond, hThird, bind, Except.bind]
    simp [Context.modify, hThirdResult, Function.comp_def, AuthorityText.apply]
  · have hLe := hCounts d hd
    rw [List.nil_append] at hTwice
    omega

theorem HostPort.Cut.around {parts : HostPort} (h : parts.Cut) :
    Unbracketed parts.skipped ∧ Unbracketed parts.trailing ∧ colon ∉ parts.trailing := by
  have hNil : Unbracketed [] := by simp [Unbracketed]
  cases h with
  | name => exact ⟨hNil, hNil, by simp⟩
  | namePort => exact ⟨hNil, hNil, by simp⟩
  | literal hSkipped _ hTrailing hColon => exact ⟨hSkipped, hTrailing, hColon⟩
  | literalPort hSkipped => exact ⟨hSkipped, hNil, by simp⟩

/-- Parts that are accepted one by one. -/
theorem accepted_of_cut {parts : HostPort} {userinfo : Option Bytes}
    (hText : ∀ c ∈ parts.behindUserinfo, authorityChar c = true ∧ c ≠ at_)
    (hUserinfo : ∀ text ∈ userinfo, text ∈ Grammar.userinfo) (hCut : parts.Cut)
    (hHost : (∀ c ∈ parts.host, hostPlain c = true ∨ c = percent) → HostText parts.host)
    (hPort : PortText (parts.port.getD [])) : AuthorityText.Accepted ⟨parts, userinfo⟩ := by
  obtain ⟨hSkipped, hTrailing, hColon⟩ := hCut.around
  refine ⟨hUserinfo, hCut, hHost fun c hc => ?_, fun text hSome => ?_, fun c hc => ?_, fun c hc => ?_⟩
  · obtain ⟨hChar, hAt⟩ := hText c (by simp [HostPort.behindUserinfo, hc])
    exact hostPlain_of_authorityChar hChar hAt
  · rw [Option.mem_def.mp hSome] at hPort
    exact hPort
  · obtain ⟨hChar, hAt⟩ := hText c (by simp [HostPort.behindUserinfo, hc])
    have hOpen : c ≠ openBracket := fun hEq => hSkipped.1 (hEq ▸ hc)
    have hClose : c ≠ closeBracket := fun hEq => hSkipped.2 (hEq ▸ hc)
    simpa [authorityChar, hAt, hOpen, hClose] using hChar
  · obtain ⟨hChar, hAt⟩ := hText c (by simp [HostPort.behindUserinfo, hc])
    have hOpen : c ≠ openBracket := fun hEq => hTrailing.1 (hEq ▸ hc)
    have hClose : c ≠ closeBracket := fun hEq => hTrailing.2 (hEq ▸ hc)
    have hNotColon : c ≠ colon := fun hEq => hColon (hEq ▸ hc)
    simpa [authorityChar, hAt, hOpen, hClose, hNotColon] using hChar

/-- A text whose parts are cut out and accepted one by one. -/
theorem splitAuthority_split {before text rest : Bytes} {none_ : Nat} (hNone : none_ < before.length)
    (hChars : ∀ c ∈ text, authorityChar c = true) {st : AuthorityScan}
    (hScanned : Scanned before.length none_ text st) {found : AuthorityParts}
    (hSplit : splitAuthority (before ++ (text ++ rest)) before.length (before ++ text).length st = .ok (.ok found))
    (hUserinfo : found.userinfo ∈ Grammar.userinfo)
    (hHost : (∀ c ∈ found.host, hostPlain c = true ∨ c = percent) → HostText found.host)
    (hPort : PortText found.port) :
    ∃ parts : AuthorityText, text = parts.text ∧ parts.Accepted := by
  unfold splitAuthority at hSplit
  split_ifs at hSplit with hCounts hOrder hColons hAt
  · cases hSplit
  · cases hSplit
  · cases hSplit
  · rcases hScanned.ats.eq_or_split with ⟨_, _, hIndex⟩ | ⟨userinfo, behind, hText, _, hBehindAt, hCount, hIndex⟩
    · omega
    obtain ⟨userinfoCut, hCut, hSplit⟩ := bind_ok.mp hSplit
    obtain ⟨located, hHostSplit, hSplit⟩ := bind_ok.mp hSplit
    have hUserinfoCut : userinfoCut = userinfo := by
      have hPlace : cut (before ++ (text ++ rest)) before.length st.atIndex = .ok userinfo :=
        cut_eq before userinfo (at_ :: behind ++ rest) (by simp [hText]) rfl hIndex
      exact Except.ok.inj (hCut.symm.trans hPlace)
    cases located with
    | error e => cases hSplit
    | ok hostPort =>
        obtain ⟨host, port⟩ := hostPort
        obtain rfl := Except.ok.inj (Except.ok.inj hSplit)
        subst hUserinfoCut
        have hConcat : text = (userinfoCut ++ [at_]) ++ behind := by simp [hText]
        have hLocated := hScanned.located hConcat (userinfo_chars hUserinfo).1
        have hLead : (before ++ (userinfoCut ++ [at_])).length = st.atIndex + 1 := by
          simp [hIndex, Nat.add_assoc]
        have hData : before ++ (text ++ rest) = (before ++ (userinfoCut ++ [at_])) ++ (behind ++ rest) := by
          simp [hText]
        have hEnd : before ++ text = before ++ (userinfoCut ++ [at_]) ++ behind := by simp [hText]
        rw [← hLead, hData, hEnd] at hHostSplit
        obtain ⟨parts, rfl, hPartsCut, rfl, rfl⟩ :=
          splitHost_split hLocated (by simp [hCount, hLead]) (not_not.mp hCounts) (by omega) hHostSplit
        refine ⟨⟨parts, some userinfoCut⟩, hConcat, accepted_of_cut (fun c hc => ?_) ?_ hPartsCut hHost hPort⟩
        · exact ⟨hChars c (by simp [hText, hc]), fun hEq => hBehindAt (hEq ▸ hc)⟩
        · simpa using hUserinfo
  · rcases hScanned.ats.eq_or_split with ⟨hNotAt, hCount, _⟩ | ⟨_, _, _, _, _, _, hIndex⟩
    swap
    · omega
    obtain ⟨located, hHostSplit, hSplit⟩ := bind_ok.mp hSplit
    cases located with
    | error e => cases hSplit
    | ok hostPort =>
        obtain ⟨host, port⟩ := hostPort
        obtain rfl := Except.ok.inj (Except.ok.inj hSplit)
        obtain ⟨parts, rfl, hPartsCut, rfl, rfl⟩ :=
          splitHost_split ⟨hScanned.opens, hScanned.closes, hScanned.colon⟩ (by simp [hCount])
            (not_not.mp hCounts) (by omega) hHostSplit
        refine ⟨⟨parts, none⟩, by simp [AuthorityText.text, AuthorityText.userinfoText],
          accepted_of_cut (fun c hc => ?_) (by simp) hPartsCut hHost hPort⟩
        exact ⟨hChars c hc, fun hEq => hNotAt (hEq ▸ hc)⟩

/-- What the parser of an authority accepts are the texts described above. -/
theorem parseAuthority_split {before s : Bytes} (hNe : before ≠ []) {result : Option Uri} {errno : Imperr}
    {next : Context} (h : parseAuthority (place before s result errno) = .ok (true, next)) :
    ∃ (parts : AuthorityText) (rest : Bytes), s = parts.text ++ rest ∧ parts.Accepted ∧
      Boundary authorityChar rest := by
  obtain ⟨text, rest, rfl, hChars, hRest⟩ := split_at_boundary authorityChar s
  have hNone := sizePred_lt hNe
  have hScan := scanAuthority_text hChars hRest [] _ (scanned_nil hNone)
  simp only [List.length_nil, Nat.add_zero, List.nil_append, ← List.length_append] at hScan
  rcases hScan with ⟨st, hScan, hScanned⟩ | ⟨⟨i, e, hScan⟩, _⟩
  · simp only [parseAuthority, place, List.drop_left, hScan] at h
    obtain ⟨split, hSplit, h⟩ := bind_ok.mp h
    cases split with
    | error e => exact (fail_ne h).elim
    | ok cut =>
        obtain ⟨⟨userinfoOk, first⟩, hFirst, h⟩ := bind_ok.mp h
        obtain ⟨⟨hostOk, second⟩, hSecond, h⟩ := bind_ok.mp h
        obtain ⟨⟨portOk, third⟩, hThird, h⟩ := bind_ok.mp h
        have hOk := congrArg Prod.fst (Except.ok.inj h)
        simp only [Bool.and_eq_true] at hOk
        obtain ⟨⟨rfl, rfl⟩, rfl⟩ := hOk
        obtain ⟨parts, rfl, hParts⟩ := splitAuthority_split hNone hChars hScanned hSplit
          (parseUserinfo_split hFirst) (parseHost_split · hSecond) (parsePort_split hThird)
        exact ⟨parts, rest, rfl, hParts, hRest⟩
  · simp only [parseAuthority, place, List.drop_left, hScan] at h
    exact (fail_ne h).elim

end ImpactSockets.Uri
