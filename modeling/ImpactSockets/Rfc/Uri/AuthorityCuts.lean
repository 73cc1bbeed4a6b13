import ImpactSockets.Rfc.Uri.Effects

/-! Where the parser of an authority cuts its text, on every text that it does
not give up at its delimiters. -/
namespace ImpactSockets.Uri

open Abnf AbnfOps Ascii Total

/-- The parts that a text is cut into. Brackets are looked for in all of it, also
in front of its "@". -/
inductive Cuts (text : Bytes) : AuthorityParts → Prop where
  | bare {hostPort : HostPort} (hCut : hostPort.Cut) (hText : text = hostPort.behindUserinfo) (hAt : at_ ∉ text) :
      Cuts text ⟨[], hostPort.host, hostPort.port.getD []⟩
  | name {userinfo : Bytes} {hostPort : HostPort} (hCut : hostPort.Cut)
      (hText : text = userinfo ++ at_ :: hostPort.behindUserinfo) (hBefore : at_ ∉ userinfo)
      (hAt : at_ ∉ hostPort.behindUserinfo) (hUnbracketed : Unbracketed text)
      (hColons : hostPort.behindUserinfo.count colon ≤ 1) :
      Cuts text ⟨userinfo, hostPort.host, hostPort.port.getD []⟩
  | literal {userinfo behind : Bytes} {hostPort : HostPort} (hCut : hostPort.Cut)
      (hText : text = hostPort.behindUserinfo) (hOpen : openBracket ∈ text) (hSplit : text = userinfo ++ at_ :: behind)
      (hBefore : at_ ∉ userinfo) (hAt : at_ ∉ behind) : Cuts text ⟨userinfo, hostPort.host, hostPort.port.getD []⟩

/-- None of the delimiters that may be met once is met twice. -/
theorem Cuts.count_le {text : Bytes} {parts : AuthorityParts} (h : Cuts text parts) (d : UInt8)
    (hDelimiter : d = at_ ∨ d = openBracket ∨ d = closeBracket) : text.count d ≤ 1 := by
  cases h with
  | bare hCut hText hAt =>
      rcases hDelimiter with rfl | rfl | rfl
      · rw [List.count_eq_zero.mpr hAt]
        exact Nat.zero_le 1
      · exact hText ▸ hCut.count_le.1
      · exact hText ▸ hCut.count_le.2
  | name hCut hText hBefore hAt hUnbracketed hColons =>
      rcases hDelimiter with rfl | rfl | rfl
      · rw [hText, List.count_append, List.count_eq_zero.mpr hBefore, List.count_cons_self,
          List.count_eq_zero.mpr hAt]
      · rw [hUnbracketed.count.1]
        exact Nat.zero_le 1
      · rw [hUnbracketed.count.2]
        exact Nat.zero_le 1
  | literal hCut hText hOpen hSplit hBefore hAt =>
      rcases hDelimiter with rfl | rfl | rfl
      · rw [hSplit, List.count_append, List.count_eq_zero.mpr hBefore, List.count_cons_self,
          List.count_eq_zero.mpr hAt]
      · exact hText ▸ hCut.count_le.1
      · exact hText ▸ hCut.count_le.2

/-- A host that starts with a bracket also ends with one. -/
def BothBrackets (host : Bytes) : Prop :=
  host.head? = some openBracket → ∃ inner, host = openBracket :: inner ++ [closeBracket]

theorem HostPort.Cut.bothBrackets {hostPort : HostPort} (h : hostPort.Cut) : BothBrackets hostPort.host := by
  intro hHead
  cases h with
  | name hHost _ => exact (hHost.1 (List.mem_of_head? hHead)).elim
  | namePort hHost _ _ => exact (hHost.1 (List.mem_of_head? hHead)).elim
  | @literal _ inner => exact ⟨inner, rfl⟩
  | @literalPort _ inner => exact ⟨inner, rfl⟩

theorem Cuts.bothBrackets {text : Bytes} {parts : AuthorityParts} (h : Cuts text parts) : BothBrackets parts.host := by
  cases h with
  | bare hCut => exact hCut.bothBrackets
  | name hCut => exact hCut.bothBrackets
  | literal hCut => exact hCut.bothBrackets

/-- A bracketed host is looked for without regard to the userinfo. -/
theorem splitHost_literal (data : Bytes) (lastIdx start currentIdx : Nat) {st : AuthorityScan}
    (h : st.ipLitACount ≠ 0) :
    splitHost data lastIdx currentIdx st = splitHost data start currentIdx { st with atCount := 0 } := by
  rw [splitHost, if_pos h, splitHost, if_pos h]

variable {before text : Bytes} {none_ : Nat} {st : AuthorityScan}

theorem Scanned.whole (h : Scanned before.length none_ text st) :
    Located before.length none_ text { st with atCount := 0 } :=
  ⟨h.opens, h.closes, h.colon⟩

theorem Scanned.counts (h : Scanned before.length none_ text st) :
    (st.ipLitACount = 0 ↔ openBracket ∉ text) ∧ (st.ipLitBCount = 0 ↔ closeBracket ∉ text) := by
  rw [← h.opens.count_eq, ← h.closes.count_eq]
  exact ⟨List.count_eq_zero, List.count_eq_zero⟩

/-- A text is cut as it is said above. -/
theorem splitAuthority_of_cuts (rest : Bytes) (hNone : none_ < before.length)
    (hScanned : Scanned before.length none_ text st) {parts : AuthorityParts} (h : Cuts text parts) :
    splitAuthority (before ++ (text ++ rest)) before.length (before ++ text).length st = .ok (.ok parts) := by
  unfold splitAuthority
  cases h with
  | @bare hostPort hCut hText hAt =>
      obtain ⟨hCount, hIndex⟩ := hScanned.ats.of_not_mem hAt
      have hLocated : Located before.length none_ hostPort.behindUserinfo st :=
        ⟨hText ▸ hScanned.opens, hText ▸ hScanned.closes, hText ▸ hScanned.colon⟩
      obtain ⟨hCounts, hOrder, hSplit⟩ := splitHost_cut rest hCut hLocated (by simp [hCount])
      rw [if_neg (not_not.mpr hCounts), if_neg (by omega), if_neg (by omega), if_neg (by omega), hText]
      exact bind_ok.mpr ⟨_, hSplit, rfl⟩
  | @name userinfo hostPort hCut hText _ hAt hUnbracketed hColons =>
      obtain ⟨hCount, hIndex⟩ := hScanned.ats.of_split hText hAt
      have hConcat : text = (userinfo ++ [at_]) ++ hostPort.behindUserinfo := hText.trans (by simp)
      have hUserinfo : Unbracketed userinfo := (Unbracketed.of_append (hText ▸ hUnbracketed)).1
      have hLocated := hScanned.located hConcat hUserinfo
      have hLead : (before ++ (userinfo ++ [at_])).length = st.atIndex + 1 := by
        simp [hIndex, Nat.add_assoc]
      obtain ⟨hCounts, hOrder, hSplit⟩ := splitHost_cut rest hCut hLocated (by simp [hCount, hLead])
      have hFew : ¬1 < st.colonCountAfter := by
        rw [hScanned.colons_after _ _ hText hAt]
        omega
      rw [if_neg (not_not.mpr hCounts), if_neg (by omega), if_neg (fun h => hFew h.2.2), if_pos (by omega)]
      refine bind_ok.mpr ⟨userinfo, ?_, bind_ok.mpr ⟨.ok (hostPort.host, hostPort.port.getD []), ?_, rfl⟩⟩
      · exact cut_eq before userinfo (at_ :: hostPort.behindUserinfo ++ rest) (by simp [hText]) rfl hIndex
      · rw [← hLead, hConcat]
        simpa using hSplit
  | @literal userinfo behind hostPort hCut hText hOpen hSplitAt _ hAt =>
      obtain ⟨hCount, hIndex⟩ := hScanned.ats.of_split hSplitAt hAt
      have hSome : st.ipLitACount ≠ 0 := fun hZero => hScanned.counts.1.mp hZero hOpen
      obtain ⟨hCounts, hOrder, hSplit⟩ := splitHost_cut rest hCut (hText ▸ hScanned.whole) (by simp)
      dsimp only at hCounts hOrder
      rw [if_neg (not_not.mpr hCounts), if_neg (by omega), if_neg (fun h => hSome h.1), if_pos (by omega)]
      refine bind_ok.mpr ⟨userinfo, ?_, bind_ok.mpr ⟨.ok (hostPort.host, hostPort.port.getD []), ?_, rfl⟩⟩
      · exact cut_eq before userinfo (at_ :: behind ++ rest) (by simp [hSplitAt]) rfl hIndex
      · rw [splitHost_literal _ _ before.length _ hSome, hText]
        exact hSplit

/-- Behind the checks on the delimiters a text is cut, or its last colon is
misplaced. -/
theorem splitAuthority_checked (rest : Bytes) (hNone : none_ < before.length)
    (hScanned : Scanned before.length none_ text st) (hCounts : st.ipLitACount = st.ipLitBCount)
    (hOrder : st.ipLitAIndex ≤ st.ipLitBIndex)
    (hColons : ¬(st.ipLitACount = 0 ∧ st.atCount ≠ 0 ∧ 1 < st.colonCountAfter)) :
    (∃ parts, Cuts text parts) ∨
      splitAuthority (before ++ (text ++ rest)) before.length (before ++ text).length st = .ok (.error .uriColon) := by
  rw [splitAuthority, if_neg (not_not.mpr hCounts), if_neg (by omega), if_neg hColons]
  rcases hScanned.ats.eq_or_split with ⟨hAt, _, hIndex⟩ | ⟨userinfo, behind, hText, hBefore, hAt, hCount, hIndex⟩
  · rcases splitHost_cases rest ⟨hScanned.opens, hScanned.closes, hScanned.colon⟩ hCounts hOrder with
      ⟨parts, hParts, hCut⟩ | hError
    · exact .inl ⟨_, .bare hCut hParts hAt⟩
    · right
      rw [if_neg (by omega)]
      exact bind_ok.mpr ⟨_, hError, rfl⟩
  · have hUserinfo : cut (before ++ (text ++ rest)) before.length st.atIndex = .ok userinfo :=
      cut_eq before userinfo (at_ :: behind ++ rest) (by simp [hText]) rfl hIndex
    rw [if_pos (by omega)]
    by_cases hOpen : openBracket ∈ text
    · rcases splitHost_cases rest hScanned.whole hCounts hOrder with ⟨parts, hParts, hCut⟩ | hError
      · exact .inl ⟨_, .literal hCut hParts hOpen hText hBefore hAt⟩
      · right
        rw [← splitHost_literal _ (st.atIndex + 1) _ _ fun hZero => hScanned.counts.1.mp hZero hOpen] at hError
        exact bind_ok.mpr ⟨userinfo, hUserinfo, bind_ok.mpr ⟨_, hError, rfl⟩⟩
    · have hZero : st.ipLitACount = 0 := hScanned.counts.1.mpr hOpen
      have hUnbracketed : Unbracketed text := ⟨hOpen, hScanned.counts.2.mp (hCounts ▸ hZero)⟩
      have hConcat : text = (userinfo ++ [at_]) ++ behind := hText.trans (by simp)
      have hLead : (before ++ (userinfo ++ [at_])).length = st.atIndex + 1 := by
        simp [hIndex, Nat.add_assoc]
      have hLocated := hScanned.located hConcat (Unbracketed.of_append (hText ▸ hUnbracketed)).1
      have hFew : behind.count colon ≤ 1 := by
        rw [← hScanned.colons_after _ _ hText hAt]
        omega
      rcases splitHost_cases rest hLocated hCounts hOrder with ⟨parts, rfl, hCut⟩ | hError
      · exact .inl ⟨_, .name hCut hText hBefore hAt hUnbracketed hFew⟩
      · right
        rw [hLead] at hError
        refine bind_ok.mpr ⟨userinfo, hUserinfo, bind_ok.mpr ⟨.error .uriColon, ?_, rfl⟩⟩
        rw [hConcat]
        simpa using hError

/-- Every text is cut, or refused with an error. -/
theorem splitAuthority_cases (rest : Bytes) (hNone : none_ < before.length)
    (hScanned : Scanned before.length none_ text st) :
    (∃ parts, Cuts text parts) ∨
      ∃ errno, errno ≠ .success ∧
        splitAuthority (before ++ (text ++ rest)) before.length (before ++ text).length st = .ok (.error errno) := by
  by_cases hCounts : st.ipLitACount = st.ipLitBCount
  swap
  · right
    exact ⟨.uriIpLitMismatch, by decide, by rw [splitAuthority, if_pos hCounts]⟩
  by_cases hOrder : st.ipLitBIndex < st.ipLitAIndex
  · right
    exact ⟨.uriIpLitMismatch, by decide, by rw [splitAuthority, if_neg (not_not.mpr hCounts), if_pos hOrder]⟩
  by_cases hColons : st.ipLitACount = 0 ∧ st.atCount ≠ 0 ∧ 1 < st.colonCountAfter
  · right
    refine ⟨.uriColon, by decide, ?_⟩
    rw [splitAuthority, if_neg (not_not.mpr hCounts), if_neg hOrder, if_pos hColons]
  rcases splitAuthority_checked rest hNone hScanned hCounts (Nat.le_of_not_lt hOrder) hColons with hCut | hError
  · exact .inl hCut
  · exact .inr ⟨.uriColon, by decide, hError⟩

end ImpactSockets.Uri
