import ImpactSockets.Rfc.Uri.AuthorityParts

/-! What the loop of the parser of an authority finds out about the text that it
goes over: where its delimiters are. -/
namespace ImpactSockets.Uri

open Abnf AbnfOps Ascii
open scoped Computability

/-! ### The loop -/

/-- The characters that the loop over an authority goes on at. -/
def authorityChar (c : UInt8) : Bool :=
  regNameChar c || c == at_ || c == colon || c == openBracket || c == closeBracket

/-- A delimiter that may be met once, in a text that starts at `start`: how often
it has been met, and where. -/
inductive Once (delimiter : UInt8) (start none_ : Nat) (text : Bytes) : Nat → Nat → Prop where
  | not_met (h : delimiter ∉ text) : Once delimiter start none_ text 0 none_
  | met (before after : Bytes) (hText : text = before ++ delimiter :: after) (hBefore : delimiter ∉ before)
      (hAfter : delimiter ∉ after) : Once delimiter start none_ text 1 (start + before.length)

/-- Where a delimiter has been met last. -/
inductive LastMet (delimiter : UInt8) (start : Nat) (text : Bytes) : Nat → Prop where
  | not_met (h : delimiter ∉ text) {index : Nat} (hIndex : index < start) : LastMet delimiter start text index
  | met (before after : Bytes) (hText : text = before ++ delimiter :: after) (hAfter : delimiter ∉ after) :
      LastMet delimiter start text (start + before.length)

variable {delimiter : UInt8} {start none_ : Nat} {text : Bytes} {count index : Nat}

/-- A character other than the delimiter changes nothing. -/
theorem Once.skip (h : Once delimiter start none_ text count index) {c : UInt8} (hc : c ≠ delimiter) :
    Once delimiter start none_ (text ++ [c]) count index := by
  cases h with
  | not_met h => exact .not_met (by simpa [h] using hc.symm)
  | met before after hText hBefore hAfter =>
      exact .met before (after ++ [c]) (by simp [hText]) hBefore (by simpa [hAfter] using hc.symm)

/-- The delimiter is met for the first time. -/
theorem Once.meet (h : Once delimiter start none_ text 0 index) :
    Once delimiter start none_ (text ++ [delimiter]) 1 (start + text.length) := by
  cases h with
  | not_met h => exact .met text [] rfl h (by simp)

/-- The counter is the number of delimiters. -/
theorem Once.count_eq (h : Once delimiter start none_ text count index) : text.count delimiter = count := by
  cases h with
  | not_met h => exact List.count_eq_zero.mpr h
  | met before after hText hBefore hAfter =>
      simp [hText, List.count_eq_zero.mpr hBefore, List.count_eq_zero.mpr hAfter]

theorem LastMet.skip (h : LastMet delimiter start text index) {c : UInt8} (hc : c ≠ delimiter) :
    LastMet delimiter start (text ++ [c]) index := by
  cases h with
  | not_met h hIndex => exact .not_met (by simpa [h] using hc.symm) hIndex
  | met before after hText hAfter =>
      exact .met before (after ++ [c]) (by simp [hText]) (by simpa [hAfter] using hc.symm)

/-- The last delimiter is the one just met. -/
theorem LastMet.meet : LastMet delimiter start (text ++ [delimiter]) (start + text.length) :=
  .met text [] rfl (by simp)

/-- What the locals say about the text that the loop has gone over. -/
structure Scanned (start none_ : Nat) (text : Bytes) (st : AuthorityScan) : Prop where
  ats : Once at_ start none_ text st.atCount st.atIndex
  opens : Once openBracket start none_ text st.ipLitACount st.ipLitAIndex
  closes : Once closeBracket start none_ text st.ipLitBCount st.ipLitBIndex
  colon : LastMet colon start text st.portColonIndex
  colons_before : at_ ∉ text → st.colonCountAfter = 0
  colons_after : ∀ before after, text = before ++ at_ :: after → at_ ∉ after →
    st.colonCountAfter = after.count Ascii.colon

/-- Nothing has been met before the loop. -/
theorem scanned_nil {start none_ : Nat} (h : none_ < start) :
    Scanned start none_ [] ⟨0, 0, 0, 0, none_, none_, none_, none_⟩ where
  ats := .not_met (by simp)
  opens := .not_met (by simp)
  closes := .not_met (by simp)
  colon := .not_met (by simp) h
  colons_before _ := rfl
  colons_after before after hEq := by simp at hEq

/-- A text is extended by a character other than the delimiter behind its last
delimiter only. -/
theorem concat_eq_append_cons {text before after : Bytes} {c d : UInt8}
    (h : text ++ [c] = before ++ d :: after) (hc : c ≠ d) : ∃ init, after = init ++ [c] ∧ text = before ++ d :: init := by
  rcases List.eq_nil_or_concat after with rfl | ⟨init, e, rfl⟩
  · have hSplit := List.append_inj' h rfl
    exact (hc (List.cons.inj hSplit.2).1).elim
  · have hSplit : text ++ [c] = (before ++ d :: init) ++ [e] := by rw [h]; simp
    obtain ⟨rfl, hLast⟩ := List.append_inj' hSplit rfl
    exact ⟨init, by rw [(List.cons.inj hLast).1]; simp, rfl⟩

theorem Scanned.colons_concat {start none_ : Nat} {text : Bytes} {st : AuthorityScan}
    (h : Scanned start none_ text st) {c : UInt8} (hAt : c ≠ at_) (hColon : c ≠ Ascii.colon)
    (before after : Bytes) (hEq : text ++ [c] = before ++ at_ :: after) (hAfter : at_ ∉ after) :
    st.colonCountAfter = after.count Ascii.colon := by
  obtain ⟨init, rfl, rfl⟩ := concat_eq_append_cons hEq hAt
  rw [h.colons_after before init rfl fun hMem => hAfter (List.mem_append_left _ hMem)]
  simp [hColon]

/-- A character that is no delimiter. -/
theorem Scanned.skip {start none_ : Nat} {text : Bytes} {st : AuthorityScan} (h : Scanned start none_ text st)
    {c : UInt8} (hAt : c ≠ at_) (hOpen : c ≠ openBracket) (hClose : c ≠ closeBracket)
    (hColon : c ≠ Ascii.colon) : Scanned start none_ (text ++ [c]) st where
  ats := h.ats.skip hAt
  opens := h.opens.skip hOpen
  closes := h.closes.skip hClose
  colon := h.colon.skip hColon
  colons_before hNot := h.colons_before fun hMem => hNot (List.mem_append_left _ hMem)
  colons_after := h.colons_concat hAt hColon

/-- What one ":" does to the locals. -/
theorem Scanned.meetColon {start none_ : Nat} {text : Bytes} {st : AuthorityScan}
    (h : Scanned start none_ text st) :
    Scanned start none_ (text ++ [Ascii.colon]) { st with
      colonCountAfter := if st.atCount ≠ 0 then st.colonCountAfter + 1 else st.colonCountAfter
      portColonIndex := start + text.length } where
  ats := h.ats.skip (by decide)
  opens := h.opens.skip (by decide)
  closes := h.closes.skip (by decide)
  colon := .meet
  colons_before hNot := by
    have hText : at_ ∉ text := fun hMem => hNot (List.mem_append_left _ hMem)
    have hCount := h.ats.count_eq
    rw [List.count_eq_zero.mpr hText] at hCount
    simp [← hCount, h.colons_before hText]
  colons_after before after hEq hAfter := by
    obtain ⟨init, rfl, rfl⟩ := concat_eq_append_cons hEq (by decide)
    have hCount : st.atCount ≠ 0 := by
      rw [← h.ats.count_eq]
      simp
    have hInit := h.colons_after before init rfl fun hMem => hAfter (List.mem_append_left _ hMem)
    simp [hCount, hInit]

/-- What the only "@" does to them. -/
theorem Scanned.meetAt {start none_ : Nat} {text : Bytes} {st : AuthorityScan}
    (h : Scanned start none_ text st) (hCount : st.atCount = 0) :
    Scanned start none_ (text ++ [at_]) { st with atCount := 1, atIndex := start + text.length } where
  ats := Once.meet (hCount ▸ h.ats)
  opens := h.opens.skip (by decide)
  closes := h.closes.skip (by decide)
  colon := h.colon.skip (by decide)
  colons_before hNot := by simp at hNot
  colons_after before after hEq hAfter := by
    have hText : at_ ∉ text := List.count_eq_zero.mp (h.ats.count_eq.trans hCount)
    rcases List.eq_nil_or_concat after with rfl | ⟨init, d, rfl⟩
    · simpa using h.colons_before hText
    · have hSplit : text ++ [at_] = (before ++ at_ :: init) ++ [d] := by rw [hEq]; simp
      exact (hText (by rw [(List.append_inj' hSplit rfl).1]; simp)).elim

/-- What the only "[" does to them. -/
theorem Scanned.meetOpen {start none_ : Nat} {text : Bytes} {st : AuthorityScan}
    (h : Scanned start none_ text st) (hCount : st.ipLitACount = 0) :
    Scanned start none_ (text ++ [openBracket]) { st with
      ipLitACount := 1, ipLitAIndex := start + text.length } where
  ats := h.ats.skip (by decide)
  opens := Once.meet (hCount ▸ h.opens)
  closes := h.closes.skip (by decide)
  colon := h.colon.skip (by decide)
  colons_before hNot := h.colons_before fun hMem => hNot (List.mem_append_left _ hMem)
  colons_after := h.colons_concat (by decide) (by decide)

/-- What the only "]" does to them. -/
theorem Scanned.meetClose {start none_ : Nat} {text : Bytes} {st : AuthorityScan}
    (h : Scanned start none_ text st) (hCount : st.ipLitBCount = 0) :
    Scanned start none_ (text ++ [closeBracket]) { st with
      ipLitBCount := 1, ipLitBIndex := start + text.length } where
  ats := h.ats.skip (by decide)
  opens := h.opens.skip (by decide)
  closes := Once.meet (hCount ▸ h.closes)
  colon := h.colon.skip (by decide)
  colons_before hNot := h.colons_before fun hMem => hNot (List.mem_append_left _ hMem)
  colons_after := h.colons_concat (by decide) (by decide)

/-- The loop over a text of its characters ends behind it, unless it meets one of
the delimiters twice. -/
theorem scanAuthority_text {start none_ : Nat} {text rest : Bytes}
    (hText : ∀ c ∈ text, authorityChar c = true) (hRest : Boundary authorityChar rest) (before : Bytes)
    (st : AuthorityScan) (h : Scanned start none_ before st) :
    (∃ last, scanAuthority (text ++ rest) (start + before.length) st =
        (start + (before ++ text).length, .ok last) ∧ Scanned start none_ (before ++ text) last) ∨
      ((∃ i errno, scanAuthority (text ++ rest) (start + before.length) st = (i, .error errno)) ∧
        ∃ d, (d = at_ ∨ d = openBracket ∨ d = closeBracket) ∧ 1 < (before ++ text).count d) := by
  induction text generalizing before st with
  | nil =>
      refine .inl ⟨st, ?_, by simpa using h⟩
      cases rest with
      | nil => simp [scanAuthority]
      | cons c rest =>
          have hc := boundary_cons.mp hRest
          simp only [authorityChar, Bool.or_eq_false_iff] at hc
          simp [scanAuthority, hc]
  | cons c text ih =>
      rw [List.forall_mem_cons] at hText
      have hIndex : start + before.length + 1 = start + (before ++ [c]).length := by simp [Nat.add_assoc]
      have hAppend : before ++ c :: text = (before ++ [c]) ++ text := by simp
      rw [hAppend, List.cons_append, scanAuthority]
      have hCount (d : UInt8) : (before ++ [c]).count d ≤ ((before ++ [c]) ++ text).count d := by
        exact (List.sublist_append_left _ _).count_le d
      rw [hIndex]
      by_cases hAt : c = at_
      · subst hAt
        rw [if_pos (by decide)]
        split_ifs with hTwice
        · refine .inr ⟨⟨_, _, rfl⟩, at_, .inl rfl, lt_of_lt_of_le ?_ (hCount at_)⟩
          simpa [h.ats.count_eq] using hTwice
        · have hZero : st.atCount = 0 := by omega
          rw [hZero]
          exact ih hText.2 _ _ (h.meetAt hZero)
      rw [if_neg (by simpa using hAt)]
      by_cases hColon : c = colon
      · subst hColon
        rw [if_pos (by decide)]
        exact ih hText.2 _ _ h.meetColon
      rw [if_neg (by simpa using hColon)]
      by_cases hOpen : c = openBracket
      · subst hOpen
        rw [if_pos (by decide)]
        split_ifs with hTwice
        · refine .inr ⟨⟨_, _, rfl⟩, openBracket, .inr (.inl rfl), lt_of_lt_of_le ?_ (hCount openBracket)⟩
          simpa [h.opens.count_eq] using hTwice
        · have hZero : st.ipLitACount = 0 := by omega
          rw [hZero]
          exact ih hText.2 _ _ (h.meetOpen hZero)
      rw [if_neg (by simpa using hOpen)]
      by_cases hClose : c = closeBracket
      · subst hClose
        rw [if_pos (by decide)]
        split_ifs with hTwice
        · refine .inr ⟨⟨_, _, rfl⟩, closeBracket, .inr (.inr rfl), lt_of_lt_of_le ?_ (hCount closeBracket)⟩
          simpa [h.closes.count_eq] using hTwice
        · have hZero : st.ipLitBCount = 0 := by omega
          rw [hZero]
          exact ih hText.2 _ _ (h.meetClose hZero)
      rw [if_neg (by simpa using hClose), if_neg (by simpa [authorityChar, hAt, hColon, hOpen, hClose] using hText.1)]
      exact ih hText.2 _ _ (h.skip hAt hOpen hClose hColon)

/-! ### Where the delimiters are -/

/-- The last occurrence of a delimiter is one place. -/
theorem last_append_cons_inj {before after before' after' : Bytes} {d : UInt8} (hAfter : d ∉ after)
    (hAfter' : d ∉ after') (h : before ++ d :: after = before' ++ d :: after') :
    before = before' ∧ after = after' := by
  rcases List.append_eq_append_iff.mp h with ⟨middle, rfl, hMiddle⟩ | ⟨middle, rfl, hMiddle⟩
  all_goals rcases middle with _ | ⟨e, middle⟩
  · simpa using hMiddle
  · exact (hAfter (by rw [(List.cons.inj hMiddle).2]; simp)).elim
  · simpa using hMiddle.symm
  · exact (hAfter' (by rw [(List.cons.inj hMiddle).2]; simp)).elim

/-- Either there is no delimiter, or the text is cut at the only one. -/
theorem Once.eq_or_split (h : Once delimiter start none_ text count index) :
    (delimiter ∉ text ∧ count = 0 ∧ index = none_) ∨
      ∃ before after, text = before ++ delimiter :: after ∧ delimiter ∉ before ∧ delimiter ∉ after ∧
        count = 1 ∧ index = start + before.length := by
  cases h with
  | not_met h => exact .inl ⟨h, rfl, rfl⟩
  | met before after hEq hBefore hAfter => exact .inr ⟨before, after, hEq, hBefore, hAfter, rfl, rfl⟩

theorem Once.of_not_mem (h : Once delimiter start none_ text count index) (hText : delimiter ∉ text) :
    count = 0 ∧ index = none_ := by
  cases h with
  | not_met h => exact ⟨rfl, rfl⟩
  | met before after hEq _ _ => exact (hText (by rw [hEq]; simp)).elim

theorem Once.of_split (h : Once delimiter start none_ text count index) {before after : Bytes}
    (hEq : text = before ++ delimiter :: after) (hAfter : delimiter ∉ after) :
    count = 1 ∧ index = start + before.length := by
  cases h with
  | not_met h => exact (h (by rw [hEq]; simp)).elim
  | met before' after' hEq' _ hAfter' =>
      rw [hEq] at hEq'
      rw [(last_append_cons_inj hAfter hAfter' hEq').1]
      exact ⟨rfl, rfl⟩

/-- A text in front that does not hold the delimiter. -/
theorem Once.behind {lead : Bytes} (h : Once delimiter start none_ (lead ++ text) count index)
    (hLead : delimiter ∉ lead) : Once delimiter (start + lead.length) none_ text count index := by
  generalize hAll : lead ++ text = all at h
  cases h with
  | not_met h => exact .not_met fun hMem => h (by rw [← hAll]; exact List.mem_append_right _ hMem)
  | met before after hEq hBefore hAfter =>
      rw [← hAll] at hEq
      rcases List.append_eq_append_iff.mp hEq with ⟨middle, rfl, hMiddle⟩ | ⟨middle, rfl, hMiddle⟩
      · rw [List.length_append, ← Nat.add_assoc]
        exact .met middle after hMiddle (fun hMem => hBefore (List.mem_append_right _ hMem)) hAfter
      · rcases middle with _ | ⟨e, middle⟩
        · rw [List.append_nil]
          exact .met [] after (by simpa using hMiddle.symm) (by simp) hAfter
        · exact (hLead (by rw [(List.cons.inj hMiddle).1]; simp)).elim

/-- Either there is no delimiter, or the text is cut at the last one. -/
theorem LastMet.lt_or_split (h : LastMet delimiter start text index) :
    (delimiter ∉ text ∧ index < start) ∨
      ∃ before after, text = before ++ delimiter :: after ∧ delimiter ∉ after ∧ index = start + before.length := by
  cases h with
  | not_met h hIndex => exact .inl ⟨h, hIndex⟩
  | met before after hEq hAfter => exact .inr ⟨before, after, hEq, hAfter, rfl⟩

theorem LastMet.of_not_mem (h : LastMet delimiter start text index) (hText : delimiter ∉ text) :
    index < start := by
  cases h with
  | not_met _ hIndex => exact hIndex
  | met before after hEq _ => exact (hText (by rw [hEq]; simp)).elim

theorem LastMet.of_split (h : LastMet delimiter start text index) {before after : Bytes}
    (hEq : text = before ++ delimiter :: after) (hAfter : delimiter ∉ after) :
    index = start + before.length := by
  cases h with
  | not_met h _ => exact (h (by rw [hEq]; simp)).elim
  | met before' after' hEq' hAfter' =>
      rw [hEq] at hEq'
      rw [(last_append_cons_inj hAfter hAfter' hEq').1]

/-- The last delimiter, counted from a later beginning. -/
theorem LastMet.behind {lead : Bytes} (h : LastMet delimiter start (lead ++ text) index) :
    LastMet delimiter (start + lead.length) text index := by
  generalize hAll : lead ++ text = all at h
  cases h with
  | not_met h hIndex =>
      exact .not_met (fun hMem => h (by rw [← hAll]; exact List.mem_append_right _ hMem)) (by omega)
  | met before after hEq hAfter =>
      rw [← hAll] at hEq
      rcases List.append_eq_append_iff.mp hEq with ⟨middle, rfl, hMiddle⟩ | ⟨middle, rfl, hMiddle⟩
      · rw [List.length_append, ← Nat.add_assoc]
        exact .met middle after hMiddle hAfter
      · rcases middle with _ | ⟨e, middle⟩
        · rw [List.append_nil]
          exact .met [] after (by simpa using hMiddle.symm) hAfter
        · refine .not_met (fun hMem => hAfter ?_) ?_
          · rw [(List.cons.inj hMiddle).2]
            exact List.mem_append_right _ hMem
          · simp only [List.length_append, List.length_cons]
            omega

end ImpactSockets.Uri
