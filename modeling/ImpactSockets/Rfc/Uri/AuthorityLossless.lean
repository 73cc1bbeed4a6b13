import ImpactSockets.Rfc.Uri.Authority

/-! Whether the parts that an authority is cut into make up all of it. What is
around a bracketed host belongs to none of them. -/
namespace ImpactSockets.Uri

open Abnf AbnfOps Ascii
open scoped Computability

/-- The parts that `_S_parse_authority` hands to its sub-parsers, when it goes on
at `currentIdx`. -/
def HandsOver (data : Bytes) (start currentIdx : Nat) (parts : AuthorityParts) : Prop :=
  ∃ st, scanAuthority (data.drop start) start
      ⟨0, 0, 0, 0, sizePred start, sizePred start, sizePred start, sizePred start⟩ = (currentIdx, .ok st) ∧
    splitAuthority data start currentIdx st = .ok (.ok parts)

/-- The text is made of the parts and the two delimiters. -/
def Recomposes (text : Bytes) (parts : AuthorityParts) : Prop :=
  ∃ userinfo port : Option Bytes, userinfo.getD [] = parts.userinfo ∧ port.getD [] = parts.port ∧
    text = (userinfo.map (· ++ [at_])).getD [] ++ parts.host ++ (port.map (colon :: ·)).getD []

/-- The parts that are handed over make up the text that has been consumed. -/
def Lossless (data : Bytes) (start currentIdx : Nat) : Prop :=
  ∃ parts, HandsOver data start currentIdx parts ∧ Recomposes ((data.drop start).take (currentIdx - start)) parts

/-- Nothing but an "@" stands in front of the brackets, and nothing but a ":" behind
them. -/
def BracketsAlone (text : Bytes) : Prop :=
  ∀ before inner behind, text = before ++ openBracket :: inner ++ closeBracket :: behind →
    (before = [] ∨ before.getLast? = some at_) ∧ (behind = [] ∨ behind.head? = some colon)

/-! ### Accepted authorities -/

/-- The parts of an accepted authority that are handed over. -/
def AuthorityText.handed (parts : AuthorityText) : AuthorityParts :=
  ⟨parts.userinfo.getD [], parts.host, parts.port.getD []⟩

/-- The brackets of a text that has one of each. -/
theorem brackets_unique {before inner behind before' inner' behind' : Bytes} {text : Bytes}
    (hCount : text.count openBracket ≤ 1 ∧ text.count closeBracket ≤ 1)
    (h : text = before ++ openBracket :: inner ++ closeBracket :: behind)
    (h' : text = before' ++ openBracket :: inner' ++ closeBracket :: behind') : before = before' ∧ behind = behind' := by
  have hNone {d : UInt8} {front rest : Bytes} (hText : text = front ++ d :: rest) (hd : text.count d ≤ 1) : d ∉ rest := by
    intro hMem
    rw [hText, List.count_append, List.count_cons_self] at hd
    have hPositive := List.count_pos_iff.mpr hMem
    omega
  have hOpen : text = before ++ openBracket :: (inner ++ closeBracket :: behind) := by simp [h]
  have hOpen' : text = before' ++ openBracket :: (inner' ++ closeBracket :: behind') := by simp [h']
  exact ⟨(last_append_cons_inj (hNone hOpen hCount.1) (hNone hOpen' hCount.1) (hOpen.symm.trans hOpen')).1,
    (last_append_cons_inj (hNone h hCount.2) (hNone h' hCount.2) (h.symm.trans h')).2⟩

/-- What is skipped in front of a bracket has no "@", which would have ended the userinfo. -/
theorem AuthorityText.Accepted.skipped_no_at {parts : AuthorityText} (h : parts.Accepted) : at_ ∉ parts.skipped := by
  intro hMem
  rcases h.skipped _ hMem with hChar | hColon
  · exact absurd hChar (by decide)
  · exact absurd hColon (by decide)

/-- The text in front of the host and the one behind it. -/
theorem AuthorityText.text_around (parts : AuthorityText) :
    parts.text = parts.userinfoText ++ parts.skipped ++ parts.host ++ (parts.trailing ++ parts.portText) := by
  simp [AuthorityText.text, HostPort.behindUserinfo]

/-- If nothing stands around the brackets, the parts make up the text. -/
theorem recomposes_of_nothing_around {parts : AuthorityText} (hSkipped : parts.skipped = []) (hTrailing : parts.trailing = []) :
    Recomposes parts.text parts.handed := by
  refine ⟨parts.userinfo, parts.port, rfl, rfl, ?_⟩
  rw [parts.text_around, hSkipped, hTrailing, List.append_nil, List.nil_append]
  rfl

/-- If the parts make up the text, nothing stands around its only pair of brackets. -/
theorem Recomposes.bracketsAlone {text : Bytes} {parts : AuthorityParts} (h : Recomposes text parts)
    (hCount : text.count openBracket ≤ 1 ∧ text.count closeBracket ≤ 1) {inner : Bytes}
    (hHost : parts.host = openBracket :: inner ++ [closeBracket]) : BracketsAlone text := by
  obtain ⟨userinfo, port, _, _, hText⟩ := h
  intro before other behind hSplit
  have hOwn : text = (userinfo.map (· ++ [at_])).getD [] ++ openBracket :: inner ++
      closeBracket :: (port.map (colon :: ·)).getD [] := by
    rw [hText, hHost]
    simp
  obtain ⟨rfl, rfl⟩ := brackets_unique hCount hSplit hOwn
  constructor
  · cases userinfo with
    | none => exact .inl rfl
    | some userinfo => exact .inr (by simp)
  · cases port with
    | none => exact .inl rfl
    | some port => exact .inr rfl

/-- A bracketed host is looked for between other characters, any other one is not. -/
theorem HostPort.Cut.plain_or_bracketed {parts : HostPort} (h : parts.Cut) :
    (openBracket ∉ parts.behindUserinfo ∧ parts.skipped = [] ∧ parts.trailing = []) ∨
      ∃ inner, parts.host = openBracket :: inner ++ [closeBracket] := by
  cases h with
  | name hHost _ =>
      refine .inl ⟨?_, rfl, rfl⟩
      simpa [HostPort.behindUserinfo, HostPort.portText] using hHost.1
  | namePort hHost hPort _ =>
      refine .inl ⟨?_, rfl, rfl⟩
      simpa [HostPort.behindUserinfo, HostPort.portText] using (hHost.append hPort.cons_colon).1
  | @literal _ inner => exact .inr ⟨inner, rfl⟩
  | @literalPort _ inner => exact .inr ⟨inner, rfl⟩

/-- No bracket belongs to a userinfo. -/
theorem AuthorityText.Accepted.userinfo_unbracketed {parts : AuthorityText} (h : parts.Accepted) :
    openBracket ∉ parts.userinfoText := by
  cases hSome : parts.userinfo with
  | none => simp [AuthorityText.userinfoText, hSome]
  | some text =>
      have hDelimiter : openBracket ∉ [at_] := by decide
      have hText := (userinfo_chars (h.userinfo text hSome)).1.1
      simp only [AuthorityText.userinfoText, hSome, Option.map_some, Option.getD_some, List.mem_append, not_or]
      exact ⟨hText, hDelimiter⟩

/-- The parts of an accepted authority make up all of it if and only if nothing
else is next to its brackets. -/
theorem recomposes_iff {parts : AuthorityText} (h : parts.Accepted) :
    Recomposes parts.text parts.handed ↔ BracketsAlone parts.text := by
  rcases h.cut.plain_or_bracketed with ⟨hNone, hSkipped, hTrailing⟩ | ⟨inner, hHost⟩
  · refine iff_of_true (recomposes_of_nothing_around hSkipped hTrailing) ?_
    intro before inner behind hSplit
    have hMem : openBracket ∈ parts.text := by simp [hSplit]
    rcases List.mem_append.mp hMem with hUserinfo | hBehind
    · exact (h.userinfo_unbracketed hUserinfo).elim
    · exact (hNone hBehind).elim
  · have hCounts := h.text_chars.2
    have hCount : parts.text.count openBracket ≤ 1 ∧ parts.text.count closeBracket ≤ 1 :=
      ⟨hCounts _ (.inr (.inl rfl)), hCounts _ (.inr (.inr rfl))⟩
    have hSplit : parts.text = (parts.userinfoText ++ parts.skipped) ++ openBracket :: inner ++
        closeBracket :: (parts.trailing ++ parts.portText) := by
      rw [parts.text_around, hHost]
      simp
    constructor
    · exact fun hRecomposes => hRecomposes.bracketsAlone hCount hHost
    · intro hAlone
      obtain ⟨hBefore, hBehind⟩ := hAlone _ _ _ hSplit
      apply recomposes_of_nothing_around
      · rcases hBefore with hNil | hLast
        · exact (List.append_eq_nil_iff.mp hNil).2
        · by_contra hNe
          rw [List.getLast?_append_of_ne_nil _ hNe] at hLast
          exact h.skipped_no_at (List.mem_of_getLast? hLast)
      · rcases hBehind with hNil | hHead
        · exact (List.append_eq_nil_iff.mp hNil).1
        · by_contra hNe
          rw [List.head?_append_of_ne_nil _ hNe] at hHead
          exact h.cut.around.2.2 (List.mem_of_head? hHead)

/-! ### Behind another text -/

/-- What an authority that is not at the start of the data hands over. -/
theorem handsOver_iff {before rest : Bytes} (hNe : before ≠ []) {parts : AuthorityText} (h : parts.Accepted)
    (hRest : Boundary authorityChar rest) (currentIdx : Nat) (found : AuthorityParts) :
    HandsOver (before ++ (parts.text ++ rest)) before.length currentIdx found ↔
      currentIdx = (before ++ parts.text).length ∧ found = parts.handed := by
  have hNone := sizePred_lt hNe
  obtain ⟨hChars, hCounts⟩ := h.text_chars
  have hScan := scanAuthority_text hChars hRest [] _ (scanned_nil hNone)
  simp only [List.length_nil, Nat.add_zero, List.nil_append, ← List.length_append] at hScan
  rcases hScan with ⟨st, hScan, hScanned⟩ | ⟨_, d, hDelimiter, hTwice⟩
  · have hSplit := splitAuthority_cut rest hNone h hScanned
    unfold HandsOver
    rw [List.drop_left, hScan]
    constructor
    · rintro ⟨other, hOther, hFound⟩
      cases hOther
      exact ⟨rfl, (Except.ok.inj (Except.ok.inj (hSplit.symm.trans hFound))).symm⟩
    · rintro ⟨rfl, rfl⟩
      exact ⟨st, rfl, hSplit⟩
  · exact absurd (hCounts d hDelimiter) (Nat.not_le.mpr hTwice)

/-- Where the parser goes on. -/
theorem parseAuthority_currentIdx {data : Bytes} {start : Nat} {result : Option Uri} {errno : Imperr} {next : Context}
    (h : parseAuthority ⟨start, data, result, errno⟩ = .ok (true, next)) :
    next.data = data ∧ ∃ parts, HandsOver data start next.currentIdx parts := by
  unfold parseAuthority at h
  dsimp only at h
  rcases hScan : scanAuthority (data.drop start) start
    ⟨0, 0, 0, 0, sizePred start, sizePred start, sizePred start, sizePred start⟩ with ⟨currentIdx, scanned⟩
  rw [hScan] at h
  cases scanned with
  | error e => exact (fail_ne h).elim
  | ok st =>
      obtain ⟨split, hSplit, h⟩ := bind_ok.mp h
      cases split with
      | error e => exact (fail_ne h).elim
      | ok parts =>
          obtain ⟨⟨userinfoOk, first⟩, _, h⟩ := bind_ok.mp h
          obtain ⟨⟨hostOk, second⟩, _, h⟩ := bind_ok.mp h
          obtain ⟨⟨portOk, third⟩, _, h⟩ := bind_ok.mp h
          rw [← (Prod.mk.inj (Except.ok.inj h)).2]
          exact ⟨rfl, parts, st, hScan, hSplit⟩

/-- Behind other text: the parts make up what was consumed exactly if the brackets stand alone. -/
theorem lossless_behind {before s : Bytes} (hNe : before ≠ []) {result : Option Uri} {errno : Imperr} {next : Context}
    (h : parseAuthority (place before s result errno) = .ok (true, next)) :
    Lossless (before ++ s) before.length next.currentIdx ↔ BracketsAlone (s.takeWhile authorityChar) := by
  obtain ⟨parts, rest, rfl, hParts, hRest⟩ := parseAuthority_split hNe h
  obtain ⟨_, found, hFound⟩ := parseAuthority_currentIdx h
  obtain ⟨hEnd, _⟩ := (handsOver_iff hNe hParts hRest _ _).mp hFound
  have hSlice : (parts.text ++ rest).take (next.currentIdx - before.length) = parts.text := by
    rw [hEnd, List.length_append, Nat.add_sub_cancel_left, List.take_left]
  rw [takeWhile_of_boundary hParts.text_chars.1 hRest, ← recomposes_iff hParts]
  unfold Lossless
  rw [List.drop_left, hSlice]
  constructor
  · rintro ⟨other, hOther, hRecomposes⟩
    rwa [← ((handsOver_iff hNe hParts hRest _ _).mp hOther).2]
  · exact fun hRecomposes => ⟨parts.handed, (handsOver_iff hNe hParts hRest _ _).mpr ⟨hEnd, rfl⟩, hRecomposes⟩

/-! ### At the start of the data -/

/-- `i + 1` as a 64-bit `size_t`. -/
def sizeSucc (i : Nat) : Nat := if i = 2 ^ 64 - 1 then 0 else i + 1

/-- The locals for data that has one more character in front. -/
def AuthorityScan.shift (st : AuthorityScan) : AuthorityScan :=
  { st with
    atIndex := sizeSucc st.atIndex, portColonIndex := sizeSucc st.portColonIndex
    ipLitAIndex := sizeSucc st.ipLitAIndex, ipLitBIndex := sizeSucc st.ipLitBIndex }

/-- Nothing is counted of the character in front. -/
theorem AuthorityScan.shift_counts (st : AuthorityScan) :
    st.shift.atCount = st.atCount ∧ st.shift.colonCountAfter = st.colonCountAfter ∧
      st.shift.ipLitACount = st.ipLitACount ∧ st.shift.ipLitBCount = st.ipLitBCount := ⟨rfl, rfl, rfl, rfl⟩

/-- No wrap below the largest `size_t`. -/
theorem sizeSucc_of_lt {i : Nat} (h : i < 2 ^ 64 - 1) : sizeSucc i = i + 1 := if_neg (by omega)

/-- The loop does the same from the next index on. -/
theorem scanAuthority_shift {suffix : Bytes} {i : Nat} (h : i + suffix.length < 2 ^ 64) (st : AuthorityScan) :
    scanAuthority suffix (i + 1) st.shift =
      ((scanAuthority suffix i st).1 + 1, (scanAuthority suffix i st).2.map AuthorityScan.shift) := by
  induction suffix generalizing i st with
  | nil => rfl
  | cons c suffix ih =>
      rw [List.length_cons] at h
      have hIndex : sizeSucc i = i + 1 := sizeSucc_of_lt (by omega)
      have hStep {moved st : AuthorityScan} (hMoved : moved = st.shift) := hMoved ▸ @ih (i + 1) (by omega) st
      simp only [scanAuthority, st.shift_counts]
      split_ifs
      all_goals first
        | rfl
        | exact hStep (by simp only [AuthorityScan.shift, hIndex])

/-- One more character in front moves a cut by one. -/
theorem cut_shift (c : UInt8) (data : Bytes) (first last : Nat) :
    cut (c :: data) (first + 1) (last + 1) = cut data first last := by
  simp only [cut, List.length_cons, Nat.add_le_add_iff_right, List.drop_succ_cons, Nat.add_sub_add_right]

/-- A cut that is made is inside the text. -/
theorem cut_inside {data text : Bytes} {first last : Nat} (h : cut data first last = .ok text) :
    first ≤ last ∧ last ≤ data.length := by
  unfold cut at h
  split_ifs at h with hInside
  exact hInside

/-- An index that is read from is not the one of a delimiter that has not been met. -/
theorem splitHost_shift {data : Bytes} {currentIdx : Nat} {st : AuthorityScan} {found : Bytes × Bytes} (c : UInt8)
    (hSize : data.length < 2 ^ 64 - 1) (hAt : st.atIndex ≤ data.length)
    (h : splitHost data (st.atIndex + 1) currentIdx st = .ok (.ok found)) :
    splitHost (c :: data) (st.atIndex + 1 + 1) (currentIdx + 1) st.shift = .ok (.ok found) := by
  have hAtIndex : st.shift.atIndex = st.atIndex + 1 := sizeSucc_of_lt (by omega)
  have hColonIndex (hLt : st.portColonIndex < 2 ^ 64 - 1) : st.shift.portColonIndex = st.portColonIndex + 1 :=
    sizeSucc_of_lt hLt
  have hOpenIndex (hLt : st.ipLitAIndex < 2 ^ 64 - 1) : st.shift.ipLitAIndex = st.ipLitAIndex + 1 := sizeSucc_of_lt hLt
  have hCloseIndex (hLt : st.ipLitBIndex < 2 ^ 64 - 1) : st.shift.ipLitBIndex = st.ipLitBIndex + 1 := sizeSucc_of_lt hLt
  unfold splitHost at h ⊢
  rw [st.shift_counts.1, st.shift_counts.2.2.1, hAtIndex]
  by_cases hOpen : st.ipLitACount ≠ 0
  · rw [if_pos hOpen] at h ⊢
    by_cases hColon : st.ipLitBIndex < st.portColonIndex
    · rw [if_pos hColon] at h
      split_ifs at h with hPlace
      · cases h
      obtain ⟨port, hPort, h⟩ := bind_ok.mp h
      obtain ⟨host, hHost, h⟩ := bind_ok.mp h
      have hPortInside := cut_inside hPort
      have hHostInside := cut_inside hHost
      rw [hColonIndex (by omega), hOpenIndex (by omega), hCloseIndex (by omega), if_pos (by omega), if_neg (by omega)]
      exact bind_ok.mpr ⟨port, (cut_shift _ _ _ _).trans hPort, bind_ok.mpr ⟨host, (cut_shift _ _ _ _).trans hHost, h⟩⟩
    · rw [if_neg hColon] at h
      obtain ⟨host, hHost, h⟩ := bind_ok.mp h
      have hHostInside := cut_inside hHost
      rw [hColonIndex (by omega), hOpenIndex (by omega), hCloseIndex (by omega), if_neg (by omega)]
      exact bind_ok.mpr ⟨host, (cut_shift _ _ _ _).trans hHost, h⟩
  · rw [if_neg hOpen] at h ⊢
    have hBehind : (if st.atCount ≠ 0 then st.atIndex + 1 else st.atIndex + 1) = st.atIndex + 1 := ite_self _
    have hBehindShift : (if st.atCount ≠ 0 then st.atIndex + 1 + 1 else st.atIndex + 1 + 1) = st.atIndex + 1 + 1 :=
      ite_self _
    dsimp only at h ⊢
    rw [hBehind] at h
    rw [hBehindShift]
    by_cases hColon : st.atIndex + 1 ≤ st.portColonIndex
    · rw [if_pos hColon] at h
      obtain ⟨port, hPort, h⟩ := bind_ok.mp h
      obtain ⟨host, hHost, h⟩ := bind_ok.mp h
      have hPortInside := cut_inside hPort
      rw [hColonIndex (by omega), if_pos (by omega)]
      exact bind_ok.mpr ⟨port, (cut_shift _ _ _ _).trans hPort, bind_ok.mpr ⟨host, (cut_shift _ _ _ _).trans hHost, h⟩⟩
    · rw [if_neg hColon] at h
      obtain ⟨host, hHost, h⟩ := bind_ok.mp h
      rw [hColonIndex (by omega), if_neg (by omega)]
      exact bind_ok.mpr ⟨host, (cut_shift _ _ _ _).trans hHost, h⟩

/-- The host between brackets is cut from the first bracket to the last one. -/
theorem splitHost_brackets {data : Bytes} {lastIdx currentIdx : Nat} {st : AuthorityScan} {found : Bytes × Bytes}
    (hOpen : st.ipLitACount ≠ 0) (h : splitHost data lastIdx currentIdx st = .ok (.ok found)) :
    st.ipLitAIndex ≤ st.ipLitBIndex + 1 ∧ st.ipLitBIndex + 1 ≤ data.length := by
  rw [splitHost, if_pos hOpen] at h
  split_ifs at h
  · cases h
  · obtain ⟨_, _, h⟩ := bind_ok.mp h
    obtain ⟨_, hHost, _⟩ := bind_ok.mp h
    exact cut_inside hHost
  · obtain ⟨_, hHost, _⟩ := bind_ok.mp h
    exact cut_inside hHost

/-- The brackets that have not been met are where they have been before the loop. -/
def Unmet (st : AuthorityScan) : Prop :=
  (st.ipLitACount = 0 → st.ipLitAIndex = 2 ^ 64 - 1) ∧ (st.ipLitBCount = 0 → st.ipLitBIndex = 2 ^ 64 - 1)

/-- The scan keeps this, by induction on what is left. -/
theorem scanAuthority_unmet {suffix : Bytes} {i next : Nat} {st last : AuthorityScan} (h : Unmet st)
    (hScan : scanAuthority suffix i st = (next, .ok last)) : Unmet last := by
  induction suffix generalizing i st with
  | nil =>
      cases hScan
      exact h
  | cons c suffix ih =>
      rw [scanAuthority] at hScan
      split_ifs at hScan
      · cases hScan
      · exact @ih _ { st with atCount := st.atCount + 1, atIndex := i } h hScan
      · exact @ih _ { st with colonCountAfter := st.colonCountAfter + 1, portColonIndex := i } h hScan
      · exact @ih _ { st with portColonIndex := i } h hScan
      · cases hScan
      · exact @ih _ { st with ipLitACount := st.ipLitACount + 1, ipLitAIndex := i } ⟨by simp, h.2⟩ hScan
      · cases hScan
      · exact @ih _ { st with ipLitBCount := st.ipLitBCount + 1, ipLitBIndex := i } ⟨h.1, by simp⟩ hScan
      · cases hScan
        exact h
      · exact ih h hScan

/-- What is cut out of data without a character in front is cut out behind one. -/
theorem splitAuthority_shift {data : Bytes} {currentIdx : Nat} {st : AuthorityScan} {found : AuthorityParts} (c : UInt8)
    (hSize : data.length < 2 ^ 64 - 1) (hUnmet : Unmet st)
    (h : splitAuthority data 0 currentIdx st = .ok (.ok found)) :
    splitAuthority (c :: data) 1 (currentIdx + 1) st.shift = .ok (.ok found) := by
  unfold splitAuthority at h ⊢
  simp only [st.shift_counts]
  split_ifs at h with hCounts hOrder hColons hAt
  · cases h
  · cases h
  · cases h
  · obtain ⟨userinfo, hUserinfo, h⟩ := bind_ok.mp h
    obtain ⟨located, hLocated, h⟩ := bind_ok.mp h
    cases located with
    | error e => cases h
    | ok hostPort =>
        have hInside := cut_inside hUserinfo
        have hAtIndex : st.shift.atIndex = st.atIndex + 1 := sizeSucc_of_lt (by omega)
        have hOrderShift : ¬st.shift.ipLitBIndex < st.shift.ipLitAIndex := by
          simp only [AuthorityScan.shift]
          by_cases hOpen : st.ipLitACount = 0
          · rw [hUnmet.1 hOpen, hUnmet.2 (by omega)]
            exact Nat.lt_irrefl _
          · obtain ⟨hFirst, hLast⟩ := splitHost_brackets hOpen hLocated
            rw [sizeSucc_of_lt (by omega), sizeSucc_of_lt (by omega)]
            omega
        rw [if_neg hCounts, if_neg hOrderShift, if_neg hColons, hAtIndex, if_pos (by omega)]
        refine bind_ok.mpr ⟨userinfo, (cut_shift _ _ _ _).trans hUserinfo, bind_ok.mpr ⟨.ok hostPort, ?_, h⟩⟩
        exact splitHost_shift c hSize hInside.2 hLocated
  · exact absurd (Nat.zero_le _) hAt

/-- The scan and the cuts are functions, so there is one result. -/
theorem HandsOver.unique {data : Bytes} {start currentIdx : Nat} {parts other : AuthorityParts}
    (h : HandsOver data start currentIdx parts) (hOther : HandsOver data start currentIdx other) : parts = other := by
  obtain ⟨st, hScan, hSplit⟩ := h
  obtain ⟨st', hScan', hSplit'⟩ := hOther
  cases hScan.symm.trans hScan'
  exact Except.ok.inj (Except.ok.inj (hSplit.symm.trans hSplit'))

/-- One more character in front hands over the same parts. -/
theorem HandsOver.shift {data : Bytes} {currentIdx : Nat} {parts : AuthorityParts} (c : UInt8)
    (hSize : data.length < 2 ^ 64 - 1) (h : HandsOver data 0 currentIdx parts) :
    HandsOver (c :: data) 1 (currentIdx + 1) parts := by
  obtain ⟨st, hScan, hSplit⟩ := h
  have hShift := @scanAuthority_shift data 0 (by omega) ⟨0, 0, 0, 0, sizePred 0, sizePred 0, sizePred 0, sizePred 0⟩
  rw [List.drop_zero] at hScan
  rw [hScan] at hShift
  refine ⟨st.shift, hShift, splitAuthority_shift c hSize (scanAuthority_unmet ?_ hScan) hSplit⟩
  exact ⟨fun _ => rfl, fun _ => rfl⟩

/-- What the parser does with the parts. -/
theorem parseAuthority_of_handsOver {data : Bytes} {start currentIdx : Nat} {parts : AuthorityParts}
    (h : HandsOver data start currentIdx parts) (result : Option Uri) (errno : Imperr) :
    parseAuthority ⟨start, data, result, errno⟩ = (do
      let (userinfoOk, temp) ← parseUserinfo ⟨0, parts.userinfo, result, errno⟩
      let (hostOk, temp) ← parseHost ⟨0, parts.host, temp.result, temp.errno⟩
      let (portOk, temp) ← parsePort ⟨0, parts.port, temp.result, temp.errno⟩
      let next : Context := ⟨currentIdx, data, temp.result, temp.errno⟩
      .ok (userinfoOk && hostOk && portOk, next.modify fun u => { u with hasAuth := true })) := by
  obtain ⟨st, hScan, hSplit⟩ := h
  unfold parseAuthority
  dsimp only
  rw [hScan]
  dsimp only
  rw [hSplit]
  rfl

/-- An authority at the start is accepted behind another character as well. -/
theorem parseAuthority_shift {data : Bytes} {result : Option Uri} {errno : Imperr} {next : Context} (c : UInt8)
    (hSize : data.length < 2 ^ 64 - 1) (h : parseAuthority ⟨0, data, result, errno⟩ = .ok (true, next)) :
    ∃ behind, parseAuthority (place [c] data result errno) = .ok (true, behind) ∧
      behind.currentIdx = next.currentIdx + 1 := by
  obtain ⟨_, parts, hParts⟩ := parseAuthority_currentIdx h
  have hShift := parseAuthority_of_handsOver (hParts.shift c hSize) result errno
  rw [parseAuthority_of_handsOver hParts] at h
  obtain ⟨⟨userinfoOk, first⟩, hFirst, h⟩ := bind_ok.mp h
  obtain ⟨⟨hostOk, second⟩, hSecond, h⟩ := bind_ok.mp h
  obtain ⟨⟨portOk, third⟩, hThird, h⟩ := bind_ok.mp h
  have hOk := congrArg Prod.fst (Except.ok.inj h)
  let behind : Context := ⟨next.currentIdx + 1, c :: data, third.result, third.errno⟩
  refine ⟨behind.modify fun u => { u with hasAuth := true }, ?_, rfl⟩
  refine hShift.trans (bind_ok.mpr ⟨_, hFirst, bind_ok.mpr ⟨_, hSecond, bind_ok.mpr ⟨_, hThird, ?_⟩⟩⟩)
  exact congrArg Except.ok (Prod.ext hOk rfl)

/-- Whether the parts make up the text does not change with one more character in front. -/
theorem lossless_shift {data : Bytes} {currentIdx : Nat} (c : UInt8) (hSize : data.length < 2 ^ 64 - 1)
    {parts : AuthorityParts} (hParts : HandsOver data 0 currentIdx parts) :
    Lossless data 0 currentIdx ↔ Lossless (c :: data) 1 (currentIdx + 1) := by
  have hSlice : ((c :: data).drop 1).take (currentIdx + 1 - 1) = (data.drop 0).take (currentIdx - 0) := rfl
  unfold Lossless
  rw [hSlice]
  constructor
  · rintro ⟨other, hOther, hRecomposes⟩
    exact ⟨other, hOther.shift c hSize, hRecomposes⟩
  · rintro ⟨other, hOther, hRecomposes⟩
    exact ⟨parts, hParts, (hParts.shift c hSize).unique hOther ▸ hRecomposes⟩

/-! ### From any index on -/

/-- Parts are handed over only from a position inside the text. -/
theorem handsOver_inside {data : Bytes} {start currentIdx : Nat} {parts : AuthorityParts}
    (h : HandsOver data start currentIdx parts) : start ≤ data.length := by
  by_contra hOutside
  obtain ⟨st, hScan, hSplit⟩ := h
  have hPred : sizePred start = start - 1 := if_neg (by omega)
  rw [List.drop_eq_nil_of_le (by omega), hPred] at hScan
  cases hScan
  rw [splitAuthority, if_neg (by simp), if_neg (by simp), if_neg (by simp), if_neg (by dsimp only; omega)] at hSplit
  obtain ⟨located, hLocated, _⟩ := bind_ok.mp hSplit
  rw [splitHost, if_neg (by simp)] at hLocated
  dsimp only at hLocated
  rw [if_neg (by omega)] at hLocated
  obtain ⟨host, hHost, _⟩ := bind_ok.mp hLocated
  exact hOutside (cut_inside hHost).2

/-- When an authority is accepted, its parts and their delimiters make up all of
the text that has been consumed if and only if nothing else is next to its
brackets. A string is shorter than `npos`. -/
theorem lossless_iff {data : Bytes} {start : Nat} {result : Option Uri} {errno : Imperr} {next : Context}
    (hSize : data.length < 2 ^ 64 - 1) (h : parseAuthority ⟨start, data, result, errno⟩ = .ok (true, next)) :
    Lossless data start next.currentIdx ↔ BracketsAlone ((data.drop start).takeWhile authorityChar) := by
  obtain ⟨_, parts, hParts⟩ := parseAuthority_currentIdx h
  by_cases hStart : start = 0
  · subst hStart
    obtain ⟨behind, hBehind, hIndex⟩ := parseAuthority_shift 0 hSize h
    rw [lossless_shift 0 hSize hParts, ← hIndex]
    exact lossless_behind (by simp) hBehind
  · have hInside := handsOver_inside hParts
    have hLength : (data.take start).length = start := List.length_take_of_le hInside
    have hNe : data.take start ≠ [] := by
      intro hNil
      rw [hNil] at hLength
      exact hStart hLength.symm
    have hPlace : place (data.take start) (data.drop start) result errno = ⟨start, data, result, errno⟩ := by
      rw [place, hLength, List.take_append_drop]
    have hBehind := lossless_behind hNe (hPlace ▸ h)
    rwa [hLength, List.take_append_drop] at hBehind

/-- The text "//u@[::1]:80/". -/
def literalAuthority : Bytes :=
  [slash, slash, 0x75, at_, openBracket, colon, colon, 0x31, closeBracket, colon, 0x38, 0x30, slash]

theorem lossless_iff_literal : Lossless literalAuthority 2 12 := by
  have hRun : parseAuthority ⟨2, literalAuthority, none, .success⟩ =
      .ok (true, ⟨12, literalAuthority, none, .success⟩) := rfl
  refine (lossless_iff (by decide) hRun).mpr ?_
  have hText : (literalAuthority.drop 2).takeWhile authorityChar =
      [0x75, at_] ++ openBracket :: [colon, colon, 0x31] ++ closeBracket :: [colon, 0x38, 0x30] := by decide
  intro before inner behind hSplit
  obtain ⟨rfl, rfl⟩ := brackets_unique (by decide) hSplit hText
  exact ⟨.inr rfl, .inr rfl⟩

/-- The text "//x[::]y". -/
def paddedLiteral : Bytes := [slash, slash, 0x78, openBracket, colon, colon, closeBracket, 0x79]

/-- The host is "[::]", and "x" and "y" are in none of the parts. -/
theorem paddedLiteral_lossy :
    parseAuthority ⟨2, paddedLiteral, none, .success⟩ = .ok (true, ⟨8, paddedLiteral, none, .success⟩) ∧
      HandsOver paddedLiteral 2 8 ⟨[], [openBracket, colon, colon, closeBracket], []⟩ ∧ ¬Lossless paddedLiteral 2 8 := by
  have hHands : HandsOver paddedLiteral 2 8 ⟨[], [openBracket, colon, colon, closeBracket], []⟩ := ⟨_, rfl, rfl⟩
  refine ⟨rfl, hHands, ?_⟩
  rintro ⟨parts, hParts, userinfo, port, hUserinfo, _, hText⟩
  obtain rfl := hHands.unique hParts
  have hFirst := congrArg List.head? hText
  rcases userinfo with _ | ⟨_ | ⟨c, rest⟩⟩
  · cases hFirst
  · cases hFirst
  · cases hUserinfo

end ImpactSockets.Uri
