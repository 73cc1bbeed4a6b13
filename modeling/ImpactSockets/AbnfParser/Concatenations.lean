import ImpactSockets.AbnfParser.Correctness

/-! The texts on which `concatenation` of `ABNF_Parser/main.cpp` does what its production says. -/
namespace ImpactSockets.AbnfParser

open Abnf AbnfOps Fuelled Istream
open scoped Computability

variable {order : Order} {b : Bool} {n k : Nat} {inner : Scan Bool} {s t u v : Istream} {offset : Option Nat} {r : Bytes}

/-- Brackets that may be found closed, behind an optional repeat. -/
noncomputable def bracketedPart (order : Order) : Language UInt8 :=
  Abnf.optional Grammar.repeat_ * bracketing order (opening order)

/-- The beginning of a part behind gaps, where the first part should be. -/
noncomputable def latePart (order : Order) : Language UInt8 :=
  Abnf.optional Grammar.repeat_ * atLeastOne (gap order) * opening order

/-- A number in the first part is read, no part may be within brackets, none stands behind a
first one that is missing, and what is taken for a gap is one. -/
structure Orderly (order : Order) (r : Bytes) : Prop where
  number : ∀ count ∈ Abnf.optional Grammar.repeat_, ∀ x, r = count ++ 0x25 :: x → ValueRead x
  first : ¬∃ w ∈ bracketedPart order, w <+: r
  later : ¬∃ w ∈ Grammar.concatenation * atLeastOne (gap order) * bracketedPart order, w <+: r
  late : ¬∃ w ∈ latePart order, w <+: r
  gaps : ¬∃ w ∈ Grammar.concatenation * Grammar.cWsp∗ * (folding order \ Grammar.cWsp), w <+: r

/-! ### Gaps -/

theorem ne_nil_of_mem_folding {w : Bytes} (h : w ∈ folding order) : w ≠ [] := by
  obtain ⟨v, -, _, ⟨c, -, rfl⟩, rfl⟩ := Language.mem_mul.mp h
  simp

/-- Foldings are blanks up to the first one that is not. -/
theorem foldings_le : (folding order)∗ ≤ Grammar.cWsp∗ + Grammar.cWsp∗ * (folding order \ Grammar.cWsp) * ⊤ := by
  intro w
  refine @kstar_induction _ _
    (· ∈ Grammar.cWsp∗ + Grammar.cWsp∗ * (folding order \ Grammar.cWsp) * ⊤) (.inl (Language.nil_mem_kstar _)) ?_ w
  intro first hFirst rest hRest
  by_cases hBlank : first ∈ Grammar.cWsp
  · rcases hRest with hRest | hRest
    · exact .inl (append_mem_kstar (mem_kstar_of_mem hBlank) hRest)
    · obtain ⟨_, hRead, more, -, rfl⟩ := Language.mem_mul.mp hRest
      obtain ⟨blanks, hBlanks, odd, hOdd, rfl⟩ := Language.mem_mul.mp hRead
      refine .inr ⟨first ++ blanks ++ odd, ?_, more, trivial, by simp only [List.append_assoc]⟩
      exact Language.append_mem_mul (append_mem_kstar (mem_kstar_of_mem hBlank) hBlanks) hOdd
  · refine .inr ⟨[] ++ first, Language.append_mem_mul (Language.nil_mem_kstar _) ⟨hFirst, hBlank⟩, rest, trivial, rfl⟩

/-- Behind a concatenation what is read for blanks is derivable. -/
theorem Orderly.blanks {word gaps x : Bytes} (h : Orderly order r) (hWord : word ∈ Grammar.concatenation)
    (hGaps : gaps ∈ (folding order)∗) (hText : r = word ++ (gaps ++ x)) : gaps ∈ Grammar.cWsp∗ := by
  rcases foldings_le hGaps with hBlanks | hOdd
  · exact hBlanks
  · obtain ⟨odd, hOdd, hPrefix⟩ := mem_mul_top.mp hOdd
    refine absurd ⟨word ++ odd, ?_, ?_⟩ h.gaps
    · rw [mul_assoc]
      exact Language.append_mem_mul hWord hOdd
    · rw [hText, List.prefix_append_right_inj]
      exact hPrefix.trans (List.prefix_append gaps x)

/-! ### The loop -/

/-- The offset was taken in a state on the way. -/
structure Remembers (s : Istream) (offset : Option Nat) (u t : Istream) : Prop where
  taken : offset = u.tellg.1
  before : s.Moves u
  since : u.Moves t

theorem Remembers.trans (h : Remembers s offset u t) (hMoves : t.Moves v) : Remembers s offset u v :=
  ⟨h.taken, h.before, h.since.trans hMoves⟩

/-- The stream is left where the offset was taken. -/
theorem Remembers.finish {stop : Bool} (h : Remembers s offset u t) (hStay : stop = false → t.rest = u.rest) :
    Returning (Scan.when (!true || stop) (Scan.restore offset)) t fun _ v => s.Moves v ∧ v.rest = u.rest := by
  refine meets_ite (fun _ => ?_) fun hStop => meets_pure ⟨h.before.trans h.since, hStay (by simpa using hStop)⟩
  rw [h.taken]
  exact (meets_restore h.before.ok h.since).mono id fun _ _ hPost => ⟨h.before.trans hPost.2, hPost.1⟩

theorem simple_le_repetition : Abnf.optional Grammar.repeat_ * simple ≤ Grammar.repetition := by
  unfold Grammar.repetition Grammar.repetitionOf
  gcongr
  exact simple_le_element

/-- One more part behind a concatenation. -/
theorem append_mem_concatenation {word gaps part : Bytes} (hWord : word ∈ Grammar.concatenation)
    (hGaps : gaps ∈ atLeastOne Grammar.cWsp) (hPart : part ∈ Grammar.repetition) :
    word ++ (gaps ++ part) ∈ Grammar.concatenation := by
  obtain ⟨first, hFirst, rest, hRest, rfl⟩ := Language.mem_mul.mp hWord
  rw [List.append_assoc]
  refine Language.append_mem_mul hFirst (append_mem_kstar hRest (mem_kstar_of_mem ?_))
  exact Language.append_mem_mul hGaps hPart

/-- In each turn, what has been read up to the offset is a concatenation. -/
theorem returning_concatenationLoop (h : Overreads (opening order) inner) (hOrderly : Orderly order s.rest)
    (hOffset : Remembers s offset u t) (hRest : t.rest = u.rest)
    (hRead : ∃ w ∈ Grammar.concatenation, s.rest = w ++ u.rest) :
    Returning (concatenationLoop order n inner k offset b) t fun finish v =>
      ∃ u, Remembers s finish.1 u v ∧ (finish.2 = false → v.rest = u.rest) ∧
        ∃ w ∈ Grammar.concatenation, s.rest = w ++ u.rest := by
  induction k generalizing t u offset b with
  | zero => exact meets_exhausted id
  | succ k ih =>
      refine meets_look.bind ?_
      rintro _ _ ⟨rfl, rfl⟩
      refine (follows_cWsp hOffset.since.ok).bind ?_
      rintro success v ⟨hMovesV, hResult, hRestV⟩
      refine meets_ite (fun hTrue => ?_) fun hFalse => meets_pure ⟨u, hOffset.trans hMovesV, fun _ => ?_, hRead⟩
      · refine (returning_skipWsp hMovesV.ok).bind ?_
        rintro _ w ⟨hMovesW, -, more, hMore, hTextW⟩
        obtain ⟨first, hFirst, hTextV⟩ := gapText_sound (hResult.symm.trans hTrue)
        obtain ⟨word, hWord, hText⟩ := hRead
        have hTextGaps : s.rest = word ++ (first ++ more ++ w.rest) := by
          rw [hText, ← hRest, hTextV, ← hRestV, hTextW, List.append_assoc]
        have hFoldings : first ++ more ∈ (folding order)∗ := append_mem_kstar (mem_kstar_of_mem hFirst) hMore
        have hNe : first ++ more ≠ [] := by simp [ne_nil_of_mem_folding hFirst]
        have hBlanks : first ++ more ∈ atLeastOne Grammar.cWsp :=
          mem_atLeastOne_of_ne_nil (hOrderly.blanks hWord hFoldings hTextGaps) hNe
        have hClear : ¬∃ v ∈ Abnf.optional Grammar.repeat_ * bracketing order (opening order), v <+: w.rest := by
          rintro ⟨part, hPart, x, hTextPart⟩
          refine hOrderly.later ⟨word ++ (first ++ more) ++ part, ?_, x, ?_⟩
          · refine Language.append_mem_mul (Language.append_mem_mul hWord ?_) hPart
            exact mem_atLeastOne_of_ne_nil (foldings_le_gaps hFoldings) hNe
          · rw [hTextGaps, ← hTextPart]
            simp only [List.append_assoc]
        have hMovesT := hMovesV.trans hMovesW
        refine (follows_repetitionWith h hMovesW.ok hClear).bind ?_
        rintro _ x ⟨hMovesX, hResultX, hRestX⟩
        have hMovesOn := hMovesT.trans hMovesX
        refine meets_ite (fun hTruePart => (meets_tellg hMovesX.ok).bind ?_) fun _ =>
          meets_pure ⟨u, hOffset.trans hMovesOn, by simp, word, hWord, hText⟩
        rintro _ y ⟨rfl, hRestTell, hMovesTell⟩
        obtain ⟨part, hPart, hTextPart⟩ := repetitionText_sound (hResultX.symm.trans hTruePart)
        refine returning_turn (ih ⟨rfl, hOffset.before.trans (hOffset.since.trans hMovesOn), hMovesTell⟩ hRestTell ?_)
        refine ⟨_, append_mem_concatenation hWord hBlanks (simple_le_repetition hPart), ?_⟩
        rw [hTextGaps, hTextPart, ← hRestX]
        simp only [List.append_assoc]
      · exact (hRestV.trans (attempted_false (hResult.symm.trans (by simpa using hFalse)))).trans hRest

/-- The offset changes where something begins behind gaps. -/
theorem returning_concatenationLoop_late (h : Overreads (opening order) inner) (ht : t.Ok) :
    Returning (concatenationLoop order n inner k offset b) t fun finish v =>
      finish.1 = offset ∧ t.Moves v ∨
        ∃ u, Remembers t finish.1 u v ∧ ∃ w ∈ atLeastOne (gap order) * opening order * ⊤, t.rest = w ++ u.rest := by
  induction k generalizing t offset b with
  | zero => exact meets_exhausted id
  | succ k ih =>
      refine meets_look.bind ?_
      rintro _ _ ⟨rfl, rfl⟩
      refine (follows_cWsp ht).bind ?_
      rintro success u ⟨hMovesU, hResult, hRestU⟩
      refine meets_ite (fun hTrue => ?_) fun _ => meets_pure (.inl ⟨rfl, hMovesU⟩)
      refine (returning_skipWsp hMovesU.ok).bind ?_
      rintro _ v ⟨hMovesV, -, more, hMore, hTextV⟩
      refine (overreads_repetitionWith h v hMovesV.ok).bind ?_
      rintro _ w ⟨hMovesW, hPart⟩
      have hMovesT := hMovesU.trans (hMovesV.trans hMovesW)
      refine meets_ite (fun hTruePart => ?_) fun _ => meets_pure (.inl ⟨rfl, hMovesT⟩)
      obtain ⟨first, hFirst, hTextU⟩ := gapText_sound (hResult.symm.trans hTrue)
      obtain ⟨part, hBegun, hTextW⟩ := hPart hTruePart
      have hRead : first ++ more ++ part ∈ atLeastOne (gap order) * opening order * ⊤ := by
        rw [mul_assoc]
        exact Language.append_mem_mul (Language.append_mem_mul (folding_le_gap hFirst) (foldings_le_gaps hMore)) hBegun
      have hText : t.rest = first ++ more ++ part ++ w.rest := by
        rw [hTextU, ← hRestU, hTextV, hTextW]
        simp only [List.append_assoc]
      refine (meets_tellg hMovesW.ok).bind ?_
      rintro _ x ⟨rfl, hRestX, hMovesX⟩
      refine returning_turn ((ih hMovesX.ok).mono id ?_)
      rintro finish y (⟨hSame, hMovesY⟩ | ⟨u, hLast, others, -, hTextOn⟩)
      · exact .inr ⟨w, ⟨hSame, hMovesT, hMovesX.trans hMovesY⟩, _, hRead, hText⟩
      · have hMovesOn := hMovesT.trans (hMovesX.trans hLast.before)
        refine .inr ⟨u, ⟨hLast.taken, hMovesOn, hLast.since⟩, first ++ more ++ part ++ others, ?_, ?_⟩
        · exact mul_mul_top_le (Language.append_mem_mul hRead trivial)
        · rw [hText, ← hRestX, hTextOn, ← List.append_assoc]

/-! ### The function -/

/-- After a failure the offset is the one of the entry. -/
theorem returning_offsetAfter_false : Returning (offsetAfter false offset) s fun last t => last = offset ∧ t = s :=
  meets_pure ⟨rfl, rfl⟩

/-- Where the first part is missing, so is the concatenation. -/
theorem Orderly.no_concatenation (h : Orderly order r) (hResult : (repetitionText r).1 = false) :
    ¬∃ w ∈ Grammar.concatenation, w <+: r := by
  rintro ⟨_, hWord, hText⟩
  obtain ⟨part, hPart, rest, -, rfl⟩ := Language.mem_mul.mp hWord
  have hPrefix : part <+: r := (List.prefix_append part rest).trans hText
  have hRepetition : Grammar.repetition ≤
      Abnf.optional Grammar.repeat_ * simple + bracketedPart order := by
    rw [bracketedPart, ← mul_add]
    unfold Grammar.repetition Grammar.repetitionOf
    gcongr
    exact element_le
  rcases hRepetition hPart with hPart | hPart
  · rw [repetitionText_complete h.number ⟨part, hPart, hPrefix⟩] at hResult
    cases hResult
  · exact h.first ⟨part, hPart, hPrefix⟩

/-- A first part that is missing is noticed, but not before others have been looked for. -/
theorem returning_concatenationWith_of_missing (h : Overreads (opening order) inner) (hs : s.Ok)
    (hFirst : ¬∃ w ∈ bracketedPart order, w <+: s.rest) (hMissing : (repetitionText s.rest).1 = false) :
    Returning (concatenationWith order n inner b) s fun success t =>
      success = false ∧ s.Moves t ∧ (t.rest = s.rest ∨ ∃ w ∈ latePart order * ⊤, s.rest = w ++ t.rest) := by
  refine (meets_tellg hs).bind ?_
  rintro _ t ⟨rfl, hRest, hMoves⟩
  have hClear : ¬∃ w ∈ bracketedPart order, w <+: t.rest := by
    rw [hRest]
    exact hFirst
  refine (follows_repetitionWith h hMoves.ok hClear).bind ?_
  rintro success u ⟨hMovesOn, hResult, hRestU⟩
  rw [hRest] at hResult hRestU
  rw [hResult, hMissing]
  have hMovesU := hMoves.trans hMovesOn
  refine returning_offsetAfter_false.bind ?_
  rintro _ _ ⟨rfl, rfl⟩
  refine (returning_concatenationLoop_late h hMovesU.ok).bind ?_
  rintro finish v hFinish
  have hBack : Returning (Scan.restore finish.1) v fun _ w =>
      s.Moves w ∧ (w.rest = s.rest ∨ ∃ word ∈ latePart order * ⊤, s.rest = word ++ w.rest) := by
    rcases hFinish with ⟨hSame, hMovesV⟩ | ⟨u, hLast, word, hWord, hText⟩
    · rw [hSame]
      exact (meets_restore hs (hMovesU.trans hMovesV)).mono id fun _ _ hPost => ⟨hPost.2, .inl hPost.1⟩
    · rw [hLast.taken]
      refine (meets_restore hLast.before.ok hLast.since).mono id ?_
      rintro _ w ⟨hRestW, hMovesW⟩
      refine ⟨hMovesU.trans (hLast.before.trans hMovesW), .inr ?_⟩
      obtain ⟨count, hCount, hTextCount⟩ := repeatText_read s.rest
      refine ⟨count ++ word, ?_, ?_⟩
      · rw [latePart, mul_assoc, mul_assoc]
        rw [mul_assoc] at hWord
        exact Language.append_mem_mul hCount hWord
      · rw [hTextCount, List.append_assoc, hRestW, ← hText, hRestU, repetitionText, simpleText_unmoved hMissing]
  exact hBack.bind fun _ w hPost => meets_pure ⟨rfl, hPost⟩

/-- On an orderly text a concatenation is read as the production has it. -/
theorem returning_concatenationWith (h : Overreads (opening order) inner) (hOrderly : Orderly order s.rest)
    (hs : s.Ok) :
    Returning (concatenationWith order n inner b) s fun success t => s.Moves t ∧
      (success = true → ∃ w ∈ Grammar.concatenation, s.rest = w ++ t.rest) ∧
      (success = false → (¬∃ w ∈ Grammar.concatenation, w <+: s.rest) ∧ t.rest = s.rest) := by
  cases hMissing : (repetitionText s.rest).1 with
  | false =>
      refine (returning_concatenationWith_of_missing h hs hOrderly.first hMissing).mono id ?_
      rintro _ t ⟨rfl, hMoves, hRest | ⟨_, hLate, hText⟩⟩
      · exact ⟨hMoves, by simp, fun _ => ⟨hOrderly.no_concatenation hMissing, hRest⟩⟩
      · obtain ⟨w, hw, hPrefix⟩ := mem_mul_top.mp hLate
        exact absurd ⟨w, hw, hPrefix.trans ⟨t.rest, hText.symm⟩⟩ hOrderly.late
  | true =>
      refine (meets_tellg hs).bind ?_
      rintro _ t ⟨rfl, hRest, hMoves⟩
      have hClear : ¬∃ w ∈ bracketedPart order, w <+: t.rest := by
        rw [hRest]
        exact hOrderly.first
      refine (follows_repetitionWith h hMoves.ok hClear).bind ?_
      rintro success u ⟨hMovesOn, hResult, hRestU⟩
      rw [hRest] at hResult hRestU
      rw [hResult, hMissing]
      have hMovesU := hMoves.trans hMovesOn
      obtain ⟨part, hPart, hText⟩ := repetitionText_sound hMissing
      refine (meets_tellg hMovesU.ok).bind ?_
      rintro _ v ⟨rfl, hRestV, hMovesV⟩
      have hRead : ∃ w ∈ Grammar.concatenation, s.rest = w ++ u.rest := by
        refine ⟨part ++ [], Language.append_mem_mul (simple_le_repetition hPart) (Language.nil_mem_kstar _), ?_⟩
        rw [List.append_nil, hRestU, ← hText]
      refine (returning_concatenationLoop h hOrderly ⟨rfl, hMovesU, hMovesV⟩ hRestV hRead).bind ?_
      rintro finish w ⟨u, hFinish, hStay, hWord⟩
      refine (hFinish.finish hStay).bind ?_
      rintro _ x ⟨hMovesX, hRestX⟩
      exact meets_pure ⟨hMovesX, fun _ => hRestX ▸ hWord, by simp⟩

end ImpactSockets.AbnfParser
