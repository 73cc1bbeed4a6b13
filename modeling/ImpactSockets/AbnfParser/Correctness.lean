import ImpactSockets.AbnfParser.Elements
import ImpactSockets.AbnfParser.Termination

/-! What the functions with loops and brackets read when they return. -/
namespace ImpactSockets.AbnfParser

open Abnf AbnfOps Fuelled Istream
open scoped Computability

variable {order : Order} {b : Bool} {n : Nat} {inner p : Scan Bool} {s t u : Istream} {L : Language UInt8}
  {offset : Option Nat}

/-- What is true of the runs that return: they have met no blank. -/
abbrev Returning {α : Type} (p : Scan α) (s : Istream) (post : α → Istream → Prop) : Prop :=
  Meets (· = .blank) (fun _ => True) False p s post

/-- What is met short of a blank holds of every run that returns. -/
theorem returning_of_meets {α : Type} {good : Event → Prop} {enough : Prop} {p : Scan α}
    {post : α → Istream → Prop} (h : Meets (· = .blank) good enough p s post) : Returning p s post :=
  (h.of_bad (fun _ => id) fun _ _ => trivial).mono False.elim fun _ _ => id

/-- A run that returns has met no blank, so what was shown of it holds. -/
theorem Returning.of_run {post : Bool → Istream → Prop} {success : Bool} {log : List Event} (h : Returning p s post)
    (hBlankless : Blankless p) (hRun : p s = ⟨some success, t, log⟩) : post success t := by
  have hReturns := hBlankless s
  unfold Returning Meets at h
  rw [hRun] at hReturns h
  exact (h (hReturns (by simp))).2.1 success rfl

/-- The run does to the text what the function says. -/
abbrev Follows (F : Bytes → Bool × Bytes) (p : Scan Bool) (s : Istream) : Prop :=
  Returning p s fun success t => s.Moves t ∧ success = (F s.rest).1 ∧ t.rest = (F s.rest).2

/-- A success reads a word of the language, and perhaps some text behind it. -/
def Overreads (L : Language UInt8) (p : Scan Bool) : Prop :=
  ∀ s : Istream, s.Ok → Returning p s fun success t =>
    s.Moves t ∧ (success = true → ∃ w ∈ L * ⊤, s.rest = w ++ t.rest)

/-- A function of the text is followed on every stream. -/
theorem Acts.follows {F : Bytes → Bool × Bytes} (h : Acts p F) (hs : s.Ok) : Follows F p s :=
  (h.meets hs).mono id fun _ _ ⟨hResult, hRest, hMoves⟩ => ⟨hMoves, hResult, hRest⟩

/-- The end of a turn. -/
theorem returning_turn {α : Type} {p : Scan α} {before : Nat} {post : α → Istream → Prop} (hp : Returning p s post) :
    Returning (do emit (.turn before (← Scan.position)); p) s post := by
  refine meets_look.bind ?_
  rintro _ _ ⟨rfl, rfl⟩
  refine (meets_emit fun _ => trivial).bind ?_
  rintro _ _ ⟨rfl, -⟩
  exact hp

/-! ### Blanks -/

/-- Away from blanks, `c_wsp` follows its text function. -/
theorem follows_cWsp (hs : s.Ok) : Follows (gapText order) (cWsp order) s := by
  by_cases hBlank : wsp s.peek.1 = true
  · exact meets_of_some (cWsp_of_blank hBlank) (by simp) fun hNot => absurd rfl (hNot .blank (by simp))
  · have hSame : cWsp order s = newlineWsp order s := cWsp_of_not_blank (by simpa using hBlank)
    have hFollows : Follows (gapText order) (newlineWsp order) s := acts_newlineWsp.follows hs
    unfold Follows Returning Meets at hFollows ⊢
    rwa [hSame]

/-- The loop reads foldings until there is none in front of it. -/
theorem returning_skipWsp (hs : s.Ok) :
    Returning (skipWsp order n) s fun _ t =>
      s.Moves t ∧ (gapText order t.rest).1 = false ∧ ∃ w ∈ (folding order)∗, s.rest = w ++ t.rest := by
  induction n generalizing s with
  | zero => exact meets_exhausted id
  | succ n ih =>
      refine meets_look.bind ?_
      rintro _ _ ⟨rfl, rfl⟩
      refine (follows_cWsp hs).bind ?_
      rintro success t ⟨hMoves, hResult, hRest⟩
      refine meets_ite (fun hTrue => returning_turn ?_) fun hFalse => meets_pure ?_
      · refine (ih hMoves.ok).bind ?_
        rintro _ u ⟨hMovesOn, hEnd, rest, hMore, hTextOn⟩
        obtain ⟨word, hWord, hText⟩ := gapText_sound (hResult.symm.trans hTrue)
        refine meets_pure ⟨hMoves.trans hMovesOn, hEnd, word ++ rest, ?_, ?_⟩
        · exact append_mem_kstar (mem_kstar_of_mem hWord) hMore
        · rw [hText, ← hRest, hTextOn, List.append_assoc]
      · have hFailed : (gapText order s.rest).1 = false := hResult.symm.trans (by simpa using hFalse)
        have hSame : t.rest = s.rest := hRest.trans (attempted_false hFailed)
        exact ⟨hMoves, hSame.symm ▸ hFailed, [], Language.nil_mem_kstar _, hSame.symm⟩

theorem folding_le_gap : folding order ≤ gap order := le_sup_right

theorem foldings_le_gaps : (folding order)∗ ≤ (gap order)∗ := kstar_mono folding_le_gap

/-! ### Brackets -/

/-- Where the closing bracket is found, the opening one had the beginning of an alternation
behind it. -/
theorem returning_enclosed (h : Overreads (opening order) inner) {first last : UInt8} (hFirst : eofChar ≠ first)
    (hLast : eofChar ≠ last) (hs : s.Ok) :
    Returning (enclosed order n inner first last) s fun success t =>
      s.Moves t ∧ (success = true → ∃ w ∈ enclosing order first last (opening order), s.rest = w ++ t.rest) := by
  refine (meets_get hs).bind ?_
  rintro c t ⟨hChar, hRest, hMoves⟩
  refine meets_ite (fun _ => meets_pure ⟨hMoves, by simp⟩) fun hEqual => ?_
  obtain ⟨behind, hBehind⟩ := (headD_eq_iff hFirst).mp (hChar.symm.trans (not_not.mp hEqual))
  refine (returning_skipWsp hMoves.ok).bind ?_
  rintro _ u ⟨hMovesU, -, gaps, hGaps, hTextU⟩
  refine (h u hMovesU.ok).bind ?_
  rintro success v ⟨hMovesV, hInside⟩
  refine meets_ite (fun _ => meets_pure ⟨hMoves.trans (hMovesU.trans hMovesV), by simp⟩) fun hTrue => ?_
  refine (returning_skipWsp hMovesV.ok).bind ?_
  rintro _ w ⟨hMovesW, -, more, -, hTextW⟩
  refine (meets_get hMovesW.ok).bind ?_
  rintro d x ⟨hCharX, hRestX, hMovesX⟩
  have hMovesAll := hMoves.trans (hMovesU.trans (hMovesV.trans (hMovesW.trans hMovesX)))
  refine meets_pure ⟨hMovesAll, fun hClosed => ?_⟩
  obtain ⟨left, hLeft⟩ := (headD_eq_iff hLast).mp (hCharX.symm.trans (eq_of_beq hClosed))
  obtain ⟨inside, hWord, hTextV⟩ := hInside (by simpa using hTrue)
  have hMore : inside ++ more ∈ opening order * ⊤ := mul_mul_top_le (Language.append_mem_mul hWord trivial)
  refine ⟨[first] ++ gaps ++ (inside ++ more) ++ [last], ?_, ?_⟩
  · rw [enclosing, mul_assoc (literal [first] * (gap order)∗)]
    refine Language.append_mem_mul (Language.append_mem_mul (Language.append_mem_mul (mem_literal.mpr rfl) ?_) hMore)
      (mem_literal.mpr rfl)
    exact foldings_le_gaps hGaps
  · rw [hBehind, List.tail_cons] at hRest
    rw [hLeft, List.tail_cons] at hRestX
    rw [hBehind, ← hRest, hTextU, hTextV, hTextW, hLeft, ← hRestX]
    simp only [List.append_assoc, List.cons_append, List.nil_append]

/-- Brackets that are not found closed leave the stream as it was. The result is false in
either case. -/
theorem returning_brackets (h : Overreads (opening order) inner) {first last : UInt8} (hFirst : eofChar ≠ first)
    (hLast : eofChar ≠ last) (hs : s.Ok) :
    Returning (brackets order n inner first last) s fun success t =>
      success = false ∧ s.Moves t ∧
        (t.rest = s.rest ∨ ∃ w ∈ enclosing order first last (opening order), s.rest = w ++ t.rest) := by
  refine (meets_tellg hs).bind ?_
  rintro _ t ⟨rfl, hRest, hMoves⟩
  refine (returning_enclosed h hFirst hLast hMoves.ok).bind ?_
  rintro success u ⟨hMovesOn, hClosed⟩
  rw [hRest] at hClosed
  have hMovesU := hMoves.trans hMovesOn
  have hBack : Returning (Scan.when (!success) (Scan.restore s.tellg.1)) u fun _ v =>
      s.Moves v ∧ (v.rest = s.rest ∨ ∃ w ∈ enclosing order first last (opening order), s.rest = w ++ v.rest) := by
    refine meets_ite (fun _ => ?_) fun hTrue => meets_pure ⟨hMovesU, .inr (hClosed (by simpa using hTrue))⟩
    exact (meets_restore hs hMovesU).mono id fun _ _ hPost => ⟨hPost.2, .inl hPost.1⟩
  exact hBack.bind fun _ v hPost => meets_pure ⟨rfl, hPost⟩

/-- The next function has its turn where the brackets have left the stream. -/
theorem returning_orElse_brackets (h : Overreads (opening order) inner) {first last : UInt8} (hFirst : eofChar ≠ first)
    (hLast : eofChar ≠ last) (hs : s.Ok) {post : Bool → Istream → Prop}
    (hp : ∀ t, s.Moves t → (t.rest = s.rest ∨ ∃ w ∈ enclosing order first last (opening order), s.rest = w ++ t.rest) →
      Returning p t post) :
    Returning (Scan.orElse (brackets order n inner first last) p) s post := by
  refine (returning_brackets h hFirst hLast hs).bind ?_
  rintro _ t ⟨rfl, hMoves, hRest⟩
  exact meets_ite (fun hTrue => absurd hTrue (by simp)) fun _ => hp t hMoves hRest

/-! ### Elements and repetitions -/

/-- An element does what the functions for elements without brackets do, unless brackets are
found closed in front of them. -/
theorem returning_elementWith (h : Overreads (opening order) inner) (hs : s.Ok) :
    Returning (elementWith order n inner) s fun success t =>
      s.Moves t ∧ (success = (simpleText s.rest).1 ∧ t.rest = (simpleText s.rest).2 ∨
        ∃ w ∈ bracketing order (opening order) * ⊤, s.rest = w ++ t.rest) := by
  refine (acts_rulename.follows hs).bind ?_
  rintro name t ⟨hMoves, hName, hRest⟩
  refine meets_ite (fun hTrue => meets_pure ⟨hMoves, .inl ?_⟩) fun hFalse => ?_
  · have hRun : simpleText s.rest = rulenameText s.rest := if_pos (hName.symm.trans hTrue)
    rw [hRun]
    exact ⟨hName.symm.trans hTrue |>.symm, hRest⟩
  have hFailed : (rulenameText s.rest).1 = false := hName.symm.trans (by simpa using hFalse)
  have hRestT : t.rest = s.rest := hRest.trans (recognises_rulename.unmoved hFailed)
  have hRun : simpleText s.rest = valueText s.rest := by
    rw [simpleText, either, hFailed, if_neg (by simp), recognises_rulename.unmoved hFailed]
  rw [hRun, ← hRestT]
  refine returning_orElse_brackets h (by decide) (by decide) hMoves.ok fun u hMovesU hParens => ?_
  refine returning_orElse_brackets h (by decide) (by decide) hMovesU.ok fun v hMovesV hSquares => ?_
  refine (acts_value.follows hMovesV.ok).mono id ?_
  rintro success w ⟨hMovesW, hResult, hRestW⟩
  refine ⟨hMoves.trans (hMovesU.trans (hMovesV.trans hMovesW)), ?_⟩
  rcases hParens with hParens | ⟨word, hWord, hParens⟩
  · rcases hSquares with hSquares | ⟨word, hWord, hSquares⟩
    · rw [hSquares, hParens] at hResult hRestW
      exact .inl ⟨hResult, hRestW⟩
    · obtain ⟨more, hMore⟩ := hMovesW.suffix
      refine .inr ⟨word ++ more, Language.append_mem_mul (.inr hWord) trivial, ?_⟩
      rw [← hParens, hSquares, List.append_assoc, hMore]
  · obtain ⟨more, hMore⟩ := (hMovesV.trans hMovesW).suffix
    refine .inr ⟨word ++ more, Language.append_mem_mul (.inl hWord) trivial, ?_⟩
    rw [hParens, List.append_assoc, hMore]

/-- A repetition reads its text, or something in brackets. -/
theorem returning_repetitionWith (h : Overreads (opening order) inner) (hs : s.Ok) :
    Returning (repetitionWith order n inner) s fun success t =>
      s.Moves t ∧ (success = (repetitionText s.rest).1 ∧ t.rest = (repetitionText s.rest).2 ∨
        ∃ w ∈ Abnf.optional Grammar.repeat_ * bracketing order (opening order) * ⊤, s.rest = w ++ t.rest) := by
  refine (acts_repeat.follows hs).bind ?_
  rintro _ t ⟨hMoves, -, hRest⟩
  refine (returning_elementWith h hMoves.ok).mono id ?_
  rintro success u ⟨hMovesOn, hElement⟩
  rw [hRest] at hElement
  refine ⟨hMoves.trans hMovesOn, hElement.imp_right ?_⟩
  rintro ⟨word, hWord, hText⟩
  obtain ⟨count, hCount, hTextCount⟩ := repeatText_read s.rest
  refine ⟨count ++ word, ?_, by rw [List.append_assoc, ← hText, ← hTextCount]⟩
  rw [mul_assoc]
  exact Language.append_mem_mul hCount hWord

/-- No brackets are found closed where none are. -/
theorem follows_repetitionWith (h : Overreads (opening order) inner) (hs : s.Ok)
    (hNone : ¬∃ w ∈ Abnf.optional Grammar.repeat_ * bracketing order (opening order), w <+: s.rest) :
    Follows repetitionText (repetitionWith order n inner) s := by
  refine (returning_repetitionWith h hs).mono id ?_
  rintro success t ⟨hMoves, hFollows | ⟨word, hWord, hText⟩⟩
  · exact ⟨hMoves, hFollows⟩
  · obtain ⟨w, hw, hPrefix⟩ := mem_mul_top.mp hWord
    exact absurd ⟨w, hw, hPrefix.trans ⟨t.rest, hText.symm⟩⟩ hNone

theorem overreads_repetitionWith (h : Overreads (opening order) inner) :
    Overreads (opening order) (repetitionWith order n inner) := by
  intro s hs
  refine (returning_repetitionWith h hs).mono id ?_
  rintro success t ⟨hMoves, hRead⟩
  refine ⟨hMoves, fun hTrue => ?_⟩
  rw [opening_eq, openingWithin, mul_add]
  rcases hRead with ⟨hResult, hRest⟩ | ⟨word, hWord, hText⟩
  · obtain ⟨word, hWord, hText⟩ := repetitionText_sound (hResult.symm.trans hTrue)
    exact ⟨word, le_mul_top (.inl hWord), hRest ▸ hText⟩
  · rw [add_mul]
    exact ⟨word, .inr hWord, hText⟩

/-! ### Concatenations and alternations -/

theorem Overreads.ends {left x : Bytes} {s : Istream} (hSuffix : x <:+ left)
    (h : ∃ w ∈ L * ⊤, s.rest = w ++ left) : ∃ w ∈ L * ⊤, s.rest = w ++ x := by
  obtain ⟨w, hw, hText⟩ := h
  obtain ⟨more, rfl⟩ := hSuffix
  exact ⟨w ++ more, mul_mul_top_le (Language.append_mem_mul hw trivial), by rw [hText, List.append_assoc]⟩

/-- A concatenation that succeeds has read an opening, and perhaps more. -/
theorem overreads_concatenationWith (hProgress : Progresses n inner) (h : Overreads (opening order) inner) :
    Overreads (opening order) (concatenationWith order (n + 1) inner b) := by
  intro s hs
  refine returning_of_meets (@meets_concatenationWith _ _ _ _ _ hProgress
    (fun left => ∃ w ∈ opening order * ⊤, s.rest = w ++ left) (fun _ _ => Overreads.ends) hs fun t hRest hMoves => ?_)
  refine (((progresses_repetitionWith hProgress).meets hMoves fun hEnough => hRest ▸ hEnough).and
    (overreads_repetitionWith h t hMoves.ok)).mono id ?_
  rintro success u ⟨⟨hMovesU, -, -⟩, -, hRead⟩
  exact ⟨hMovesU, hRest ▸ hRead⟩

/-- An alternation that succeeds has read an opening, by induction on the fuel, which the
brackets decrease. -/
theorem overreads_alternation : Overreads (opening order) (alternation order b n) := by
  induction n with
  | zero => exact fun s _ => meets_exhausted id
  | succ n ih =>
      intro s hs
      refine returning_of_meets (@meets_alternationWith _ _ _ _ _ progresses_alternation
        (fun left => ∃ w ∈ opening order * ⊤, s.rest = w ++ left) (fun _ _ => Overreads.ends) hs fun t hRest hMoves => ?_)
      refine (((progresses_concatenationWith progresses_alternation).meets hMoves fun hEnough => hRest ▸ hEnough).and
        (overreads_concatenationWith progresses_alternation ih t hMoves.ok)).mono id ?_
      rintro success u ⟨⟨hMovesU, -, -⟩, -, hRead⟩
      exact ⟨hMovesU, hRest ▸ hRead⟩

end ImpactSockets.AbnfParser
