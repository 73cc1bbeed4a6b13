import ImpactSockets.AbnfParser.Concatenations
import ImpactSockets.AbnfParser.PlainTexts

/-! The texts on which `alternation` of `ABNF_Parser/main.cpp` does what its production says:
those with no alternation to read, and those that are one and nothing more. -/
namespace ImpactSockets.AbnfParser

open Abnf AbnfOps Fuelled Istream
open scoped Computability

variable {order : Order} {b : Bool} {n k : Nat} {inner : Scan Bool} {s t u : Istream} {offset : Option Nat}
  {r w x : Bytes}

/-! ### Texts without an alternation -/

/-- The beginning of a concatenation behind a slash, where the first one should be. -/
noncomputable def slashedPart (order : Order) : Language UInt8 :=
  (gap order)∗ * literal [0x2F] * (gap order)∗ * opening order

/-- No alternation begins here, and none behind a slash, be it here or behind parts that the
function goes on to read although the first one is missing. -/
structure Barren (order : Order) (r : Bytes) : Prop where
  first : ¬∃ w ∈ opening order, w <+: r
  slashed : ¬∃ w ∈ Abnf.optional (latePart order * ⊤) * slashedPart order, w <+: r

theorem Barren.no_brackets (h : Barren order r) : ¬∃ w ∈ bracketedPart order, w <+: r := by
  refine fun hWord => h.first (exists_prefix_of_le (le_trans ?_ le_mul_top) hWord)
  rw [opening_eq, openingWithin, mul_add]
  exact le_sup_right

/-- Where no alternation can begin, no repetition is read. -/
theorem Barren.missing (h : Barren order r) : (repetitionText r).1 = false := by
  by_contra hTrue
  obtain ⟨w, hw, hText⟩ := repetitionText_sound (by simpa using hTrue)
  refine h.first ⟨w, ?_, _, hText.symm⟩
  rw [opening_eq, openingWithin, mul_add]
  exact .inl hw

/-- Behind what a missing concatenation may have read there is no slash with another one. -/
theorem Barren.no_slash (h : Barren order r) (hRead : x = r ∨ ∃ w ∈ latePart order * ⊤, r = w ++ x) :
    ¬∃ w ∈ slashedPart order, w <+: x := by
  rintro ⟨w, hw, hText⟩
  rcases hRead with rfl | ⟨late, hLate, rfl⟩
  · exact h.slashed ⟨[] ++ w, Language.append_mem_mul (mem_optional.mpr (.inl rfl)) hw, hText⟩
  · refine h.slashed ⟨late ++ w, Language.append_mem_mul (mem_optional.mpr (.inr hLate)) hw, ?_⟩
    exact (List.prefix_append_right_inj late).mpr hText

/-- Where no concatenation begins behind a slash, the loop ends in its first turn. -/
theorem returning_alternationLoop_of_none (hProgress : Progresses n inner) (h : Overreads (opening order) inner)
    (ht : t.Ok) (hNone : ¬∃ w ∈ slashedPart order, w <+: t.rest) :
    Returning (alternationLoop order (n + 1) inner b k offset) t fun last u => last = offset ∧ t.Moves u := by
  cases k with
  | zero => exact meets_exhausted id
  | succ k =>
      refine meets_look.bind ?_
      rintro _ _ ⟨rfl, rfl⟩
      refine (returning_skipWsp ht).bind ?_
      rintro _ u ⟨hMovesU, -, gaps, hGaps, hTextU⟩
      refine (meets_get hMovesU.ok).bind ?_
      rintro c v ⟨hChar, hRestV, hMovesV⟩
      refine meets_ite (fun _ => meets_pure ⟨rfl, hMovesU.trans hMovesV⟩) fun hSlash => ?_
      obtain ⟨behind, hBehind⟩ := (headD_eq_iff (by decide)).mp (hChar.symm.trans (not_not.mp hSlash))
      rw [hBehind, List.tail_cons] at hRestV
      refine (returning_skipWsp hMovesV.ok).bind ?_
      rintro _ w ⟨hMovesW, -, more, hMore, hTextW⟩
      have hMovesT := hMovesU.trans (hMovesV.trans hMovesW)
      refine (overreads_concatenationWith hProgress h w hMovesW.ok).bind ?_
      rintro _ x ⟨hMovesX, hPart⟩
      refine meets_ite (fun hTrue => absurd ?_ hNone) fun _ => meets_pure ⟨rfl, hMovesT.trans hMovesX⟩
      obtain ⟨part, hBegun, hTextX⟩ := hPart hTrue
      obtain ⟨word, hWord, y, rfl⟩ := mem_mul_top.mp hBegun
      refine ⟨gaps ++ [0x2F] ++ more ++ word, ?_, y ++ x.rest, ?_⟩
      · refine Language.append_mem_mul (Language.append_mem_mul (Language.append_mem_mul ?_ (mem_literal.mpr rfl)) ?_) hWord
        · exact foldings_le_gaps hGaps
        · exact foldings_le_gaps hMore
      · rw [hTextU, hBehind, ← hRestV, hTextW, hTextX]
        simp only [List.append_assoc, List.cons_append, List.nil_append]

/-- On a barren text the alternation fails, and goes back to where it began. -/
theorem returning_alternationWith_of_barren (hProgress : Progresses n inner) (h : Overreads (opening order) inner)
    (hs : s.Ok) (hBarren : Barren order s.rest) :
    Returning (alternationWith order (n + 1) inner b) s fun success t =>
      success = false ∧ s.Moves t ∧ t.rest = s.rest := by
  refine (meets_tellg hs).bind ?_
  rintro _ t ⟨rfl, hRest, hMoves⟩
  refine (returning_concatenationWith_of_missing h hMoves.ok (hRest ▸ hBarren.no_brackets)
    (hRest ▸ hBarren.missing)).bind ?_
  rintro _ u ⟨rfl, hMovesOn, hRead⟩
  rw [hRest] at hRead
  have hMovesU := hMoves.trans hMovesOn
  refine returning_offsetAfter_false.bind ?_
  rintro _ _ ⟨rfl, rfl⟩
  refine (returning_alternationLoop_of_none hProgress h hMovesU.ok (hBarren.no_slash hRead)).bind ?_
  rintro _ v ⟨rfl, hMovesV⟩
  refine (meets_restore hs (hMovesU.trans hMovesV)).bind ?_
  rintro _ w ⟨hBack, hMovesW⟩
  exact meets_pure ⟨rfl, hMovesW, hBack⟩

/-! ### Texts that are an alternation -/

/-- The loop over blanks reads foldings to their end, by induction on their number. -/
theorem reads_skipWsp {gaps : Bytes} (hs : s.Ok) (hGaps : gaps ∈ (folding order)∗) (hText : s.rest = gaps ++ x)
    (hx : (gapText order x).1 = false) : Returning (skipWsp order n) s fun _ t => s.Moves t ∧ t.rest = x := by
  refine (returning_skipWsp hs).mono id ?_
  rintro _ t ⟨hMoves, hEnd, more, hMore, hTextOn⟩
  exact ⟨hMoves, (foldings_unique hGaps hMore (hText.symm.trans hTextOn) hx hEnd).symm⟩

theorem plainGaps_le : (plainGap order)∗ ≤ (folding order)∗ := kstar_mono inf_le_right

/-- What stands behind a concatenation: nothing, or a slash behind foldings. -/
def Closes (order : Order) (x : Bytes) : Prop := x = [] ∨ ∃ gaps ∈ (folding order)∗, ∃ y, x = gaps ++ 0x2F :: y

theorem ends_append_folding {first rest : Bytes} (h : first ∈ folding order) : Ends (first ++ rest) := by
  obtain ⟨c, v, rfl, hStops, -⟩ := head_of_mem_folding h
  intro d hd
  cases hd
  exact hStops

theorem Closes.ends (h : Closes order x) : Ends x := by
  rcases h with rfl | ⟨gaps, hGaps, y, rfl⟩
  · exact fun c hc => by cases hc
  · rcases kstar_cases hGaps with rfl | ⟨first, hFirst, rest, -, rfl⟩
    · intro c hc
      cases hc
      rfl
    · rw [List.append_assoc]
      exact ends_append_folding hFirst

/-- A part ends where a gap or a slash begins. -/
theorem ends_parts (hw : w ∈ (atLeastOne (plainGap order) * plainPart)∗) (hx : Ends x) : Ends (w ++ x) := by
  rcases kstar_cases hw with rfl | ⟨_, hFirst, rest, -, rfl⟩
  · exact hx
  · obtain ⟨_, hGaps, part, -, rfl⟩ := Language.mem_mul.mp hFirst
    obtain ⟨first, hGap, more, -, rfl⟩ := Language.mem_mul.mp hGaps
    simp only [List.append_assoc]
    exact ends_append_folding hGap.2

theorem closes_of_mem {L : Language UInt8} (hw : w ∈ ((plainGap order)∗ * literal [0x2F] * L)∗) : Closes order w := by
  rcases kstar_cases hw with rfl | ⟨_, hFirst, rest, -, rfl⟩
  · exact .inl rfl
  · obtain ⟨_, hSlash, part, -, rfl⟩ := Language.mem_mul.mp hFirst
    obtain ⟨gaps, hGaps, _, rfl, rfl⟩ := Language.mem_mul.mp hSlash
    exact .inr ⟨gaps, plainGaps_le hGaps, part ++ rest, by simp⟩

/-- No gap begins where a part does. -/
theorem gapText_part (hw : w ∈ plainPart) : (gapText order (w ++ x)).1 = false := by
  obtain ⟨c, v, rfl, hStops⟩ := head_of_mem_part hw
  refine gapText_of_head fun d hd => ?_
  cases hd
  exact .inr hStops

theorem gapText_slash : (gapText order (0x2F :: x)).1 = false := by
  refine gapText_of_head fun d hd => ?_
  cases hd
  exact .inl rfl

/-- The function reads one text and leaves another. -/
def Leaves (p : Scan Bool) (r x : Bytes) : Prop :=
  ∀ s : Istream, s.Ok → s.rest = r → Returning p s fun success t => success = true ∧ s.Moves t ∧ t.rest = x

/-- A repetition reads a plain part and leaves what follows. -/
theorem leaves_repetitionWith (h : Overreads (opening order) inner) (hw : w ∈ plainPart) (hx : Ends x) :
    Leaves (repetitionWith order n inner) (w ++ x) x := by
  intro s hs hText
  refine (follows_repetitionWith h hs (hText ▸ no_bracketing_part hw)).mono id ?_
  rintro success t ⟨hMoves, hResult, hRest⟩
  rw [hText, repetitionText_part hw hx] at hResult hRest
  exact ⟨hResult, hMoves, hRest⟩

/-- Behind the last part the loop looks for another one and finds none. -/
theorem returning_concatenationLoop_of_closes (h : Overreads (opening order) inner) (hx : Closes order x)
    (hOffset : Remembers s offset u t) (hRestU : u.rest = x) (hRest : t.rest = x) :
    Returning (concatenationLoop order n inner k offset b) t fun finish v =>
      ∃ u, Remembers s finish.1 u v ∧ u.rest = x ∧ (finish.2 = false → v.rest = x) := by
  cases k with
  | zero => exact meets_exhausted id
  | succ k =>
      refine meets_look.bind ?_
      rintro _ _ ⟨rfl, rfl⟩
      refine (follows_cWsp hOffset.since.ok).bind ?_
      rintro success v ⟨hMovesV, hResult, hRestV⟩
      rw [hRest] at hResult hRestV
      refine meets_ite (fun hTrue => ?_) fun hFalse => meets_pure ⟨u, hOffset.trans hMovesV, hRestU, fun _ => ?_⟩
      · obtain ⟨first, hFirst, hTextX⟩ := gapText_sound (hResult.symm.trans hTrue)
        refine (returning_skipWsp hMovesV.ok).bind ?_
        rintro _ w ⟨hMovesW, hEnd, more, hMore, hTextW⟩
        rw [← hRestV, hTextW, ← List.append_assoc] at hTextX
        have hFoldings : first ++ more ∈ (folding order)∗ := append_mem_kstar (mem_kstar_of_mem hFirst) hMore
        obtain ⟨y, hSlash⟩ : ∃ y, w.rest = 0x2F :: y := by
          rcases hx with rfl | ⟨gaps, hGaps, y, rfl⟩
          · exact absurd hTextX (by simp [ne_nil_of_mem_folding hFirst])
          · exact ⟨y, (foldings_unique hGaps hFoldings hTextX gapText_slash hEnd).symm⟩
        refine (follows_repetitionWith h hMovesW.ok (hSlash ▸ no_bracketing_slash)).bind ?_
        rintro success z ⟨hMovesZ, hResultZ, -⟩
        rw [hSlash, repetitionText_slash] at hResultZ
        rw [hResultZ]
        exact meets_pure ⟨u, hOffset.trans (hMovesV.trans (hMovesW.trans hMovesZ)), hRestU, by simp⟩
      · exact hRestV.trans (attempted_false (hResult.symm.trans (by simpa using hFalse)))

/-- The loop reads all the parts of a concatenation, by induction on them. -/
theorem returning_concatenationLoop_of_parts (h : Overreads (opening order) inner) {parts : Bytes}
    (hParts : parts ∈ (atLeastOne (plainGap order) * plainPart)∗) (hx : Closes order x)
    (hOffset : Remembers s offset u t) (hRestU : u.rest = parts ++ x) (hRest : t.rest = parts ++ x) :
    Returning (concatenationLoop order n inner k offset b) t fun finish v =>
      ∃ u, Remembers s finish.1 u v ∧ u.rest = x ∧ (finish.2 = false → v.rest = x) := by
  induction k generalizing t u offset b parts with
  | zero => exact meets_exhausted id
  | succ k ih =>
      rcases kstar_cases hParts with rfl | ⟨_, hNext, rest, hOthers, rfl⟩
      · exact returning_concatenationLoop_of_closes h hx hOffset hRestU hRest
      obtain ⟨_, hGaps, part, hPart, rfl⟩ := Language.mem_mul.mp hNext
      obtain ⟨first, hFirst, more, hMore, rfl⟩ := Language.mem_mul.mp hGaps
      have hText : t.rest = first ++ (more ++ (part ++ (rest ++ x))) := by
        rw [hRest]
        simp only [List.append_assoc]
      have hGap : gapText order t.rest = (true, more ++ (part ++ (rest ++ x))) :=
        gapText_eq_true.mpr ⟨first, hFirst.2, hText.symm⟩
      refine meets_look.bind ?_
      rintro _ _ ⟨rfl, rfl⟩
      refine (follows_cWsp hOffset.since.ok).bind ?_
      rintro success v ⟨hMovesV, hResult, hRestV⟩
      rw [hGap] at hResult hRestV
      refine meets_ite (fun _ => ?_) fun hFalse => absurd hResult hFalse
      refine (reads_skipWsp hMovesV.ok (plainGaps_le hMore) hRestV (gapText_part hPart)).bind ?_
      rintro _ w ⟨hMovesW, hRestW⟩
      refine (leaves_repetitionWith h hPart (ends_parts hOthers hx.ends) w hMovesW.ok hRestW).bind ?_
      rintro _ y ⟨rfl, hMovesY, hRestY⟩
      have hMovesT := hMovesV.trans (hMovesW.trans hMovesY)
      refine (meets_tellg hMovesY.ok).bind ?_
      rintro _ z ⟨rfl, hRestZ, hMovesZ⟩
      exact returning_turn (ih hOthers ⟨rfl, hOffset.before.trans (hOffset.since.trans hMovesT), hMovesZ⟩ hRestY
        (hRestZ.trans hRestY))

/-- A plain concatenation is read to its end. -/
theorem leaves_concatenationWith (h : Overreads (opening order) inner) (hw : w ∈ plainConcatenation order)
    (hx : Closes order x) : Leaves (concatenationWith order n inner b) (w ++ x) x := by
  intro s hs hText
  obtain ⟨part, hPart, parts, hParts, rfl⟩ := Language.mem_mul.mp hw
  rw [List.append_assoc] at hText
  refine (meets_tellg hs).bind ?_
  rintro _ t ⟨rfl, hRest, hMoves⟩
  refine (leaves_repetitionWith h hPart (ends_parts hParts hx.ends) t hMoves.ok (hRest.trans hText)).bind ?_
  rintro _ u ⟨rfl, hMovesU, hRestU⟩
  refine (meets_tellg hMovesU.ok).bind ?_
  rintro _ v ⟨rfl, hRestV, hMovesV⟩
  refine (returning_concatenationLoop_of_parts h hParts hx ⟨rfl, hMoves.trans hMovesU, hMovesV⟩ hRestU
    (hRestV.trans hRestU)).bind ?_
  rintro finish w ⟨u, hFinish, hLeft, hStay⟩
  refine (hFinish.finish fun hStop => (hStay hStop).trans hLeft.symm).bind ?_
  rintro _ y ⟨hMovesY, hRestY⟩
  exact meets_pure ⟨rfl, hMovesY, hRestY.trans hLeft⟩

/-- The loop over the slashes reads all plain concatenations, up to the end of the text. -/
theorem returning_alternationLoop_of_parts (h : Overreads (opening order) inner) (ht : t.Ok)
    (hParts : t.rest ∈ ((plainGap order)∗ * literal [0x2F] * ((plainGap order)∗ * plainConcatenation order))∗) :
    Returning (alternationLoop order n inner b k offset) t fun _ u => t.Moves u ∧ u.rest = [] := by
  induction k generalizing t offset with
  | zero => exact meets_exhausted id
  | succ k ih =>
      refine meets_look.bind ?_
      rintro _ _ ⟨rfl, rfl⟩
      rcases kstar_cases hParts with hEnd | ⟨_, hNext, rest, hOthers, hText⟩
      · refine (returning_skipWsp ht).bind ?_
        rintro _ u ⟨hMovesU, -, gaps, -, hTextU⟩
        have hRestU : u.rest = [] := (List.append_eq_nil_iff.mp (hTextU.symm.trans hEnd)).2
        refine (meets_get hMovesU.ok).bind ?_
        rintro c v ⟨hChar, hRestV, hMovesV⟩
        rw [hRestU] at hChar hRestV
        exact meets_ite (fun _ => meets_pure ⟨hMovesU.trans hMovesV, hRestV⟩) fun hSlash =>
          absurd (hChar.symm.trans (not_not.mp hSlash)) (by decide)
      · obtain ⟨_, hSlash, _, hPart, rfl⟩ := Language.mem_mul.mp hNext
        obtain ⟨gaps, hGaps, _, rfl, rfl⟩ := Language.mem_mul.mp hSlash
        obtain ⟨more, hMore, concatenation, hConcatenation, rfl⟩ := Language.mem_mul.mp hPart
        have hTextT : t.rest = gaps ++ 0x2F :: (more ++ (concatenation ++ rest)) := by
          rw [hText]
          simp only [List.append_assoc, List.cons_append, List.nil_append]
        have hHead : (gapText order (concatenation ++ rest)).1 = false := by
          obtain ⟨part, hFirst, parts, -, rfl⟩ := Language.mem_mul.mp hConcatenation
          rw [List.append_assoc]
          exact gapText_part hFirst
        refine (reads_skipWsp ht (plainGaps_le hGaps) hTextT gapText_slash).bind ?_
        rintro _ u ⟨hMovesU, hRestU⟩
        refine (meets_get hMovesU.ok).bind ?_
        rintro c v ⟨hChar, hRestV, hMovesV⟩
        rw [hRestU] at hChar hRestV
        refine meets_ite (fun hOther => absurd hChar hOther) fun _ => ?_
        refine (reads_skipWsp hMovesV.ok (plainGaps_le hMore) hRestV hHead).bind ?_
        rintro _ w ⟨hMovesW, hRestW⟩
        refine (leaves_concatenationWith h hConcatenation (closes_of_mem hOthers) w hMovesW.ok hRestW).bind ?_
        rintro _ x ⟨rfl, hMovesX, hRestX⟩
        refine (meets_tellg hMovesX.ok).bind ?_
        rintro _ y ⟨rfl, hRestY, hMovesY⟩
        refine returning_turn ((ih hMovesY.ok ?_).mono id ?_)
        · rw [hRestY, hRestX]
          exact hOthers
        · rintro _ z ⟨hMovesZ, hEnd⟩
          exact ⟨hMovesU.trans (hMovesV.trans (hMovesW.trans (hMovesX.trans (hMovesY.trans hMovesZ)))), hEnd⟩

/-- A text that is an alternation is read to its end. -/
theorem leaves_alternationWith (h : Overreads (opening order) inner) (hr : r ∈ plainAlternation order) :
    Leaves (alternationWith order n inner b) r [] := by
  rintro s hs rfl
  rw [plainAlternation, mul_assoc ((plainGap order)∗ * literal [0x2F])] at hr
  obtain ⟨first, hFirst, parts, hParts, hText⟩ := Language.mem_mul.mp hr
  refine (meets_tellg hs).bind ?_
  rintro _ t ⟨rfl, hRest, hMoves⟩
  refine (leaves_concatenationWith h hFirst (closes_of_mem hParts) t hMoves.ok (hRest.trans hText.symm)).bind ?_
  rintro _ u ⟨rfl, hMovesU, hRestU⟩
  refine (meets_tellg hMovesU.ok).bind ?_
  rintro _ v ⟨rfl, hRestV, hMovesV⟩
  refine (returning_alternationLoop_of_parts h hMovesV.ok (by rw [hRestV, hRestU]; exact hParts)).bind ?_
  rintro _ w ⟨hMovesW, hEnd⟩
  exact meets_pure ⟨rfl, hMoves.trans (hMovesU.trans (hMovesV.trans hMovesW)), hEnd⟩

end ImpactSockets.AbnfParser
