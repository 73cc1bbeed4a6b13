import ImpactSockets.AbnfParser.Fuel
import ImpactSockets.AbnfParser.Runs

/-! The recogniser returns, and each turn of a loop reads something, exactly for the grammars
in which no call of `c_wsp` meets a blank. -/
namespace ImpactSockets.AbnfParser

open AbnfOps Fuelled Istream

variable {order : Order} {b : Bool} {enough : Prop} {n : Nat} {inner p q : Scan Bool} {s t : Istream}

/-- A turn of a loop reads something. -/
def Advances (e : Event) : Prop := ∀ before after, e = .turn before after → before < after

/-- Short of a blank, a success reads something, and there is a result if there is less left
to read than fuel. -/
def Progresses (n : Nat) (p : Scan Bool) : Prop :=
  ∀ s : Istream, s.Ok → Meets (· = .blank) Advances (s.rest.length < n) p s fun success t =>
    s.Moves t ∧ (success = true → t.rest.length < s.rest.length)

/-- The function is called on the way from another state. -/
theorem Progresses.meets (h : Progresses n p) (hMoves : s.Moves t) (hEnough : enough → t.rest.length < n) :
    Meets (· = .blank) Advances enough p t fun success u =>
      s.Moves u ∧ t.Moves u ∧ (success = true → u.rest.length < t.rest.length) :=
  (h t hMoves.ok).mono hEnough fun _ _ hPost => ⟨hMoves.trans hPost.1, hPost⟩

/-- A function of the text that eats progresses with any fuel. -/
theorem Acts.progresses {F : Bytes → Bool × Bytes} (h : Acts p F) (hEats : Eats F) : Progresses n p := by
  intro s hs
  refine (h.meets hs).mono id ?_
  rintro success t ⟨rfl, hRest, hMoves⟩
  exact ⟨hMoves, fun hTrue => hRest ▸ hEats _ hTrue⟩

/-- A choice progresses if its functions do. -/
theorem Progresses.orElse (hp : Progresses n p) (hq : Progresses n q) : Progresses n (Scan.orElse p q) := by
  intro s hs
  refine (hp s hs).bind ?_
  rintro success t ⟨hMoves, hLess⟩
  refine meets_ite (fun hTrue => meets_pure ⟨hMoves, fun _ => hLess hTrue⟩) fun _ => ?_
  refine (hq.meets hMoves fun hEnough => hMoves.length_le.trans_lt hEnough).mono id ?_
  rintro success u ⟨hMovesOn, -, hLessOn⟩
  exact ⟨hMovesOn, fun hTrue => (hLessOn hTrue).trans_le hMoves.length_le⟩

/-- An attempt progresses if its body does, as a failure goes back to where it began. -/
theorem progresses_attempt (h : Progresses n p) : Progresses n (Scan.attempt p) := by
  intro s hs
  refine (@meets_attempt _ _ _ _ _ (fun u => u.rest.length < s.rest.length) hs ?_).mono id ?_
  · intro t hRest hMoves
    refine (h.meets hMoves fun hEnough => hRest ▸ hEnough).mono id ?_
    rintro success u ⟨hMovesOn, -, hLess⟩
    exact ⟨hMovesOn, fun hTrue => hRest ▸ hLess hTrue⟩
  · rintro success u ⟨hMoves, hLess, -⟩
    exact ⟨hMoves, hLess⟩

theorem progresses_cNl : Progresses n (cNl order) := (acts_cNl order).progresses (eats_cNl order)

/-- Short of a blank, `c_wsp` returns and a success of it reads a folding. -/
theorem progresses_cWsp : Progresses n (cWsp order) := by
  refine progresses_attempt fun s hs => ?_
  refine (meets_peek hs).bind ?_
  rintro _ t ⟨rfl, hRest, hMoves⟩
  refine meets_ite (fun _ => (meets_emit (by simp)).bind ?_) fun _ => ?_
  · rintro _ _ ⟨-, hNot⟩
    exact absurd rfl hNot
  · refine (progresses_cNl.meets hMoves fun hEnough => hMoves.length_le.trans_lt hEnough).bind ?_
    rintro success u ⟨hMovesOn, -, hLess⟩
    refine meets_ite (fun hTrue => (meets_get hMovesOn.ok).bind ?_) fun _ => meets_pure ⟨hMovesOn, by simp⟩
    rintro _ v ⟨-, -, hMovesGet⟩
    exact meets_pure ⟨hMovesOn.trans hMovesGet, fun _ =>
      hMovesGet.length_le.trans_lt ((hLess hTrue).trans_le hMoves.length_le)⟩

/-- The end of a turn. -/
theorem meets_turn {α : Type} {p : Scan α} {post : α → Istream → Prop} (hLess : s.pos < t.pos)
    (hp : Meets (· = .blank) Advances enough p t post) :
    Meets (· = .blank) Advances enough (do emit (.turn s.pos (← Scan.position)); p) t post := by
  refine meets_look.bind ?_
  rintro _ _ ⟨rfl, rfl⟩
  refine (meets_emit fun _ before after hEvent => ?_).bind ?_
  · obtain ⟨rfl, rfl⟩ := Event.turn.inj hEvent
    exact hLess
  · rintro _ _ ⟨rfl, -⟩
    exact hp

/-- The loop over blanks has enough fuel, as each of its turns reads a folding. -/
theorem progresses_skipWsp : Progresses n (skipWsp order n) := by
  induction n with
  | zero => exact fun s _ => meets_exhausted (by omega)
  | succ n ih =>
      intro s hs
      refine meets_look.bind ?_
      rintro _ _ ⟨rfl, rfl⟩
      refine (progresses_cWsp s hs).bind ?_
      rintro success t ⟨hMoves, hLess⟩
      refine meets_ite (fun hTrue => meets_turn (hMoves.pos_lt hs (hLess hTrue)) ?_) fun _ =>
        meets_pure ⟨hMoves, by simp⟩
      have hLessTurn := hLess hTrue
      refine (ih.meets hMoves fun hEnough => by omega).bind ?_
      rintro _ u ⟨hMovesOn, hMovesSkip, -⟩
      exact meets_pure ⟨hMovesOn, fun _ => hMovesSkip.length_le.trans_lt hLessTurn⟩

/-- `defined_as` reads at least its equals sign. -/
theorem progresses_definedAs : Progresses n (definedAs order n) := by
  refine progresses_attempt fun s hs => ?_
  refine (progresses_skipWsp s hs).bind ?_
  rintro _ t ⟨hMoves, -⟩
  refine (meets_get hMoves.ok).bind ?_
  rintro a u ⟨hChar, hRest, hMovesGet⟩
  have hRead (hEqual : a = 0x3D) : u.rest.length < s.rest.length := by
    have hTail : t.rest.tail.length < t.rest.length := length_tail_lt (by rw [← hChar, hEqual]; decide)
    rw [← hRest] at hTail
    exact hTail.trans_le hMoves.length_le
  have hMovesA := hMoves.trans hMovesGet
  refine (meets_peek hMovesA.ok).bind ?_
  rintro _ v ⟨-, hRestPeek, hMovesPeek⟩
  have hSkip {w : Istream} (hMovesW : u.Moves w) : Meets (· = .blank) Advances (s.rest.length < n) (skipWsp order n) w
      fun _ x => u.Moves x :=
    (progresses_skipWsp.meets hMovesW fun hEnough =>
      (hMovesA.trans hMovesW).length_le.trans_lt hEnough).mono id fun _ _ hPost => hPost.1
  refine meets_ite (fun hEqual => (meets_get hMovesPeek.ok).bind ?_) fun _ => meets_ite (fun hEqual => ?_) fun _ =>
    meets_pure ⟨hMovesA.trans hMovesPeek, by simp⟩
  · rintro _ w ⟨-, -, hMovesSlash⟩
    refine (hSkip (hMovesPeek.trans hMovesSlash)).bind fun _ x hMovesSkip => meets_pure ⟨hMovesA.trans hMovesSkip, ?_⟩
    exact fun _ => hMovesSkip.length_le.trans_lt (hRead (by simpa using (Bool.and_eq_true_iff.mp hEqual).1))
  · refine (hSkip hMovesPeek).bind fun _ x hMovesSkip => meets_pure ⟨hMovesA.trans hMovesSkip, ?_⟩
    exact fun _ => hMovesSkip.length_le.trans_lt (hRead hEqual)

/-! ### Brackets -/

/-- The brackets leave less for what is between them. -/
theorem progresses_enclosed (h : Progresses n inner) {m : Nat} (hFuel : m ≤ n + 1) {first last : UInt8}
    (hFirst : first ≠ eofChar) : Progresses m (enclosed order m inner first last) := by
  intro s hs
  refine (meets_get hs).bind ?_
  rintro c t ⟨hChar, hRest, hMoves⟩
  refine meets_ite (fun _ => meets_pure ⟨hMoves, by simp⟩) fun hEqual => ?_
  have hLess : t.rest.length < s.rest.length := by
    rw [hRest]
    exact length_tail_lt (by rw [← hChar, not_not.mp hEqual]; exact hFirst)
  refine (progresses_skipWsp.meets hMoves fun hEnough => hLess.trans hEnough).bind ?_
  rintro _ u ⟨hMovesU, hMovesSkip, -⟩
  have hLessU := hMovesSkip.length_le.trans_lt hLess
  refine (h.meets hMovesU fun hEnough => by omega).bind ?_
  rintro _ v ⟨hMovesV, hMovesInner, -⟩
  refine meets_ite (fun _ => meets_pure ⟨hMovesV, by simp⟩) fun _ => ?_
  refine (progresses_skipWsp.meets hMovesV fun hEnough => hMovesV.length_le.trans_lt hEnough).bind ?_
  rintro _ w ⟨hMovesW, hMovesAgain, -⟩
  refine (meets_get hMovesW.ok).bind ?_
  rintro _ x ⟨-, -, hMovesGet⟩
  exact meets_pure ⟨hMovesW.trans hMovesGet, fun _ =>
    (hMovesInner.trans (hMovesAgain.trans hMovesGet)).length_le.trans_lt hLessU⟩

/-- The first bracket pays for the fuel that the inner function has less. -/
theorem progresses_brackets (h : Progresses n inner) {first last : UInt8} (hFirst : first ≠ eofChar) :
    Progresses (n + 1) (brackets order (n + 1) inner first last) := by
  intro s hs
  refine (meets_tellg hs).bind ?_
  rintro _ t ⟨rfl, -, hMoves⟩
  refine ((progresses_enclosed h le_rfl hFirst).meets hMoves fun hEnough => hMoves.length_le.trans_lt hEnough).bind ?_
  rintro success u ⟨hMovesU, -⟩
  have hBack : Meets (· = .blank) Advances (s.rest.length < n + 1) (Scan.when (!success) (Scan.restore s.tellg.1)) u
      fun _ v => s.Moves v :=
    meets_ite (fun _ => (meets_restore hs hMovesU).mono id fun _ _ hPost => hPost.2) fun _ => meets_pure hMovesU
  exact hBack.bind fun _ v hMovesV => meets_pure ⟨hMovesV, by simp⟩

/-- An element reads something, in brackets or without. -/
theorem progresses_elementWith (h : Progresses n inner) : Progresses (n + 1) (elementWith order (n + 1) inner) :=
  (acts_rulename.progresses eats_rulename).orElse <|
    (progresses_brackets h (by decide)).orElse <|
    (progresses_brackets h (by decide)).orElse <|
    (acts_charVal.progresses (eats_delimited (by decide))).orElse <|
    (acts_numVal.progresses eats_numVal).orElse <|
    acts_proseVal.progresses (eats_delimited (by decide))

/-- A repetition reads at least its element. -/
theorem progresses_repetitionWith (h : Progresses n inner) :
    Progresses (n + 1) (repetitionWith order (n + 1) inner) := by
  intro s hs
  refine (acts_repeat.meets hs).bind ?_
  rintro _ t ⟨-, -, hMoves⟩
  refine ((progresses_elementWith h).meets hMoves fun hEnough => hMoves.length_le.trans_lt hEnough).mono id ?_
  rintro success u ⟨hMovesU, -, hLess⟩
  exact ⟨hMovesU, fun hTrue => (hLess hTrue).trans_le hMoves.length_le⟩

/-! ### Concatenations and alternations -/

/-- The offset was taken on the way from one state to another. -/
def Marks (s : Istream) (offset : Option Nat) (t : Istream) : Prop :=
  ∃ u : Istream, offset = u.tellg.1 ∧ s.Moves u ∧ u.Moves t

/-- Behind a mark the stream has only moved on. -/
theorem Marks.moves {offset : Option Nat} (h : Marks s offset t) : s.Moves t := by
  obtain ⟨u, -, hMoves, hMovesOn⟩ := h
  exact hMoves.trans hMovesOn

/-- A mark stays one when the stream moves on. -/
theorem Marks.trans {offset : Option Nat} {u : Istream} (h : Marks s offset t) (hMoves : t.Moves u) :
    Marks s offset u := by
  obtain ⟨v, hOffset, hFirst, hSecond⟩ := h
  exact ⟨v, hOffset, hFirst, hSecond.trans hMoves⟩

/-- Going back to a mark is still moving on from the beginning. -/
theorem Marks.meets_restore {bad good : Event → Prop} {offset : Option Nat} (h : Marks s offset t) :
    Meets bad good enough (Scan.restore offset) t fun _ u => s.Moves u := by
  obtain ⟨u, rfl, hFirst, hSecond⟩ := h
  exact (AbnfParser.meets_restore hFirst.ok hSecond).mono id fun _ _ hPost => hFirst.trans hPost.2

/-- By induction on the turns: each turn that goes on has read a repetition, so what is left
shrinks below the turns that remain. -/
theorem meets_concatenationLoop (h : Progresses n inner) {k : Nat} (hk : k ≤ n + 1) {offset : Option Nat}
    (hMarks : Marks s offset t) (hEnough : enough → t.rest.length < k) :
    Meets (· = .blank) Advances enough (concatenationLoop order (n + 1) inner k offset b) t fun finish u =>
      Marks s finish.1 u := by
  induction k generalizing t offset b with
  | zero => exact meets_exhausted fun hTrue => absurd (hEnough hTrue) (by omega)
  | succ k ih =>
      have ht := hMarks.moves.ok
      refine meets_look.bind ?_
      rintro _ _ ⟨rfl, rfl⟩
      refine (progresses_cWsp.meets (Moves.refl ht) hEnough).bind ?_
      rintro _ u ⟨hMovesU, -, hLess⟩
      refine meets_ite (fun hTrue => ?_) fun _ => meets_pure (hMarks.trans hMovesU)
      have hLessU := hLess hTrue
      refine (progresses_skipWsp.meets hMovesU fun hTrue => by have := hEnough hTrue; omega).bind ?_
      rintro _ v ⟨hMovesV, hMovesSkip, -⟩
      have hLessV := hMovesSkip.length_le.trans_lt hLessU
      refine ((progresses_repetitionWith h).meets hMovesV fun hTrue => by have := hEnough hTrue; omega).bind ?_
      rintro _ w ⟨hMovesW, hMovesRepetition, -⟩
      refine meets_ite (fun _ => (meets_tellg hMovesW.ok).bind ?_) fun _ => meets_pure (hMarks.trans hMovesW)
      rintro _ x ⟨rfl, -, hMovesTell⟩
      have hLessX := (hMovesRepetition.trans hMovesTell).length_le.trans_lt hLessV
      refine meets_turn ((hMovesW.trans hMovesTell).pos_lt ht hLessX) ?_
      exact ih (by omega) ⟨w, rfl, hMarks.moves.trans hMovesW, hMovesTell⟩ fun hTrue => by have := hEnough hTrue; omega

/-- What is remembered behind the first part, from which a success has moved on. -/
theorem meets_offsetAfter {bad good : Event → Prop} {left : Bytes → Prop} {success : Bool} (hs : s.Ok)
    (hMoves : s.Moves t) (hLeft : success = true → left t.rest) :
    Meets bad good enough (offsetAfter success s.tellg.1) t fun offset u =>
      ∃ start, s.Moves start ∧ (success = true → left start.rest) ∧ Marks start offset u := by
  refine meets_ite (fun hTrue => ?_) fun hFalse => ?_
  · refine (meets_tellg hMoves.ok).mono id ?_
    rintro _ u ⟨rfl, -, hMovesTell⟩
    exact ⟨t, hMoves, hLeft, t, rfl, Moves.refl hMoves.ok, hMovesTell⟩
  · exact meets_pure ⟨s, Moves.refl hs, fun hTrue => absurd hTrue hFalse, s, rfl, Moves.refl hs, hMoves⟩

/-- What is true of the text behind the first part, and of every end of it, is true behind the
concatenation. -/
theorem meets_concatenationWith (h : Progresses n inner) {left : Bytes → Prop}
    (hEnds : ∀ r x, x <:+ r → left r → left x) (hs : s.Ok)
    (hFirst : ∀ t, t.rest = s.rest → s.Moves t →
      Meets (· = .blank) Advances (s.rest.length < n + 1) (repetitionWith order (n + 1) inner) t fun success u =>
        s.Moves u ∧ (success = true → left u.rest)) :
    Meets (· = .blank) Advances (s.rest.length < n + 1) (concatenationWith order (n + 1) inner b) s fun success t =>
      s.Moves t ∧ (success = true → left t.rest) := by
  refine (meets_tellg hs).bind ?_
  rintro _ t ⟨rfl, hRest, hMoves⟩
  refine (hFirst t hRest hMoves).bind ?_
  rintro success u ⟨hMovesU, hLeft⟩
  refine (meets_offsetAfter hs hMovesU hLeft).bind ?_
  rintro offset v ⟨start, hStart, hLeftStart, hMarks⟩
  refine (meets_concatenationLoop h le_rfl hMarks fun hEnough =>
    (hStart.trans hMarks.moves).length_le.trans_lt hEnough).bind ?_
  rintro finish w hMarksW
  have hBack : Meets (· = .blank) Advances (s.rest.length < n + 1)
      (Scan.when (!success || finish.2) (Scan.restore finish.1)) w fun _ x => start.Moves x :=
    meets_ite (fun _ => hMarksW.meets_restore) fun _ => meets_pure hMarksW.moves
  exact hBack.bind fun _ x hMovesX => meets_pure ⟨hStart.trans hMovesX, fun hTrue =>
    hEnds _ _ hMovesX.suffix (hLeftStart hTrue)⟩

/-- A concatenation reads at least its first repetition. -/
theorem progresses_concatenationWith (h : Progresses n inner) :
    Progresses (n + 1) (concatenationWith order (n + 1) inner b) := by
  intro s hs
  refine @meets_concatenationWith _ _ _ _ _ h (fun r => r.length < s.rest.length)
    (fun _ _ hSuffix hLess => hSuffix.length_le.trans_lt hLess) hs fun t hRest hMoves => ?_
  refine ((progresses_repetitionWith h).meets hMoves fun hEnough => hRest ▸ hEnough).mono id ?_
  rintro success u ⟨hMovesU, -, hLess⟩
  exact ⟨hMovesU, fun hTrue => hRest ▸ hLess hTrue⟩

/-- Each turn of the loop over concatenations that goes on has read one, so the turns suffice. -/
theorem meets_alternationLoop (h : Progresses n inner) {k : Nat} (hk : k ≤ n + 1) {offset : Option Nat}
    (hMarks : Marks s offset t) (hEnough : enough → t.rest.length < k) :
    Meets (· = .blank) Advances enough (alternationLoop order (n + 1) inner b k offset) t fun last u =>
      Marks s last u := by
  induction k generalizing t offset with
  | zero => exact meets_exhausted fun hTrue => absurd (hEnough hTrue) (by omega)
  | succ k ih =>
      have ht := hMarks.moves.ok
      have hFuel {u : Istream} (hMoves : t.Moves u) (hTrue : enough) : u.rest.length < n + 1 :=
        hMoves.length_le.trans_lt ((hEnough hTrue).trans_le hk)
      refine meets_look.bind ?_
      rintro _ _ ⟨rfl, rfl⟩
      refine (progresses_skipWsp.meets (Moves.refl ht) (hFuel (Moves.refl ht))).bind ?_
      rintro _ u ⟨hMovesU, -⟩
      refine (meets_get hMovesU.ok).bind ?_
      rintro c v ⟨hChar, hRest, hMovesGet⟩
      have hMovesV := hMovesU.trans hMovesGet
      refine meets_ite (fun _ => meets_pure (hMarks.trans hMovesV)) fun hEqual => ?_
      have hLess : v.rest.length < t.rest.length := by
        rw [hRest]
        refine (length_tail_lt ?_).trans_le hMovesU.length_le
        rw [← hChar, not_not.mp hEqual]
        decide
      refine (progresses_skipWsp.meets hMovesV (hFuel hMovesV)).bind ?_
      rintro _ w ⟨hMovesW, hMovesSkip, -⟩
      refine ((progresses_concatenationWith h).meets hMovesW (hFuel hMovesW)).bind ?_
      rintro _ x ⟨hMovesX, hMovesPart, -⟩
      refine meets_ite (fun _ => (meets_tellg hMovesX.ok).bind ?_) fun _ => meets_pure (hMarks.trans hMovesX)
      rintro _ y ⟨rfl, -, hMovesTell⟩
      have hLessY := (hMovesSkip.trans (hMovesPart.trans hMovesTell)).length_le.trans_lt hLess
      refine meets_turn ((hMovesX.trans hMovesTell).pos_lt ht hLessY) ?_
      exact ih (by omega) ⟨x, rfl, hMarks.moves.trans hMovesX, hMovesTell⟩ fun hTrue => by have := hEnough hTrue; omega

/-- What is true of the text behind the first concatenation, and of every end of it, is true
behind the alternation. -/
theorem meets_alternationWith (h : Progresses n inner) {left : Bytes → Prop}
    (hEnds : ∀ r x, x <:+ r → left r → left x) (hs : s.Ok)
    (hFirst : ∀ t, t.rest = s.rest → s.Moves t →
      Meets (· = .blank) Advances (s.rest.length < n + 1) (concatenationWith order (n + 1) inner b) t fun success u =>
        s.Moves u ∧ (success = true → left u.rest)) :
    Meets (· = .blank) Advances (s.rest.length < n + 1) (alternationWith order (n + 1) inner b) s fun success t =>
      s.Moves t ∧ (success = true → left t.rest) := by
  refine (meets_tellg hs).bind ?_
  rintro _ t ⟨rfl, hRest, hMoves⟩
  refine (hFirst t hRest hMoves).bind ?_
  rintro success u ⟨hMovesU, hLeft⟩
  refine (meets_offsetAfter hs hMovesU hLeft).bind ?_
  rintro offset v ⟨start, hStart, hLeftStart, hMarks⟩
  refine (meets_alternationLoop h le_rfl hMarks fun hEnough =>
    (hStart.trans hMarks.moves).length_le.trans_lt hEnough).bind ?_
  rintro last w hMarksW
  refine meets_ite (fun hTrue => meets_pure ⟨hStart.trans hMarksW.moves, fun _ => ?_⟩) fun _ => ?_
  · exact hEnds _ _ hMarksW.moves.suffix (hLeftStart hTrue)
  · exact hMarksW.meets_restore.bind fun _ x hMovesX => meets_pure ⟨hStart.trans hMovesX, by simp⟩

/-- An alternation progresses with any fuel, of which each bracket takes one. -/
theorem progresses_alternation : Progresses n (alternation order b n) := by
  induction n with
  | zero => exact fun s _ => meets_exhausted (by omega)
  | succ n ih =>
      intro s hs
      refine @meets_alternationWith _ _ _ _ _ ih (fun r => r.length < s.rest.length)
        (fun _ _ hSuffix hLess => hSuffix.length_le.trans_lt hLess) hs fun t hRest hMoves => ?_
      refine ((progresses_concatenationWith ih).meets hMoves fun hEnough => hRest ▸ hEnough).mono id ?_
      rintro success u ⟨hMovesU, -, hLess⟩
      exact ⟨hMovesU, fun hTrue => hRest ▸ hLess hTrue⟩

/-! ### Rules -/

theorem progresses_elements : Progresses n (elements order b n) := by
  intro s hs
  refine (progresses_alternation s hs).bind ?_
  rintro _ t ⟨hMoves, hLess⟩
  refine meets_ite (fun hTrue => ?_) fun _ => meets_pure ⟨hMoves, by simp⟩
  refine (progresses_skipWsp.meets hMoves fun hEnough => hMoves.length_le.trans_lt hEnough).bind ?_
  rintro _ u ⟨hMovesU, hMovesSkip, -⟩
  exact meets_pure ⟨hMovesU, fun _ => hMovesSkip.length_le.trans_lt (hLess hTrue)⟩

/-- Each turn of the rule loop reads a line of the rule. -/
theorem progresses_ruleLoop {k : Nat} (hk : k ≤ n) {next : Bool} : Progresses k (ruleLoop order b n k next) := by
  induction k generalizing next with
  | zero => exact fun s _ => meets_exhausted (by omega)
  | succ k ih =>
      intro s hs
      have hFuel {t : Istream} (hMoves : s.Moves t) (hEnough : s.rest.length < k + 1) : t.rest.length < n :=
        hMoves.length_le.trans_lt (hEnough.trans_le hk)
      refine meets_look.bind ?_
      rintro _ _ ⟨rfl, rfl⟩
      have hSkip : Meets (· = .blank) Advances (s.rest.length < k + 1)
          (Scan.when next do let _ ← skipWsp order n) s fun _ t => s.Moves t := by
        refine meets_ite (fun _ => ?_) fun _ => meets_pure (Moves.refl hs)
        refine (progresses_skipWsp.meets (Moves.refl hs) (hFuel (Moves.refl hs))).bind ?_
        rintro _ t ⟨hMoves, -⟩
        exact meets_pure hMoves
      refine hSkip.bind fun _ t hMovesT => ?_
      refine (progresses_elements.meets hMovesT (hFuel hMovesT)).bind ?_
      rintro _ u ⟨hMovesU, -, hLess⟩
      refine meets_ite (fun _ => meets_pure ⟨hMovesU, by simp⟩) fun hTrue => ?_
      have hLessU := (hLess (by simpa using hTrue)).trans_le hMovesT.length_le
      refine (progresses_cNl.meets hMovesU (hFuel hMovesU)).bind ?_
      rintro _ v ⟨hMovesV, hMovesNl, -⟩
      refine meets_ite (fun _ => meets_pure ⟨hMovesV, by simp⟩) fun _ => ?_
      have hLessV := hMovesNl.length_le.trans_lt hLessU
      refine (progresses_cWsp.meets hMovesV (hFuel hMovesV)).bind ?_
      rintro _ w ⟨hMovesW, hMovesWsp, -⟩
      have hLessW := hMovesWsp.length_le.trans_lt hLessV
      refine meets_ite (fun _ => meets_turn (hMovesW.pos_lt hs hLessW) ?_) fun _ => meets_pure ⟨hMovesW, fun _ => hLessW⟩
      refine ((ih (by omega)).meets hMovesW fun hEnough => by omega).mono id ?_
      rintro _ x ⟨hMovesX, hMovesLoop, -⟩
      exact ⟨hMovesX, fun _ => hMovesLoop.length_le.trans_lt hLessW⟩

theorem progresses_rule : Progresses n (rule order b n) := by
  refine progresses_attempt fun s hs => ?_
  refine (acts_rulename.progresses eats_rulename s hs).bind ?_
  rintro _ t ⟨hMoves, hLess⟩
  refine meets_ite (fun _ => meets_pure ⟨hMoves, by simp⟩) fun hTrue => ?_
  refine (progresses_definedAs.meets hMoves fun hEnough => hMoves.length_le.trans_lt hEnough).bind ?_
  rintro _ u ⟨hMovesU, hMovesDefined, -⟩
  refine meets_ite (fun _ => meets_pure ⟨hMovesU, by simp⟩) fun _ => ?_
  refine ((progresses_ruleLoop le_rfl).meets hMovesU fun hEnough => hMovesU.length_le.trans_lt hEnough).mono id ?_
  rintro _ v ⟨hMovesV, hMovesLoop, -⟩
  exact ⟨hMovesV, fun _ => (hMovesDefined.trans hMovesLoop).length_le.trans_lt (hLess (by simpa using hTrue))⟩

/-- Each turn of the outermost loop reads a rule or a blank line, or is the last. -/
theorem meets_rulelistLoop {k : Nat} (hk : k ≤ n) {success : Bool} (hs : s.Ok) :
    Meets (· = .blank) Advances (s.rest.length < k) (rulelistLoop order b n k success) s fun _ _ => True := by
  induction k generalizing s success with
  | zero => exact meets_exhausted (by omega)
  | succ k ih =>
      have hFuel {t : Istream} (hMoves : s.Moves t) (hEnough : s.rest.length < k + 1) : t.rest.length < n :=
        hMoves.length_le.trans_lt (hEnough.trans_le hk)
      have hTurn {t : Istream} (hMoves : s.Moves t) (hLess : t.rest.length < s.rest.length) :
          Meets (· = .blank) Advances (s.rest.length < k + 1)
            (do emit (.turn s.pos (← Scan.position)); rulelistLoop order b n k true) t fun _ _ => True :=
        meets_turn (hMoves.pos_lt hs hLess) ((ih (by omega) hMoves.ok).mono (fun hEnough => by omega) fun _ _ => id)
      refine meets_look.bind ?_
      rintro _ _ ⟨rfl, rfl⟩
      refine (progresses_rule.meets (Moves.refl hs) (hFuel (Moves.refl hs))).bind ?_
      rintro _ t ⟨hMoves, -, hLess⟩
      refine meets_ite (fun hTrue => hTurn hMoves (hLess hTrue)) fun _ => ?_
      refine (progresses_skipWsp.meets hMoves (hFuel hMoves)).bind ?_
      rintro _ u ⟨hMovesU, -⟩
      refine (progresses_cNl.meets hMovesU (hFuel hMovesU)).bind ?_
      rintro _ v ⟨hMovesV, -, hLessNl⟩
      exact meets_ite (fun hTrue => hTurn hMovesV ((hLessNl hTrue).trans_le hMovesU.length_le)) fun _ =>
        meets_pure trivial

/-- A run that has met a blank does not return, whatever fuel it is given. -/
theorem result_of_blank {m : Nat} {grammar : Bytes} (h : Event.blank ∈ (rulelist order b m grammar).log) :
    (rulelist order b n grammar).result = none := by
  have hMore : Event.blank ∈ (rulelist order b (max m n) grammar).log := by
    rcases extends_rulelist (le_max_left m n) grammar with hSame | ⟨-, hLog⟩
    · rwa [← hSame]
    · exact hLog.subset h
  rcases extends_rulelist (le_max_right m n) grammar with hSame | ⟨hNone, -⟩
  · rw [hSame]
    by_contra hReturns
    exact blankless_rulelist (opened grammar) hReturns _ hMore rfl
  · exact hNone

/-- A grammar is read in finitely many steps, and whatever loop is entered reads something
in each turn, if and only if no call of `c_wsp` ever finds a blank in front of it. -/
theorem terminates_iff (order : Order) (b : Bool) (grammar : Bytes) :
    ((∃ n, (rulelist order b n grammar).result ≠ none) ∧
        ∀ n, ∀ e ∈ (rulelist order b n grammar).log, Advances e) ↔
      ∀ n, Event.blank ∉ (rulelist order b n grammar).log := by
  constructor
  · rintro ⟨⟨n, hResult⟩, -⟩ m hBlank
    exact hResult (result_of_blank hBlank)
  · intro hBlank
    have hOk : (opened grammar).Ok := ⟨Nat.zero_le _, fun hNot => by cases hNot⟩
    have hMeets (n : Nat) := @meets_rulelistLoop order b n (opened grammar) n le_rfl false hOk fun e he hEqual =>
      hBlank n (hEqual ▸ he)
    exact ⟨⟨_, (hMeets _).2.2 (Nat.lt_succ_self _)⟩, fun n => (hMeets n).1⟩

/-- `a = b`. -/
theorem blank_behind_name :
    ¬((∃ n, (rulelist .rightToLeft false n [0x61, 0x20, 0x3D, 0x20, 0x62]).result ≠ none) ∧
      ∀ n, ∀ e ∈ (rulelist .rightToLeft false n [0x61, 0x20, 0x3D, 0x20, 0x62]).log, Advances e) := by
  rintro ⟨⟨n, hResult⟩, -⟩
  have hBlank : Event.blank ∈ (rulelist .rightToLeft false 1 [0x61, 0x20, 0x3D, 0x20, 0x62]).log := by decide
  exact hResult (result_of_blank hBlank)

end ImpactSockets.AbnfParser
