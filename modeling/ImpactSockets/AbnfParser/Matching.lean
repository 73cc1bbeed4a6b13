import ImpactSockets.AbnfParser.Alternations

/-! When each recogniser reads a prefix of the text that its production derives. -/
namespace ImpactSockets.AbnfParser

open Abnf AbnfOps Fuelled Istream

inductive Recogniser where
  | comment
  | cNl
  | rulename
  | charVal
  | binVal
  | decVal
  | hexVal
  | numVal
  | proseVal
  | repeat_
  | group
  | option
  | concatenation
  | alternation
deriving DecidableEq, Repr

namespace Recogniser

def run (order : Order) (b : Bool) (n : Nat) : Recogniser → Scan Bool
  | comment => AbnfParser.comment
  | cNl => AbnfParser.cNl order
  | rulename => AbnfParser.rulename
  | charVal => AbnfParser.charVal
  | binVal => AbnfParser.binVal
  | decVal => AbnfParser.decVal
  | hexVal => AbnfParser.hexVal
  | numVal => AbnfParser.numVal
  | proseVal => AbnfParser.proseVal
  | repeat_ => AbnfParser.repeat_
  | group => AbnfParser.group order b n
  | option => AbnfParser.option order b n
  | concatenation => AbnfParser.concatenation order b n
  | alternation => AbnfParser.alternation order b n

/-- The production that the comment of the function quotes. -/
noncomputable def production : Recogniser → Language UInt8
  | comment => Grammar.comment
  | cNl => Grammar.cNl
  | rulename => Grammar.rulename
  | charVal => Grammar.charVal
  | binVal => Grammar.binVal
  | decVal => Grammar.decVal
  | hexVal => Grammar.hexVal
  | numVal => Grammar.numVal
  | proseVal => Grammar.proseVal
  | repeat_ => Grammar.repeat_
  | group => Grammar.group
  | option => Grammar.option
  | concatenation => Grammar.concatenation
  | alternation => Grammar.alternation

/-- The functions that loop over parts, or read them within brackets. -/
def nested : Recogniser → Bool
  | group => true
  | option => true
  | concatenation => true
  | alternation => true
  | _ => false

/-- The texts on which the function does what its production says. -/
def Right (order : Order) (r : Bytes) : Recogniser → Prop
  | comment => True
  | cNl => order = .leftToRight ∨ ¬[0x0D, 0x0A] <+: r ∧ ¬[0x0A, 0x0D] <+: r
  | rulename => True
  | charVal => True
  | binVal => ¬Begins 0x62 bit r ∧ ¬Accepted 0x64 bit r
  | decVal => Begins 0x64 digit r → Accepted 0x64 digit r
  | hexVal => Begins 0x78 hexdig r → Accepted 0x78 hexdig r
  | numVal => ∀ x, r = 0x25 :: x → ValueRead x
  | proseVal => True
  | repeat_ => True
  | group => ¬∃ w ∈ enclosing order 0x28 0x29 (opening order), w <+: r
  | option => ¬∃ w ∈ enclosing order 0x5B 0x5D (opening order), w <+: r
  | concatenation => Orderly order r
  | alternation => Barren order r ∨ r ∈ plainAlternation order

end Recogniser

/-- The result is true if and only if a prefix of what is left is in the language. The stream
is then left behind such a prefix, and otherwise where it was. -/
structure Matches (L : Language UInt8) (s : Istream) (success : Bool) (t : Istream) : Prop where
  accepts : success = true ↔ ∃ w ∈ L, w <+: s.rest
  behind : success = true → ∃ w ∈ L, w <+: s.rest ∧ t.pos = s.pos + w.length
  unmoved : success = false → t.pos = s.pos

variable {order : Order} {b : Bool} {n : Nat} {inner p : Scan Bool} {s t : Istream} {L : Language UInt8}
  {success : Bool} {log : List Event}

/-- The same by what is left instead of the position. -/
theorem matches_iff (hs : s.Ok) (hMoves : s.Moves t) :
    Matches L s success t ↔ (success = true ↔ ∃ w ∈ L, w <+: s.rest) ∧
      (success = true → ∃ w ∈ L, s.rest = w ++ t.rest) ∧ (success = false → t.rest = s.rest) := by
  simp only [hMoves.rest_eq_append_iff hs, hMoves.rest_eq_iff hs]
  exact ⟨fun h => ⟨h.accepts, h.behind, h.unmoved⟩, fun h => ⟨h.1, h.2.1, h.2.2⟩⟩

/-- A function without recursion matches its production where its text function does. -/
theorem Acts.matches_iff {F : Bytes → Bool × Bytes} (h : Acts p F) (hs : s.Ok) (hRun : p s = ⟨some success, t, log⟩) :
    Matches L s success t ↔ Recognises L F s.rest := by
  obtain ⟨u, hRunText, hReads⟩ := h.run s.rest s hs rfl
  rw [hRun] at hRunText
  obtain ⟨hResult, rfl, -⟩ := Outcome.mk.inj hRunText
  obtain rfl := Option.some.inj hResult
  rw [AbnfParser.matches_iff hs (hReads.moves (h.suffix _)), hReads.rest]
  constructor
  · rintro ⟨hAccepts, hSound, hUnmoved⟩
    exact ⟨hSound, hAccepts.mpr, hUnmoved⟩
  · intro hF
    refine ⟨⟨fun hTrue => ?_, hF.complete⟩, hF.sound, hF.unmoved⟩
    obtain ⟨w, hw, hText⟩ := hF.sound hTrue
    exact ⟨w, hw, _, hText.symm⟩

/-- What is read and refused on the text, as positions of the stream. -/
theorem matches_of_reads (hs : s.Ok) (hMoves : s.Moves t) (hTrue : success = true → ∃ w ∈ L, s.rest = w ++ t.rest)
    (hFalse : success = false → (¬∃ w ∈ L, w <+: s.rest) ∧ t.rest = s.rest) : Matches L s success t := by
  refine (matches_iff hs hMoves).mpr ⟨⟨fun hSuccess => ?_, fun hWord => ?_⟩, hTrue, fun hFailure => (hFalse hFailure).2⟩
  · obtain ⟨w, hw, hText⟩ := hTrue hSuccess
    exact ⟨w, hw, _, hText.symm⟩
  · by_contra hFailure
    exact (hFalse (by simpa using hFailure)).1 hWord

/-- Where nothing is enclosed, brackets are right to fail. -/
theorem matches_brackets {first last : UInt8} (hFirst : eofChar ≠ first) (hLast : eofChar ≠ last)
    (hL : L ≤ enclosing order first last (opening order)) (hs : s.Ok)
    (hRun : brackets order n (alternation order b n) first last s = ⟨some success, t, log⟩)
    (hNone : ¬∃ w ∈ enclosing order first last (opening order), w <+: s.rest) : Matches L s success t := by
  obtain ⟨rfl, hMoves, hRest | ⟨w, hw, hText⟩⟩ := (returning_brackets overreads_alternation hFirst hLast hs).of_run
    (blankless_brackets blankless_alternation first last) hRun
  · refine matches_of_reads hs hMoves (by simp) fun _ => ⟨?_, hRest⟩
    exact fun ⟨w, hw, hPrefix⟩ => hNone ⟨w, hL hw, hPrefix⟩
  · exact absurd ⟨w, hw, t.rest, hText.symm⟩ hNone

/-- A plain alternation is read whole, and where none begins there is none. -/
theorem matches_alternation (hs : s.Ok) (hRun : alternation order b n s = ⟨some success, t, log⟩)
    (hRight : Barren order s.rest ∨ s.rest ∈ plainAlternation order) :
    Matches Grammar.alternation s success t := by
  cases n with
  | zero => cases hRun
  | succ n =>
      have hBlankless : Blankless (alternation order b (n + 1)) := blankless_alternation
      rcases hRight with hBarren | hPlain
      · obtain ⟨rfl, hMoves, hRest⟩ := (returning_alternationWith_of_barren progresses_alternation
          overreads_alternation hs hBarren).of_run hBlankless hRun
        refine matches_of_reads hs hMoves (by simp) fun _ => ⟨fun hWord => hBarren.first ?_, hRest⟩
        exact exists_prefix_of_le alternation_le_opening hWord
      · obtain ⟨rfl, hMoves, hRest⟩ := (leaves_alternationWith overreads_alternation hPlain s hs rfl).of_run
          hBlankless hRun
        refine matches_of_reads hs hMoves (fun _ => ⟨s.rest, plainAlternation_le hPlain, ?_⟩) (by simp)
        rw [hRest, List.append_nil]

/-- On every text on which the call returns, the function matches its production where it is
right. For all but the functions with loops over parts or with brackets it matches nowhere
else. -/
theorem matches_of_right (f : Recogniser) (order : Order) (b : Bool) (n : Nat) {s t : Istream} (hs : s.Ok)
    {success : Bool} {log : List Event} (hRun : f.run order b n s = ⟨some success, t, log⟩) :
    (f.Right order s.rest → Matches f.production s success t) ∧
      (f.nested = false → Matches f.production s success t → f.Right order s.rest) := by
  have hExact {L : Language UInt8} {c : Prop} (h : Matches L s success t ↔ c) :
      (c → Matches L s success t) ∧ (f.nested = false → Matches L s success t → c) := ⟨h.mpr, fun _ => h.mp⟩
  cases f with
  | comment => exact hExact (iff_true_intro ((acts_comment.matches_iff hs hRun).mpr recognises_comment))
  | cNl => exact hExact (((acts_cNl order).matches_iff hs hRun).trans recognises_cNl_iff)
  | rulename => exact hExact (iff_true_intro ((acts_rulename.matches_iff hs hRun).mpr recognises_rulename))
  | charVal => exact hExact (iff_true_intro ((acts_charVal.matches_iff hs hRun).mpr recognises_charVal))
  | binVal =>
      exact hExact (((acts_numericVal 0x64 (by decide)).matches_iff hs hRun).trans
        (recognises_other_value_iff (by decide) (by decide) (by decide) (by decide)))
  | decVal =>
      exact hExact (((acts_numericVal 0x64 (by decide)).matches_iff hs hRun).trans
        (recognises_value_iff (by decide) (by decide) (by decide) (by decide)))
  | hexVal =>
      exact hExact (((acts_numericVal 0x78 (by decide)).matches_iff hs hRun).trans
        (recognises_value_iff (by decide) (by decide) (by decide) (by decide)))
  | numVal => exact hExact ((acts_numVal.matches_iff hs hRun).trans recognises_numVal_iff)
  | proseVal => exact hExact (iff_true_intro ((acts_proseVal.matches_iff hs hRun).mpr recognises_proseVal))
  | repeat_ => exact hExact (iff_true_intro ((acts_repeat.matches_iff hs hRun).mpr recognises_repeat))
  | group => exact ⟨matches_brackets (by decide) (by decide) group_le_enclosing hs hRun, by simp [Recogniser.nested]⟩
  | option => exact ⟨matches_brackets (by decide) (by decide) option_le_enclosing hs hRun, by simp [Recogniser.nested]⟩
  | concatenation =>
      refine ⟨fun hOrderly => ?_, by simp [Recogniser.nested]⟩
      obtain ⟨hMoves, hTrue, hFalse⟩ := (returning_concatenationWith overreads_alternation hOrderly hs).of_run
        (blankless_concatenationWith blankless_alternation) hRun
      exact matches_of_reads hs hMoves hTrue hFalse
  | alternation => exact ⟨matches_alternation hs hRun, by simp [Recogniser.nested]⟩

/-- `a`, a line break, a blank and `b`. -/
theorem continued_alternation :
    Matches Grammar.alternation ⟨[0x61, 0x0D, 0x0A, 0x20, 0x62], 0, false, false⟩ true
      ⟨[0x61, 0x0D, 0x0A, 0x20, 0x62], 5, false, true⟩ := by
  have hRun : Recogniser.alternation.run .leftToRight false 3 ⟨[0x61, 0x0D, 0x0A, 0x20, 0x62], 0, false, false⟩ =
      ⟨some true, ⟨[0x61, 0x0D, 0x0A, 0x20, 0x62], 5, false, true⟩, [.turn 1 5]⟩ := by
    decide
  have hPart (c : UInt8) (hc : alpha c = true) : [c] ∈ plainPart :=
    ⟨[], mem_optional.mpr (.inl rfl), [c], .inl (cons_mem_oneOf_mul.mpr ⟨hc, Language.nil_mem_kstar _⟩), rfl⟩
  have hGap : [0x0D, 0x0A, 0x20] ∈ plainGap .leftToRight :=
    ⟨.inr ⟨[0x0D, 0x0A], .inr rfl, [0x20], ⟨0x20, rfl, rfl⟩, rfl⟩, [0x0D, 0x0A], .inr rfl, [0x20], ⟨0x20, rfl, rfl⟩, rfl⟩
  have hGaps : [0x0D, 0x0A, 0x20] ∈ atLeastOne (plainGap .leftToRight) :=
    Language.append_mem_mul hGap (Language.nil_mem_kstar _)
  have hPlain : [0x61, 0x0D, 0x0A, 0x20, 0x62] ∈ plainAlternation .leftToRight := by
    refine ⟨[0x61] ++ ([0x0D, 0x0A, 0x20] ++ [0x62]), ?_, [], Language.nil_mem_kstar _, rfl⟩
    exact Language.append_mem_mul (hPart 0x61 rfl) (mem_kstar_of_mem (Language.append_mem_mul hGaps (hPart 0x62 rfl)))
  exact (matches_of_right .alternation .leftToRight false 3 ⟨Nat.zero_le _, by simp [Istream.good]⟩ hRun).1
    (.inr hPlain)

/-- `b1`, where the letter of a decimal value is asked for. -/
theorem bits_refused :
    Recogniser.binVal.run .leftToRight false 0 ⟨[0x62, 0x31], 0, false, false⟩ =
        ⟨some false, ⟨[0x62, 0x31], 0, false, false⟩, []⟩ ∧
      ¬Matches Recogniser.binVal.production ⟨[0x62, 0x31], 0, false, false⟩ false ⟨[0x62, 0x31], 0, false, false⟩ := by
  refine ⟨by decide, fun h => ?_⟩
  have hWord : ∃ w ∈ Grammar.binVal, w <+: [0x62, 0x31] :=
    value_prefix_iff.mpr ⟨0x62, 0x31, [], rfl, by decide, by decide⟩
  exact absurd (h.accepts.mpr hWord) (by simp)

end ImpactSockets.AbnfParser
