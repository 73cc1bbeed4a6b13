import ImpactSockets.Library.AbnfPrefixes
import ImpactSockets.AbnfParser.Grammar

/-! How far a text has to look like an alternation for the functions of `ABNF_Parser/main.cpp`
to take it for one, or for the production to derive a prefix of it. -/
namespace ImpactSockets.AbnfParser

open Abnf AbnfOps
open scoped Computability

variable {order : Order}

/-- What `c_nl` reads. The argument of `CRLF` that is evaluated first gets the first character. -/
def newline (order : Order) : Language UInt8 :=
  Grammar.comment + literal (if order = .leftToRight then [0x0D, 0x0A] else [0x0A, 0x0D])

/-- What `c_wsp` reads. It stays in front of a blank. -/
def folding (order : Order) : Language UInt8 := newline order * oneOf wsp

/-- What stands between two parts, for the production or for `c_wsp`. -/
def gap (order : Order) : Language UInt8 := Grammar.cWsp + folding order

/-- An element without brackets. -/
def simple : Language UInt8 := Grammar.rulename + (Grammar.charVal + (Grammar.numVal + Grammar.proseVal))

/-- A bracket, gaps, the beginning of what belongs there, any text and the other bracket. -/
def enclosing (order : Order) (first last : UInt8) (opening : Language UInt8) : Language UInt8 :=
  literal [first] * (gap order)∗ * opening * ⊤ * literal [last]

/-- The same with brackets of either kind. -/
def bracketing (order : Order) (opening : Language UInt8) : Language UInt8 :=
  enclosing order 0x28 0x29 opening + enclosing order 0x5B 0x5D opening

/-- How an alternation begins, given how it begins within brackets. -/
def openingWithin (order : Order) (inner : Language UInt8) : Language UInt8 :=
  Abnf.optional Grammar.repeat_ * (simple + bracketing order inner)

/-- What may begin an alternation grows with what may begin it within brackets. -/
theorem openingWithin_mono : Monotone (openingWithin order) := by
  intro L M h
  unfold openingWithin bracketing enclosing
  gcongr

/-- The beginning of an alternation: a first element behind an optional repeat, with any text
between the first element within brackets and the closing one. -/
noncomputable def opening (order : Order) : Language UInt8 :=
  OrderHom.lfp ⟨openingWithin order, openingWithin_mono⟩

/-- The least fixed point, unfolded once. -/
theorem opening_eq : opening order = openingWithin order (opening order) :=
  (OrderHom.map_lfp ⟨openingWithin order, openingWithin_mono⟩).symm

/-! ### The productions -/

theorem cWsp_le_gap : Grammar.cWsp ≤ gap order := le_sup_left

/-- The brackets of the grammar enclose what begins in the same way. -/
theorem bracketed_le_enclosing {first last : UInt8} {inner opening : Language UInt8} (h : inner ≤ opening * ⊤) :
    Grammar.bracketed first last inner ≤ enclosing order first last opening :=
  calc Grammar.bracketed first last inner
      ≤ literal [first] * (gap order)∗ * (opening * ⊤) * ⊤ * literal [last] := by
        unfold Grammar.bracketed
        gcongr
        · exact cWsp_le_gap
        · exact le_top
    _ = literal [first] * (gap order)∗ * opening * (⊤ * ⊤) * literal [last] := by simp only [mul_assoc]
    _ ≤ enclosing order first last opening := by
        unfold enclosing
        gcongr
        exact le_top

/-- An element begins without brackets, or is within them. -/
theorem elementOf_le {inner opening : Language UInt8} (h : inner ≤ opening * ⊤) :
    Grammar.elementOf (Grammar.bracketed 0x28 0x29 inner) (Grammar.bracketed 0x5B 0x5D inner) ≤
      simple + bracketing order opening := by
  have hParens : Grammar.bracketed 0x28 0x29 inner ≤ bracketing order opening :=
    (bracketed_le_enclosing h).trans le_sup_left
  have hSquares : Grammar.bracketed 0x5B 0x5D inner ≤ bracketing order opening :=
    (bracketed_le_enclosing h).trans le_sup_right
  rintro w (hw | hw | hw | hw | hw | hw)
  · exact .inl (.inl hw)
  · exact .inr (hParens hw)
  · exact .inr (hSquares hw)
  · exact .inl (.inr (.inl hw))
  · exact .inl (.inr (.inr (.inl hw)))
  · exact .inl (.inr (.inr (.inr hw)))

/-- Every alternation of the grammar begins with an opening. -/
theorem alternation_le_opening : Grammar.alternation ≤ opening order * ⊤ := by
  refine OrderHom.lfp_le _ ?_
  calc Grammar.alternationWithin (opening order * ⊤)
      ≤ Abnf.optional Grammar.repeat_ * (simple + bracketing order (opening order)) * ⊤ * ⊤ := by
        unfold Grammar.alternationWithin Grammar.alternationOf Grammar.concatenationOf Grammar.repetitionOf
        gcongr
        · exact elementOf_le le_rfl
        · exact le_top
        · exact le_top
    _ ≤ Abnf.optional Grammar.repeat_ * (simple + bracketing order (opening order)) * ⊤ := mul_mul_top_le
    _ = opening order * ⊤ := by rw [← openingWithin, ← opening_eq]

theorem group_le_enclosing : Grammar.group ≤ enclosing order 0x28 0x29 (opening order) :=
  bracketed_le_enclosing alternation_le_opening

theorem option_le_enclosing : Grammar.option ≤ enclosing order 0x5B 0x5D (opening order) :=
  bracketed_le_enclosing alternation_le_opening

/-- Every element of the grammar is simple or bracketed. -/
theorem element_le : Grammar.element ≤ simple + bracketing order (opening order) := elementOf_le alternation_le_opening

theorem simple_le_element : simple ≤ Grammar.element := by
  rintro w (hw | hw | hw | hw)
  · exact .inl hw
  · exact .inr (.inr (.inr (.inl hw)))
  · exact .inr (.inr (.inr (.inr (.inl hw))))
  · exact .inr (.inr (.inr (.inr (.inr hw))))

end ImpactSockets.AbnfParser
