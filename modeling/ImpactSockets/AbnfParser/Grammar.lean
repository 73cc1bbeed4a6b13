import Mathlib
import ImpactSockets.Library.Abnf
import ImpactSockets.AbnfParser.Recognisers

/-! The productions that the comments of `ABNF_Parser/main.cpp` quote. A letter in a quoted
string stands for both of its cases. -/
namespace ImpactSockets.AbnfParser.Grammar

open Abnf AbnfOps
open scoped Computability

/-- A quoted string of one letter, which is given in lower case. -/
def letter (c : UInt8) : Language UInt8 := oneOf fun d => Ascii.tolower d == c

/-- `comment = ";" *(WSP / VCHAR) CRLF`. -/
def comment : Language UInt8 := literal [0x3B] * (oneOf fun c => wsp c || vchar c)∗ * literal [0x0D, 0x0A]

/-- `c-nl = comment / CRLF`. -/
def cNl : Language UInt8 := comment + literal [0x0D, 0x0A]

/-- `c-wsp = WSP / (c-nl WSP)`. -/
def cWsp : Language UInt8 := oneOf wsp + cNl * oneOf wsp

/-- `rulename = ALPHA *(ALPHA / DIGIT / "-")`. -/
def rulename : Language UInt8 := oneOf alpha * (oneOf rulenameChar)∗

/-- `char-val = DQUOTE *(%x20-21 / %x23-7E) DQUOTE`. -/
def charVal : Language UInt8 := literal [0x22] * (oneOf quotedChar)∗ * literal [0x22]

/-- `1*BIT`, or the same with other digits. -/
def numeral (digit : UInt8 → Bool) : Language UInt8 := atLeastOne (oneOf digit)

/-- `1*BIT [ 1*("." 1*BIT) / ("-" 1*BIT) ]`, or the same with other digits. -/
def series (digit : UInt8 → Bool) : Language UInt8 :=
  numeral digit *
    Abnf.optional (atLeastOne (literal [0x2E] * numeral digit) + literal [0x2D] * numeral digit)

/-- `bin-val = "b" 1*BIT [ 1*("." 1*BIT) / ("-" 1*BIT) ]`. -/
def binVal : Language UInt8 := letter 0x62 * series bit

/-- `dec-val = "d" 1*DIGIT [ 1*("." 1*DIGIT) / ("-" 1*DIGIT) ]`. -/
def decVal : Language UInt8 := letter 0x64 * series digit

/-- `hex-val = "x" 1*HEXDIG [ 1*("." 1*HEXDIG) / ("-" 1*HEXDIG) ]`. -/
def hexVal : Language UInt8 := letter 0x78 * series hexdig

/-- `num-val = "%" (bin-val / dec-val / hex-val)`. -/
def numVal : Language UInt8 := literal [0x25] * (binVal + decVal + hexVal)

/-- `prose-val = "<" *(%x20-3D / %x3F-7E) ">"`. -/
def proseVal : Language UInt8 := literal [0x3C] * (oneOf proseChar)∗ * literal [0x3E]

/-- `repeat = 1*DIGIT / (*DIGIT "*" *DIGIT)`. -/
def repeat_ : Language UInt8 :=
  atLeastOne (oneOf digit) + (oneOf digit)∗ * literal [0x2A] * (oneOf digit)∗

/-! ### The recursive productions -/

/-- `"(" *c-wsp alternation *c-wsp ")"`, or the same with other brackets. -/
def bracketed (first last : UInt8) (alternation : Language UInt8) : Language UInt8 :=
  literal [first] * cWsp∗ * alternation * cWsp∗ * literal [last]

/-- `element = rulename / group / option / char-val / num-val / prose-val`. -/
def elementOf (group option : Language UInt8) : Language UInt8 :=
  rulename + (group + (option + (charVal + (numVal + proseVal))))

/-- `repetition = [repeat] element`. -/
def repetitionOf (element : Language UInt8) : Language UInt8 := Abnf.optional repeat_ * element

/-- `concatenation = repetition *(1*c-wsp repetition)`. -/
def concatenationOf (repetition : Language UInt8) : Language UInt8 := repetition * (atLeastOne cWsp * repetition)∗

/-- `alternation = concatenation *(*c-wsp "/" *c-wsp concatenation)`. -/
def alternationOf (concatenation : Language UInt8) : Language UInt8 :=
  concatenation * (cWsp∗ * literal [0x2F] * cWsp∗ * concatenation)∗

/-- What an alternation is, given what it is within brackets. -/
def alternationWithin (inner : Language UInt8) : Language UInt8 :=
  alternationOf (concatenationOf (repetitionOf (elementOf (bracketed 0x28 0x29 inner) (bracketed 0x5B 0x5D inner))))

theorem alternationWithin_mono : Monotone alternationWithin := by
  intro L M h
  unfold alternationWithin alternationOf concatenationOf repetitionOf elementOf bracketed
  gcongr

/-- The least language that fits the productions. -/
noncomputable def alternation : Language UInt8 := OrderHom.lfp ⟨alternationWithin, alternationWithin_mono⟩

/-- `group = "(" *c-wsp alternation *c-wsp ")"`. -/
noncomputable def group : Language UInt8 := bracketed 0x28 0x29 alternation

/-- `option = "[" *c-wsp alternation *c-wsp "]"`. -/
noncomputable def option : Language UInt8 := bracketed 0x5B 0x5D alternation

noncomputable def element : Language UInt8 := elementOf group option

noncomputable def repetition : Language UInt8 := repetitionOf element

noncomputable def concatenation : Language UInt8 := concatenationOf repetition

theorem alternation_eq : alternation = alternationOf concatenation :=
  (OrderHom.map_lfp ⟨alternationWithin, alternationWithin_mono⟩).symm

end ImpactSockets.AbnfParser.Grammar
