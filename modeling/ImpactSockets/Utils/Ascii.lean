import ImpactSockets.Utils.AbnfOps

/-! The ASCII characters that delimit something in a URI, and the functions of
`<cctype>` in the "C" locale. -/
namespace ImpactSockets.Ascii

abbrev hash : UInt8 := 0x23
abbrev percent : UInt8 := 0x25
abbrev dot : UInt8 := 0x2E
abbrev slash : UInt8 := 0x2F
abbrev colon : UInt8 := 0x3A
abbrev question : UInt8 := 0x3F
abbrev at_ : UInt8 := 0x40
abbrev openBracket : UInt8 := 0x5B
abbrev closeBracket : UInt8 := 0x5D

def upper (c : UInt8) : Bool := 0x41 ≤ c && c ≤ 0x5A

def lower (c : UInt8) : Bool := 0x61 ≤ c && c ≤ 0x7A

def tolower (c : UInt8) : UInt8 := if upper c then c + 0x20 else c

def toupper (c : UInt8) : UInt8 := if lower c then c - 0x20 else c

/-- `std::isspace`, which formatted input skips. -/
def isspace (c : UInt8) : Bool := c == 0x20 || (0x09 ≤ c && c ≤ 0x0D)

end ImpactSockets.Ascii
