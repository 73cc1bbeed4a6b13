import Mathlib.Data.FinEnum

/-! Byte strings and the character classes of `utils/abnf_ops.h`. A C++ `char`
is one byte; the classes only compare with ASCII bounds, so a signed `char`
below zero and the byte above `0x7F` it stands for are treated alike. -/
namespace ImpactSockets

/-- The contents of a `std::string`. -/
abbrev Bytes := List UInt8

namespace AbnfOps

def alpha (c : UInt8) : Bool := (0x41 ≤ c && c ≤ 0x5A) || (0x61 ≤ c && c ≤ 0x7A)

def digit (c : UInt8) : Bool := 0x30 ≤ c && c ≤ 0x39

def hexdig (c : UInt8) : Bool :=
  digit c || (0x41 ≤ c && c ≤ 0x46) || (0x61 ≤ c && c ≤ 0x66)

end AbnfOps

end ImpactSockets
