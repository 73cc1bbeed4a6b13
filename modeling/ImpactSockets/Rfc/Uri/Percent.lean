import ImpactSockets.Utils.Ascii
import ImpactSockets.Utils.Errno

/-! Character classes and percent-encoding, `rfc/uri.cpp`. -/
namespace ImpactSockets.Uri

open AbnfOps Ascii

/-- `_S_unreserved`. -/
def unreserved (c : UInt8) : Bool :=
  alpha c || digit c || c == 0x2D || c == 0x2E || c == 0x5F || c == 0x7E -- "-" / "." / "_" / "~"

/-- `_S_gen_delims`. -/
def genDelims (c : UInt8) : Bool :=
  c == colon || c == slash || c == question || c == hash || c == openBracket || c == closeBracket ||
    c == at_

/-- `_S_sub_delims`. -/
def subDelims (c : UInt8) : Bool :=
  c == 0x21 || c == 0x24 || c == 0x26 || c == 0x27 || c == 0x28 || c == 0x29 || c == 0x2A ||
    c == 0x2B || c == 0x2C || c == 0x3B || c == 0x3D -- "!$&'()*+,;="

/-- `_S_reserved`. -/
def reserved (c : UInt8) : Bool := genDelims c || subDelims c

/-- Where `_S_percent_decode` is with respect to a triplet. -/
inductive PercentState where
  | plain
  | high
  | low (nibble : UInt8)
deriving DecidableEq, Repr

/-- The value of an upper-case hexadecimal digit. -/
def nibbleValue (nibble : UInt8) : UInt8 :=
  if 0x30 ≤ nibble && nibble ≤ 0x39 then nibble - 0x30 else nibble - 0x41 + 10

/-- The byte that two upper-case hexadecimal digits stand for. -/
def nibbleByte (high low : UInt8) : UInt8 := (nibbleValue high <<< 4) ||| nibbleValue low

/-- What a triplet becomes. Reserved characters and "%" are not decoded, which
allows for a second pass later. -/
def decodeTriplet (high low : UInt8) : Bytes :=
  let n := nibbleByte high low
  if reserved n || n == percent then [percent, high, low] else [n]

/-- The loop of `_S_percent_decode(std::string*, bool)` over the characters that
formatted input yields. `none` is a malformed triplet. -/
def decodeLoop (lowerCase : Bool) : Bytes → PercentState → Option Bytes
  | [], .plain => some []
  | [], _ => none
  | c :: rest, .plain =>
      if c == percent then decodeLoop lowerCase rest .high
      else (decodeLoop lowerCase rest .plain).map ((if lowerCase then tolower c else c) :: ·)
  | c :: rest, .high => if hexdig c then decodeLoop lowerCase rest (.low (toupper c)) else none
  | c :: rest, .low high =>
      if hexdig c then
        (decodeLoop lowerCase rest .plain).map (decodeTriplet high (toupper c) ++ ·)
      else none

/-- What `_S_percent_decode(std::string*, bool)` leaves behind. -/
structure Decoded where
  ok : Bool
  str : Bytes
  errno : Imperr
deriving DecidableEq, Repr

/-- `_S_percent_decode(std::string*, bool)`, called with `imp_errno` at `errno`. -/
def percentDecode (str : Bytes) (lowerCase : Bool) (errno : Imperr) : Decoded :=
  if str.length = 0 then ⟨true, str, errno⟩
  else
    match decodeLoop lowerCase (str.filter fun c => !isspace c) .plain with
    | none => ⟨false, str, .uriPortSym⟩
    | some decoded => ⟨true, decoded, .success⟩

/-- The loop of `_S_percent_decode(const std::string&)`, which takes any two
characters behind a "%" for its digits, and drops a "%" that has fewer. -/
def decodeTextLoop : Bytes → PercentState → Bytes
  | [], _ => []
  | c :: rest, .plain => if c == percent then decodeTextLoop rest .high else c :: decodeTextLoop rest .plain
  | c :: rest, .high => decodeTextLoop rest (.low c)
  | c :: rest, .low high => nibbleByte high c :: decodeTextLoop rest .plain

/-- `_S_percent_decode(const std::string&)`. -/
def percentDecodeText (str : Bytes) : Bytes := decodeTextLoop str .plain

end ImpactSockets.Uri
