import ImpactSockets.Utils.AbnfOps
import ImpactSockets.Utils.Errno

/-! The UTF-8 codec, `rfc/utf8.h` and `rfc/utf8.cpp`. Code points and registers
keep their 32 bits. -/
namespace ImpactSockets.Utf8

/-- `_S_estimate_buf_size`, where `none` stands for `size_t(-1)`, a size that no
string has. -/
def estimateBufSize (symbol : UInt32) : Option Nat :=
  if symbol ≤ 0x7F then some 1
  else if symbol ≤ 0x7FF then some 2
  else if symbol ≤ 0xFFFF then
    if 0xD800 ≤ symbol && symbol ≤ 0xDFFF then none else some 3
  else if symbol ≤ 0x10FFFF then some 4
  else none

/-- `static_cast<char>(mark|bits)`. -/
def header (mark bits : UInt32) : UInt8 := (mark ||| bits).toUInt8

/-- `0x80|(bits&0x3F)`, as a `char`. -/
def trailer (bits : UInt32) : UInt8 := ((0x80 : UInt32) ||| (bits &&& 0x3F)).toUInt8

/-- `_S_encode` from the label `tail_a` on. -/
def tailA (symbol : UInt32) : Bytes := [trailer symbol]

/-- `_S_encode` from the label `tail_b` on. -/
def tailB (symbol : UInt32) : Bytes := trailer (symbol >>> 6) :: tailA symbol

/-- `_S_encode`. -/
def encode (symbol : UInt32) : Bytes :=
  if symbol ≤ 0x7F then [symbol.toUInt8]
  else if symbol ≤ 0x7FF then header 0xC0 (symbol >>> 6) :: tailA symbol
  else if symbol ≤ 0xFFFF then header 0xE0 (symbol >>> 12) :: tailB symbol
  else header 0xF0 (symbol >>> 18) :: trailer (symbol >>> 12) :: tailB symbol

/-- What a call leaves behind: the returned flag, `imp_errno`, and the string
the result pointer points to (`none` for a null pointer). -/
structure Outcome (α : Type) where
  ok : Bool
  errno : Imperr
  result : Option (List α)
deriving DecidableEq, Repr

/-- The first loop of `SERIALIZE_STRING_CODE_SNIPPET`, which ends at a bad symbol. -/
def totalSize (mask : UInt32) : List UInt32 → Nat → Option Nat
  | [], size => some size
  | c :: rest, size =>
      match estimateBufSize (mask &&& c) with
      | none => none
      | some test => totalSize mask rest (size + test)

/-- `SERIALIZE_STRING_CODE_SNIPPET`. -/
def serializeString (mask : UInt32) (input : List UInt32) (result : Option Bytes) : Outcome UInt8 :=
  match totalSize mask input 0 with
  | none => ⟨false, .utf8Badsym, result⟩
  | some _ => ⟨true, .success, result.map (· ++ input.flatMap fun symbol => encode (mask &&& symbol))⟩

/-- `serialize` of one code point. -/
def serializeSymbol (input : UInt32) (result : Option Bytes) : Outcome UInt8 :=
  if 0x10FFFF < input || (0xD800 ≤ input && input ≤ 0xDFFF) then ⟨false, .utf8Badsym, result⟩
  else ⟨true, .success, result.map (· ++ encode input)⟩

/-- `serialize` of a `std::string`. -/
def serializeBytes (input : Bytes) (result : Option Bytes) : Outcome UInt8 :=
  serializeString 0xFF (input.map UInt8.toUInt32) result

/-- `serialize` of a `std::u16string`. -/
def serializeU16 (input : List UInt16) (result : Option Bytes) : Outcome UInt8 :=
  serializeString 0xFFFF (input.map UInt16.toUInt32) result

/-- `serialize` of a `std::u32string`. -/
def serialize (input : List UInt32) (result : Option Bytes) : Outcome UInt8 :=
  serializeString 0xFFFFFFFF input result

/-- The locals of `deserialize`, and its result. -/
structure DecodeState where
  state : Nat
  symbol : UInt32
  result : Option (List UInt32)
deriving DecidableEq, Repr

def DecodeState.push (st : DecodeState) (symbol : UInt32) : DecodeState :=
  { st with result := st.result.map (· ++ [symbol]) }

/-- The number of trailers that a header announces, when it is one. -/
def headerState (c : UInt8) : Option Nat :=
  if c &&& 0xE0 == 0xC0 then some 1
  else if c &&& 0xF0 == 0xE0 then some 2
  else if c &&& 0xF8 == 0xF0 then some 3
  else none

/-- The body of the loop of `deserialize`. -/
def deserializeStep (st : DecodeState) (c : UInt8) : Except Imperr DecodeState :=
  if st.state = 0 then
    if c &&& 0x80 == 0 then .ok { st.push c.toUInt32 with symbol := c.toUInt32 }
    else
      match headerState c with
      | none => .error .utf8Badhead
      | some state => .ok { st with state := state, symbol := (0x3F >>> state.toUInt32) &&& c.toUInt32 }
  else if c &&& 0xC0 == 0x80 then
    let symbol := (st.symbol <<< 6) ||| (0x3F &&& c.toUInt32)
    let st := { st with state := st.state - 1, symbol := symbol }
    .ok (if st.state = 0 then st.push symbol else st)
  else .error .utf8Badtrail

/-- The loop of `deserialize`. At its end the state is not looked at. -/
def deserializeLoop : Bytes → DecodeState → Outcome UInt32
  | [], st => ⟨true, .success, st.result⟩
  | c :: rest, st =>
      match deserializeStep st c with
      | .error errno => ⟨false, errno, st.result⟩
      | .ok next => deserializeLoop rest next

/-- `deserialize`. The symbol has no initial value, and is written before it is read. -/
def deserialize (input : Bytes) (result : Option (List UInt32)) : Outcome UInt32 :=
  deserializeLoop input ⟨0, 0, result⟩

end ImpactSockets.Utf8
