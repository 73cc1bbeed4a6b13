import ImpactSockets.Utils.AbnfOps
import ImpactSockets.Utils.Errno

/-! The base64 codec, `rfc/base64.cpp`. Registers keep their C++ widths:
`unsigned int` is 32 bits, `unsigned short` 16 bits, `size_t` lengths are
naturals. The decoder's loop counter is an `unsigned int`, so it is modelled
with its wrap-around and the loop with a fuel argument. -/
namespace ImpactSockets.Base64

def kAlphabet : Bytes :=
  "ABCDEFGHIJKLMNOPQRSTUVWXYZabcdefghijklmnopqrstuvwxyz0123456789+/".toList.map Char.toUInt8

def kPad : UInt8 := 0x3D -- '='

def kSymbolSize : Nat := 6

def kSymbol : UInt32 := 0x3F

def kByte : UInt32 := 0xFF

/-- What a call leaves behind: the returned flag, `imp_errno`, and the string
the result pointer points to (`none` for a null pointer). -/
structure Outcome where
  ok : Bool
  errno : Imperr
  result : Option Bytes
deriving DecidableEq, Repr

/-- `k_alphabet[reg16[j]]`. -/
def symbol (reg16 : UInt16) : UInt8 := kAlphabet.getD reg16.toNat 0

/-- `reg16[j] = reg24 & k_symbol; reg24 >>= k_symbol_size`, for `j` from
`count - 1` down to 0. -/
def unloadQuad : Nat → UInt32 → List UInt16 → List UInt16
  | 0, _, reg16 => reg16
  | count + 1, reg24, reg16 =>
      unloadQuad count (reg24 >>> kSymbolSize.toUInt32) ((reg24 &&& kSymbol).toUInt16 :: reg16)

/-- The body of `_S_run_encode` for one triple of bytes. -/
def encodeTriple (b0 b1 b2 : UInt8) : Bytes :=
  let reg24 := (b0.toUInt32 <<< 16) ||| (b1.toUInt32 <<< 8) ||| b2.toUInt32
  (unloadQuad 4 reg24 []).map symbol

/-- `_S_run_encode`: every complete triple of the input. -/
def runEncode : Bytes → Bytes
  | b0 :: b1 :: b2 :: rest => encodeTriple b0 b1 b2 ++ runEncode rest
  | _ => []

/-- `pad_count`, computed in an `unsigned char`. -/
def padCount (length : Nat) : Nat := (length % 3 + (length + 1) % 3 - 1) % 256

/-- `reg24 >>= k_symbol_size; reg16[i] = reg24 & k_symbol`, for `i` from
`count - 1` down to 0. The shift comes first here, unlike in `unloadQuad`. -/
def unloadTail : Nat → UInt32 → List UInt16 → List UInt16
  | 0, _, reg16 => reg16
  | count + 1, reg24, reg16 =>
      let shifted := reg24 >>> kSymbolSize.toUInt32
      unloadTail count shifted ((shifted &&& kSymbol).toUInt16 :: reg16)

/-- The register `_S_pad_stream` unloads. The index `length - 3 + pad_count` is
a `size_t` that may wrap below zero and back. -/
def loadTail (data : Bytes) (pad : Nat) : UInt32 :=
  let reg24 := (data.getD (data.length + pad - 3) 0).toUInt32 <<< 16
  if pad = 1 then reg24 ||| ((data.getD (data.length - 1) 0).toUInt32 <<< 8)
  else reg24 >>> kSymbolSize.toUInt32

/-- `_S_pad_stream`: the one or two bytes left over, and the padding. -/
def padStream (data : Bytes) : Bytes :=
  let pad := padCount data.length
  if pad ≠ 0 then
    (unloadTail (4 - pad) (loadTail data pad) []).map symbol ++ List.replicate pad kPad
  else []

/-- `base64::encode`. The early `return "";` converts a non-null pointer to
`true` and leaves the result as it was. -/
def encode (data : Bytes) (result : Option Bytes) : Outcome :=
  if data.length = 0 then ⟨true, .success, result⟩
  else ⟨true, .success, result.map fun _ => runEncode data ++ padStream data⟩

/-- `_S_reverse_lookup`; `0x40` marks a byte outside the alphabet. -/
def reverseLookup (c : UInt8) : UInt8 :=
  if 0x41 ≤ c && c ≤ 0x5A then c - 0x41
  else if 0x61 ≤ c && c ≤ 0x7A then c - 0x61 + 26
  else if 0x30 ≤ c && c ≤ 0x39 then c - 0x30 + 52
  else if c == 0x2B then 0x3E
  else if c == 0x2F then 0x3F
  else 0x40

/-- The locals of `decode` that `_S_run_decode` updates through pointers. -/
structure DecodeState where
  stream : Bytes
  padding : UInt16
  tally : UInt16
  reg24 : UInt32
deriving DecidableEq, Repr

/-- One symbol `c` with `remaining` bytes of input from it on. `none` is the
early return on a bad symbol. -/
def decodeSymbol (c : UInt8) (remaining : Nat) (st : DecodeState) : Option DecodeState :=
  if c == kPad then
    some (if remaining ≤ 2 then { st with padding := st.padding + 1 } else st)
  else if reverseLookup c == 0x40 then none
  else
    let reg24 := st.reg24 ||| (reverseLookup c).toUInt32
    let tally := st.tally + 1
    if tally == 4 then
      some { st with
        stream := st.stream ++ [(reg24 >>> 16).toUInt8, ((reg24 >>> 8) &&& kByte).toUInt8,
          (reg24 &&& kByte).toUInt8]
        tally := 0
        reg24 := 0 }
    else some { st with tally := tally, reg24 := reg24 <<< kSymbolSize.toUInt32 }

/-- `_S_run_decode`, from loop counter `i`. The counter is an `unsigned int`
compared with a `size_t` length, so `i + 1` wraps at `2 ^ 32`. The result is
`none` while the loop is still running after `fuel` iterations. -/
def runDecode (data : Bytes) : Nat → UInt32 → DecodeState → Option (Bool × DecodeState)
  | 0, _, _ => none
  | fuel + 1, i, st =>
      if i.toNat < data.length then
        match decodeSymbol (data.getD i.toNat 0) (data.length - i.toNat) st with
        | none => some (false, st)
        | some next => runDecode data fuel (i + 1) next
      else some (true, st)

/-- The shift amount of `_S_unpad_stream`, an `int` expression. -/
def unpadShift (padding : UInt16) : Int := kSymbolSize * ((padding.toNat : Int) - 1)

/-- `_S_unpad_stream`: the stream with the last one or two bytes, or `none`
when padding and symbols do not add up to a quad. -/
def unpadStream (st : DecodeState) : Option Bytes :=
  if st.padding.toNat + st.tally.toNat = 4 then
    let reg24 := st.reg24 <<< (unpadShift st.padding).toNat.toUInt32
    some (st.stream ++ [(reg24 >>> 16).toUInt8] ++
      if st.padding ≠ 2 then [((reg24 >>> 8) &&& kByte).toUInt8] else [])
  else if st.padding.toNat + st.tally.toNat ≠ 0 then none
  else some st.stream

/-- `base64::decode`, run for `fuel` iterations of its loop. -/
def decode (fuel : Nat) (data : Bytes) (result : Option Bytes) : Option Outcome :=
  if data.length = 0 then some ⟨true, .success, result⟩
  else
    match runDecode data fuel 0 ⟨[], 0, 0, 0⟩ with
    | none => none
    | some (false, _) => some ⟨false, .b64Badsym, result⟩
    | some (true, st) =>
        match unpadStream st with
        | none => some ⟨false, .b64Badpad, result⟩
        | some stream => some ⟨true, .success, result.map fun _ => stream⟩

end ImpactSockets.Base64
