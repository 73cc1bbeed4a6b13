import ImpactSockets.Library.Fuelled
import ImpactSockets.Utils.Ascii
import ImpactSockets.AbnfParser.Istream

/-! The recognisers of `ABNF_Parser/main.cpp`. Fuel bounds the loops over `c_wsp` and the
calls within brackets. The log says what a run meets on its way and changes nothing. -/
namespace ImpactSockets.AbnfParser

open AbnfOps Ascii Fuelled

def bit (c : UInt8) : Bool := c == 0x30 || c == 0x31
def dquote (c : UInt8) : Bool := c == 0x22
def vchar (c : UInt8) : Bool := 0x21 ≤ c && c ≤ 0x7E
def wsp (c : UInt8) : Bool := c == 0x20 || c == 0x09
def crlf (a b : UInt8) : Bool := a == 0x0D && b == 0x0A

/-- What a run meets: a blank in front of `c_wsp`, and a loop that goes round again, with the
positions before and after the turn. -/
inductive Event where
  | blank
  | turn (before after : Nat)
deriving DecidableEq, Repr

/-- The order in which the arguments of a call are evaluated. The language leaves it open. -/
inductive Order where
  | leftToRight
  | rightToLeft
deriving DecidableEq, Repr

abbrev Scan (α : Type) := Program Istream Event α

namespace Scan

def get : Scan UInt8 := call Istream.get
def peek : Scan UInt8 := call Istream.peek
def tellg : Scan (Option Nat) := call Istream.tellg
def position : Scan Nat := look (·.pos)
def skipWhile (p : UInt8 → Bool) : Scan Unit := call fun s => ((), s.skipWhile p)
def getWhile (p : UInt8 → Bool) : Scan UInt8 := call (·.getWhile p)

/-- `clear(); seekg(offset, std::ios::beg);` -/
def restore (offset : Option Nat) : Scan Unit := call fun s => ((), s.clear.seekg offset)

/-- The frame of most functions: the stream is back where it was if they fail. -/
def attempt (body : Scan Bool) : Scan Bool := do
  let offset ← tellg
  let success ← body
  if success then return true
  restore offset
  return false

def when (c : Bool) (p : Scan Unit) : Scan Unit := if c then p else pure ()

/-- `first || second`. -/
def orElse (first second : Scan Bool) : Scan Bool := do
  if ← first then return true else second

end Scan

open Scan

/-! ### Functions without recursion -/

def comment : Scan Bool := attempt do
  if (← get) ≠ 0x3B then return false
  let a ← getWhile fun c => wsp c || vchar c
  let b ← get
  return crlf a b

def cNl (order : Order) : Scan Bool := attempt do
  if ← comment then return true
  let first ← get
  let second ← get
  match order with
  | .leftToRight => return crlf first second
  | .rightToLeft => return crlf second first

/-- A blank is only looked at, and stays where it is. -/
def cWsp (order : Order) : Scan Bool := attempt do
  if wsp (← peek) then
    emit .blank
    return true
  if ← cNl order then return wsp (← get)
  return false

def rulenameChar (c : UInt8) : Bool := alpha c || digit c || c == 0x2D

def rulename : Scan Bool := do
  if alpha (← peek) then
    let _ ← get
    skipWhile rulenameChar
    return true
  return false

def quotedChar (c : UInt8) : Bool := (0x20 ≤ c && c ≤ 0x21) || (0x23 ≤ c && c ≤ 0x7E)

def charVal : Scan Bool := attempt do
  if !dquote (← get) then return false
  skipWhile quotedChar
  return dquote (← get)

/-- `extension_type`. -/
inductive Extension where
  | none
  | range
  | space
deriving DecidableEq, Repr

/-- The loop over the numbers of a value. Each turn reads a digit, so that there are no more
turns than characters. -/
def values (digit : UInt8 → Bool) : Nat → Extension → Scan Bool
  | 0, _ => exhausted
  | n + 1, extension => do
      if !digit (← get) then return false
      skipWhile digit
      let c ← peek
      if c = 0x2D then
        if extension ≠ .none then return false
        let _ ← get
        values digit n .range
      else if c = 0x2E then
        if extension = .range then return false
        let _ ← get
        values digit n .space
      else return true

def numericVal (letter : UInt8) (digit : UInt8 → Bool) : Scan Bool := attempt do
  if (← get) ≠ letter then return false
  values digit ((← look (·.rest.length)) + 1) .none

/-- The letter it asks for is the one of `dec_val`. -/
def binVal : Scan Bool := numericVal 0x64 bit
def decVal : Scan Bool := numericVal 0x64 digit
def hexVal : Scan Bool := numericVal 0x78 hexdig

def numVal : Scan Bool := attempt do
  if (← get) ≠ 0x25 then return false
  orElse binVal (orElse decVal hexVal)

def proseChar (c : UInt8) : Bool := (0x20 ≤ c && c ≤ 0x3D) || (0x3F ≤ c && c ≤ 0x7E)

def proseVal : Scan Bool := attempt do
  if (← get) ≠ 0x3C then return false
  skipWhile proseChar
  return (← get) == 0x3E

def repeat_ : Scan Bool := attempt do
  let c ← get
  if c = 0x2A then
    skipWhile digit
    return true
  if !digit c then return false
  skipWhile digit
  if (← peek) = 0x2A then
    let _ ← get
    skipWhile digit
    return true
  return true

end ImpactSockets.AbnfParser
