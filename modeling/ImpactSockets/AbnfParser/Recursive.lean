import ImpactSockets.AbnfParser.Recognisers

/-! The functions of `ABNF_Parser/main.cpp` that loop over `c_wsp` or call one another within
brackets. -/
namespace ImpactSockets.AbnfParser

open Fuelled Scan

section Loops

variable (order : Order)

/-- `while (c_wsp(stream)) continue;`, with whether it went round at all. -/
def skipWsp : Nat → Scan Bool
  | 0 => exhausted
  | n + 1 => do
      let before ← position
      if ← cWsp order then
        emit (.turn before (← position))
        let _ ← skipWsp n
        return true
      return false

def definedAs (n : Nat) : Scan Bool := attempt do
  let _ ← skipWsp order n
  let a ← get
  let b ← peek
  if a = 0x3D && b = 0x2F then
    let _ ← get
    let _ ← skipWsp order n
    return true
  if a = 0x3D then
    let _ ← skipWsp order n
    return true
  return false

/-! ### The functions of what is within brackets -/

variable (n : Nat) (inner : Scan Bool)

/-- What is between `tellg` and `group_done`. -/
def enclosed (first last : UInt8) : Scan Bool := do
  if (← get) ≠ first then return false
  let _ ← skipWsp order n
  if !(← inner) then return false
  let _ ← skipWsp order n
  return (← get) == last

/-- The stream is not put back if the closing bracket is found, although the result is false
then too. -/
def brackets (first last : UInt8) : Scan Bool := do
  let offset ← tellg
  let success ← enclosed order n inner first last
  when (!success) (restore offset)
  return false

def elementWith : Scan Bool :=
  orElse rulename <| orElse (brackets order n inner 0x28 0x29) <| orElse (brackets order n inner 0x5B 0x5D) <|
    orElse charVal <| orElse numVal proseVal

def repetitionWith : Scan Bool := do
  let _ ← repeat_
  elementWith order n inner

/-- `if (success) offset = stream->tellg();`. -/
def offsetAfter (success : Bool) (offset : Option Nat) : Scan (Option Nat) := if success then tellg else pure offset

/-- The loop of `concatenation`, which ends with `offset` and `n`. -/
def concatenationLoop : Nat → Option Nat → Bool → Scan (Option Nat × Bool)
  | 0, _, _ => exhausted
  | k + 1, offset, b => do
      let before ← position
      if ← cWsp order then
        let _ ← skipWsp order k
        if ← repetitionWith order n inner then
          let offset ← tellg
          emit (.turn before (← position))
          concatenationLoop k offset true
        else return (offset, true)
      else return (offset, b)

/-- The variable `b` is not initialised. A function that fails goes back to `offset` and not
to where it began. -/
def concatenationWith (b : Bool) : Scan Bool := do
  let entry ← tellg
  let success ← repetitionWith order n inner
  let offset ← offsetAfter success entry
  let finish ← concatenationLoop order n inner n offset b
  when (!success || finish.2) (restore finish.1)
  return success

/-- The loop of `alternation`, which ends with `offset`. -/
def alternationLoop (b : Bool) : Nat → Option Nat → Scan (Option Nat)
  | 0, _ => exhausted
  | k + 1, offset => do
      let before ← position
      let _ ← skipWsp order n
      if (← get) ≠ 0x2F then return offset
      let _ ← skipWsp order n
      if ← concatenationWith order n inner b then
        let offset ← tellg
        emit (.turn before (← position))
        alternationLoop b k offset
      else return offset

/-- A function that succeeds stays where its loop has ended, behind what it has looked for a
slash in. -/
def alternationWith (b : Bool) : Scan Bool := do
  let entry ← tellg
  let success ← concatenationWith order n inner b
  let offset ← offsetAfter success entry
  let offset ← alternationLoop order n inner b n offset
  if success then return true
  restore offset
  return false

end Loops

/-! ### The functions, with fuel for loops and brackets -/

section Functions

variable (order : Order) (b : Bool)

def alternation : Nat → Scan Bool
  | 0 => exhausted
  | n + 1 => alternationWith order (n + 1) (alternation n) b

def group (n : Nat) : Scan Bool := brackets order n (alternation order b n) 0x28 0x29

def option (n : Nat) : Scan Bool := brackets order n (alternation order b n) 0x5B 0x5D

def concatenation (n : Nat) : Scan Bool := concatenationWith order n (alternation order b n) b

def elements (n : Nat) : Scan Bool := do
  if ← alternation order b n then
    let _ ← skipWsp order n
    return true
  return false

/-- The loop over the lines of a rule. -/
def ruleLoop (n : Nat) : Nat → Bool → Scan Bool
  | 0, _ => exhausted
  | k + 1, next => do
      let before ← position
      when next do let _ ← skipWsp order n
      if !(← elements order b n) then return false
      if !(← cNl order) then return false
      if ← cWsp order then
        emit (.turn before (← position))
        ruleLoop n k true
      else return true

def rule (n : Nat) : Scan Bool := attempt do
  if !(← rulename) then return false
  if !(← definedAs order n) then return false
  ruleLoop order b n n false

def rulelistLoop (n : Nat) : Nat → Bool → Scan Bool
  | 0, _ => exhausted
  | k + 1, success => do
      let before ← position
      if ← rule order b n then
        emit (.turn before (← position))
        rulelistLoop n k true
      else
        let skipped ← skipWsp order n
        if ← cNl order then
          emit (.turn before (← position))
          rulelistLoop n k true
        else return success || skipped

/-- The stream that a grammar is read from. -/
def opened (grammar : Bytes) : Istream := ⟨grammar.map Ascii.tolower, 0, false, false⟩

def rulelist (n : Nat) (grammar : Bytes) : Outcome Istream Event Bool := rulelistLoop order b n n false (opened grammar)

end Functions

end ImpactSockets.AbnfParser
