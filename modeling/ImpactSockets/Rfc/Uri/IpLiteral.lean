import ImpactSockets.Rfc.Uri.Percent

/-! The parsers of the IP literals that a URI may have as its host,
`rfc/uri.cpp`. They index the literal freely, so a read outside it is a fault
of the run. -/
namespace ImpactSockets.Uri

open AbnfOps Ascii

/-- What has no defined behaviour, or escapes as an exception of the standard
library. -/
inductive Fault where
  | read
  | cut
  | erase
  | stoi
deriving DecidableEq, Repr

abbrev Exec := Except Fault

/-- `data[i]`. -/
def readAt (data : Bytes) (i : Nat) : Exec UInt8 :=
  match data[i]? with
  | some c => .ok c
  | none => .error .read

/-- `std::string(data.begin() + first, data.begin() + last)`. -/
def cut (data : Bytes) (first last : Nat) : Exec Bytes :=
  if first ≤ last ∧ last ≤ data.length then .ok ((data.drop first).take (last - first))
  else .error .cut

/-- The return value of a parser and the `imp_errno` it leaves. -/
abbrev Verdict := Bool × Imperr

/-- The characters of the last part of an IPvFuture. -/
def ipvFutureChar (c : UInt8) : Bool := unreserved c || subDelims c || c == colon

/-- The do-while loop of `_S_parse_ipv_future`, from the suffix of the data at
index `i` on. The loop goes on while `i < data.size() - 2`. -/
def skipHexdigs : Bytes → Nat → Exec Nat
  | [], _ => .error .read
  | c :: rest, i =>
      if !hexdig c then .ok i
      else if 1 < rest.length then skipHexdigs rest (i + 1)
      else .ok i

/-- `_S_parse_ipv_future`. -/
def parseIpvFuture (data : Bytes) : Exec Verdict :=
  if data.length < 4 then .ok (false, .uriInvlIpLit) -- at least v0.0
  else do
    let c ← readAt data 0
    if c != 0x76 then .ok (false, .uriInvlIpLit) -- 'v'
    else do
      let c ← readAt data 1
      if !hexdig c then .ok (false, .uriInvlIpLit)
      else do
        let i ← skipHexdigs (data.drop 2) 2
        let c ← readAt data i
        if c != dot then .ok (false, .uriInvlIpLit)
        else do
          let c ← readAt data (i + 1)
          if !ipvFutureChar c then .ok (false, .uriInvlIpLit)
          else if !(data.drop (i + 2)).all ipvFutureChar then .ok (false, .uriInvlIpLit)
          else .ok (true, .success)

/-- What one iteration of a loop over a literal does. -/
inductive Iteration (State : Type) where
  | next (state : State)
  | leave
  | fail
deriving DecidableEq, Repr

/-- Which digits may follow to the left in a dec-octet: after a final digit up
to 5, after one up to 4, or after any. -/
inductive OctetMode where
  | five
  | four
  | three
deriving DecidableEq, Repr

/-- The locals `state`, `dcnt` and `dgrp` of the loop at the label `dec`. -/
structure DecState where
  mode : OctetMode
  dcnt : Nat
  dgrp : Nat
deriving DecidableEq, Repr

def between (first last c : UInt8) : Bool := first ≤ c && c ≤ last

/-- What may stand to the left of an octet. -/
def delimitOctet (c : UInt8) (st : DecState) : Iteration DecState :=
  if c == dot then .next ⟨.five, 0, st.dgrp + 1⟩
  else if c == colon then .leave
  else .fail

/-- The body of the loop at the label `dec`, which reads backwards. -/
def decStep (c : UInt8) (st : DecState) : Iteration DecState :=
  match st.mode, st.dcnt with
  | .five, 0 =>
      if between 0x30 0x35 c then .next { st with dcnt := 1 }
      else if between 0x36 0x39 c then .next { st with dcnt := 1, mode := .four }
      else .fail
  | .five, 1 =>
      if c == 0x35 then .next { st with dcnt := 2 }
      else if between 0x30 0x34 c then .next { st with dcnt := 2, mode := .four }
      else if between 0x36 0x39 c then .next { st with dcnt := 2, mode := .three }
      else delimitOctet c st
  | .five, 2 => if c == 0x32 then .next { st with dcnt := 3 } else delimitOctet c st
  | .five, _ => delimitOctet c st
  | .four, 1 =>
      if between 0x30 0x34 c then .next { st with dcnt := 2 }
      else if between 0x35 0x39 c then .next { st with dcnt := 2, mode := .three }
      else delimitOctet c st
  | .four, 2 =>
      if c == 0x32 || c == 0x31 then .next { st with dcnt := 3 } else delimitOctet c st
  | .four, _ => delimitOctet c st
  | .three, 2 => if c == 0x31 then .next { st with dcnt := 3 } else delimitOctet c st
  | .three, _ => delimitOctet c st

/-- The loop at the label `dec`, from `current_idx` down to 1. The result is
where it ends, or `none` when it returns false. -/
def decLoop (data : Bytes) : Nat → DecState → Exec (Option (Nat × DecState))
  | 0, st => .ok (some (0, st))
  | i + 1, st =>
      if 1 < i + 1 then do
        let c ← readAt data (i + 1)
        match decStep c st with
        | .next st => decLoop data i st
        | .leave => .ok (some (i + 1, st))
        | .fail => .ok none
      else .ok (some (i + 1, st))

/-- The locals of the loop at the label `hex`. -/
structure HexState where
  hcnt : Nat
  hgrp : Int
  havePlaceholder : Bool
  pIdxZ : Bool
deriving DecidableEq, Repr

/-- The body of the loop at the label `hex`, which reads backwards. -/
def hexStep (c : UInt8) (atZero : Bool) (st : HexState) : Iteration HexState :=
  if hexdig c then
    if 4 < st.hcnt + 1 then .fail else .next { st with hcnt := st.hcnt + 1 }
  else if c == colon then
    if 0 < st.hcnt then
      if st.hgrp == 8 then .leave else .next { st with hcnt := 0, hgrp := st.hgrp + 1 }
    else if st.havePlaceholder then .fail
    else .next { st with havePlaceholder := true, pIdxZ := atZero, hgrp := st.hgrp - 1 }
  else .fail

/-- The loop at the label `hex`, from `current_idx` down to 0. -/
def hexLoop (data : Bytes) : Nat → HexState → Exec (Option (Nat × HexState))
  | 0, st => do
      let c ← readAt data 0
      match hexStep c true st with
      | .next st => .ok (some (0, st))
      | .leave => .ok (some (0, { st with hcnt := 0 }))
      | .fail => .ok none
  | i + 1, st => do
      let c ← readAt data (i + 1)
      match hexStep c false st with
      | .next st => hexLoop data i st
      | .leave => .ok (some (i + 1, { st with hcnt := 0 }))
      | .fail => .ok none

/-- The part of `_S_parse_ipv6_address` from the label `hex` on. -/
def parseHex (data : Bytes) (currentIdx : Nat) (havePlaceholder haveIpv4 : Bool) : Exec Verdict := do
  match ← hexLoop data currentIdx ⟨0, 0, havePlaceholder, false⟩ with
  | none => .ok (false, .uriInvlIpLit)
  | some (i, st) =>
      let hgrp := st.hgrp + 1 -- include last group
      if i ≠ 0 then .ok (false, .uriInvlIpLit)
      else do
        let c ← readAt data i
        if !st.pIdxZ && c == colon then .ok (false, .uriInvlIpLit) -- begins with ":x"
        else if st.havePlaceholder then
          if haveIpv4 && decide (5 < hgrp) then .ok (false, .uriInvlIpLit)
          else if !haveIpv4 && decide (7 < hgrp) then .ok (false, .uriInvlIpLit)
          else .ok (true, .success)
        else
          -- the second test also applies with an IPv4 part
          if haveIpv4 && decide (hgrp ≠ 6) then .ok (false, .uriInvlIpLit)
          else if hgrp ≠ 8 then .ok (false, .uriInvlIpLit)
          else .ok (true, .success)

/-- The part of `_S_parse_ipv6_address` from the label `dec` on. -/
def parseDec (data : Bytes) (currentIdx : Nat) : Exec Verdict := do
  match ← decLoop data currentIdx ⟨.five, 0, 1⟩ with
  | none => .ok (false, .uriInvlIpLit)
  | some (i, st) =>
      if st.dgrp ≠ 4 then .ok (false, .uriInvlIpLit)
      else do
        let c ← readAt data i
        if c == colon then do
          let c ← readAt data (i - 1)
          if c == colon then
            if i - 1 = 0 then .ok (true, .uriInvlIpLit) -- no more chars
            else parseHex data (i - 2) true true
          else parseHex data (i - 1) false true
        else .ok (false, .uriInvlIpLit)

/-- `_S_parse_ipv6_address`, backwards. The two returns for a literal that
ends at "::" leave `imp_errno` as it is. -/
def parseIpv6Address (data : Bytes) : Exec Verdict :=
  if data.length = 0 ∨ data.length = 1 then .ok (false, .uriInvlIpLit)
  else do
    let currentIdx := data.length - 1
    let last ← readAt data currentIdx
    let previous ← readAt data (currentIdx - 1)
    if last == colon && previous == colon then
      if currentIdx = 1 then .ok (true, .uriInvlIpLit) -- no more chars
      else parseHex data (currentIdx - 2) true false
    else if hexdig last then
      if data.length < 9 then -- ::0.0.0.0
        if data.length < 3 then .ok (false, .uriInvlIpLit) -- at least ::0
        else parseHex data currentIdx false false
      else do
        let second ← readAt data (currentIdx - 2)
        let third ← readAt data (currentIdx - 3)
        if previous == dot || second == dot || third == dot then parseDec data currentIdx
        else parseHex data currentIdx false false
    else .ok (false, .uriInvlIpLit)

/-- `_S_parse_ip_literal`. -/
def parseIpLiteral (data : Bytes) : Exec Verdict :=
  if data.length < 4 then .ok (false, .uriInvlIpLit) -- requires [::] minimum
  else do
    let first ← readAt data 0
    let last ← readAt data (data.length - 1)
    if !(first == openBracket && last == closeBracket) then .ok (false, .uriInvlIpLit)
    else do
      let d2 ← cut data 1 (data.length - 1)
      let c ← readAt d2 0
      if c == 0x76 then parseIpvFuture d2 -- 'v'
      else parseIpv6Address d2

end ImpactSockets.Uri
