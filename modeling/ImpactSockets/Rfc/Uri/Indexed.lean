import ImpactSockets.Rfc.Uri

/-! The parsers of `rfc/uri.cpp` once more, with every index computed as the
source computes it. A run stops at the first access that is not inside its text. -/
namespace ImpactSockets.Uri.Indexed

open AbnfOps Ascii

/-- What the parsers do with an index or a text that must be fit for it. -/
inductive Access where
  | read (i size : Nat)
  | minus (i k : Nat)
  | cut (first last size : Nat)
  | stoi (digits : Bytes)
deriving DecidableEq, Repr

abbrev Guarded := Except Access

/-- `data[i]`. -/
def read (data : Bytes) (i : Nat) : Guarded UInt8 :=
  if h : i < data.length then .ok data[i] else .error (.read i data.length)

/-- `i - k`, where `i` is a `size_t`. -/
def minus (i k : Nat) : Guarded Nat := if k ≤ i then .ok (i - k) else .error (.minus i k)

/-- `std::string(data.begin() + first, data.begin() + last)`. -/
def cut (data : Bytes) (first last : Nat) : Guarded Bytes :=
  if first ≤ last ∧ last ≤ data.length then .ok ((data.drop first).take (last - first))
  else .error (.cut first last data.length)

/-- `std::stoi`, on one to nine digits. -/
def stoi (digits : Bytes) : Guarded Int :=
  if 1 ≤ digits.length ∧ digits.length ≤ 9 ∧ digits.all digit then .ok (decimalValue digits)
  else .error (.stoi digits)

/-- `data[i - k] == c`. -/
def readsBehind (data : Bytes) (i k : Nat) (c : UInt8) : Guarded Bool := do
  let index ← minus i k
  let d ← read data index
  .ok (d == c)

/-- `first && second`. -/
def both (first : Bool) (second : Guarded Bool) : Guarded Bool := if first then second else .ok false

/-- A parser that sets `imp_errno` and returns false. -/
def refuse (ctx : Context) (errno : Imperr) : Guarded Parsed := .ok (false, { ctx with errno := errno })

/-- A loop that moves on while `data[current_idx]` is known. -/
def scanWhile (known : UInt8 → Bool) (data : Bytes) (i : Nat) : Guarded Nat :=
  if _h : i < data.length then do
    let c ← read data i
    if known c then scanWhile known data (i + 1) else .ok i
  else .ok i
termination_by data.length - i

/-! ### IP literals -/

/-- The do-while loop of `_S_parse_ipv_future`, where `current_idx` is `i` once
it has been increased. -/
def skipHexdigs (data : Bytes) (i : Nat) : Guarded Nat :=
  if _h : i < data.length then do
    let c ← read data i
    if !hexdig c then .ok i
    else do
      let bound ← minus data.length 2
      if i < bound then skipHexdigs data (i + 1) else .ok i
  else .error (.read i data.length)
termination_by data.length - i

/-- `_S_parse_ipv_future`. -/
def parseIpvFuture (data : Bytes) : Guarded Verdict :=
  if data.length < 4 then .ok (false, .uriInvlIpLit)
  else do
    let c ← read data 0
    if c != 0x76 then .ok (false, .uriInvlIpLit) -- 'v'
    else do
      let c ← read data 1
      if !hexdig c then .ok (false, .uriInvlIpLit)
      else do
        let i ← skipHexdigs data 2
        let c ← read data i
        if c != dot then .ok (false, .uriInvlIpLit)
        else do
          let c ← read data (i + 1)
          if !ipvFutureChar c then .ok (false, .uriInvlIpLit)
          else do
            let next ← scanWhile ipvFutureChar data (i + 2)
            if next < data.length then .ok (false, .uriInvlIpLit) else .ok (true, .success)

/-- The loop at the label `dec`. -/
def decLoop (data : Bytes) : Nat → DecState → Guarded (Option (Nat × DecState))
  | 0, st => .ok (some (0, st))
  | i + 1, st =>
      if 1 < i + 1 then do
        let c ← read data (i + 1)
        match decStep c st with
        | .next st => decLoop data i st
        | .leave => .ok (some (i + 1, st))
        | .fail => .ok none
      else .ok (some (i + 1, st))

/-- The loop at the label `hex`. -/
def hexLoop (data : Bytes) : Nat → HexState → Guarded (Option (Nat × HexState))
  | 0, st => do
      let c ← read data 0
      match hexStep c true st with
      | .next st => .ok (some (0, st))
      | .leave => .ok (some (0, { st with hcnt := 0 }))
      | .fail => .ok none
  | i + 1, st => do
      let c ← read data (i + 1)
      match hexStep c false st with
      | .next st => hexLoop data i st
      | .leave => .ok (some (i + 1, { st with hcnt := 0 }))
      | .fail => .ok none

/-- `_S_parse_ipv6_address` from the label `hex` on. -/
def parseHex (data : Bytes) (currentIdx : Nat) (havePlaceholder haveIpv4 : Bool) : Guarded Verdict := do
  match ← hexLoop data currentIdx ⟨0, 0, havePlaceholder, false⟩ with
  | none => .ok (false, .uriInvlIpLit)
  | some (i, st) =>
      let hgrp := st.hgrp + 1
      if i ≠ 0 then .ok (false, .uriInvlIpLit)
      else do
        let beginsWithColon ← both (!st.pIdxZ) (readsBehind data i 0 colon)
        if beginsWithColon then .ok (false, .uriInvlIpLit)
        else if st.havePlaceholder then
          if haveIpv4 && decide (5 < hgrp) then .ok (false, .uriInvlIpLit)
          else if !haveIpv4 && decide (7 < hgrp) then .ok (false, .uriInvlIpLit)
          else .ok (true, .success)
        else
          if haveIpv4 && decide (hgrp ≠ 6) then .ok (false, .uriInvlIpLit)
          else if hgrp ≠ 8 then .ok (false, .uriInvlIpLit)
          else .ok (true, .success)

/-- `_S_parse_ipv6_address` from the label `dec` on. -/
def parseDec (data : Bytes) (currentIdx : Nat) : Guarded Verdict := do
  match ← decLoop data currentIdx ⟨.five, 0, 1⟩ with
  | none => .ok (false, .uriInvlIpLit)
  | some (i, st) =>
      if st.dgrp ≠ 4 then .ok (false, .uriInvlIpLit)
      else do
        let c ← read data i
        if c == colon then do
          let previous ← minus i 1
          let c ← read data previous
          if c == colon then
            if previous = 0 then .ok (true, .uriInvlIpLit)
            else do
              let next ← minus previous 1
              parseHex data next true true
          else parseHex data previous false true
        else .ok (false, .uriInvlIpLit)

/-- `_S_parse_ipv6_address`. -/
def parseIpv6Address (data : Bytes) : Guarded Verdict :=
  if data.length = 0 ∨ data.length = 1 then .ok (false, .uriInvlIpLit)
  else do
    let currentIdx ← minus data.length 1
    let last ← read data currentIdx
    let elided ← both (last == colon) (readsBehind data currentIdx 1 colon)
    if elided then
      if currentIdx = 1 then .ok (true, .uriInvlIpLit)
      else do
        let next ← minus currentIdx 2
        parseHex data next true false
    else if hexdig last then
      if data.length < 9 then
        if data.length < 3 then .ok (false, .uriInvlIpLit)
        else parseHex data currentIdx false false
      else do
        -- the loop over the last three characters but one
        if ← readsBehind data currentIdx 1 dot then parseDec data currentIdx
        else if ← readsBehind data currentIdx 2 dot then parseDec data currentIdx
        else if ← readsBehind data currentIdx 3 dot then parseDec data currentIdx
        else parseHex data currentIdx false false
    else .ok (false, .uriInvlIpLit)

/-- `_S_parse_ip_literal`. -/
def parseIpLiteral (data : Bytes) : Guarded Verdict :=
  if data.length < 4 then .ok (false, .uriInvlIpLit)
  else do
    let first ← read data 0
    let bracketed ← both (first == openBracket) (readsBehind data data.length 1 closeBracket)
    if !bracketed then .ok (false, .uriInvlIpLit)
    else do
      let count ← minus data.length 2
      let d2 ← cut data 1 (1 + count) -- data.substr(1, data.size() - 2)
      let c ← read d2 0
      if c == 0x76 then parseIpvFuture d2 -- 'v'
      else parseIpv6Address d2

/-! ### The authority -/

/-- `_S_parse_userinfo`. -/
def parseUserinfo (ctx : Context) : Guarded Parsed := do
  let next ← scanWhile userinfoChar ctx.data ctx.currentIdx
  let ctx := ctx.moveTo next
  if next < ctx.data.length then refuse ctx .uriUserinfoSym
  else
    let decoded := percentDecode ctx.data false ctx.errno
    .ok (decoded.ok, { ctx with errno := decoded.errno }.modify fun u => { u with userinfo := decoded.str })

/-- The end of `_S_parse_host`. -/
def storeHost (ctx : Context) : Guarded Parsed :=
  let decoded := percentDecode ctx.data true ctx.errno
  .ok (decoded.ok, { ctx with errno := decoded.errno }.modify fun u => { u with host := decoded.str })

/-- `_S_parse_host`. -/
def parseHost (ctx : Context) : Guarded Parsed :=
  if ctx.data.length = 0 then .ok (true, ctx)
  else do
    let c ← read ctx.data ctx.currentIdx
    if c == openBracket then do
      let (ok, errno) ← parseIpLiteral ctx.data
      if !ok then refuse ctx errno else storeHost { ctx with errno := errno }
    else do
      let next ← scanWhile regNameChar ctx.data ctx.currentIdx
      let ctx := ctx.moveTo next
      if next < ctx.data.length then refuse ctx .uriHostSym else storeHost ctx

/-- `_S_parse_port`. -/
def parsePort (ctx : Context) : Guarded Parsed := do
  let next ← scanWhile digit ctx.data ctx.currentIdx
  let ctx := ctx.moveTo next
  if next < ctx.data.length then refuse ctx .uriPortSym
  else if 9 < next then refuse ctx .uriPortLimit
  else if ctx.result.isSome ∧ ctx.data.length ≠ 0 then do
    let port ← stoi ctx.data
    .ok (true, ctx.modify fun u => { u with port := port })
  else .ok (true, ctx)

/-- The loop of `_S_parse_authority`. -/
def scanAuthority (data : Bytes) (i : Nat) (st : AuthorityScan) : Guarded (Nat × Except Imperr AuthorityScan) :=
  if _h : i < data.length then do
    let c ← read data i
    if c == at_ then
      if 1 < st.atCount + 1 then .ok (i, .error .uriMultiAt)
      else scanAuthority data (i + 1) { st with atCount := st.atCount + 1, atIndex := i }
    else if c == colon then
      scanAuthority data (i + 1) { st with
        colonCountAfter := if st.atCount ≠ 0 then st.colonCountAfter + 1 else st.colonCountAfter
        portColonIndex := i }
    else if c == openBracket then
      if 1 < st.ipLitACount + 1 then .ok (i, .error .uriMultiIpLit)
      else scanAuthority data (i + 1) { st with ipLitACount := st.ipLitACount + 1, ipLitAIndex := i }
    else if c == closeBracket then
      if 1 < st.ipLitBCount + 1 then .ok (i, .error .uriMultiIpLit)
      else scanAuthority data (i + 1) { st with ipLitBCount := st.ipLitBCount + 1, ipLitBIndex := i }
    else if !regNameChar c then .ok (i, .ok st)
    else scanAuthority data (i + 1) st
  else .ok (i, .ok st)
termination_by data.length - i

/-- The part of `_S_parse_authority` that cuts out the host and the port. -/
def splitHost (data : Bytes) (lastIdx currentIdx : Nat) (st : AuthorityScan) :
    Guarded (Except Imperr (Bytes × Bytes)) :=
  if st.ipLitACount ≠ 0 then
    if st.ipLitBIndex < st.portColonIndex then do
      let behindLiteral ← minus st.portColonIndex 1
      if behindLiteral ≠ st.ipLitBIndex then .ok (.error .uriColon)
      else do
        let port ← cut data (st.portColonIndex + 1) currentIdx
        let host ← cut data st.ipLitAIndex (st.ipLitBIndex + 1)
        .ok (.ok (host, port))
    else do
      let host ← cut data st.ipLitAIndex (st.ipLitBIndex + 1)
      .ok (.ok (host, []))
  else
    let hostIndex := if st.atCount ≠ 0 then st.atIndex + 1 else lastIdx
    if lastIdx ≤ st.portColonIndex then do
      let port ← cut data (st.portColonIndex + 1) currentIdx
      let host ← cut data hostIndex st.portColonIndex
      .ok (.ok (host, port))
    else do
      let host ← cut data hostIndex currentIdx
      .ok (.ok (host, []))

/-- The part of `_S_parse_authority` between its loop and the parsers of the parts. -/
def splitAuthority (data : Bytes) (start currentIdx : Nat) (st : AuthorityScan) :
    Guarded (Except Imperr AuthorityParts) :=
  if st.ipLitACount ≠ st.ipLitBCount then .ok (.error .uriIpLitMismatch)
  else if st.ipLitBIndex < st.ipLitAIndex then .ok (.error .uriIpLitMismatch)
  else if st.ipLitACount = 0 ∧ st.atCount ≠ 0 ∧ 1 < st.colonCountAfter then .ok (.error .uriColon)
  else if start ≤ st.atIndex then do
    let userinfo ← cut data start st.atIndex
    let located ← splitHost data (st.atIndex + 1) currentIdx st
    .ok (located.map fun (host, port) => ⟨userinfo, host, port⟩)
  else do
    let located ← splitHost data start currentIdx st
    .ok (located.map fun (host, port) => ⟨[], host, port⟩)

/-- `_S_parse_authority`. -/
def parseAuthority (ctx : Context) : Guarded Parsed := do
  let none_ ← minus ctx.currentIdx 1
  let (currentIdx, scanned) ← scanAuthority ctx.data ctx.currentIdx ⟨0, 0, 0, 0, none_, none_, none_, none_⟩
  match scanned with
  | .error errno => refuse (ctx.moveTo currentIdx) errno
  | .ok st =>
      match ← splitAuthority ctx.data ctx.currentIdx currentIdx st with
      | .error errno => refuse (ctx.moveTo currentIdx) errno
      | .ok parts => do
          let (userinfoOk, temp) ← parseUserinfo ⟨0, parts.userinfo, ctx.result, ctx.errno⟩
          let (hostOk, temp) ← parseHost ⟨0, parts.host, temp.result, temp.errno⟩
          let (portOk, temp) ← parsePort ⟨0, parts.port, temp.result, temp.errno⟩
          let next : Context := ⟨currentIdx, ctx.data, temp.result, temp.errno⟩
          .ok (userinfoOk && hostOk && portOk, next.modify fun u => { u with hasAuth := true })

/-! ### The components -/

/-- `_S_parse_scheme`. -/
def parseScheme (ctx : Context) : Guarded Parsed := do
  let c ← read ctx.data ctx.currentIdx
  if !alpha c then refuse ctx .uriScheme
  else do
    let next ← scanWhile schemeChar ctx.data (ctx.currentIdx + 1)
    if ctx.result.isSome then do
      let scheme ← cut ctx.data ctx.currentIdx next
      .ok (true, (ctx.moveTo next).modify fun u => { u with scheme := scheme })
    else .ok (true, ctx.moveTo next)

/-- The loop of `_S_parse_path`. -/
def scanPath (data : Bytes) (i count : Nat) : Guarded (Nat × Bool) :=
  if _h : i < data.length then do
    let c ← read data i
    if pathChar c then scanPath data (i + 1) (count + 1)
    else if c == slash then
      if count = 0 then .ok (i, false) else scanPath data (i + 1) 0
    else .ok (i, true)
  else .ok (i, true)
termination_by data.length - i

/-- The part of `_S_parse_path` from its loop on. -/
def parseSegments (ctx : Context) (lastIdx i : Nat) : Guarded Parsed := do
  let (next, ok) ← scanPath ctx.data i 0
  let ctx := ctx.moveTo next
  if !ok then refuse ctx .uriAuthinpath
  else do
    let path ← cut ctx.data lastIdx next
    let decoded := percentDecode path false ctx.errno
    .ok (decoded.ok, { ctx with errno := decoded.errno }.modify fun u => { u with path := u.path ++ decoded.str })

/-- The part of `_S_parse_path` after the slash of a rooted path. -/
def parseRootless (ctx : Context) (lastIdx i : Nat) (allowColon : Bool) : Guarded Parsed := do
  let c ← read ctx.data i
  if c == slash then refuse (ctx.moveTo i) .uriPathdelim
  else if c == colon then
    if allowColon then parseSegments ctx lastIdx (i + 1) else refuse (ctx.moveTo i) .uriColon
  else parseSegments ctx lastIdx i

/-- `_S_parse_path`. -/
def parsePath (ctx : Context) (expectRoot allowColon : Bool) : Guarded Parsed :=
  if ctx.data.length ≤ ctx.currentIdx then .ok (true, ctx)
  else do
    let c ← read ctx.data ctx.currentIdx
    if expectRoot then
      if c == question then .ok (true, ctx)
      else if c == hash then .ok (true, ctx)
      else if c != slash then refuse ctx .uriPathabempty
      else if ctx.data.length ≤ ctx.currentIdx + 1 then
        .ok (true, (ctx.advance 1).modify fun u => { u with path := [slash] })
      else parseRootless ctx ctx.currentIdx (ctx.currentIdx + 1) allowColon
    else parseRootless ctx ctx.currentIdx ctx.currentIdx allowColon

/-- `_S_parse_hier_part`. -/
def parseHierPart (ctx : Context) : Guarded Parsed :=
  if ctx.data.length ≤ ctx.currentIdx then .ok (true, ctx)
  else do
    let c ← read ctx.data ctx.currentIdx
    if c == slash then
      let next := ctx.advance 1
      let rooted := next.modify fun u => { u with path := u.path ++ [slash] }
      if ctx.data.length ≤ next.currentIdx then .ok (true, rooted)
      else do
        let c ← read ctx.data next.currentIdx
        if c == slash then do
          let (ok, afterAuthority) ← parseAuthority (ctx.advance 2)
          if ok then parsePath afterAuthority true true else .ok (false, afterAuthority)
        else parsePath rooted false true
    else if pathChar c then parsePath ctx false true
    else .ok (true, ctx)

/-- `_S_parse_query`. -/
def parseQuery (ctx : Context) : Guarded Parsed := do
  let next ← scanWhile queryChar ctx.data ctx.currentIdx
  let query ← cut ctx.data ctx.currentIdx next
  let decoded := percentDecode query false ctx.errno
  .ok (decoded.ok, { ctx.moveTo next with errno := decoded.errno }.modify fun u => { u with query := decoded.str })

/-- `_S_parse_fragment`. -/
def parseFragment (ctx : Context) : Guarded Parsed :=
  if ctx.currentIdx < ctx.data.length then do
    let fragment ← cut ctx.data ctx.currentIdx ctx.data.length
    let decoded := percentDecode fragment false ctx.errno
    .ok (decoded.ok, { ctx with errno := decoded.errno }.modify fun u => { u with fragment := decoded.str })
  else .ok (true, ctx)

/-- The two tests of `_S_parse_uri` for a component behind a delimiter. -/
def parseBehind (delimiter : UInt8) (parse : Context → Guarded Parsed) (ctx : Context) : Guarded Parsed :=
  if ctx.currentIdx < ctx.data.length then do
    let c ← read ctx.data ctx.currentIdx
    if c == delimiter then parse (ctx.advance 1) else .ok (true, ctx)
  else .ok (true, ctx)

/-- The test of `_S_parse_uri` for the colon behind the scheme. -/
def parseColon (ctx : Context) : Guarded Parsed :=
  if ctx.data.length ≤ ctx.currentIdx then refuse ctx .uriNocolon
  else do
    let c ← read ctx.data ctx.currentIdx
    if c != colon then refuse ctx .uriNocolon else .ok (true, ctx.advance 1)

/-- A parser that goes on with another one after a success. -/
def unlessFailed (first second : Context → Guarded Parsed) (ctx : Context) : Guarded Parsed := do
  let (ok, ctx) ← first ctx
  if !ok then .ok (false, ctx) else second ctx

/-- `_S_parse_uri` up to `_S_post_parse`. -/
def parseUri (ctx : Context) : Guarded Parsed :=
  let ctx := { ctx with errno := .success }.modify clear
  if ctx.data.length ≤ ctx.currentIdx then .ok (true, ctx)
  else
    unlessFailed parseScheme (unlessFailed parseColon (unlessFailed parseHierPart
      (unlessFailed (parseBehind question parseQuery) (parseBehind hash parseFragment)))) ctx

end ImpactSockets.Uri.Indexed
