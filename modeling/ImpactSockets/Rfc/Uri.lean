import ImpactSockets.Rfc.Uri.IpLiteral

/-! The URI parser and the recomposition of its components, `rfc/uri.cpp`. -/
namespace ImpactSockets

/-- The members of `uri`. -/
structure Uri where
  scheme : Bytes
  userinfo : Bytes
  host : Bytes
  path : Bytes
  query : Bytes
  fragment : Bytes
  port : Int
  hasAuth : Bool
  hasDefaultPort : Bool
deriving DecidableEq, Repr

namespace Uri

open AbnfOps Ascii

/-- `uri::uri()`. -/
def empty : Uri := ⟨[], [], [], [], [], [], -1, false, false⟩

/-- `parser_context`, together with the thread's `imp_errno`. The result is
`none` for a null pointer. -/
structure Context where
  currentIdx : Nat
  data : Bytes
  result : Option Uri
  errno : Imperr

/-- A parser's return value and the context it leaves. -/
abbrev Parsed := Bool × Context

def Context.modify (ctx : Context) (f : Uri → Uri) : Context :=
  { ctx with result := ctx.result.map f }

def Context.advance (ctx : Context) (count : Nat) : Context :=
  { ctx with currentIdx := ctx.currentIdx + count }

def Context.moveTo (ctx : Context) (i : Nat) : Context := { ctx with currentIdx := i }

def Context.fail (ctx : Context) (errno : Imperr) : Exec Parsed := .ok (false, { ctx with errno := errno })

/-- The two scheme-port dictionaries, which hold one entry a scheme. The value
behind the end iterator of the second one is whatever the memory there holds. -/
structure SchemePorts where
  permanent : List (Bytes × Int)
  user : List (Bytes × Int)
  endSecond : Int

def find (dictionary : List (Bytes × Int)) (scheme : Bytes) : Option Int :=
  (dictionary.find? fun entry => entry.1 == scheme).map Prod.snd

/-- The lookups of `_S_post_parse`, the permanent dictionary first. -/
def SchemePorts.lookup (ports : SchemePorts) (scheme : Bytes) : Option Int :=
  match find ports.permanent scheme with
  | some port => some port
  | none => find ports.user scheme

/-- `authority()`. -/
def authority (u : Uri) : Bytes :=
  (if u.userinfo.length ≠ 0 then u.userinfo ++ [at_] else []) ++ u.host ++
    if 0 ≤ u.port ∧ ¬ u.hasDefaultPort then colon :: toString_ u.port else []
where
  /-- `std::to_string` of a number that is not negative. -/
  toString_ (port : Int) : Bytes :=
    (Nat.toDigits 10 port.toNat).map Char.toUInt8

/-- `hier_part()`. -/
def hierPart (u : Uri) : Bytes :=
  (if (authority u).length ≠ 0 ∨ u.hasAuth then
    slash :: slash :: authority u ++ if u.path.length ≠ 0 then [slash] else []
  else []) ++ u.path

/-- `abs_str()`. -/
def absStr (u : Uri) : Bytes :=
  (if u.scheme.length ≠ 0 then u.scheme ++ [colon] else []) ++
    (if (authority u).length ≠ 0 ∨ u.hasAuth then
      slash :: slash :: authority u ++
        if u.path.length ≠ 0 ∧ u.path.head? ≠ some slash then [slash] else []
    else []) ++
    u.path ++
    if u.query.length ≠ 0 then question :: u.query else []

/-- `str()`. -/
def str (u : Uri) : Bytes :=
  absStr u ++ if u.fragment.length ≠ 0 then hash :: u.fragment else []

def normHierPart (u : Uri) : Bytes := percentDecodeText (hierPart u)

def normAuthority (u : Uri) : Bytes := percentDecodeText (authority u)

def normStr (u : Uri) : Bytes := percentDecodeText (str u)

def normAbsStr (u : Uri) : Bytes := percentDecodeText (absStr u)

def normUserinfo (u : Uri) : Bytes := percentDecodeText u.userinfo

def normHost (u : Uri) : Bytes := percentDecodeText u.host

def normPath (u : Uri) : Bytes := percentDecodeText u.path

def normQuery (u : Uri) : Bytes := percentDecodeText u.query

def normFragment (u : Uri) : Bytes := percentDecodeText u.fragment

/-- `_S_clear`, which leaves `m_has_default_port_` as it is. -/
def clear (u : Uri) : Uri :=
  { u with
    scheme := [], userinfo := [], host := [], path := [], query := [], fragment := []
    port := -1, hasAuth := false }

/-- The locals of `_S_path_normalize`. -/
structure NormalizeState where
  dir : List Int
  output : Bytes
  dots : Nat
deriving DecidableEq, Repr

/-- `output_buffer.push_back('.')`, once for each pending dot. -/
def NormalizeState.flushDots (st : NormalizeState) : NormalizeState :=
  { st with output := st.output ++ List.replicate st.dots dot, dots := 0 }

/-- A size as the `int` that `dir` holds of it. -/
def intOffset (size : Nat) : Int := (size : Int).bmod (2 ^ 32)

/-- The removal of a segment at "..", `dir` being the offsets after the
slashes of the output with the last one first. -/
def popSegment (st : NormalizeState) : Exec NormalizeState :=
  match st.dir with
  | _ :: i :: rest =>
      if 0 ≤ i ∧ i ≤ st.output.length then
        .ok { st with dir := i :: rest, output := st.output.take i.toNat }
      else .error .erase
  | _ =>
      if st.output.head? = some slash then .ok { st with output := st.output.take 1 }
      else .ok { st with output := [] }

/-- The body of the loop of `_S_path_normalize`. -/
def normalizeStep (st : NormalizeState) (c : UInt8) : Exec NormalizeState :=
  if c == dot then .ok { st with dots := st.dots + 1 }
  else if c == slash then do
    let st ←
      if st.dots = 0 then
        .ok { st with output := st.output ++ [c], dir := intOffset (st.output.length + 1) :: st.dir }
      else if st.dots = 2 then popSegment st
      else if st.dots ≠ 1 then .ok st.flushDots
      else .ok st
    .ok { st with dots := 0 }
  else
    let st := st.flushDots
    .ok { st with output := st.output ++ [c] }

/-- `_S_path_normalize`. -/
def pathNormalize (path : Bytes) : Exec Bytes := do
  let st ← path.foldlM normalizeStep ⟨[], [], 0⟩
  .ok st.flushDots.output

/-- The port and default-port flag that `_S_post_parse` leaves. -/
def postParsePort (ports : SchemePorts) (scheme : Bytes) (port : Int) : Int × Bool :=
  let token := ports.lookup scheme
  if 0 ≤ port then (port, port == token.getD ports.endSecond)
  else
    match token with
    | some value => if 0 ≤ value then (value, true) else (port, false)
    | none => (port, false)

/-- `_S_post_parse`. -/
def postParse (ports : SchemePorts) (ctx : Context) : Exec Context :=
  match ctx.result with
  | none => .ok ctx
  | some u => do
      let path ← pathNormalize u.path
      let scheme := u.scheme.map tolower
      let port := postParsePort ports scheme u.port
      .ok { ctx with result := some { u with
        scheme := scheme, path := path, port := port.1, hasDefaultPort := port.2 } }

/-- The index at which a loop over `data` from index `i` on meets the first
character it does not know, where `suffix` is `data` from there on. -/
def scanWhile (known : UInt8 → Bool) : Bytes → Nat → Nat
  | [], i => i
  | c :: suffix, i => if known c then scanWhile known suffix (i + 1) else i

def schemeChar (c : UInt8) : Bool :=
  alpha c || digit c || c == 0x2B || c == 0x2D || c == 0x2E -- "+" / "-" / "."

/-- `_S_parse_scheme`. -/
def parseScheme (ctx : Context) : Exec Parsed := do
  let c ← readAt ctx.data ctx.currentIdx
  if !alpha c then ctx.fail .uriScheme
  else do
    let next := scanWhile schemeChar (ctx.data.drop (ctx.currentIdx + 1)) (ctx.currentIdx + 1)
    let scheme ← cut ctx.data ctx.currentIdx next
    .ok (true, (ctx.moveTo next).modify fun u => { u with scheme := scheme })

/-- The characters of userinfo, with triplets not yet looked at. -/
def userinfoChar (c : UInt8) : Bool := unreserved c || subDelims c || c == percent || c == colon

/-- `_S_parse_userinfo`, where all data is userinfo. -/
def parseUserinfo (ctx : Context) : Exec Parsed :=
  if !ctx.data.all userinfoChar then ctx.fail .uriUserinfoSym
  else
    let decoded := percentDecode ctx.data false ctx.errno
    .ok (decoded.ok, { ctx with errno := decoded.errno }.modify fun u =>
      { u with userinfo := decoded.str })

def regNameChar (c : UInt8) : Bool := unreserved c || subDelims c || c == percent

/-- `_S_parse_host`, where all data is the host. -/
def parseHost (ctx : Context) : Exec Parsed :=
  if ctx.data.length = 0 then .ok (true, ctx) -- empty host allowed (reg-name)
  else do
    let c ← readAt ctx.data ctx.currentIdx
    let verdict ←
      if c == openBracket then parseIpLiteral ctx.data
      else if ctx.data.all regNameChar then .ok (true, ctx.errno)
      else .ok (false, .uriHostSym)
    if !verdict.1 then ctx.fail verdict.2
    else
      let decoded := percentDecode ctx.data true verdict.2
      .ok (decoded.ok, { ctx with errno := decoded.errno }.modify fun u =>
        { u with host := decoded.str })

/-- The number that decimal digits stand for. -/
def decimalValue (digits : Bytes) : Nat :=
  digits.foldl (fun value c => 10 * value + (c.toNat - 0x30)) 0

/-- `std::stoi` on decimal digits. It throws when there are none or when the
number is no `int`. -/
def stoi (digits : Bytes) : Exec Int :=
  if digits.length ≠ 0 ∧ digits.all digit ∧ decimalValue digits < 2 ^ 31 then
    .ok (decimalValue digits)
  else .error .stoi

/-- `_S_parse_port`, where all data is the port. -/
def parsePort (ctx : Context) : Exec Parsed :=
  if !ctx.data.all digit then ctx.fail .uriPortSym
  -- max(int) is 10 digits, play it safe with 9 digits
  else if 9 < ctx.data.length then ctx.fail .uriPortLimit
  else if ctx.result.isSome ∧ ctx.data.length ≠ 0 then do
    let port ← stoi ctx.data
    .ok (true, ctx.modify fun u => { u with port := port })
  else .ok (true, ctx)

/-- The locals of the loop of `_S_parse_authority`. -/
structure AuthorityScan where
  atCount : Nat
  colonCountAfter : Nat
  ipLitACount : Nat
  ipLitBCount : Nat
  atIndex : Nat
  portColonIndex : Nat
  ipLitAIndex : Nat
  ipLitBIndex : Nat
deriving DecidableEq, Repr

/-- `i - 1` as a 64-bit `size_t`. -/
def sizePred (i : Nat) : Nat := if i = 0 then 2 ^ 64 - 1 else i - 1

/-- The loop of `_S_parse_authority` over the suffix of the data at index `i`:
the index it ends at, and its locals or the error it returns. -/
def scanAuthority : Bytes → Nat → AuthorityScan → Nat × Except Imperr AuthorityScan
  | [], i, st => (i, .ok st)
  | c :: suffix, i, st =>
      if c == at_ then
        -- can only be one '@'
        if 1 < st.atCount + 1 then (i, .error .uriMultiAt)
        else scanAuthority suffix (i + 1) { st with atCount := st.atCount + 1, atIndex := i }
      else if c == colon then
        scanAuthority suffix (i + 1) { st with
          colonCountAfter := if st.atCount ≠ 0 then st.colonCountAfter + 1 else st.colonCountAfter
          portColonIndex := i }
      else if c == openBracket then
        if 1 < st.ipLitACount + 1 then (i, .error .uriMultiIpLit)
        else scanAuthority suffix (i + 1) { st with
          ipLitACount := st.ipLitACount + 1, ipLitAIndex := i }
      else if c == closeBracket then
        if 1 < st.ipLitBCount + 1 then (i, .error .uriMultiIpLit)
        else scanAuthority suffix (i + 1) { st with
          ipLitBCount := st.ipLitBCount + 1, ipLitBIndex := i }
      else if !regNameChar c then (i, .ok st)
      else scanAuthority suffix (i + 1) st

/-- The substrings that `_S_parse_authority` cuts out of its data. -/
structure AuthorityParts where
  userinfo : Bytes
  host : Bytes
  port : Bytes
deriving DecidableEq, Repr

/-- The part of `_S_parse_authority` that cuts out the host and the port, with
`last_idx` behind the userinfo. -/
def splitHost (data : Bytes) (lastIdx currentIdx : Nat) (st : AuthorityScan) :
    Exec (Except Imperr (Bytes × Bytes)) :=
  if st.ipLitACount ≠ 0 then -- host is ip-literal
    if st.ipLitBIndex < st.portColonIndex then
      if st.portColonIndex - 1 ≠ st.ipLitBIndex then
        .ok (.error .uriColon) -- [::]foo: <- invalid port placement
      else do
        let port ← cut data (st.portColonIndex + 1) currentIdx -- ignore ':'
        let host ← cut data st.ipLitAIndex (st.ipLitBIndex + 1)
        .ok (.ok (host, port))
    else do
      let host ← cut data st.ipLitAIndex (st.ipLitBIndex + 1)
      .ok (.ok (host, []))
  else
    let hostIndex := if st.atCount ≠ 0 then st.atIndex + 1 else lastIdx
    if lastIdx ≤ st.portColonIndex then do
      let port ← cut data (st.portColonIndex + 1) currentIdx
      let host ← cut data hostIndex st.portColonIndex
      .ok (.ok (host, port))
    else do
      let host ← cut data hostIndex currentIdx
      .ok (.ok (host, []))

/-- The part of `_S_parse_authority` between its loop, which has ended at
`current_idx`, and the parsers of the parts. -/
def splitAuthority (data : Bytes) (start currentIdx : Nat) (st : AuthorityScan) :
    Exec (Except Imperr AuthorityParts) :=
  -- mismatching '[' and ']'
  if st.ipLitACount ≠ st.ipLitBCount then .ok (.error .uriIpLitMismatch)
  -- misorder ']'...'['
  else if st.ipLitBIndex < st.ipLitAIndex then .ok (.error .uriIpLitMismatch)
  -- too many ':'
  else if st.ipLitACount = 0 ∧ st.atCount ≠ 0 ∧ 1 < st.colonCountAfter then .ok (.error .uriColon)
  else if start ≤ st.atIndex then do
    let userinfo ← cut data start st.atIndex
    let located ← splitHost data (st.atIndex + 1) currentIdx st -- skip '@'
    .ok (located.map fun (host, port) => ⟨userinfo, host, port⟩)
  else do
    let located ← splitHost data start currentIdx st
    .ok (located.map fun (host, port) => ⟨[], host, port⟩)

/-- `_S_parse_authority`. The parts are parsed one after the other, also after
one of them has failed. -/
def parseAuthority (ctx : Context) : Exec Parsed := do
  let none_ := sizePred ctx.currentIdx
  let (currentIdx, scanned) := scanAuthority (ctx.data.drop ctx.currentIdx) ctx.currentIdx
    ⟨0, 0, 0, 0, none_, none_, none_, none_⟩
  match scanned with
  | .error errno => (ctx.moveTo currentIdx).fail errno
  | .ok st =>
      match ← splitAuthority ctx.data ctx.currentIdx currentIdx st with
      | .error errno => (ctx.moveTo currentIdx).fail errno
      | .ok parts => do
          let (userinfoOk, temp) ← parseUserinfo ⟨0, parts.userinfo, ctx.result, ctx.errno⟩
          let (hostOk, temp) ← parseHost ⟨0, parts.host, temp.result, temp.errno⟩
          let (portOk, temp) ← parsePort ⟨0, parts.port, temp.result, temp.errno⟩
          let next : Context := ⟨currentIdx, ctx.data, temp.result, temp.errno⟩
          .ok (userinfoOk && hostOk && portOk, next.modify fun u => { u with hasAuth := true })

/-- The characters of a path segment, with triplets not yet looked at. -/
def pathChar (c : UInt8) : Bool :=
  unreserved c || subDelims c || c == colon || c == at_ || c == percent

/-- The loop of `_S_parse_path` over the suffix of the data at index `i`, where
`count` is `pchar_count`. The result is where it ends and whether it has met no
slash after an empty segment. -/
def scanPath : Bytes → Nat → Nat → Nat × Bool
  | [], i, _ => (i, true)
  | c :: suffix, i, count =>
      if pathChar c then scanPath suffix (i + 1) (count + 1)
      else if c == slash then
        if count = 0 then (i, false) -- found illegal "//" in path
        else scanPath suffix (i + 1) 0
      else (i, true)

/-- The part of `_S_parse_path` from its loop on, which starts at index `i`. -/
def parseSegments (ctx : Context) (lastIdx i : Nat) : Exec Parsed :=
  match scanPath (ctx.data.drop i) i 0 with
  | (next, false) => (ctx.moveTo next).fail .uriAuthinpath
  | (next, true) => do
      let path ← cut ctx.data lastIdx next
      let decoded := percentDecode path false ctx.errno
      .ok (decoded.ok, { ctx.moveTo next with errno := decoded.errno }.modify fun u =>
        { u with path := u.path ++ decoded.str })

/-- The part of `_S_parse_path` after the slash of a rooted path. A leading
":" is passed over without being counted. -/
def parseRootless (ctx : Context) (lastIdx i : Nat) (allowColon : Bool) : Exec Parsed := do
  let c ← readAt ctx.data i
  if c == slash then (ctx.moveTo i).fail .uriPathdelim -- expected rootless path
  else if c == colon then
    if allowColon then parseSegments ctx lastIdx (i + 1)
    else (ctx.moveTo i).fail .uriColon -- expected no-scheme path
  else parseSegments ctx lastIdx i

/-- `_S_parse_path`. -/
def parsePath (ctx : Context) (expectRoot allowColon : Bool) : Exec Parsed :=
  if ctx.data.length ≤ ctx.currentIdx then .ok (true, ctx) -- empty path
  else do
    let c ← readAt ctx.data ctx.currentIdx
    if expectRoot then
      if c == question then .ok (true, ctx) -- empty path, next: query
      else if c == hash then .ok (true, ctx) -- empty path, next: fragment
      else if c != slash then ctx.fail .uriPathabempty
      else if ctx.data.length ≤ ctx.currentIdx + 1 then
        .ok (true, (ctx.advance 1).modify fun u => { u with path := [slash] }) -- empty root
      else parseRootless ctx ctx.currentIdx (ctx.currentIdx + 1) allowColon
    else parseRootless ctx ctx.currentIdx ctx.currentIdx allowColon

/-- `_S_parse_hier_part`. -/
def parseHierPart (ctx : Context) : Exec Parsed :=
  if ctx.data.length ≤ ctx.currentIdx then .ok (true, ctx) -- path-empty
  else do
    let c ← readAt ctx.data ctx.currentIdx
    if c == slash then
      let next := ctx.advance 1
      let rooted := next.modify fun u => { u with path := u.path ++ [slash] }
      if ctx.data.length ≤ next.currentIdx then .ok (true, rooted) -- path-absolute
      else do
        let c ← readAt ctx.data next.currentIdx
        if c == slash then do
          let (ok, afterAuthority) ← parseAuthority (ctx.advance 2)
          if ok then parsePath afterAuthority true true else .ok (false, afterAuthority)
        else parsePath rooted false true
    else if pathChar c then parsePath ctx false true
    else .ok (true, ctx) -- path-empty

def queryChar (c : UInt8) : Bool :=
  unreserved c || subDelims c || c == percent || c == colon || c == at_ || c == slash || c == question

/-- `_S_parse_query`. -/
def parseQuery (ctx : Context) : Exec Parsed := do
  let next := scanWhile queryChar (ctx.data.drop ctx.currentIdx) ctx.currentIdx
  let query ← cut ctx.data ctx.currentIdx next
  let decoded := percentDecode query false ctx.errno
  .ok (decoded.ok, { ctx.moveTo next with errno := decoded.errno }.modify fun u =>
    { u with query := decoded.str })

/-- `_S_parse_fragment`, which takes all characters to the end of the data and
leaves the index where it is. -/
def parseFragment (ctx : Context) : Exec Parsed :=
  if ctx.currentIdx < ctx.data.length then do
    let fragment ← cut ctx.data ctx.currentIdx ctx.data.length
    let decoded := percentDecode fragment false ctx.errno
    .ok (decoded.ok, { ctx with errno := decoded.errno }.modify fun u =>
      { u with fragment := decoded.str })
  else .ok (true, ctx)

/-- The two tests of `_S_parse_uri` for a component behind a delimiter. -/
def parseBehind (delimiter : UInt8) (parse : Context → Exec Parsed) (ctx : Context) : Exec Parsed :=
  if ctx.data[ctx.currentIdx]? = some delimiter then parse (ctx.advance 1) else .ok (true, ctx)

/-- The part of `_S_parse_uri` from the scheme on. -/
def parseComponents (ports : SchemePorts) (ctx : Context) : Exec Parsed := do
  let (ok, ctx) ← parseScheme ctx
  if !ok then .ok (false, ctx) -- bad scheme
  else if ctx.data.length ≤ ctx.currentIdx then ctx.fail .uriNocolon -- no ":" delimiter
  else do
    let c ← readAt ctx.data ctx.currentIdx
    if c != colon then ctx.fail .uriNocolon -- unrecognized delimiter
    else do
      let (ok, ctx) ← parseHierPart (ctx.advance 1)
      if !ok then .ok (false, ctx) -- bad authority or path
      else do
        let (ok, ctx) ← parseBehind question parseQuery ctx
        if !ok then .ok (false, ctx) -- bad query
        else do
          let (ok, ctx) ← parseBehind hash parseFragment ctx
          if !ok then .ok (false, ctx) -- bad fragment
          else do
            let ctx ← postParse ports ctx
            .ok (true, ctx)

/-- `_S_parse_uri`. -/
def parseUri (ports : SchemePorts) (ctx : Context) : Exec Parsed :=
  let ctx := { ctx with errno := .success }.modify clear
  if ctx.data.length ≤ ctx.currentIdx then .ok (true, ctx)
  else parseComponents ports ctx

/-- `uri::parse`: the return value, and the result and `imp_errno` after the
call. -/
def parse (ports : SchemePorts) (value : Bytes) (result : Option Uri) (errno : Imperr) :
    Exec (Bool × Option Uri × Imperr) := do
  let (ok, ctx) ← parseUri ports ⟨0, value, result, errno⟩
  .ok (ok, ctx.result, ctx.errno)

/-- `uri::uri(std::string)`: the object, or the text of the exception. The members
that are no strings are not initialised: they are those of `raw`. -/
def construct (ports : SchemePorts) (value : Bytes) (raw : Uri) (errno : Imperr) : Exec (Except String Uri) := do
  let u : Uri := { empty with port := raw.port, hasAuth := raw.hasAuth, hasDefaultPort := raw.hasDefaultPort }
  let (ok, result, errno) ← parse ports value (some u) errno
  .ok (if ok then .ok (result.getD u) else .error (errorString errno))

end Uri

end ImpactSockets
