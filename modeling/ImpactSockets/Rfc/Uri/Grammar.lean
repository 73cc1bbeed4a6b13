import ImpactSockets.Library.Abnf
import ImpactSockets.Rfc.Uri.Percent

/-! The grammar of URIs that the tests of the parser quote, rule by rule. Only
the fragment is taken as the code documents it: it runs to the end of the
string whatever its characters are. -/
namespace ImpactSockets.Uri.Grammar

open Abnf AbnfOps Ascii
open scoped Computability

/-- `pct-encoded = "%" HEXDIG HEXDIG`. -/
def pctEncoded : Language UInt8 := literal [percent] * (oneOf hexdig * oneOf hexdig)

/-- Characters of a class, or triplets. -/
def encodedText (plain : UInt8 → Bool) : Language UInt8 := (oneOf plain + pctEncoded)∗

/-- `pchar` without the triplets. -/
def pchar (c : UInt8) : Bool := unreserved c || subDelims c || c == colon || c == at_

/-- `scheme = ALPHA *( ALPHA / DIGIT / "+" / "-" / "." )`. -/
def scheme : Language UInt8 :=
  oneOf alpha * (oneOf fun c => alpha c || digit c || c == 0x2B || c == 0x2D || c == 0x2E)∗

/-- `userinfo = *( unreserved / pct-encoded / sub-delims / ":" )`. -/
def userinfo : Language UInt8 := encodedText fun c => unreserved c || subDelims c || c == colon

/-- `reg-name = *( unreserved / pct-encoded / sub-delims )`. -/
def regName : Language UInt8 := encodedText fun c => unreserved c || subDelims c

/-- `port = *DIGIT`. -/
def port : Language UInt8 := (oneOf digit)∗

/-- `h16 = 1*4HEXDIG`. -/
def h16 : Language UInt8 := oneOf hexdig * upTo 3 (oneOf hexdig)

/-- `dec-octet`. -/
def decOctet : Language UInt8 :=
  oneOf digit +
    oneOf (fun c => 0x31 ≤ c && c ≤ 0x39) * oneOf digit +
    literal [0x31] * (oneOf digit * oneOf digit) +
    literal [0x32] * (oneOf (fun c => 0x30 ≤ c && c ≤ 0x34) * oneOf digit) +
    literal [0x32, 0x35] * oneOf fun c => 0x30 ≤ c && c ≤ 0x35

/-- `IPv4address = dec-octet "." dec-octet "." dec-octet "." dec-octet`. -/
def ipv4Address : Language UInt8 := (decOctet * literal [dot]) ^ 3 * decOctet

/-- `h16 ":"`. -/
def h16Colon : Language UInt8 := h16 * literal [colon]

/-- `ls32 = ( h16 ":" h16 ) / IPv4address`. -/
def ls32 : Language UInt8 := h16Colon * h16 + ipv4Address

/-- `[ *n( h16 ":" ) h16 ] "::"`. -/
def elision (n : Nat) : Language UInt8 := optional (upTo n h16Colon * h16) * literal [colon, colon]

/-- `IPv6address`, one alternative a line. -/
def ipv6Address : Language UInt8 :=
  h16Colon ^ 6 * ls32 +
    literal [colon, colon] * (h16Colon ^ 5 * ls32) +
    (optional h16 * literal [colon, colon]) * (h16Colon ^ 4 * ls32) +
    elision 1 * (h16Colon ^ 3 * ls32) +
    elision 2 * (h16Colon ^ 2 * ls32) +
    elision 3 * (h16Colon * ls32) +
    elision 4 * ls32 +
    elision 5 * h16 +
    elision 6

/-- `IPvFuture = "v" 1*HEXDIG "." 1*( unreserved / sub-delims / ":" )`. -/
def ipvFuture : Language UInt8 :=
  oneOf (fun c => c == 0x76 || c == 0x56) * atLeastOne (oneOf hexdig) * literal [dot] *
    atLeastOne (oneOf fun c => unreserved c || subDelims c || c == colon)

/-- `IP-literal = "[" ( IPv6address / IPvFuture  ) "]"`. -/
def ipLiteral : Language UInt8 := literal [openBracket] * (ipv6Address + ipvFuture) * literal [closeBracket]

/-- `host = IP-literal / IPv4address / reg-name`. -/
def host : Language UInt8 := ipLiteral + ipv4Address + regName

/-- `authority = [ userinfo "@" ] host [ ":" port ]`. -/
def authority : Language UInt8 :=
  optional (userinfo * literal [at_]) * host * optional (literal [colon] * port)

/-- `segment = *pchar`. -/
def segment : Language UInt8 := encodedText pchar

/-- `segment-nz = 1*pchar`. -/
def segmentNz : Language UInt8 := atLeastOne (oneOf pchar + pctEncoded)

/-- `path-abempty = *( "/" segment )`. -/
def pathAbempty : Language UInt8 := (literal [slash] * segment)∗

/-- `path-rootless = segment-nz *( "/" segment )`. -/
def pathRootless : Language UInt8 := segmentNz * pathAbempty

/-- `path-absolute = "/" [ segment-nz *( "/" segment ) ]`. -/
def pathAbsolute : Language UInt8 := literal [slash] * optional pathRootless

/-- `hier-part`, with `path-empty` as the empty word. -/
def hierPart : Language UInt8 :=
  literal [slash, slash] * (authority * pathAbempty) + pathAbsolute + pathRootless + 1

/-- `query = *( pchar / "/" / "?" )`. -/
def query : Language UInt8 := encodedText fun c => pchar c || c == slash || c == question

/-- Any bytes, as long as every "%" starts a triplet. -/
def fragment : Language UInt8 := encodedText fun c => c != percent

/-- `URI = scheme ":" hier-part [ "?" query ] [ "#" fragment ]`. -/
def uri : Language UInt8 :=
  scheme * literal [colon] * hierPart * optional (literal [question] * query) *
    optional (literal [hash] * fragment)

end ImpactSockets.Uri.Grammar
