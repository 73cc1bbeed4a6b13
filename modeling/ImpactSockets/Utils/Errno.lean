/-! The library's error codes and their texts, `utils/errno.h`. -/
namespace ImpactSockets

/-- `impact::imperr`. The thread-local `imp_errno` holds one of these. -/
inductive Imperr where
  | success
  | unknown
  | addressSize
  | addressFamily
  | b64Badsym
  | b64Badpad
  | utf8Badsym
  | utf8Badhead
  | utf8Badtrail
  | uriScheme
  | uriColon
  | uriNocolon
  | uriPathabempty
  | uriPathdelim
  | uriAuthinpath
  | uriPercentenc
  | uriMultiAt
  | uriMultiIpLit
  | uriIpLitMismatch
  | uriUserinfoSym
  | uriHostSym
  | uriPortSym
  | uriPortLimit
  | uriInvlIpLit
  | uriSchemeRsv
  | uriSchemeNotfound
deriving DecidableEq, Repr

/-- `error_string`. -/
def errorString : Imperr → String
  | .success => "Success"
  | .unknown => "Unknown internal error"
  | .addressSize => "Unsupported address size"
  | .addressFamily => "Unsupported address family"
  | .b64Badsym => "Bad base-64 symbol"
  | .b64Badpad => "Data padding mismatch"
  | .utf8Badsym => "Bad unicode symbol"
  | .utf8Badhead => "Bad unicode byte header"
  | .utf8Badtrail => "Bad unicode byte trailer"
  | .uriScheme => "Failed to parse uri scheme"
  | .uriColon => "Colon delimiter out of place"
  | .uriNocolon => "No collon delimiter"
  | .uriPathabempty => "Path is neither absolute nor empty"
  | .uriPathdelim => "Path delimiter '/' found out of place"
  | .uriAuthinpath => "Unexpected '//' in uri path"
  | .uriPercentenc => "Invalid percent encoding"
  | .uriMultiAt => "More than one '@' found in auth name"
  | .uriMultiIpLit => "More than one IP literal identifier found in auth name"
  | .uriIpLitMismatch => "'[' and ']' IP literal identifiers missing or out of order"
  | .uriUserinfoSym => "Unexpected character or symbol in userinfo"
  | .uriHostSym => "Unexpected character or symbol in host"
  | .uriPortSym => "Unexpected character or symbol in port"
  | .uriPortLimit => "Port size unsupported"
  | .uriInvlIpLit => "Invalid IP literal"
  | .uriSchemeRsv => "Scheme already reserved (permanent scheme)"
  | .uriSchemeNotfound => "Registered scheme not found"

end ImpactSockets
