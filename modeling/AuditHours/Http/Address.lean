import AuditHours.Http.Host
import AuditHours.Text.Quoted

/-!
Addresses of documents on the network. Only the two web schemes are allowed, and an address must
name a host. The scheme ends at the first colon if only letters, digits and a few marks precede
it; the authority stands between two slashes and the next slash, question mark or number sign.
-/
namespace AuditHours.Http

open Text

inductive AddressFault where
  | scheme (name url : String)
  | noHost (url : String)
  | brackets
  | badFuture
  | shortInBrackets
  | unknownLiteral (host : String)
  | foldedMark (authority : String)
  deriving DecidableEq, Repr

def AddressFault.message : AddressFault → String
  | .scheme name url => s!"URL scheme '{name}' is not allowed: {url}"
  | .noHost url => s!"URL has no host: {url}"
  | .brackets => "Invalid IPv6 URL"
  | .badFuture => "IPvFuture address is invalid"
  | .shortInBrackets => "An IPv4 address cannot be in brackets"
  | .unknownLiteral host => s!"{quoted host} does not appear to be an IPv4 or IPv6 address"
  | .foldedMark authority =>
    s!"netloc '{authority}' contains invalid characters under NFKC normalization"

/-- Characters that turn into a mark of the address syntax when a host name is normalised. -/
def foldedMarks : List Nat :=
  [0x2047, 0x2048, 0x2049, 0x2100, 0x2101, 0x2105, 0x2106, 0x2a74, 0xfe13, 0xfe16, 0xfe55, 0xfe56,
    0xfe5f, 0xfe6b, 0xff03, 0xff0f, 0xff1a, 0xff1f, 0xff20]

def isSchemeChar (c : Char) : Bool := c.isAlphanum || c == '+' || c == '-' || c == '.'

def takeScheme (cs : List Char) : List Char × List Char :=
  match cutAt ':' cs with
  | (name, some rest) =>
    if name.head?.any Char.isAlpha && name.all isSchemeChar then (name.map Char.toLower, rest)
    else ([], cs)
  | (_, none) => ([], cs)

def takeAuthority : List Char → List Char
  | '/' :: '/' :: rest => rest.takeWhile fun c => c != '/' && c != '?' && c != '#'
  | _ => []

/-- A future address: the letter v, hexadecimal digits, a dot and anything. -/
def isFutureAddress (cs : List Char) : Bool :=
  match cutAt '.' (cs.drop 1) with
  | (version, some rest) =>
    !version.isEmpty && version.all isHexDigit && !rest.isEmpty && !rest.contains '\n'
  | _ => false

def checkLiteral (host : List Char) : Except AddressFault Unit :=
  if host.head? = some 'v' then if isFutureAddress host then .ok () else .error .badFuture
  else if isShortAddress host then .error .shortInBrackets
  else if isZonedAddress host then .ok ()
  else .error (.unknownLiteral (String.ofList host))

def checkAuthority (authority : List Char) : Except AddressFault Unit := do
  if authority.contains '[' != authority.contains ']' then .error .brackets
  if authority.contains '[' then
    let inside := (cutAt '[' authority).2.getD []
    checkLiteral (cutAt ']' inside).1
  if authority.any fun c => foldedMarks.contains c.toNat then
    .error (.foldedMark (String.ofList authority))

/-- An address as it is split: blanks and control characters in front and line breaks anywhere
are left out. -/
def visiblePart (url : String) : List Char :=
  (url.toList.dropWhile (·.toNat ≤ 0x20)).filter fun c => c != '\t' && c != '\r' && c != '\n'

/-- Accepts an address of a web scheme that names a host. -/
def checkAddress (url : String) : Except AddressFault Unit := do
  let (scheme, rest) := takeScheme (visiblePart url)
  let authority := takeAuthority rest
  checkAuthority authority
  let name := String.ofList scheme
  if name != "http" && name != "https" then .error (.scheme name url)
  if authority.isEmpty then .error (.noHost url)

end AuditHours.Http
