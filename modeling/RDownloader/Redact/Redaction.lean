import RDownloader.Core.Lines

/-!
# Redaction of credentials (`rd-core/src/redact.rs`)

Addresses are read and spelled by the library `url`, which is a parameter, and so is what
`char::is_alphanumeric` says of a character.
-/

namespace RDownloader

namespace Redact

open Text

/-- `REDACTION_PLACEHOLDER`. -/
def placeholder : Text := "[redacted]".toList

/-- Query parameter names whose value is a credential or a signature. -/
def signedQuerySecrets : List Text :=
  ["x-amz-signature", "x-amz-credential", "x-amz-security-token", "sig", "skoid", "sktid", "srt",
    "x-goog-signature", "x-goog-credential", "signature", "policy", "key-pair-id", "token",
    "access_token", "auth_token", "api_key", "apikey", "auth", "authorization", "hash", "md5",
    "secret", "password", "passwd", "pwd", "session", "sid", "key", "passkey", "authkey",
    "torrent_pass", "rsstoken", "auth_key", "access_key", "secret_key", "client_secret",
    "private_token", "api-key", "x-api-key", "link_password", "shared_link_password"].map
    String.toList

/-- Header names whose value is always a credential. -/
def credentialHeaders : List Text :=
  ["cookie", "set-cookie", "authorization", "proxy-authorization", "www-authenticate"].map
    String.toList

/-- Authentication schemes whose parameter is a credential. -/
def credentialSchemes : List Text := ["bearer ", "basic ", "digest "].map String.toList

/-- What the addresses that are read in a text begin with. -/
def markers : List Text :=
  ["https://", "http://", "vault://", "ftps://", "ftp://", "sftp://", "socks5://",
    "socks5h://"].map String.toList

def vaultMarker : Text := "vault://".toList

/-! ## Addresses -/

/-- An address as the library has it, the port with the host. -/
structure Address where
  scheme : Text
  username : Text := []
  password : Option Text := none
  host : Text
  path : Text
  query : Option Text := none
  fragment : Option Text := none
  deriving DecidableEq

namespace Address

variable (address : Address)

/-- Whether an address carries user information. -/
def hasUser : Bool := address.username ≠ [] || address.password.isSome

def userText : Text :=
  if address.hasUser then
    address.username ++ (match address.password with
      | some password => ':' :: password
      | none => []) ++ ['@']
  else []

def queryText : Text :=
  match address.query with
  | some query => '?' :: query
  | none => []

def fragmentText : Text :=
  match address.fragment with
  | some fragment => '#' :: fragment
  | none => []

/-- `Url::as_str`. -/
def asStr : Text :=
  address.scheme ++ "://".toList ++ address.userText ++ address.host ++ address.path ++
    address.queryText ++ address.fragmentText

end Address

/-- What is used of the library: `Url::parse`, and how `form_urlencoded` reads a query and writes
one name or value. -/
structure UrlLibrary where
  parse : Text → Option Address
  decode : Text → List (Text × Text)
  encodeText : Text → Text

/-- `extend_pairs` on an empty query. -/
def UrlLibrary.encode (library : UrlLibrary) (pairs : List (Text × Text)) : Text :=
  ['&'].intercalate <| pairs.map fun (name, value) =>
    library.encodeText name ++ '=' :: library.encodeText value

variable (library : UrlLibrary) (isAlphanumeric : Char → Bool)

/-- Whether a query parameter name carries a secret value. -/
def isSecretParameter (name : Text) : Bool := toAsciiLowercase (trimmed name) ∈ signedQuerySecrets

def queryPairs (address : Address) : List (Text × Text) :=
  library.decode (address.query.getD [])

def redactPair (pair : Text × Text) : Text × Text :=
  if isSecretParameter pair.1 then (pair.1, placeholder) else pair

def hideUser (address : Address) : Address :=
  if address.hasUser then { address with username := "redacted".toList, password := none }
  else address

/-- The address that `redact_url` spells. -/
def redacted (address : Address) : Address :=
  let pairs := queryPairs library address
  if pairs.any fun pair => isSecretParameter pair.1 then
    { hideUser address with query := some (library.encode (pairs.map redactPair)) }
  else hideUser address

/-- The address with every credential-bearing query value and any userinfo replaced. -/
def redactUrl (address : Address) : Text := (redacted library address).asStr

/-! ## Tokens -/

/-- What a token does not go beyond. -/
def isStop (c : Char) : Bool := isWhiteSpace c || "\"'<>`\\|".toList.contains c

/-- Sentence punctuation, which is given back. -/
def isClosing (c : Char) : Bool := ".,;:!?)]\x7d".toList.contains c

/-- The second loop of `token_end`, on the token in reverse. -/
def giveBack : Text → Text
  | [] => []
  | c :: rest =>
    if placeholder.reverse.isPrefixOf (c :: rest) then c :: rest
    else if isClosing c then giveBack rest
    else c :: rest

/-- What stands before the first stop. -/
def run (text : Text) : Text := text.takeWhile (!isStop ·)

/-- What stands before `token_end`. -/
def token (text : Text) : Text := (giveBack (run text).reverse).reverse

/-- Whether a word starts behind a character. -/
def isWordStart (previous : Option Char) : Bool :=
  match previous with
  | none => true
  | some previous => !isAlphanumeric previous && previous ≠ '-' && previous ≠ '_'

/-- The marker a text begins with, in any case. -/
def markerOf (text : Text) : Option Text :=
  markers.find? fun marker => marker.isPrefixOf (toAsciiLowercase text)

/-- A scheme and its value, when one begins behind the character. -/
def credentialOf (previous : Option Char) (text : Text) : Option (Text × Text) :=
  match credentialSchemes.find? fun scheme => scheme.isPrefixOf (toAsciiLowercase text) with
  | some scheme =>
    let value := token (text.drop scheme.length)
    if isWordStart isAlphanumeric previous ∧ value ≠ [] then some (text.take scheme.length, value)
    else none
  | none => none

/-- What is written for the token of an address. -/
def addressText (token : Text) : Text :=
  match library.parse token with
  | some address =>
    -- an address with nothing to hide keeps the text it arrived with
    if redactUrl library address = address.asStr then token else redactUrl library address
  | none => token

/-- The loop of `redact_inline`, behind the character before; every round takes a character at
least. -/
def redactInlineFrom : Nat → Option Char → Text → Text
  | 0, _, _ => []
  | _ + 1, _, [] => []
  | rounds + 1, previous, c :: rest =>
    match markerOf (c :: rest) with
    | some marker =>
      let token := token (c :: rest)
      (if marker = vaultMarker then vaultMarker ++ placeholder else addressText library token) ++
        redactInlineFrom rounds token.getLast? ((c :: rest).drop token.length)
    | none =>
      match credentialOf isAlphanumeric previous (c :: rest) with
      | some (scheme, value) =>
        scheme ++ placeholder ++
          redactInlineFrom rounds value.getLast? ((c :: rest).drop (scheme ++ value).length)
      | none => c :: redactInlineFrom rounds (some c) rest

/-- Replaces addresses, `vault://` references and auth schemes inside one line. -/
def redactInline (line : Text) : Text :=
  redactInlineFrom library isAlphanumeric line.length none line

/-- `trim_end`. -/
def trimEnd (text : Text) : Text := (text.reverse.dropWhile isWhiteSpace).reverse

/-- Redacts one line, header-style patterns first. -/
def redactLine (line : Text) : Text :=
  match splitOnce ':' line with
  | some (name, _) =>
    if toAsciiLowercase (trimmed name) ∈ credentialHeaders then
      trimEnd name ++ ": ".toList ++ placeholder
    else redactInline library isAlphanumeric line
  | none => redactInline library isAlphanumeric line

/-- Free-text redaction: each line on its own, whatever ends it. -/
def redactText (text : Text) : Text :=
  ['\n'].intercalate ((text.splitOn '\n').map (redactLine library isAlphanumeric))

end Redact

end RDownloader
