import RDownloader.Core.Digits
import RDownloader.Core.Lines

/-!
# Cookie files (`rd-core/src/cookie_file.rs`)

Stored cookies are read from two forms, the rows of a Netscape file and a `Cookie:` header, and
written in the first. Texts are lists of characters.
-/

namespace RDownloader

/-- `MAX_COOKIE_FILE`, in bytes. -/
def maxCookieFile : Nat := 4 * 1024 * 1024

/-- Why a cookie blob was rejected. -/
inductive CookieFileError where
  | tooLarge
  | malformedRow
  | malformedHeader
  | empty
  deriving DecidableEq, Repr

/-- One cookie, as the Netscape format models it. -/
structure CookieRow where
  /-- Lowercased host, without the format's leading dot. -/
  domain : Text
  includeSubdomains : Bool
  path : Text
  secure : Bool
  expires : Int
  name : Text
  value : Text
  deriving DecidableEq

namespace CookieFile

/-- `#HttpOnly_`: a real row wearing a comment prefix. -/
def httpOnly : Text := "#HttpOnly_".toList

/-! ## Writing -/

def flag (value : Bool) : Text := if value then "TRUE".toList else "FALSE".toList

/-- The fields of a row in the file. -/
def fields (row : CookieRow) : List Text :=
  [if row.includeSubdomains then '.' :: row.domain else row.domain, flag row.includeSubdomains,
    row.path, flag row.secure, Text.ofInt row.expires, row.name, row.value]

/-- The row in Netscape form, without a trailing newline. -/
def toNetscape (row : CookieRow) : Text := ['\t'].intercalate (fields row)

def fileHeader : Text := "# Netscape HTTP Cookie File".toList

def toNetscapeFile (rows : List CookieRow) : Text :=
  fileHeader ++ '\n' :: rows.flatMap fun row => toNetscape row ++ ['\n']

/-! ## Reading -/

/-- `trim_end_matches`. -/
def trimEnd (c : Char) (text : Text) : Text := (text.reverse.dropWhile (· = c)).reverse

/-- One row from its seven fields. -/
def readRow : List Text → Except CookieFileError CookieRow
  | [rawDomain, subdomains, path, secure, expires, name, value] =>
    let domain := Text.toAsciiLowercase (rawDomain.dropWhile (· = '.'))
    if domain = [] then .error .malformedRow
    else .ok {
      domain
      includeSubdomains :=
        rawDomain.head? = some '.' || Text.eqIgnoreAsciiCase subdomains "true".toList
      path := if path = [] then ['/'] else path
      secure := Text.eqIgnoreAsciiCase secure "true".toList
      expires := (Text.parseI64 expires).getD 0
      name, value }
  | _ => .error .malformedRow

/-- A line without its end, unless it is blank or a comment. -/
def rowText (rawLine : Text) : Option Text :=
  let line := trimEnd '\r' rawLine
  if Text.trimmed line = [] || line.head? = some '#' && !httpOnly.isPrefixOf line then none
  else some (if httpOnly.isPrefixOf line then line.drop httpOnly.length else line)

def readRows : List Text → Except CookieFileError (List CookieRow)
  | [] => .ok []
  | line :: lines =>
    match rowText line with
    | none => readRows lines
    | some text => do
      let row ← readRow (text.splitOn '\t')
      return row :: (← readRows lines)

def parseNetscape (content : Text) : Except CookieFileError (List CookieRow) :=
  readRows (Text.lines content)

/-- One `name=value` of a header. -/
def readPair (host pair : Text) : Except CookieFileError CookieRow :=
  match Text.splitOnce '=' pair with
  | none => .error .malformedHeader
  | some (name, value) =>
    let (name, value) := (Text.trimmed name, Text.trimmed value)
    if name = [] || name.any isControl || value.any isControl then .error .malformedHeader
    else .ok {
      domain := host, includeSubdomains := true, path := ['/'], secure := false, expires := 0
      name, value }

def parseHeader (content host : Text) : Except CookieFileError (List CookieRow) :=
  let host := Text.toAsciiLowercase (trimEnd '.' host)
  if host = [] then .error .malformedHeader
  else
    let content := Text.trimmed content
    let cookie := "Cookie:".toList
    let content := Text.trimmed
      (if cookie.isPrefixOf content then content.drop cookie.length else content)
    (((content.splitOn ';').map Text.trimmed).filter (· ≠ [])).mapM (readPair host)

/-- A line with seven fields makes a file. -/
def isNetscape (content : Text) : Bool :=
  (Text.lines content).any fun line => 7 ≤ (line.splitOn '\t').length

/-- Parses either a Netscape cookie file or a `Cookie:` header of `headerHost`. -/
def parse (content headerHost : Text) : Except CookieFileError (List CookieRow) :=
  if maxCookieFile < Text.byteLength content then .error .tooLarge
  else do
    let rows ← if isNetscape content then parseNetscape content else parseHeader content headerHost
    if rows = [] then .error .empty else .ok rows

end CookieFile
end RDownloader
