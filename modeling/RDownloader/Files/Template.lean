import RDownloader.Files.Names
import RDownloader.Files.Paths

/-!
# Output templates (`rd-files/src/template.rs`)

A template is expanded segment by segment, and every segment goes through the sanitiser. The values
are those of a probe; a field without one expands to nothing.
-/

namespace RDownloader

namespace Names

/-- `MAX_PATH_UTF16_UNITS`. -/
def maxPathUtf16Units : Nat := 250

/-- `MIN_NAME_UTF16_UNITS`. -/
def minNameUtf16Units : Nat := 24

/-- The units a name may take below a directory. -/
def unitsWithin (directory : Text) (reserve : Nat) : Nat :=
  min (max (maxPathUtf16Units - (utf16Units directory + 1 + reserve)) minNameUtf16Units)
    maxUtf16Units

/-- Sanitizes a name and shortens it so that it still fits the path budget. -/
def sanitizeFileNameWithin (nfc : Text → Text) (directory name : Text) (reserve : Nat) : Text :=
  sanitizeToLimit nfc name (unitsWithin directory reserve)

end Names

instance : LawfulBEq (Component Text) := inferInstance

namespace Template

open Text

def maxTemplateLength : Nat := 512

def maxTemplateDepth : Nat := 8

/-- Fields a template may reference. -/
def templateFields : List Text :=
  ["title", "uploader", "upload_date", "upload_year", "extractor", "id", "resolution", "ext"].map
    String.toList

/-- Why a template was refused. -/
inductive TemplateError where
  /-- "the template is empty" -/
  | empty
  /-- "the template is longer than 512 characters" -/
  | tooLong
  /-- "`{field}` is not a field a template can use" -/
  | unknownField (field : Text)
  /-- "a `{` is never closed" -/
  | unterminated
  /-- "`{` and `}` cannot be nested" -/
  | nested
  /-- "the template must not start at the filesystem root" -/
  | absolute
  /-- "the template must not leave its destination directory" -/
  | traversal
  /-- "the template nests more than 8 directories deep" -/
  | tooDeep
  /-- "the template expands to an empty path" -/
  | emptyResult
  deriving DecidableEq, Repr

abbrev TemplateValues := Text → Option Text

/-- Whether a segment addresses a parent or the current directory. -/
def isTraversal (segment : Text) : Bool :=
  let trimmed := trimmed segment
  trimmed = "..".toList || trimmed = ".".toList || "../".toList.isPrefixOf trimmed ||
    "..\\".toList.isPrefixOf trimmed

/-- Whether a template tries to start at a filesystem root, a drive or a share. -/
def startsAtRoot (template : Text) : Bool :=
  let template := trimmed template
  template.head? = some '/' || template.head? = some '\\' ||
    match template with
    | c :: ':' :: _ => c.utf8Size = 1
    | _ => false

/-- The loop of `validate` over the characters, with the name of the field it stands in. -/
def checkFields : Option Text → Text → Except TemplateError Unit
  | none, [] => .ok ()
  | some _, [] => .error .unterminated
  | field, c :: rest =>
    match c, field with
    | '\x7b', none => checkFields (some []) rest
    | '\x7b', some _ => .error .nested
    | '\x7d', none => .error .nested
    | '\x7d', some name =>
      if name ∈ templateFields then checkFields none rest else .error (.unknownField name)
    | c, some name => checkFields (some (name ++ [c])) rest
    | _, none => checkFields none rest

/-- Checks a template without expanding it. -/
def validate (template : Text) : Except TemplateError Unit :=
  let template := trimmed template
  if template = [] then .error .empty
  else if maxTemplateLength < template.length then .error .tooLong
  else if startsAtRoot template then .error .absolute
  else do
    checkFields none template
    if (template.splitOn '/').any fun segment =>
        trimmed segment = "..".toList || trimmed segment = ".".toList then .error .traversal
    else if maxTemplateDepth < ((template.splitOn '/').filter (· ≠ [])).length then .error .tooDeep
    else .ok ()

/-- The loop of `substitute`, with the name of the field it stands in. -/
def substituteFrom (values : TemplateValues) : Option Text → Text → Text
  | _, [] => []
  | field, c :: rest =>
    match c, field with
    | '\x7b', _ => substituteFrom values (some []) rest
    | '\x7d', some name => (values name).getD [] ++ substituteFrom values none rest
    | c, some name => substituteFrom values (some (name ++ [c])) rest
    | c, none => c :: substituteFrom values none rest

/-- Replaces every `{field}` with its value, or with nothing when there is none. -/
def substitute (segment : Text) (values : TemplateValues) : Text :=
  substituteFrom values none segment

/-- The segments that are expanded. -/
def segments (template : Text) : List Text :=
  ((trimmed template).splitOn '/').filter fun segment => trimmed segment ≠ []

variable (nfc : Text → Text) (values : TemplateValues) (reserve : Nat)

/-- The loop of `expand`, with the path and the segments produced so far. -/
def expandFrom (path : Text) (produced : Nat) : List Text → Except TemplateError (Text × Nat)
  | [] => .ok (path, produced)
  | segment :: rest =>
    let expanded := substitute segment values
    if isTraversal expanded then .error .traversal
    else if trimmed expanded = [] then expandFrom path produced rest
    else
      let sanitized :=
        if rest = [] then Names.sanitizeFileNameWithin nfc path expanded reserve
        else Names.sanitizeFileName nfc expanded
      if isTraversal sanitized then .error .traversal
      else expandFrom (Path.push path sanitized) (produced + 1) rest

/-- Expands a template into a path below `base`. -/
def expand (base template : Text) : Except TemplateError Text := do
  validate template
  let (path, produced) ← expandFrom nfc values reserve base 0 (segments template)
  if produced = 0 then .error .emptyResult
  else if !Path.startsWith path base || Component.parentDir ∈ Path.components path then
    .error .traversal
  else .ok path

end Template
end RDownloader
