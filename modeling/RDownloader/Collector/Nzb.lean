import Mathlib.Data.List.Sort
import RDownloader.Core.Lines
import RDownloader.Lib.Xml

/-!
# NZB documents (`rd-collector/src/nzb.rs`)

The writer escapes every value. The reader takes the events of the XML reader one at a time, and only
the password is put together from the texts and the references between them.
-/

namespace RDownloader

/-- One article reference. -/
structure NzbSegment where
  number : Nat
  bytes : Nat
  messageId : Text
  deriving DecidableEq, Repr

/-- One logical file. -/
structure NzbFile where
  subject : Text := []
  poster : Text := []
  /-- The post date in Unix seconds. -/
  date : Option Int := none
  groups : List Text := []
  segments : List NzbSegment := []
  deriving DecidableEq, Repr

structure NzbDocument where
  password : Option Text := none
  files : List NzbFile := []
  deriving DecidableEq, Repr

namespace Nzb

/-- `MAX_NZB_BYTES`. -/
def maxNzbBytes : Nat := 64 * 1024 * 1024

def tooLarge : String := "NZB exceeds the 64 MiB input limit"

def noFiles : String := "NZB contains no files"

def doctypeRefused : String := "only the external NZB doctype is allowed"

/-! ## Numbers -/

/-- How `Display` writes a natural number. -/
def decimal (n : Nat) : Text := Nat.toDigits 10 n

/-- How `Display` writes an `i64`. -/
def signed : Int → Text
  | .ofNat n => decimal n
  | .negSucc n => '-' :: decimal (n + 1)

/-- `str::parse` for an unsigned word. -/
def parseWord (limit : Nat) (text : Text) : Except String Nat :=
  let digits := match text with
    | '+' :: rest => rest
    | _ => text
  match Text.digits? digits with
  | some n => if n ≤ limit then .ok n else .error "number too large to fit in target type"
  | none => .error "invalid digit found in string"

/-- `str::parse::<i64>().ok()`. -/
def parseI64 (text : Text) : Option Int :=
  match text with
  | '-' :: rest => ((Text.digits? rest).filter (· ≤ i64Max + 1)).map fun n => -(n : Int)
  | '+' :: rest => ((Text.digits? rest).filter (· ≤ i64Max)).map fun n => (n : Int)
  | text => ((Text.digits? text).filter (· ≤ i64Max)).map fun n => (n : Int)

/-! ## The reader -/

/-- What the parser holds between two events. -/
structure Parser where
  document : NzbDocument := {}
  currentFile : Option NzbFile := none
  currentSegment : Option (Nat × Nat) := none
  currentElement : Text := []
  inHead : Bool := false
  /-- The text of a password while its element is open. -/
  passwordMeta : Option Text := none
  deriving DecidableEq, Repr

/-- Whether a `<meta>` in the head is the password. -/
def isPasswordMeta (attributes : List (Except String Xml.Attribute)) : Except String Bool :=
  attributes.foldlM (fun isPassword attr => do
    let attr ← attr
    if isPassword then return true
    else if attr.key = "type".toList then
      return Text.eqIgnoreAsciiCase (← attr.value) "password".toList
    else return false) false

/-- A `<file>` with its subject, poster and post date. -/
def fileStart (attributes : List (Except String Xml.Attribute)) : Except String NzbFile :=
  attributes.foldlM (fun file attr => do
    let attr ← attr
    if attr.key = "subject".toList then return { file with subject := ← attr.value }
    else if attr.key = "poster".toList then return { file with poster := ← attr.value }
    else if attr.key = "date".toList then
      return { file with date := parseI64 (Text.trimmed (← attr.value)) }
    else return file) {}

/-- A `<segment>`'s number and size. -/
def segmentStart (attributes : List (Except String Xml.Attribute)) : Except String (Nat × Nat) := do
  let (number, bytes) ← attributes.foldlM (fun (number, bytes) attr => do
    let attr ← attr
    if attr.key = "number".toList then
      return (some (← parseWord u32Max (← attr.value)), bytes)
    else if attr.key = "bytes".toList then
      return (number, some (← parseWord u64Max (← attr.value)))
    else return (number, bytes)) ((none, none) : Option Nat × Option Nat)
  match number, bytes with
  | none, _ => .error "NZB segment has no number"
  | some _, none => .error "NZB segment has no size"
  | some number, some bytes => .ok (number, bytes)

/-- `dedup_by_key`: the first of neighbours with one number. -/
def dedupByNumber : List NzbSegment → List NzbSegment
  | first :: second :: rest =>
    if first.number = second.number then dedupByNumber (first :: rest)
    else first :: dedupByNumber (second :: rest)
  | segments => segments

/-- A closed `<file>`, its segments in order, once each, counted from 1. -/
def finishedFile (file : NzbFile) : NzbFile :=
  let segments := dedupByNumber (file.segments.insertionSort (·.number ≤ ·.number))
  let fromZero := segments.head?.any (·.number = 0)
  { file with segments :=
      if fromZero then
        segments.filterMap fun segment =>
          if segment.number + 1 ≤ u32Max then some { segment with number := segment.number + 1 }
          else none
      else segments }

/-- Keeps the first usable password. -/
def rememberPassword (document : NzbDocument) (value : Text) : Except String NzbDocument :=
  if document.password.isSome then .ok document
  else
    let password := Text.trimmed value
    if password = [] then .ok document
    else if 1024 < password.length ∨ '\n' ∈ password ∨ '\r' ∈ password then
      .error "NZB archive password must be between 1 and 1024 characters on one line"
    else .ok { document with password := some password }

def validateDoctype (value : Text) : Except String Unit :=
  let trimmed := Text.trimmed value
  let root := (trimmed.dropWhile (fun c => c ∈ [' ', '\t', '\n', '\x0c', '\r'])).takeWhile
    fun c => c ∉ [' ', '\t', '\n', '\x0c', '\r']
  if !Text.eqIgnoreAsciiCase root "nzb".toList || trimmed.any (fun c => c ∈ ['[', ']']) ||
      Text.contains (Text.toAsciiLowercase trimmed) "<!entity".toList then .error doctypeRefused
  else .ok ()

namespace Parser

variable (reader : Xml.Reader) (parser : Parser)

def start (name : Text) (attributes : List (Except String Xml.Attribute)) : Except String Parser :=
  let parser := { parser with currentElement := name }
  if name = "head".toList then .ok { parser with inHead := true }
  else if name = "meta".toList ∧ parser.inHead then
    (isPasswordMeta attributes).map fun isPassword =>
      { parser with passwordMeta := if isPassword then some [] else none }
  else if name = "file".toList then
    (fileStart attributes).map fun file => { parser with currentFile := some file }
  else if name = "segment".toList then
    (segmentStart attributes).map fun segment => { parser with currentSegment := some segment }
  else .ok parser

/-- What a text is where it stands. -/
def take (value : Text) : Parser :=
  if parser.currentElement = "group".toList then
    { parser with currentFile := parser.currentFile.map fun file =>
        { file with groups := file.groups ++ [value] } }
  else if parser.currentElement = "segment".toList then
    match parser.currentFile, parser.currentSegment with
    | some file, some (number, bytes) =>
      let bracket : Char → Bool := fun c => c = '<' || c = '>'
      let messageId := ((value.dropWhile bracket).reverse.dropWhile bracket).reverse
      { parser with
        currentSegment := none
        currentFile := some
          { file with segments := file.segments ++ [{ number, bytes, messageId }] } }
    | _, _ => { parser with currentSegment := none }
  else parser

/-- Adds to the password that is open. -/
def push (value : Text) : Parser :=
  { parser with passwordMeta := parser.passwordMeta.map (· ++ value) }

def text (content : Text) : Except String Parser :=
  (reader.unescape content).map fun value => (parser.push value).take value

def cdata (content : Text) : Parser := parser.push content

def generalRef (name : Text) : Except String Parser :=
  match parser.passwordMeta with
  | none => .ok parser
  | some _ =>
    match reader.resolveCharRef name with
    | .error error => .error error
    | .ok (some character) => .ok (parser.push [character])
    | .ok none =>
      match reader.resolveEntity name with
      | some value => .ok (parser.push value)
      | none => .error "NZB password contains an unknown XML entity"

/-- `end`. -/
def close (name : Text) : Except String Parser :=
  let closed : Except String Parser :=
    if name = "meta".toList then
      match parser.passwordMeta with
      | some password => (rememberPassword parser.document password).map fun document =>
          { parser with document, passwordMeta := none }
      | none => .ok parser
    else if name = "head".toList then .ok { parser with inHead := false }
    else if name = "file".toList then
      match parser.currentFile with
      | some file =>
        let document :=
          { parser.document with files := parser.document.files ++ [finishedFile file] }
        .ok { parser with document, currentFile := none }
      | none => .ok parser
    else .ok parser
  closed.map fun parser => { parser with currentElement := [] }

def event : Xml.Event → Except String Parser
  | .start name attributes => parser.start name attributes
  | .text content => parser.text reader content
  | .cdata content => .ok (parser.cdata content)
  | .generalRef name => parser.generalRef reader name
  | .close name => parser.close name
  | .docType content => (validateDoctype content).map fun _ => parser
  | .other => .ok parser

/-- The loop of `parse_nzb`. -/
def events : List (Except String Xml.Event) → Parser → Except String Parser
  | [], parser => .ok parser
  | .error error :: _, _ => .error error
  | .ok event :: rest, parser => (parser.event reader event).bind (events rest)

end Parser

/-- `parse_nzb`. -/
def parseNzb (reader : Xml.Reader) (input : Text) : Except String NzbDocument :=
  if maxNzbBytes < input.byteLength then .error tooLarge
  else
    match Parser.events reader (reader.read input) {} with
    | .error error => .error error
    | .ok parser =>
      if parser.document.files = [] then .error noFiles else .ok parser.document

/-! ## The writer -/

def renderMeta (kind value : Text) : Text :=
  "  <meta type=\"".toList ++ kind ++ "\">".toList ++ Xml.escape value ++ "</meta>\n".toList

def renderHead (name password : Option Text) : Text :=
  if name.isSome ∨ password.isSome then
    " <head>\n".toList ++ (name.map (renderMeta "name".toList)).getD [] ++
      (password.map (renderMeta "password".toList)).getD [] ++ " </head>\n".toList
  else []

def renderGroup (group : Text) : Text :=
  "   <group>".toList ++ Xml.escape group ++ "</group>\n".toList

def renderSegment (segment : NzbSegment) : Text :=
  "   <segment bytes=\"".toList ++ decimal segment.bytes ++ "\" number=\"".toList ++
    decimal segment.number ++ "\">".toList ++ Xml.escape segment.messageId ++
    "</segment>\n".toList

def renderFile (date : Int) (file : NzbFile) : Text :=
  " <file poster=\"".toList ++ Xml.escape file.poster ++ "\" date=\"".toList ++
    signed (file.date.getD date) ++ "\" subject=\"".toList ++ Xml.escape file.subject ++
    "\">\n  <groups>\n".toList ++ file.groups.flatMap renderGroup ++
    "  </groups>\n  <segments>\n".toList ++ file.segments.flatMap renderSegment ++
    "  </segments>\n </file>\n".toList

def prologue : Text :=
  "<?xml version=\"1.0\" encoding=\"UTF-8\"?>\n<!DOCTYPE nzb PUBLIC \"-//newzBin//DTD NZB 1.1//EN\" ".toList ++
    "\"http://www.newzbin.com/DTD/nzb/nzb-1.1.dtd\">\n<nzb xmlns=\"http://www.newzbin.com/DTD/2003/nzb\">\n".toList

/-- `render_nzb`. -/
def renderNzb (document : NzbDocument) (name : Option Text) (date : Int) : Text :=
  let name := (name.map Text.trimmed).filter (· ≠ [])
  prologue ++ renderHead name document.password ++ document.files.flatMap (renderFile date) ++
    "</nzb>\n".toList

end Nzb

end RDownloader
