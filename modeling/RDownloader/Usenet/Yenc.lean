import RDownloader.Core.Digits

/-!
# Decoding an article (`rd-usenet/src/yenc.rs`)

An article is taken apart into lines. The first `=ybegin ` line names the file, `=ypart ` lines place
the article in it, every other line up to `=yend ` is data.
-/

namespace RDownloader

abbrev Bytes := List UInt8

/-- A character of the wire, as its byte. -/
def ascii (c : Char) : UInt8 := UInt8.ofNat c.toNat

namespace Text

/-- `str::as_bytes`. -/
def encode (text : Text) : Bytes := text.flatMap String.utf8EncodeChar

/-- `str::from_utf8`. -/
def fromUtf8 (bytes : Bytes) : Option Text :=
  bytes.toByteArray.utf8Decode?.map Array.toList

/-- `char::is_ascii_whitespace`. -/
def isAsciiWhitespace (c : Char) : Bool :=
  c = ' ' || c = '\t' || c = '\n' || c = '\x0c' || c = '\r'

/-- `split_ascii_whitespace`. -/
def splitAsciiWhitespace (text : Text) : List Text :=
  (text.splitOnP isAsciiWhitespace).filter (· ≠ [])

end Text

/-- Metadata parsed from `=ybegin`, `=ypart` and `=yend` lines. -/
structure YencMetadata where
  name : Text
  declaredSize : Nat
  partBegin : Option Nat
  partEnd : Option Nat
  expectedCrc32 : Option UInt32
  deriving DecidableEq

structure DecodedArticle where
  metadata : YencMetadata
  data : Bytes
  crc32 : UInt32
  deriving DecidableEq

namespace Yenc

def beginMark : Bytes := "=ybegin ".toList.map ascii

def partMark : Bytes := "=ypart ".toList.map ascii

def endMark : Bytes := "=yend ".toList.map ascii

def trimCr (line : Bytes) : Bytes :=
  if line.getLast? = some (ascii '\r') then line.dropLast else line

def lines (article : Bytes) : List Bytes :=
  (article.splitOnP (· = ascii '\n')).map trimCr

abbrev Fields := List (Text × Text)

/-- The words behind the first one that have a `=`, taken apart there. -/
def fieldsOf (line : Text) : Fields :=
  ((Text.splitAsciiWhitespace line).drop 1).filterMap (Text.splitOnce '=')

def parseFields (line : Bytes) : Except String Fields :=
  match Text.fromUtf8 line with
  | some text => .ok (fieldsOf text)
  | none => .error "yEnc control line is not ASCII"

/-- The first field with the key. -/
def text (fields : Fields) (key : String) : Option Text :=
  fields.findSome? fun field => if field.1 = key.toList then some field.2 else none

def numeric (fields : Fields) (key : String) : Except String Nat :=
  match text fields key with
  | none => .error ("missing yEnc " ++ key)
  | some value =>
    match Text.parseU64 value with
    | none => .error ("invalid yEnc " ++ key)
    | some number => .ok number

/-- The checksum that `=yend` gives: a part's own, or the file's where the article is the file. -/
def checksum (fields : Fields) (whole : Bool) : Except String (Option UInt32) :=
  match (text fields "pcrc32").or (if whole then text fields "crc32" else none) with
  | none => .ok none
  | some value =>
    match Text.parseHex32 value with
    | none => .error "invalid yEnc CRC32"
    | some sum => .ok (some sum)

def decodeLine : Bytes → Except String Bytes
  | [] => .ok []
  | byte :: rest =>
    if byte = ascii '=' then
      match rest with
      | [] => .error "truncated yEnc escape"
      | value :: rest => (decodeLine rest).map ((value - 64 - 42) :: ·)
    else
      (decodeLine rest).map ((byte - 42) :: ·)

/-- What the lines behind `=ybegin` have given so far. -/
structure Part where
  begin_ : Option Nat := none
  end_ : Option Nat := none
  decoded : Bytes := []

/-- The lines up to `=yend`, and the checksum that line gives. -/
def readPart (part : Part) : List Bytes → Except String (Part × Option UInt32)
  | [] => .error "missing =yend line"
  | line :: lines =>
    if partMark.isPrefixOf line then do
      let fields ← parseFields line
      let first ← numeric fields "begin"
      let last ← numeric fields "end"
      readPart { part with begin_ := some first, end_ := some last } lines
    else if endMark.isPrefixOf line then do
      let fields ← parseFields line
      let expected ← checksum fields part.begin_.isNone
      let encodedSize ← numeric fields "size"
      if encodedSize = part.decoded.length then
        .ok (part, expected)
      else
        .error ("yEnc part size mismatch: expected " ++ toString encodedSize ++ ", got " ++
          toString part.decoded.length)
    else do
      let decoded ← decodeLine line
      readPart { part with decoded := part.decoded ++ decoded } lines

section
variable {part : Part} {line : Bytes} {lines : List Bytes} {fields : Fields}

theorem readPart_part (hmark : partMark.isPrefixOf line = true)
    (hfields : parseFields line = .ok fields) (hfirst : numeric fields "begin" = .ok first)
    (hlast : numeric fields "end" = .ok last) :
    readPart part (line :: lines) =
      readPart { part with begin_ := some first, end_ := some last } lines := by
  rw [readPart, if_pos hmark, hfields]
  simp only [bind, Except.bind, hfirst, hlast]

theorem readPart_end (hpart : partMark.isPrefixOf line = false)
    (hmark : endMark.isPrefixOf line = true) (hfields : parseFields line = .ok fields)
    (hsum : checksum fields part.begin_.isNone = .ok sum)
    (hsize : numeric fields "size" = .ok part.decoded.length) :
    readPart part (line :: lines) = .ok (part, sum) := by
  rw [readPart, if_neg (Bool.eq_false_iff.mp hpart), if_pos hmark, hfields]
  simp only [bind, Except.bind, hsum, hsize, if_true]

theorem readPart_end_error (hpart : partMark.isPrefixOf line = false)
    (hmark : endMark.isPrefixOf line = true) (hfields : parseFields line = .ok fields)
    (hsum : checksum fields part.begin_.isNone = .ok sum)
    (hsize : numeric fields "size" = .error error) :
    readPart part (line :: lines) = .error error := by
  rw [readPart, if_neg (Bool.eq_false_iff.mp hpart), if_pos hmark, hfields]
  simp only [bind, Except.bind, hsum, hsize]

theorem readPart_data (hpart : partMark.isPrefixOf line = false)
    (hend : endMark.isPrefixOf line = false) (hdecode : decodeLine line = .ok decoded) :
    readPart part (line :: lines) =
      readPart { part with decoded := part.decoded ++ decoded } lines := by
  rw [readPart, if_neg (Bool.eq_false_iff.mp hpart), if_neg (Bool.eq_false_iff.mp hend), hdecode]
  rfl

end

section
variable (crc32 : Bytes → UInt32)

/-- The article of a file with this name and size, from the lines behind `=ybegin`. -/
def decodeNamed (name : Text) (declaredSize : Nat) (lines : List Bytes) :
    Except String DecodedArticle := do
  let (part, expected) ← readPart {} lines
  if part.begin_.isNone && declaredSize ≠ part.decoded.length then
    .error ("yEnc file size mismatch: expected " ++ toString declaredSize ++ ", got " ++
      toString part.decoded.length)
  else if expected.any (· ≠ crc32 part.decoded) then
    .error "yEnc CRC32 mismatch"
  else
    .ok {
      metadata := {
        name
        declaredSize
        partBegin := part.begin_
        partEnd := part.end_
        expectedCrc32 := expected }
      data := part.decoded
      crc32 := crc32 part.decoded }

/-- The article, from the fields of its `=ybegin` line and the lines behind it. -/
def decodeFields (fields : Fields) (lines : List Bytes) : Except String DecodedArticle :=
  match text fields "name" with
  | none => .error "missing yEnc name"
  | some name => do
    let declaredSize ← numeric fields "size"
    decodeNamed crc32 name declaredSize lines

/-- Decodes one complete yEnc article and verifies size and CRC when present. -/
def decodeYenc (article : Bytes) : Except String DecodedArticle :=
  match (lines article).dropWhile (!beginMark.isPrefixOf ·) with
  | [] => .error "missing =ybegin line"
  | begin_ :: lines => do
    let fields ← parseFields begin_
    decodeFields crc32 fields lines

end
end Yenc
end RDownloader
