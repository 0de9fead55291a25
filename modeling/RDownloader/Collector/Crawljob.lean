import RDownloader.Core.Lines

/-!
# Crawljobs (`rd-collector/src/crawljob.rs`)

The writer puts the addresses of a package on one line with spaces between them. The reader splits
that line at more than spaces, so an address that holds one of its other separators is cut.
-/

namespace RDownloader

/-- What is used of the `url` crate. -/
structure UrlCrate (Url : Type) where
  parse : Text → Option Url
  asStr : Url → Text
  scheme : Url → Text

/-- What is used of `serde_json`: lists of strings. -/
structure SerdeJson where
  toString : List Text → Text
  fromStr : Text → Option (List Text)

/-- One link of a package; a crawljob carries only its address. -/
structure LinksEntry (Url : Type) where
  url : Url
  deriving DecidableEq, Repr

structure LinksPackage (Url : Type) where
  name : Option Text := none
  password : Option Text := none
  links : List (LinksEntry Url)
  deriving DecidableEq, Repr

structure LinksDocument (Url : Type) where
  packages : List (LinksPackage Url)
  deriving DecidableEq, Repr

structure DlcFile (Url : Type) where
  url : Url
  fileName : Option Text
  size : Option Nat
  deriving DecidableEq, Repr

structure DlcPackage (Url : Type) where
  name : Option Text
  password : Option Text
  comment : Option Text
  files : List (DlcFile Url)
  deriving DecidableEq, Repr

/-- A written crawljob and how many links it could not carry. -/
structure Crawljob where
  text : Text
  skipped : Nat
  deriving DecidableEq, Repr

/-- `one_line`: control characters become spaces. -/
def oneLine (value : Option Text) : Option Text :=
  (value.map fun value => Text.trimmed (value.map fun c => if isControl c then ' ' else c)).filter
    (· ≠ [])

variable {Url : Type} (crate : UrlCrate Url) (json : SerdeJson)

def UrlCrate.isWeb (url : Url) : Bool :=
  crate.scheme url = "http".toList || crate.scheme url = "https".toList

/-- The addresses of a package that a crawljob carries. -/
def webUrls (package : LinksPackage Url) : List Text :=
  (package.links.filter (crate.isWeb ·.url)).map (crate.asStr ·.url)

def nameLine (package : LinksPackage Url) : Text :=
  match oneLine package.name with
  | some name => "packageName=".toList ++ name ++ ['\n']
  | none => []

def passwordLine (package : LinksPackage Url) : Text :=
  match oneLine package.password with
  | some password => "extractPasswords=".toList ++ json.toString [password] ++ ['\n']
  | none => []

/-- One block: the lines of a package. -/
def writeBlock (package : LinksPackage Url) : Text :=
  "text=".toList ++ Text.join [' '] (webUrls crate package) ++ ['\n'] ++
    (nameLine package ++ (passwordLine json package ++ "autoStart=FALSE\n".toList))

/-- The packages that keep at least one link. -/
def LinksDocument.kept (document : LinksDocument Url) : List (LinksPackage Url) :=
  document.packages.filter fun package => !(webUrls crate package).isEmpty

/-- `write_crawljob`. -/
def writeCrawljob (document : LinksDocument Url) : Crawljob where
  text := Text.join ['\n'] ((document.kept crate).map (writeBlock crate json))
  skipped := (document.packages.map fun package =>
    package.links.length - (webUrls crate package).length).sum

/-! ## The reader -/

/-- `MAX_CRAWLJOB_BYTES`. -/
def maxCrawljobBytes : Nat := 4 * 1024 * 1024

/-- `str::replace` of a two-character pattern by a space. -/
def replacePair (a b : Char) : Text → Text
  | c :: d :: rest =>
    if c = a ∧ d = b then ' ' :: replacePair a b rest else c :: replacePair a b (d :: rest)
  | text => text

/-- `str::split` at every character of a set. -/
def splitAny (separates : Char → Bool) : Text → List Text
  | [] => [[]]
  | c :: rest =>
    if separates c then [] :: splitAny separates rest
    else match splitAny separates rest with
      | [] => [[c]]
      | piece :: pieces => (c :: piece) :: pieces

/-- `[' ', '\t', ',', ';']`. -/
def isSeparator (c : Char) : Bool := c = ' ' || c = '\t' || c = ',' || c = ';'

def startsWeb (token : Text) : Bool :=
  "http://".toList.isPrefixOf token || "https://".toList.isPrefixOf token

/-- What a `text=` value is cut into. -/
def linkPieces (value : Text) : List Text :=
  splitAny isSeparator (replacePair '\\' 'r' (replacePair '\\' 'n' value))

/-- `links_in`: the links of one `text=` value. -/
def linksIn (value : Text) : List Url :=
  ((linkPieces value).map Text.trimmed).filter startsWeb |>.filterMap crate.parse

/-- `first_password`. -/
def firstPassword (value : Text) : Option Text :=
  match (json.fromStr value).bind fun list => (list.map Text.trimmed).find? (· ≠ []) with
  | some password => some password
  | none => if value.head? = some '[' then none else oneLine (some value)

/-- One block while it is read. -/
structure Crawljob.Block (Url : Type) where
  urls : List Url := []
  name : Option Text := none
  fileName : Option Text := none
  password : Option Text := none
  deriving DecidableEq, Repr

/-- `Block::finish`: the package of a block that holds a link. -/
def Crawljob.Block.finish (block : Crawljob.Block Url) : List (DlcPackage Url) :=
  if block.urls.isEmpty then []
  else
    let fileName := if block.urls.length = 1 then block.fileName else none
    [{ name := block.name
       password := block.password
       comment := none
       files := block.urls.map fun url => { url, fileName, size := none } }]

/-- `to_lowercase` of a key, as far as an ASCII word can come of it. -/
def lowercaseKey (key : Text) : Text :=
  (Text.toAsciiLowercase key).map fun c => if c = '\u212a' then 'k' else c

/-- One `key=value` line. -/
def Crawljob.Block.read (block : Crawljob.Block Url) (line : Text) : Crawljob.Block Url :=
  match Text.splitOnce '=' line with
  | none => block
  | some (key, value) =>
    let value := value.trimmed
    let key := lowercaseKey key.trimmed
    if key = "text".toList then { block with urls := block.urls ++ linksIn crate value }
    else if key = "packagename".toList ∧ value ≠ [] then { block with name := some value }
    else if key = "filename".toList ∧ value ≠ [] then { block with fileName := some value }
    else if key = "extractpasswords".toList then
      { block with password := firstPassword json value }
    else block

/-- The loop over the lines: an empty one ends a block. -/
def readLines (block : Crawljob.Block Url) : List Text → List (DlcPackage Url)
  | [] => block.finish
  | line :: lines =>
    let trimmed := line.trimmed
    if trimmed = [] then block.finish ++ readLines {} lines
    else if trimmed.head? = some '#' ∨ "//".toList.isPrefixOf trimmed then readLines block lines
    else readLines (block.read crate json trimmed) lines

/-- A file without the byte order mark it may begin with. -/
def stripMark : Text → Text
  | '\ufeff' :: rest => rest
  | text => text

/-- `read_crawljob`, of a file that is UTF-8. -/
def readCrawljob (input : Text) : Except String (List (DlcPackage Url)) :=
  if Text.byteLength input > maxCrawljobBytes then
    .error "the crawljob exceeds the 4 MiB limit"
  else .ok (readLines crate json {} (Text.lines (stripMark input)))

end RDownloader
