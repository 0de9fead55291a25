import Mathlib.Data.List.MinMax
import RDownloader.Core.CookieFile
import RDownloader.Files.Paths
import RDownloader.Torrent.Glob

/-!
# Paths from another machine (`rd-backup/src/restore/paths.rs`)

A backup names the folders of the system it was made on. A stored path is read by its own shape,
and a remap moves it below the new place of the deepest root it lies in. The system a backup is
restored on is a Unix one here.
-/

namespace RDownloader.Backup

/-- Which rules a stored path was written under. -/
inductive PathStyle where
  | windows
  | posix
  deriving DecidableEq, Repr

/-- An absolute path as another machine wrote it. -/
structure ForeignPath where
  style : PathStyle
  /-- `prefix` in the source: `c:` for a drive, `\\server\share` for a share, empty for POSIX. -/
  volume : Text
  components : List Text
  deriving DecidableEq

namespace ForeignPath

def isPathSeparator (c : Char) : Bool := c = '\\' || c = '/'

/-- The pieces that name something. -/
def named (pieces : List Text) : List Text :=
  pieces.filter fun segment => segment ≠ [] && segment ≠ ['.']

def windowsSplit (rest : Text) : List Text := named (rest.splitOnP isPathSeparator)

def withoutVerbatim : Text → Text
  -- the share before the drive: one text begins the other
  | '\\' :: '\\' :: '?' :: '\\' :: 'U' :: 'N' :: 'C' :: '\\' :: rest => '\\' :: '\\' :: rest
  | '\\' :: '\\' :: '?' :: '\\' :: rest => rest
  | value => value

/-- A share has two names before those of its folders. -/
def readShare (casing : Casing) (rest : Text) : Option ForeignPath :=
  match windowsSplit rest with
  | server :: share :: names => some {
      style := .windows
      volume := casing.toLowercase ('\\' :: '\\' :: server ++ '\\' :: share)
      components := names }
  | _ => none

def isDrive : Text → Bool
  | letter :: ':' :: _ => letter.isAlpha
  | _ => false

/-- `C:name` is relative to the drive's current folder: not a place. -/
def readDrive (casing : Casing) (value : Text) : Option ForeignPath :=
  if (value.drop 2).head?.all isPathSeparator then some {
    style := .windows
    volume := casing.toLowercase (value.take 2)
    components := windowsSplit (value.drop 2) }
  else none

def readPosix : Text → Option ForeignPath
  | '/' :: rest => some { style := .posix, volume := [], components := named (rest.splitOn '/') }
  | _ => none

/-- A text by its shape, the verbatim forms apart. -/
def readShape (casing : Casing) : Text → Option ForeignPath
  | '\\' :: '\\' :: rest => readShare casing rest
  | value => if isDrive value then readDrive casing value else readPosix value

/-- `ForeignPath::parse`. -/
def parse (casing : Casing) (value : Text) : Option ForeignPath :=
  readShape casing (withoutVerbatim (CookieFile.trimEnd '\x00' value))

def same (casing : Casing) : PathStyle → Text → Text → Bool
  | .windows, left, right => casing.toLowercase left = casing.toLowercase right
  | .posix, left, right => left = right

/-- The names below `root`, if the path lies at or below it. -/
def below (casing : Casing) (path root : ForeignPath) : Option (List Text) :=
  if path.style ≠ root.style ∨ path.volume ≠ root.volume ∨
      path.components.length < root.components.length then none
  else if (path.components.zip root.components).all fun (left, right) =>
      same casing path.style left right then
    some (path.components.drop root.components.length)
  else none

/-- How many names deep the path is. -/
def depth (path : ForeignPath) : Nat := path.components.length

end ForeignPath

inductive MappingProblem where
  | sourceNotAbsolute
  | targetNotAbsolute
  | targetNotPlain
  deriving DecidableEq, Repr

def MappingProblem.code : MappingProblem → String
  | .sourceNotAbsolute => "backup.restore_mapping_source_invalid"
  | .targetNotAbsolute => "backup.restore_mapping_not_absolute"
  | .targetNotPlain => "backup.restore_mapping_not_plain"

/-- One storage root moved: its path as the backup has it, and where it lies here. -/
structure RootMapping (casing : Casing) where
  rootId : Text
  source : ForeignPath
  target : Text
  parsed : ∃ value, ForeignPath.parse casing value = some source
  absolute : target.head? = some '/'
  plain : ∀ component ∈ Path.components target, component ≠ .parentDir ∧ component ≠ .curDir

/-- `RootMapping::new`. -/
def RootMapping.new (casing : Casing) (rootId source target : Text) :
    Except MappingProblem (RootMapping casing) :=
  match parsed : ForeignPath.parse casing source with
  | none => .error .sourceNotAbsolute
  | some path =>
    let target := Text.trimmed target
    if absolute : target.head? = some '/' then
      if plain : ∀ component ∈ Path.components target,
          component ≠ .parentDir ∧ component ≠ .curDir then
        .ok ⟨rootId, path, target, ⟨source, parsed⟩, absolute, plain⟩
      else .error .targetNotPlain
    else .error .targetNotAbsolute

/-- What a remap made of one stored path. -/
inductive Remapped where
  /-- Below a moved root: its new place, inside the root's new place. -/
  | moved (path : Text)
  /-- Below no moved root, or not absolute at all: it stays as stored. -/
  | unmapped
  /-- Below a moved root, but its relative part is not plain names: refused. -/
  | escapes
  deriving DecidableEq

/-- The loop of `remap`: each name has to be one plain name on this system too. -/
def pushNames (moved : Text) : List Text → Option Text
  | [] => some moved
  | name :: names =>
    if Path.components name = [.normal name] then pushNames (Path.push moved name) names else none

/-- The roots the path lies at or below, with the names below them. -/
def rootsAbove {casing : Casing} (path : ForeignPath) (mappings : List (RootMapping casing)) :
    List (RootMapping casing × List Text) :=
  mappings.filterMap fun mapping =>
    (path.below casing mapping.source).map fun names => (mapping, names)

/-- `Iterator::max_by_key` on the depth of the root: of several, the last. -/
def deepest {casing : Casing} (roots : List (RootMapping casing × List Text)) :
    Option (RootMapping casing × List Text) :=
  roots.reverse.argmax fun root => root.1.source.depth

def remap {casing : Casing} (value : Text) (mappings : List (RootMapping casing)) : Remapped :=
  match ForeignPath.parse casing value with
  | none => .unmapped
  | some path =>
    match deepest (rootsAbove path mappings) with
    | none => .unmapped
    | some (mapping, names) =>
      match pushNames mapping.target names with
      | none => .escapes
      | some moved => if Path.startsWith moved mapping.target then .moved moved else .escapes

end RDownloader.Backup
