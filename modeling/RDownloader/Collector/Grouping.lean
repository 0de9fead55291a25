import Mathlib.Data.List.Basic
import Mathlib.Data.List.Perm.Basic
import RDownloader.Core.Lines
import RDownloader.Files.ArchiveNames

/-!
# Packages for submitted links (`rd-collector/src/grouping.rs`)

A link goes into a group by the name its source states, by the release a container stands for, or by
the archive it is a volume of. What none of these rules takes shares one group at the end.
-/

namespace RDownloader

open Text

/-- One link to group, with its place in the caller's list. -/
structure GroupInput where
  index : Nat
  fileName : Option Text
  host : Text
  /-- A container that expands into a release of its own. -/
  standalone : Bool := false
  /-- The package this link's source says it belongs to. -/
  packageHint : Option Text := none

/-- A proposed package with its members in submission order. -/
structure Group where
  name : Text
  members : List Nat
  namedBySource : Bool
  deriving DecidableEq

namespace Grouping

/-- `rd_core::host_key`. -/
def hostKey (host : Text) : Text :=
  let host := toAsciiLowercase ((trimmed host).reverse.dropWhile (· = '.')).reverse
  let www := "www.".toList
  if www.isPrefixOf host ∧ host.drop www.length ≠ [] then host.drop www.length else host

/-- The release name behind a container's file name. -/
def containerName (fileName : Text) : Text :=
  let name := trimmed fileName
  let stem := trimmed
    (((stripSuffix ".nzb".toList name).or (stripSuffix ".torrent".toList name)).getD name)
  if stem = [] then name else stem

def isSeparator (c : Char) : Bool := c = '.' || c = '_' || c = '-' || c = ' '

end Grouping

open Grouping

/-- The rule that takes a link. -/
inductive Route where
  | hint (name : Text)
  | container (name : Text)
  | archive (base : Text)
  | loose
  deriving DecidableEq

namespace GroupInput

/-- The hint, unless it is blank. -/
def hint (input : GroupInput) : Option Text := (input.packageHint.map trimmed).filter (· ≠ [])

def route (input : GroupInput) : Route :=
  match input.hint with
  | some hint => .hint hint
  | none =>
    match if input.standalone then input.fileName else none with
    | some name => .container (containerName name)
    | none =>
      match input.fileName.bind parseArchiveVolume with
      | some volume => .archive volume.base
      | none => .loose

end GroupInput

/-- The first group with such a name takes the link, or a new one. -/
def addTo (fits : Text → Bool) (new : Group) : List Group → List Group
  | [] => [new]
  | group :: groups =>
    if fits group.name then { group with members := group.members ++ new.members } :: groups
    else group :: addTo fits new groups

/-- The groups so far, and the links no rule took. -/
structure Sorted where
  groups : List Group := []
  loose : List GroupInput := []

def Sorted.place (sorted : Sorted) (input : GroupInput) : Sorted :=
  match input.route with
  | .hint hint =>
    { sorted with groups := addTo (· = hint) ⟨hint, [input.index], true⟩ sorted.groups }
  | .container name =>
    { sorted with groups := sorted.groups ++ [⟨name, [input.index], false⟩] }
  | .archive base =>
    { sorted with
      groups := addTo (eqIgnoreAsciiCase · base) ⟨base, [input.index], false⟩ sorted.groups }
  | .loose => { sorted with loose := sorted.loose ++ [input] }

end RDownloader
