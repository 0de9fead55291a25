import RDownloader.Lib.LinkTree

/-!
# Storage roots (`rd-files/src/storage.rs`)

`resolve` makes canonical what exists and takes the rest as it is, and a link that leads to
nothing does not exist for it.
-/

namespace RDownloader

/-- `std::path::Component`. -/
inductive Component (ν : Type u) where
  | normal (name : ν)
  | curDir
  | parentDir
  | rootDir
  deriving DecidableEq, Repr

inductive ResolveError where
  /-- "destination must be relative to its storage root" -/
  | absolute
  /-- "destination contains a forbidden path component" -/
  | forbiddenComponent
  /-- "destination escapes its storage root through a symlink" -/
  | escapesThroughLink
  /-- "destination escapes its storage root" -/
  | escapes
  deriving DecidableEq, Repr

variable {ν : Type u} {ι : Type v}

def reached : LinkTree.Outcome ν → Option (List ν)
  | .reaches place => some place
  | _ => none

/-- `std::fs::canonicalize` of an absolute path, given by its names, innermost first. -/
def canonicalize (tree : LinkTree ν ι) (links : Nat) (path : List ν) : Option (List ν) :=
  reached (tree.locate links [] (LinkTree.pathTo path))

/-- `Path::exists`. -/
def pathExists (tree : LinkTree ν ι) (links : Nat) (path : List ν) : Bool :=
  (canonicalize tree links path).isSome

/-- An allowlisted destination root: a directory, by its canonical path. -/
structure StorageRoot (tree : LinkTree ν ι) where
  path : List ν
  canonical : tree.entry path = some .dir

namespace StorageRoot

variable [DecidableEq ν] {tree : LinkTree ν ι} (root : StorageRoot tree) (links : Nat)

/-- The loop of `resolve`. -/
def resolveFrom (resolved : List ν) : List (Component ν) → Except ResolveError (List ν)
  | [] => if root.path <:+ resolved then .ok resolved else .error .escapes
  | .normal segment :: rest =>
    let resolved := segment :: resolved
    match canonicalize tree links resolved with
    | some resolved =>
      if root.path <:+ resolved then resolveFrom resolved rest else .error .escapesThroughLink
    | none => resolveFrom resolved rest
  | _ :: _ => .error .forbiddenComponent

/-- `resolve`. -/
def resolve (relative : List (Component ν)) : Except ResolveError (List ν) :=
  if relative = [] then .ok root.path
  else if relative.head? = some .rootDir then .error .absolute
  else root.resolveFrom links root.path relative

end StorageRoot

/-! ## Where a path is written -/

/-- The names of a path that has only names. -/
def stepNames : List (PathStep ν) → Option (List ν)
  | [] => some []
  | .name name :: path => (stepNames path).map (name :: ·)
  | .parent :: _ => none

/-- What is written where a walk ends: what exists is, missing directories on the way are made, and
a link at the end is followed to the entry it lacks. -/
def landing : LinkTree.Outcome ν → Option (List ν)
  | .reaches place => some place
  | .missing place rest => (stepNames rest).map fun names => names.reverse ++ place
  | .dangling place name => some (name :: place)
  | .refused => none

/-- Where creating or writing a path lands. -/
def lands (tree : LinkTree ν ι) (links : Nat) (path : List ν) : Option (List ν) :=
  landing (tree.locate links [] (LinkTree.pathTo path))

end RDownloader
