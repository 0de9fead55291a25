import Std.Data.ExtTreeMap
import RDownloader.Files.ArchiveNames

/-!
# Grouping files into archive sets (`rd-postprocess/src/multipart.rs`)

Files go into groups by their kind and base name, and in a group into slots by their index. Of the
names that claim one slot a pairwise preference keeps one while the list is read. Paths are of any
type with file names.
-/

namespace RDownloader

/-- A complete archive set: every volume present, sorted, starting with the entry volume. -/
structure ArchiveSet (Path : Type) where
  kind : ArchiveKind
  base : Text
  /-- Volumes in extraction order (index 0 is the entry volume). -/
  volumes : List Path
  deriving DecidableEq, Repr

namespace ArchiveSet

def kindRank : ArchiveKind → Nat
  | .zip => 0
  | .sevenZip => 1
  | .rar => 2

def kindFromRank : Nat → ArchiveKind
  | 0 => .zip
  | 1 => .sevenZip
  | _ => .rar

/-- What the volumes of a group have in common. -/
structure GroupKey where
  rank : Nat
  base : Text
  deriving DecidableEq, Repr

instance : Ord GroupKey := ⟨compareLex (compareOn GroupKey.rank) (compareOn GroupKey.base)⟩

instance : Std.TransOrd GroupKey :=
  inferInstanceAs
    (Std.TransCmp (compareLex (compareOn GroupKey.rank) (compareOn GroupKey.base)))

theorem GroupKey.compare_eq (key other : GroupKey) :
    compare key other = (compare key.rank other.rank).then (compare key.base other.base) := rfl

instance : Std.LawfulEqOrd GroupKey where
  eq_of_compare {key other} h := by
    rw [GroupKey.compare_eq, Ordering.then_eq_eq] at h
    have hrank := Std.LawfulEqOrd.eq_of_compare h.1
    have hbase := Std.LawfulEqOrd.eq_of_compare h.2
    cases key
    cases other
    cases hrank
    cases hbase
    rfl

variable {Path : Type} (fileName : Path → Option Text)

/-- One name laying claim to a volume slot. -/
structure Candidate (Path : Type) where
  path : Path
  isFirst : Bool
  /-- Whether the name states its own number rather than being a bare one. -/
  numbered : Bool
  deriving DecidableEq, Repr

/-- The name of a candidate, which has one. -/
def Candidate.name (candidate : Candidate Path) : Text := (fileName candidate.path).getD []

/-- Whether a candidate should replace the one that has the slot: a numbered name beats one that is
not, and otherwise the smaller file name wins. -/
def prefers (candidate current : Candidate Path) : Bool :=
  match candidate.numbered, current.numbered with
  | true, false => true
  | false, true => false
  | _, _ => candidate.name fileName < current.name fileName

/-- The volumes of a group, by their index. -/
abbrev Slots (Path : Type) := Std.ExtTreeMap Nat (Candidate Path)

/-- A claim to a slot. -/
def settle (candidate : Candidate Path) : Option (Candidate Path) → Option (Candidate Path)
  | none => some candidate
  | some current => if prefers fileName candidate current then some candidate else some current

/-- The loop of `group_archive_sets` over the files. -/
def addFile (groups : Std.ExtTreeMap GroupKey (Slots Path)) (path : Path) :
    Std.ExtTreeMap GroupKey (Slots Path) :=
  match fileName path with
  | none => groups
  | some name =>
    match parseArchiveVolume name with
    | none => groups
    | some volume =>
      let key : GroupKey := ⟨kindRank volume.kind, volume.base.toAsciiLowercase⟩
      let candidate : Candidate Path := ⟨path, volume.isFirst, volume.numbered⟩
      groups.alter key fun slots =>
        some ((slots.getD ∅).alter volume.index (settle fileName candidate))

/-- The set of a group, unless its entry volume or an index is missing. -/
def setOf (key : GroupKey) (slots : Slots Path) : Option (ArchiveSet Path) :=
  match slots[0]? with
  | none => none
  | some first =>
    if !first.isFirst then none
    else if !slots.keys.zipIdx.all fun (index, position) => position = index then none
    else some {
      kind := kindFromRank key.rank
      base := (((fileName first.path).bind parseArchiveVolume).map (·.base)).getD []
      volumes := slots.toList.map (·.2.path) }

/-- Groups files into complete archive sets. -/
def groupArchiveSets (files : List Path) : List (ArchiveSet Path) :=
  (files.foldl (addFile fileName) ∅).toList.filterMap fun (key, slots) => setOf fileName key slots

example : groupArchiveSets some ["b.r00".toList, "b.rar".toList, "c.7z.002".toList] =
    [⟨.rar, "b".toList, ["b.rar".toList, "b.r00".toList]⟩] := by decide

end ArchiveSet

end RDownloader
