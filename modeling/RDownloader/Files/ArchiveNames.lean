import RDownloader.Core.Digits
import RDownloader.Usenet.Par2Names

/-!
# Archive volume naming (`rd-files/src/archive_names.rs`)
-/

namespace RDownloader

/-- Container family of an archive volume. -/
inductive ArchiveKind where
  | zip
  | sevenZip
  | rar
  deriving DecidableEq, Repr

/-- One volume of a (possibly multi-part) archive. -/
structure ArchiveVolume where
  /-- The name that every volume of the set shares. -/
  base : Text
  kind : ArchiveKind
  index : Nat
  isFirst : Bool
  numbered : Bool
  deriving DecidableEq, Repr

namespace ArchiveVolume

def whole (base : Text) (kind : ArchiveKind) : ArchiveVolume where
  base
  kind
  index := 0
  isFirst := true
  numbered := false

/-- `name.partNN.rar`. The base keeps the letters of the file name. -/
def rarPart (fileName stem : Text) : Option ArchiveVolume :=
  (Text.rsplitOnceText ".part".toList stem).bind fun (base, part) =>
    if base = [] then none
    else (Text.parseU32 part).map fun number =>
      { base := fileName.take base.length
        kind := .rar
        index := number - 1
        isFirst := number ≤ 1
        numbered := true }

/-- The digits behind a letter that make up an extension with it. -/
def digitsBehind (letter : Char) : Text → Option Text
  | [] => none
  | c :: digits =>
    if c = letter ∧ digits ≠ [] ∧ digits.all Char.isDigit then some digits else none

/-- `name.7z.NNN` and `name.zip.NNN`. -/
def suffixed (fileName stem extension : Text) : Option ArchiveVolume :=
  (Text.parseU32 extension).bind fun number =>
    (Text.rsplitOnce '.' stem).bind fun (innerStem, innerExtension) =>
      (if innerExtension = "7z".toList then some ArchiveKind.sevenZip
        else if innerExtension = "zip".toList then some .zip
        else none).map fun kind =>
        { base := fileName.take innerStem.length
          kind
          index := number - 1
          isFirst := number ≤ 1
          numbered := true }

end ArchiveVolume

open ArchiveVolume in
/-- `name.rar`, `name.partNN.rar`, `name.rNN`, `name.7z`, `name.7z.NNN`, `name.zip`, `name.zNN` and
`name.zip.NNN`. -/
def parseArchiveVolume (fileName : Text) : Option ArchiveVolume :=
  (Text.rsplitOnce '.' fileName.toAsciiLowercase).bind fun (stem, extension) =>
    let originalStem := fileName.take stem.length
    if stem = [] then none
    else if extension = "rar".toList then
      (rarPart fileName stem).or (some (whole originalStem .rar))
    else if extension = "7z".toList then some (whole originalStem .sevenZip)
    else if extension = "zip".toList then some (whole originalStem .zip)
    else match digitsBehind 'r' extension with
      | some digits => (Text.parseU32 digits).map fun number =>
        { base := originalStem
          kind := .rar
          index := min (number + 1) u32Max
          isFirst := false
          numbered := true }
      | none => match digitsBehind 'z' extension with
        | some digits => (Text.parseU32 digits).map fun number =>
          { base := originalStem
            kind := .zip
            index := number
            isFirst := false
            numbered := true }
        | none =>
          if extension.length = 3 ∧ extension.all Char.isDigit then
            suffixed fileName stem extension
          else none

example : (parseArchiveVolume "Release.part02.rar".toList).map (·.base) = some "Release".toList := by
  decide

end RDownloader
