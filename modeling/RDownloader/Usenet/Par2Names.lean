import RDownloader.Core.Text

/-!
# What a file name says (`rd-core/src/postprocess.rs`, `rd-collector/src/nzb.rs`)
-/

namespace RDownloader

namespace Text

/-- What stands before and after the last occurrence of `pattern`. -/
def rsplitOnceText (pattern : Text) : Text → Option (Text × Text)
  | [] => none
  | c :: rest =>
    match rsplitOnceText pattern rest with
    | some (before, after) => some (c :: before, after)
    | none =>
      if pattern.isPrefixOf (c :: rest) then some ([], (c :: rest).drop pattern.length) else none

def stripSuffix (suffix text : Text) : Option Text :=
  if suffix.isSuffixOf text then some (text.take (text.length - suffix.length)) else none

/-- `str::len`, which counts bytes. -/
def utf8Length (text : Text) : Nat := (text.map Char.utf8Size).sum

end Text

def par2Extension : Text := ".par2".toList

def volumeMarker : Text := ".vol".toList

/-- `is_par2_index`: the main index of a PAR2 set. -/
def isPar2Index (fileName : Text) : Bool :=
  let name := fileName.toAsciiLowercase
  par2Extension.isSuffixOf name && !name.contains volumeMarker

/-- `is_par2_volume`: a recovery volume of a PAR2 set. -/
def isPar2Volume (fileName : Text) : Bool :=
  let name := fileName.toAsciiLowercase
  par2Extension.isSuffixOf name && name.contains volumeMarker

/-- `par2_volume_blocks`: the recovery blocks a volume announces in its own name. -/
def par2VolumeBlocks (fileName : Text) : Option Nat := do
  let stem ← Text.stripSuffix par2Extension fileName.toAsciiLowercase
  let (_, tail) ← Text.rsplitOnceText volumeMarker stem
  let start := tail.takeWhile fun c => c ≠ '+' && c ≠ '-'
  match tail.drop start.length with
  | [] => none
  | _ :: blocks =>
    if start = [] || !start.all Char.isDigit then none
    else (Text.digits? blocks).filter (· < 2 ^ 32)

/-- `is_recovery_volume`: repair data rather than payload. -/
def isRecoveryVolume (fileName : Text) : Bool :=
  isPar2Index fileName || isPar2Volume fileName

/-- `looks_like_file_name`: whether a name carries a short alphanumeric extension.
`alphanumeric` is the Unicode property. -/
def looksLikeFileName (alphanumeric : Char → Bool) (name : Text) : Bool :=
  (Text.rsplitOnce '.' name).any fun (stem, ext) =>
    stem ≠ [] && 1 ≤ Text.utf8Length ext && Text.utf8Length ext ≤ 8 && ext.all alphanumeric

example : par2VolumeBlocks "release.vol031+16.PAR2".toList = some 16 := by decide +kernel

end RDownloader
