import RDownloader.Core.Lines

/-!
# Portable file names (`rd-files/src/names.rs`)

Names are made safe for every system, and a taken name is moved on by a number. The normal form `NFC`
is the parameter `nfc`.
-/

namespace RDownloader

namespace Names

/-- `MAX_UTF16_UNITS`. -/
def maxUtf16Units : Nat := 240

/-- `MAX_EXTENSION_CHARS`. -/
def maxExtensionChars : Nat := 8

/-- `encode_utf16().count()`. -/
def utf16Units (text : Text) : Nat := (text.map fun c => if c.toNat < 0x10000 then 1 else 2).sum

/-- `trim_end_matches(['.', ' '])`. -/
def trimEndDots (text : Text) : Text :=
  (text.reverse.dropWhile fun c => c = '.' || c = ' ').reverse

def isAsciiAlphanumeric (c : Char) : Bool := c.isAlpha || c.isDigit

def toAsciiUppercase (text : Text) : Text :=
  text.map fun c => if 'a' ≤ c ∧ c ≤ 'z' then Char.ofNat (c.toNat - 32) else c

/-- Device names Windows opens instead of a file, whatever the extension. -/
def isWindowsReserved (fileName : Text) : Bool :=
  let base := match Text.splitOnce '.' fileName with
    | some (base, _) => base
    | none => fileName
  let base := toAsciiUppercase (trimEndDots base)
  if base ∈ ["CON", "PRN", "AUX", "NUL", "CONIN$", "CONOUT$"].map String.toList then true
  else
    match base with
    | ['C', 'O', 'M', port] | ['L', 'P', 'T', port] =>
      port.isDigit || port.toNat ∈ [0xb9, 0xb2, 0xb3]
    | _ => false

/-- The characters of a text as long as they fit the units. -/
def takeUnits : Nat → Text → Text
  | _, [] => []
  | limit, c :: rest =>
    if limit < utf16Units [c] then [] else c :: takeUnits (limit - utf16Units [c]) rest

/-- Cuts a name to the units; only a real extension is kept whole. -/
def truncateUtf16 (input : Text) (limit : Nat) : Text :=
  if utf16Units input ≤ limit then input
  else
    let (stem, suffix) := match Text.rsplitOnce '.' input with
      | some (stem, extension) =>
        if stem ≠ [] ∧ extension ≠ [] ∧ extension.byteLength ≤ maxExtensionChars ∧
            extension.all isAsciiAlphanumeric then (stem, '.' :: extension)
        else (input, [])
      | none => (input, [])
    let result := trimEndDots (takeUnits (limit - utf16Units suffix) stem)
    (if result = [] then "download".toList else result) ++ suffix

variable (nfc : Text → Text)

def sanitizeToLimit (input : Text) (limit : Nat) : Text :=
  let sanitized := (nfc input).map fun c =>
    if isControl c || c.toNat = 0xfffd || "<>:\"/\\|?*".toList.contains c then '_' else c
  let sanitized := trimEndDots (Text.trimmed sanitized)
  let sanitized := if sanitized = [] then "download".toList else sanitized
  let sanitized := if isWindowsReserved sanitized then '_' :: sanitized else sanitized
  truncateUtf16 sanitized limit

/-- Produces a portable filename safe on Windows, Linux and macOS. -/
def sanitizeFileName (input : Text) : Text := sanitizeToLimit nfc input maxUtf16Units

/-- `Path::file_stem` and `Path::extension` of a name. -/
def stemAndExtension (name : Text) : Text × Option Text :=
  match Text.rsplitOnce '.' name with
  | some ([], _) | none => (name, none)
  | some (stem, extension) => (stem, some extension)

/-- A name with a number. -/
def numbered (stem : Text) (extension : Option Text) (index : Nat) : Text :=
  stem ++ " (".toList ++ (toString index).toList ++ [')'] ++
    match extension with
    | some extension => '.' :: extension
    | none => []

/-- Finds a free name in a directory by appending a numeric suffix; `uuid` is the fallback's. -/
def collisionFreeName (taken : Text → Bool) (fileName uuid : Text) : Text :=
  let sanitized := sanitizeFileName nfc fileName
  if taken sanitized then
    let (stem, extension) := stemAndExtension sanitized
    match (List.range' 1 10000).find? fun index => !taken (numbered stem extension index) with
    | some index => numbered stem extension index
    | none => stem ++ '-' :: uuid
  else sanitized

/-- The name of the fallback. -/
def fallbackName (fileName uuid : Text) : Text :=
  (stemAndExtension (sanitizeFileName nfc fileName)).1 ++ '-' :: uuid

variable {nfc} {taken : Text → Bool} {fileName uuid : Text}

theorem collisionFreeName_free (h : taken (fallbackName nfc fileName uuid) = false) :
    taken (collisionFreeName nfc taken fileName uuid) = false := by
  unfold collisionFreeName
  dsimp only
  split
  next =>
    split
    next index hfound =>
      have hfree := List.find?_some hfound
      exact (Bool.not_eq_true' _).mp hfree
    next => exact h
  next hfree => exact Bool.eq_false_iff.mpr hfree

example : collisionFreeName id (· = "a.tar.gz".toList) "a.tar.gz".toList [] =
    "a.tar (1).gz".toList := by
  decide +kernel

end Names

end RDownloader
