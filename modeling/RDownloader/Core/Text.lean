import RDownloader.Core.Words

/-!
# Reading header texts

Header values as lists of characters, and the few operations on them that the program uses.
-/

namespace RDownloader

abbrev Text := List Char

instance : LawfulBEq Text := List.instLawfulBEq

namespace Text

def trimStart (text : Text) : Text := text.dropWhile Char.isWhitespace

def trim (text : Text) : Text := (trimStart (trimStart text).reverse).reverse

/-- What stands before and after the first `separator`. -/
def splitOnce (separator : Char) : Text → Option (Text × Text)
  | [] => none
  | c :: rest =>
    if c = separator then some ([], rest)
    else (splitOnce separator rest).map fun (before, after) => (c :: before, after)

/-- What stands before and after the last `separator`. -/
def rsplitOnce (separator : Char) (text : Text) : Option (Text × Text) :=
  (splitOnce separator text.reverse).map fun (after, before) => (before.reverse, after.reverse)

def toAsciiLowercase (text : Text) : Text :=
  text.map fun c => if 'A' ≤ c ∧ c ≤ 'Z' then Char.ofNat (c.toNat + 32) else c

def eqIgnoreAsciiCase (a b : Text) : Bool := toAsciiLowercase a = toAsciiLowercase b

def contains (text pattern : Text) : Bool :=
  pattern.isPrefixOf text || match text with
    | [] => false
    | _ :: rest => contains rest pattern

def digits? : Text → Option Nat
  | [] => none
  | text => text.foldl (fun value c => value.bind fun value =>
      if c.isDigit then some (10 * value + (c.toNat - '0'.toNat)) else none) (some 0)

/-- `str::parse::<u64>`: an optional plus sign and digits that fit the word. -/
def parseU64 (text : Text) : Option Nat :=
  let digits := match text with
    | '+' :: rest => rest
    | _ => text
  (digits? digits).filter (· ≤ u64Max)

/-! ## Letters -/

variable {c : Char}

/-- The letter in a text in lower case. -/
def asciiLowercase (c : Char) : Char :=
  if 'A' ≤ c ∧ c ≤ 'Z' then Char.ofNat (c.toNat + 32) else c

theorem toAsciiLowercase_eq_map (text : Text) :
    toAsciiLowercase text = text.map asciiLowercase := rfl

theorem toNat_asciiLowercase (c : Char) :
    (asciiLowercase c).toNat =
      if 65 ≤ c.toNat ∧ c.toNat ≤ 90 then c.toNat + 32 else c.toNat := by
  have hcapital : ('A' ≤ c ∧ c ≤ 'Z') ↔ 65 ≤ c.toNat ∧ c.toNat ≤ 90 := Iff.rfl
  rw [asciiLowercase]
  by_cases h : 65 ≤ c.toNat ∧ c.toNat ≤ 90
  · have hvalid : (c.toNat + 32).isValidChar := .inl (by omega)
    rw [if_pos (hcapital.mpr h), if_pos h, Char.ofNat, dif_pos hvalid]
    rfl
  · rw [if_neg fun hletter => h (hcapital.mp hletter), if_neg h]

theorem asciiLowercase_asciiLowercase (c : Char) :
    asciiLowercase (asciiLowercase c) = asciiLowercase c := by
  refine Char.toNat_inj.mp ?_
  rw [toNat_asciiLowercase (asciiLowercase c), if_neg]
  rw [toNat_asciiLowercase]
  split <;> omega

theorem toAsciiLowercase_toAsciiLowercase (text : Text) :
    toAsciiLowercase (toAsciiLowercase text) = toAsciiLowercase text := by
  rw [toAsciiLowercase_eq_map, toAsciiLowercase_eq_map, List.map_map]
  exact List.map_congr_left fun c _ => asciiLowercase_asciiLowercase c

/-- What is no letter is neither made nor changed. -/
theorem asciiLowercase_eq_iff {d : Char} (h : d.toNat < 65) : asciiLowercase c = d ↔ c = d := by
  rw [← Char.toNat_inj, ← Char.toNat_inj, toNat_asciiLowercase]
  split <;> omega

theorem asciiLowercase_ne {d : Char} (h : 65 ≤ d.toNat ∧ d.toNat ≤ 90) : asciiLowercase c ≠ d := by
  rw [ne_eq, ← Char.toNat_inj, toNat_asciiLowercase]
  split <;> omega

end Text
end RDownloader
