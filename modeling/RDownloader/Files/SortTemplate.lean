import RDownloader.Files.Template
import RDownloader.SiteRules.Rule
import RDownloader.Usenet.Nntp

/-!
# Sort templates (`rd-files/src/sort_template.rs`)

Where a recognised episode or film is placed. `str::to_lowercase` and `str::to_uppercase` are the
parameters `lowercase` and `uppercase`.
-/

namespace RDownloader

inductive SortKind where
  | series
  | dated
  | movie
  deriving DecidableEq, Repr

/-- What was recognised of a release name. -/
structure SortMatch where
  kind : SortKind
  show' : Option Text
  season : Option Nat
  episodes : List Nat
  date : Option (Nat × Nat × Nat)
  title : Option Text
  movie : Option Text
  year : Option Nat
  resolution : Option Text
  source : Option Text

/-- Where a recognised file goes. -/
structure SortTarget where
  directory : Text
  stem : Text
  deriving DecidableEq

namespace SortTemplate

open Text Template

/-- Room kept behind a produced file name for a companion's suffix. -/
def sortCompanionReserve : Nat := 24

/-- The fields a template of the kind may use. -/
def sortFields : SortKind → List Text
  | .series =>
    ["show", "season", "episode", "title", "year", "resolution", "source"].map String.toList
  | .dated =>
    ["show", "date", "year", "month", "day", "title", "resolution", "source"].map String.toList
  | .movie => ["movie", "year", "resolution", "source"].map String.toList

def numberFields : List Text := ["season", "episode", "year", "month", "day"].map String.toList

/-- Why a sort template was refused, or could not be expanded for one name. -/
inductive SortTemplateError where
  /-- "the template is empty" -/
  | empty
  /-- "the template is longer than 512 characters" -/
  | tooLong
  /-- "`{field}` is not a field this template can use" -/
  | unknownField (field : Text)
  /-- "`format` is not a format `{field}` can use" -/
  | unknownFormat (field format : Text)
  /-- "a `{` or `}` is unbalanced, or a `\` is used instead of `/`" -/
  | syntaxError
  /-- "the template must not leave the category's folder" -/
  | outside
  /-- "the template nests more than 8 folders deep" -/
  | tooDeep
  /-- "the file name (the last part) uses no field, so every file would get the same name" -/
  | fixedName
  /-- "the template expands to an empty file name" -/
  | emptyResult
  deriving DecidableEq, Repr

inductive Format where
  | plain
  | pad (width : Nat)
  | lower
  | upper
  | dots
  deriving DecidableEq, Repr

inductive Piece where
  | text (text : Text)
  | field (name : Text) (format : Format)
  deriving DecidableEq, Repr

/-- A placeholder, without its braces. -/
def placeholder (kind : SortKind) (inner : Text) : Except SortTemplateError Piece :=
  let (name, spec) := match splitOnce ':' inner with
    | some (name, spec) => (trimmed name, some (trimmed spec))
    | none => (trimmed inner, none)
  if name ∉ sortFields kind then .error (.unknownField name)
  else match spec with
    | none => .ok (.field name .plain)
    | some spec =>
      if spec = "lower".toList then .ok (.field name .lower)
      else if spec = "upper".toList then .ok (.field name .upper)
      else if spec = "dots".toList then .ok (.field name .dots)
      else if spec ≠ [] ∧ byteLength spec ≤ 4 ∧ spec.all (· = '0') ∧ name ∈ numberFields then
        .ok (.field name (.pad (byteLength spec)))
      else .error (.unknownFormat name spec)

/-- The pieces before a text that is not empty, and it. -/
def pushText (pieces : List Piece) (text : Text) : List Piece :=
  if text = [] then pieces else pieces ++ [.text text]

/-- The loop of `parse_segment`. -/
def parseFrom (kind : SortKind) (pieces : List Piece) (text : Text) :
    Option Text → Text → Except SortTemplateError (List Piece)
  | some _, [] => .error .syntaxError
  | none, [] => .ok (pushText pieces text)
  | field, c :: rest =>
    match c, field with
    | '\x7b', none => parseFrom kind (pushText pieces text) [] (some []) rest
    | '\x7b', some _ => .error .syntaxError
    | '\x7d', none => .error .syntaxError
    | '\x7d', some inner => do
      let piece ← placeholder kind inner
      parseFrom kind (pieces ++ [piece]) text none rest
    | c, some inner => parseFrom kind pieces text (some (inner ++ [c])) rest
    | c, none => parseFrom kind pieces (text ++ [c]) none rest

def parseSegment (kind : SortKind) (segment : Text) : Except SortTemplateError (List Piece) :=
  parseFrom kind [] [] none segment

def Piece.isField : Piece → Bool
  | .field .. => true
  | .text _ => false

/-- The segments of a template, parsed and checked. -/
def segments (kind : SortKind) (template : Text) : Except SortTemplateError (List (List Piece)) :=
  let template := trimmed template
  if template = [] then .error .empty
  else if maxTemplateLength < template.length then .error .tooLong
  else if startsAtRoot template then .error .outside
  else if '\\' ∈ template then .error .syntaxError
  else
    let raw := (template.splitOn '/').filter fun segment => trimmed segment ≠ []
    if raw.any isTraversal then .error .outside
    else if maxTemplateDepth < raw.length then .error .tooDeep
    else do
      let parsed ← raw.mapM (parseSegment kind)
      if parsed.getLast?.any fun pieces => pieces.any Piece.isField then .ok parsed
      else .error .fixedName

/-- Checks a template of a kind without expanding it. -/
def validateSortTemplate (kind : SortKind) (template : Text) : Except SortTemplateError Unit :=
  (segments kind template).map fun _ => ()

variable (lowercase uppercase : Text → Text)

/-- A number with at least so many digits. -/
def padded (width n : Nat) : Text := (Nat.toDigits 10 n).leftpad width '0'

def number : Format → Nat → Text
  | .pad width, n => padded width n
  | _, n => Nat.toDigits 10 n

/-- What is written for the episodes: the first and the last one. -/
def episodeText (format : Format) (joiner : Text) : List Nat → Option Text
  | [] => none
  | [single] => some (number format single)
  | first :: second :: rest =>
    some (number format first ++ joiner ++ number format ((second :: rest).getLast (by simp)))

/-- The value of a field, before it is written in its format. -/
def fieldText (name : Text) (format : Format) (found : SortMatch) (joiner : Text) : Option Text :=
  if name = "show".toList then found.show'
  else if name = "movie".toList then found.movie
  else if name = "title".toList then found.title
  else if name = "resolution".toList then found.resolution
  else if name = "source".toList then found.source
  else if name = "season".toList then found.season.map (number format)
  else if name = "episode".toList then episodeText format joiner found.episodes
  else if name = "year".toList then found.year.map (number format)
  else if name = "month".toList then found.date.map fun (_, month, _) => number format month
  else if name = "day".toList then found.date.map fun (_, _, day) => number format day
  else if name = "date".toList then found.date.map fun (year, month, day) =>
    padded 4 year ++ '-' :: padded 2 month ++ '-' :: padded 2 day
  else none

def value (name : Text) (format : Format) (found : SortMatch) (joiner : Text) : Text :=
  let text := (fieldText name format found joiner).getD []
  match format with
  | .lower => lowercase text
  | .upper => uppercase text
  | .dots => join ['.'] (splitWhitespace text)
  | .plain | .pad _ => text

/-- The loop of `render`, with what it wrote. -/
def renderFrom (found : SortMatch) (output : Text) : List Piece → Text
  | [] => output
  | .text text :: pieces => renderFrom found (output ++ text) pieces
  | .field name format :: pieces =>
    let joiner := match output.getLast? with
      | some 'E' => "-E".toList
      | some 'e' => "-e".toList
      | _ => "-".toList
    renderFrom found (output ++ value lowercase uppercase name format found joiner) pieces

def render (pieces : List Piece) (found : SortMatch) : Text :=
  renderFrom lowercase uppercase found [] pieces

/-- `str::replace`. -/
def replace (text pattern value : Text) : Text := SiteRules.replaceIn pattern value text.length text

/-- One round of the loop of `tidy`. -/
def tidyRound (text : Text) : Text :=
  let text := ["()", "[]", "( )", "[ ]"].foldl (fun text empty => replace text empty.toList []) text
  let text := join [' '] (splitWhitespace text)
  replace text " - - ".toList " - ".toList

/-- The loop of `tidy`: the rounds end when one makes the text no shorter. -/
def tidyRounds : Nat → Text → Text
  | 0, text => text
  | rounds + 1, text =>
    let next := tidyRound text
    if byteLength next = byteLength text then next else tidyRounds rounds next

/-- `trim_matches([' ', '-', '.', '_'])`. -/
def trimSeparators (text : Text) : Text :=
  let separator : Char → Bool := fun c => " -._".toList.contains c
  ((text.dropWhile separator).reverse.dropWhile separator).reverse

/-- Drops what a missing value leaves behind. -/
def tidy (segment : Text) : Text := trimSeparators (tidyRounds (byteLength segment + 1) segment)

variable (nfc : Text → Text)

/-- The loop of `expand_sort_template`, with the directory so far. -/
def expandFrom (found : SortMatch) (directory : Text) :
    List (List Piece) → Except SortTemplateError (Text × Option Text)
  | [] => .ok (directory, none)
  | pieces :: rest =>
    let rendered := render lowercase uppercase pieces found
    if isTraversal rendered then .error .outside
    else
      let expanded := tidy rendered
      if isTraversal expanded then .error .outside
      else if expanded = [] then
        if rest = [] then .error .emptyResult else expandFrom found directory rest
      else if rest = [] then
        .ok (directory,
          some (Names.sanitizeFileNameWithin nfc directory expanded sortCompanionReserve))
      else
        let sanitized := Names.sanitizeFileName nfc expanded
        if isTraversal sanitized then .error .outside
        else expandFrom found (Path.push directory sanitized) rest

/-- Expands a template for a recognised name into a target below `root`. -/
def expandSortTemplate (root template : Text) (found : SortMatch) :
    Except SortTemplateError SortTarget := do
  let segments ← segments found.kind template
  match ← expandFrom lowercase uppercase nfc found root segments with
  | (_, none) => .error .emptyResult
  | (directory, some stem) =>
    if isTraversal stem || !Path.startsWith directory root ||
        Component.parentDir ∈ Path.components directory ||
        Component.curDir ∈ Path.components directory then .error .outside
    else .ok { directory, stem }

/-! ## The rounds end -/

theorem byteLength_replaceIn {pattern value : Text} (h : byteLength value ≤ byteLength pattern)
    (fuel : Nat) (text : Text) :
    byteLength (SiteRules.replaceIn pattern value fuel text) ≤ byteLength text := by
  induction fuel generalizing text with
  | zero => exact Nat.le_refl _
  | succ fuel ih =>
    cases text with
    | nil => exact Nat.le_refl _
    | cons c rest =>
      rw [SiteRules.replaceIn]
      split
      next hprefix =>
        obtain ⟨after, hafter⟩ := List.isPrefixOf_iff_prefix.mp hprefix
        have hrest := ih after
        rw [← hafter, List.drop_left, byteLength_append, byteLength_append]
        omega
      next =>
        have hrest := ih rest
        have hcons (text : Text) : byteLength (c :: text) = c.utf8Size + byteLength text := rfl
        rw [hcons, hcons]
        omega

/-- What stands between the separators is shorter than the text, by a byte for each. -/
theorem sum_splitOnP (p : Char → Bool) (text : Text) :
    ((text.splitOnP p).map (byteLength · + 1)).sum ≤ byteLength text + 1 := by
  induction text with
  | nil => exact Nat.le_refl _
  | cons c text ih =>
    have hsize := Char.utf8Size_pos c
    have hcons (text : Text) : byteLength (c :: text) = c.utf8Size + byteLength text := rfl
    rw [List.splitOnP_cons_eq_if_modifyHead, hcons]
    split
    next =>
      rw [List.map_cons, List.sum_cons]
      have hnil : byteLength [] = 0 := rfl
      omega
    next =>
      obtain ⟨piece, pieces, hpieces⟩ := List.exists_cons_of_ne_nil (List.splitOnP_ne_nil p text)
      rw [hpieces, List.map_cons, List.sum_cons] at ih
      rw [hpieces, List.modifyHead_cons, List.map_cons, List.sum_cons, hcons]
      omega

theorem sum_filter_le {α : Type} (f : α → Nat) (q : α → Bool) (xs : List α) :
    ((xs.filter q).map f).sum ≤ (xs.map f).sum := by
  induction xs with
  | nil => exact Nat.le_refl _
  | cons x xs ih =>
    rw [List.filter_cons]
    split <;> simp only [List.map_cons, List.sum_cons] <;> omega

theorem byteLength_joinWords (text : Text) :
    byteLength (join [' '] (splitWhitespace text)) ≤ byteLength text := by
  have hpieces := sum_splitOnP isUnicodeWhitespace text
  have hwords := sum_filter_le (byteLength · + 1) (· ≠ []) (text.splitOnP isUnicodeWhitespace)
  have hspace : byteLength [' '] = 1 := rfl
  rw [byteLength_join, hspace, splitWhitespace]
  omega

theorem byteLength_tidyRound (text : Text) : byteLength (tidyRound text) ≤ byteLength text := by
  have hempty (pattern text : Text) : byteLength (replace text pattern []) ≤ byteLength text :=
    byteLength_replaceIn (Nat.zero_le _) ..
  have hbrackets := (hempty "[ ]".toList _).trans <| (hempty "( )".toList _).trans <|
    (hempty "[]".toList _).trans (hempty "()".toList text)
  refine le_trans (byteLength_replaceIn (by decide) ..) ((byteLength_joinWords _).trans hbrackets)

/-- Beyond the bytes of the text, more rounds change nothing. -/
theorem tidyRounds_succ {rounds : Nat} {text : Text} (h : byteLength text < rounds) :
    tidyRounds (rounds + 1) text = tidyRounds rounds text := by
  induction rounds generalizing text with
  | zero => exact absurd h (Nat.not_lt_zero _)
  | succ rounds ih =>
    have hround (rounds : Nat) : tidyRounds (rounds + 1) text =
        if byteLength (tidyRound text) = byteLength text then tidyRound text
        else tidyRounds rounds (tidyRound text) := rfl
    rw [hround (rounds + 1), hround rounds]
    by_cases heq : byteLength (tidyRound text) = byteLength text
    · rw [if_pos heq, if_pos heq]
    · have hle := byteLength_tidyRound text
      rw [if_neg heq, if_neg heq, ih (by omega)]

example : tidy "Show ( )  -  - Pilot.".toList = "Show - Pilot".toList := by decide +kernel

end SortTemplate
end RDownloader
