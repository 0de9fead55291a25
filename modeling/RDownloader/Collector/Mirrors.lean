import RDownloader.Collector.Grouping
import RDownloader.Core.Dates
import RDownloader.Files.Names
import RDownloader.Lib.Buckets
import RDownloader.Lib.Counting

/-!
# Links that point at the same file (`rd-collector/src/mirrors.rs`)

Three sources build groups in turn: what the page declared, a name with a size, a name alone. The
host of an address and the normal form `NFC` are the parameters `hostStr` and `nfc`.
-/

namespace RDownloader

open Text

/-- What a source stated about one link's place among mirrors. -/
structure MirrorHint where
  group : Text
  quality : Option Text := none
  language : Option Text := none
  deriving DecidableEq

inductive MirrorSource where
  | declared
  | nameAndSize
  | name
  deriving DecidableEq, Repr

/-- One candidate's membership in a mirror group. -/
structure CandidateMirror where
  group : Text
  source : MirrorSource
  selected : Bool
  pinned : Bool
  quality : Option Text
  language : Option Text
  deriving DecidableEq

/-- One link, as far as mirror grouping is concerned. -/
structure MirrorInput where
  id : Text
  url : Text
  fileName : Option Text := none
  fileNameDeclared : Bool := false
  size : Option Nat := none
  hint : Option MirrorHint := none
  pinned : Bool := false
  deriving DecidableEq

/-- A link with its place in the package. -/
abbrev MirrorLink := MirrorInput × Nat

/-! ## What a person prefers and refused -/

inductive MirrorFacet where
  | quality
  | language
  | hoster
  deriving DecidableEq, Repr

structure MirrorPreference where
  quality : Option Text := none
  language : Option Text := none
  hoster : Option Text := none
  hiddenHosters : List Text := []

namespace MirrorPreference

variable (preference : MirrorPreference)

/-- Whether this hoster is one of the hidden ones. -/
def hides (hoster : Text) : Bool :=
  hoster ≠ [] && preference.hiddenHosters.any fun hidden => eqIgnoreAsciiCase (trimmed hidden) hoster

/-- The facets actually set, trimmed and lowercased. -/
def facets : List (MirrorFacet × Text) :=
  [(.quality, preference.quality), (.language, preference.language),
    (.hoster, preference.hoster)].filterMap fun (facet, value) =>
      ((value.map trimmed).filter (· ≠ [])).map fun value => (facet, toAsciiLowercase value)

end MirrorPreference

/-- Pairs of links a person took apart, the smaller identifier first. -/
structure MirrorSeparations where
  pairs : List (Text × Text)

namespace MirrorSeparations

def key (left right : Text) : Text × Text :=
  if left.notAfter right then (left, right) else (right, left)

/-- Builds the set from stored pairs, in either order. -/
def new (pairs : List (Text × Text)) : MirrorSeparations where
  pairs := pairs.map fun (left, right) => key left right

def isEmpty (separations : MirrorSeparations) : Bool := separations.pairs.isEmpty

/-- Whether a person stated that these two links are not the same file. -/
def separated (separations : MirrorSeparations) (left right : Text) : Bool :=
  key left right ∈ separations.pairs

end MirrorSeparations

/-! ## What a name tells -/

def qualities : List (String × String) :=
  [("2160p", "2160p"), ("4k", "2160p"), ("uhd", "2160p"), ("1440p", "1440p"), ("1080p", "1080p"),
    ("1080i", "1080p"), ("720p", "720p"), ("576p", "576p"), ("540p", "540p"), ("480p", "480p"),
    ("360p", "360p"), ("240p", "240p")]

def languages : List (String × String) :=
  [("german", "German"), ("deutsch", "German"), ("english", "English"), ("french", "French"),
    ("spanish", "Spanish"), ("italian", "Italian"), ("dutch", "Dutch"), ("japanese", "Japanese"),
    ("korean", "Korean"), ("multi", "Multi"), ("ml", "Multi"), ("dl", "Dual")]

/-- The first entry of `table` whose token appears in `text` as a whole word. -/
def tokenLookup (text : Text) (table : List (String × String)) : Option Text :=
  let tokens := ((toAsciiLowercase text).splitOnP (!Names.isAsciiAlphanumeric ·)).filter (· ≠ [])
  (table.find? fun (token, _) => token.toList ∈ tokens).map fun (_, name) => name.toList

def qualityOf (fileName : Text) : Option Text := tokenLookup fileName qualities

def languageOf (fileName : Text) : Option Text := tokenLookup fileName languages

/-- What the source named, or what the release name says when it named nothing. -/
def facet (declared derived : Option Text) : Option Text :=
  ((declared.map trimmed).filter (· ≠ [])).or derived

def sizeTolerance : Float := 0.01

/-- Whether two reported sizes are consistent with being the same file. -/
def sameFileSize : Option Nat → Option Nat → Bool
  | some left, some right =>
    if left = right then true
    else
      let larger := (UInt64.ofNat (max left right)).toFloat
      let difference := (UInt64.ofNat (max left right - min left right)).toFloat
      difference / larger ≤ sizeTolerance
  | _, _ => true

section
variable (nfc : Text → Text)

/-- The file name in the form two links are compared by. -/
def normalizedName (fileName : Option Text) : Option Text :=
  let trimmed := trimmed (fileName.getD [])
  if trimmed = [] then none
  else
    let sanitized := toAsciiLowercase (Names.sanitizeFileName nfc trimmed)
    if sanitized = [] then none else some sanitized

end

/-! ## Which links may share a group -/

/-- The members with an address none of the earlier members already used. -/
def distinctAddresses (seen : List Text) : List MirrorLink → List MirrorLink
  | [] => []
  | link :: links =>
    if link.1.url ∈ seen then distinctAddresses seen links
    else link :: distinctAddresses (seen ++ [link.1.url]) links

/-- Whether a person has already stated that two of these links are not the same file. -/
def refused (separations : MirrorSeparations) : List MirrorLink → Bool
  | [] => false
  | left :: links =>
    !separations.isEmpty &&
      (links.any (fun right => separations.separated left.1.id right.1.id) ||
        refused separations links)

/-- A key no other group in this package is already using, from the first `suffix` on. -/
def uniqueKey (used : List Text) (wanted : Text) (suffix : Nat) : Text :=
  if wanted ∈ used then
    uniqueKey used (wanted ++ '~' :: Nat.toDigits 10 suffix) ((suffix + 1) % 2 ^ 32)
  else wanted
-- each candidate is longer than the one before, so fewer used keys are as long
termination_by used.countP fun key => wanted.length ≤ key.length
decreasing_by
  rename_i hused
  apply Counting.countP_lt (a := wanted) (fun key _ hlonger => ?_) hused (by simp) (by simp)
  rw [decide_eq_true_eq, List.length_append] at hlonger
  exact decide_eq_true (Nat.le_trans (Nat.le_add_right _ _) hlonger)

/-! ## The chosen member -/

section
variable (hostStr : Text → Option Text)

/-- The hoster a link is read as. -/
def hosterOf (url : Text) : Text := ((hostStr url).map Grouping.hostKey).getD []

/-- How many facets of the preference this mirror satisfies. -/
def matchedFacets (facets : List (MirrorFacet × Text)) (mirror : CandidateMirror) (url : Text) :
    Nat :=
  facets.countP fun (facet, wanted) =>
    let value := match facet with
      | .quality => mirror.quality
      | .language => mirror.language
      | .hoster => some (hosterOf hostStr url)
    value.any fun value => toAsciiLowercase value = wanted

/-- What is written about a member, before one is selected. -/
def describe (key : Text) (source : MirrorSource) (input : MirrorInput) : CandidateMirror where
  group := key
  source
  selected := false
  pinned := input.pinned
  quality := facet (input.hint.bind (·.quality)) (qualityOf (input.fileName.getD []))
  language := facet (input.hint.bind (·.language)) (languageOf (input.fileName.getD []))

/-- A member at a shown hoster before one at a hidden hoster, then the more facets. -/
abbrev MirrorRank := Bool × Nat

def MirrorRank.outranks (score best : MirrorRank) : Bool :=
  score.1 && !best.1 || score.1 = best.1 && best.2 < score.2

def rank (preference : MirrorPreference) (key : Text) (source : MirrorSource)
    (input : MirrorInput) : MirrorRank :=
  (!preference.hides (hosterOf hostStr input.url),
    matchedFacets hostStr preference.facets (describe key source input) input.url)

/-- The best so far, unless a later member outranks it. -/
def better (rank : MirrorInput → MirrorRank) (best : MirrorLink × MirrorRank) (link : MirrorLink) :
    MirrorLink × MirrorRank :=
  let score := rank link.1
  if score.outranks best.2 then (link, score) else best

/-- The first of the members nobody outranks, and its rank. -/
def best (rank : MirrorInput → MirrorRank) (first : MirrorLink) (links : List MirrorLink) :
    MirrorLink × MirrorRank :=
  links.foldl (better rank) (first, rank first.1)

/-- The member that is selected: one that is pinned, else the best, else the first. -/
def chosen (preference : MirrorPreference) (key : Text) (source : MirrorSource)
    (first : MirrorLink) (links : List MirrorLink) : MirrorLink :=
  match (first :: links).find? (·.1.pinned) with
  | some link => link
  | none =>
    if preference.facets ≠ [] ∨ preference.hiddenHosters ≠ [] then
      (best (rank hostStr preference key source) first links).1
    else first

end

/-! ## The groups of a package -/

/-- The answers so far, one a link, and the keys in use. -/
structure MirrorAnswers where
  out : List (Option CandidateMirror)
  used : List Text := []

/-- A set of links one of the sources takes for mirrors, and the key it asks for. -/
structure MirrorProposal where
  key : Text
  source : MirrorSource
  members : List MirrorLink

section
variable (nfc : Text → Text) (hostStr : Text → Option Text) (preference : MirrorPreference)
  (separations : MirrorSeparations)

/-- Writes one group onto its members and marks one of them as the chosen mirror. -/
def assign (out : List (Option CandidateMirror)) (key : Text) (source : MirrorSource)
    (first : MirrorLink) (links : List MirrorLink) : List (Option CandidateMirror) :=
  let chosen := chosen hostStr preference key source first links
  Buckets.scatter out <| (first :: links).map fun link =>
    (link.2, some { describe key source link.1 with selected := link.2 = chosen.2 })

/-- A proposal of two members or more that nobody refused becomes a group. -/
def settle (answers : MirrorAnswers) (proposal : MirrorProposal) : MirrorAnswers :=
  match proposal.members with
  | [] | [_] => answers
  | first :: links =>
    if refused separations (first :: links) then answers
    else
      let key := uniqueKey answers.used proposal.key 1
      { out := assign hostStr preference answers.out key proposal.source first links
        used := answers.used ++ [key] }

/-- The key of the page, unless it is blank. -/
def declaredKey (link : MirrorLink) : Option Text :=
  (link.1.hint.map fun hint => trimmed hint.group).filter (· ≠ [])

/-- Source 1: the page said so. -/
def declared (inputs : List MirrorInput) : List MirrorProposal :=
  (Buckets.collect notAfter declaredKey inputs.zipIdx).map fun (key, members) =>
    { key, source := .declared, members := distinctAddresses [] members }

/-- The name of a link no page has grouped; one taken from the address needs a size beside it. -/
def nameKey (out : List (Option CandidateMirror)) (link : MirrorLink) : Option Text :=
  if (out.getD link.2 none).isSome then none
  else if !link.1.fileNameDeclared && link.1.size.isNone then none
  else normalizedName nfc link.1.fileName

/-- Links of one name by their sizes; a cluster that learns a size keeps it. -/
def clusters (members : List MirrorLink) : List (Option Nat × List MirrorLink) :=
  members.foldl (fun clusters link =>
    Buckets.join (sameFileSize · link.1.size) (·.or link.1.size) link.1.size link clusters) []

/-- Sources 2 and 3 for one name: its clusters, corroborated by a size or not. -/
def named (name : Text) (members : List MirrorLink) : List MirrorProposal :=
  let members := distinctAddresses [] members
  if members.length < 2 then []
  else
    let clusters := clusters members
    clusters.zipIdx.map fun ((_, cluster), position) =>
      { key := if 1 < clusters.length then name ++ '#' :: Nat.toDigits 10 position else name
        source := if cluster.all (·.1.size.isSome) then .nameAndSize else .name
        members := cluster }

/-- The groups of the pages, then those of the names over the links left. -/
def mirrorAnswers (inputs : List MirrorInput) : MirrorAnswers :=
  let answers := (declared inputs).foldl (settle hostStr preference separations)
    { out := List.replicate inputs.length none }
  let byName := Buckets.collect notAfter (nameKey nfc answers.out) inputs.zipIdx
  (byName.flatMap fun (name, members) => named name members).foldl
    (settle hostStr preference separations) answers

/-- Assigns a mirror group to the links of one package, one answer per input. -/
def groupMirrors (inputs : List MirrorInput) : List (Option CandidateMirror) :=
  (mirrorAnswers nfc hostStr preference separations inputs).out

end
end RDownloader
