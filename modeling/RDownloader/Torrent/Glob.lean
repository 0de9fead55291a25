import RDownloader.Core.Lines

/-!
# Exclusion patterns (`rd-core/src/torrent/plan.rs`)

A pattern and a path are put in lower case and matched segment by segment. Lower case is Unicode's:
the tables are a parameter.
-/

namespace RDownloader

/-- The tables behind `str::to_lowercase`: the simple lower-case mapping, and the properties
`Cased` and `Case_Ignorable`. -/
structure Casing where
  simple : Char → Char
  cased : Char → Bool
  caseIgnorable : Char → Bool
  simple_simple : ∀ c, simple (simple c) = simple c
  simple_capital_sigma : simple 'Σ' = 'σ'
  simple_final_sigma : simple 'ς' = 'ς'
  simple_dotted_capital : simple 'İ' = 'i'
  simple_dot_above : simple '\u0307' = '\u0307'
  simple_eq_mark : ∀ c, ∀ mark ∈ ['*', '?', '/'], simple c = mark ↔ c = mark

namespace Casing

variable (casing : Casing)

/-- `char::to_lowercase`: one letter alone has a lower case of two. -/
def lower (c : Char) : Text := if c = 'İ' then ['i', '\u0307'] else [casing.simple c]

def caseIgnorableThenCased (text : Text) : Bool :=
  (text.dropWhile casing.caseIgnorable).head?.any casing.cased

/-- A capital sigma at the end of a word has a lower case of its own. The text before is told
backwards. -/
def mapUppercaseSigma (before rest : Text) : Char :=
  if casing.caseIgnorableThenCased before && !casing.caseIgnorableThenCased rest then 'ς' else 'σ'

def lowercaseAfter (before : Text) : Text → Text
  | [] => []
  | c :: rest =>
    (if c = 'Σ' then [casing.mapUppercaseSigma before rest] else casing.lower c) ++
      lowercaseAfter (c :: before) rest

/-- `str::to_lowercase`. -/
def toLowercase (text : Text) : Text := casing.lowercaseAfter [] text

end Casing

namespace Glob

/-- The state of the loop of `match_segment`: where the pattern and the subject are read, and the
last star with the place up to which it has taken the subject. -/
structure Search where
  patternIndex : Nat
  subjectIndex : Nat
  star : Option (Nat × Nat)
  star_lt : ∀ index taken, star = some (index, taken) → index < patternIndex ∧ taken ≤ subjectIndex

namespace Search

def start : Search := { patternIndex := 0, subjectIndex := 0, star := none, star_lt := nofun }

variable (search : Search)

/-- Both sides go on by one character. -/
def advance : Search where
  patternIndex := search.patternIndex + 1
  subjectIndex := search.subjectIndex + 1
  star := search.star
  star_lt index taken h := ⟨Nat.lt_succ_of_lt (search.star_lt index taken h).1,
    Nat.le_succ_of_le (search.star_lt index taken h).2⟩

/-- A star is passed, and takes nothing so far. -/
def passStar : Search where
  patternIndex := search.patternIndex + 1
  subjectIndex := search.subjectIndex
  star := some (search.patternIndex, search.subjectIndex)
  star_lt := by
    rintro _ _ ⟨⟩
    exact ⟨Nat.lt_succ_self _, Nat.le_refl _⟩

/-- The last star swallows one more character. -/
def takeBack : Option Search :=
  search.star.map fun (index, taken) => {
    patternIndex := index + 1
    subjectIndex := taken + 1
    star := some (index, taken + 1)
    star_lt := by
      rintro _ _ ⟨⟩
      exact ⟨Nat.lt_succ_self _, Nat.le_refl _⟩ }

/-- One turn of the loop, `none` where it returns false. -/
def step (pattern subject : Text) : Option Search :=
  match pattern[search.patternIndex]? with
  | some '*' => some search.passStar
  | some '?' => some search.advance
  | some c => if subject[search.subjectIndex]? = some c then some search.advance else search.takeBack
  | none => search.takeBack

/-- What each turn makes smaller while the subject is not read to its end: the pattern after the
last star, then the subject after what it has taken, then the subject that is left. -/
def left (pattern subject : Text) : Nat × Nat × Nat :=
  (match search.star with
    | some (index, _) => pattern.length - index
    | none => pattern.length + 1,
    match search.star with
    | some (_, taken) => subject.length - taken
    | none => 0,
    subject.length - search.subjectIndex)

variable {search} {pattern subject : Text} {next : Search}

/-- What a turn can do. -/
inductive Turn (pattern subject : Text) (search : Search) : Option Search → Prop
  | star : pattern[search.patternIndex]? = some '*' → Turn pattern subject search search.passStar
  | both {c} : pattern[search.patternIndex]? = some c → c ≠ '*' →
      c = '?' ∨ subject[search.subjectIndex]? = some c → Turn pattern subject search search.advance
  | back {result} : (∀ c, pattern[search.patternIndex]? = some c →
      c ≠ '*' ∧ c ≠ '?' ∧ subject[search.subjectIndex]? ≠ some c) →
      search.takeBack = result → Turn pattern subject search result

theorem step_turn (search : Search) (pattern subject : Text) :
    Turn pattern subject search (search.step pattern subject) := by
  unfold step
  split
  next h => exact .star h
  next h => exact .both h (by decide) (.inl rfl)
  next c hstar hmark h =>
    split
    next hsame => exact .both h hstar (.inr hsame)
    next hdiffer =>
      refine .back (fun d hd => ?_) rfl
      cases h.symm.trans hd
      exact ⟨hstar, hmark, hdiffer⟩
  next h => exact .back (fun c hc => nomatch h.symm.trans hc) rfl

theorem step_left (hsubject : search.subjectIndex < subject.length)
    (h : search.step pattern subject = some next) :
    Prod.Lex (· < ·) (Prod.Lex (· < ·) (· < ·)) (next.left pattern subject)
      (search.left pattern subject) := by
  have hturn := search.step_turn pattern subject
  rw [h] at hturn
  cases hturn with
  | star hget =>
    have hindex := (List.getElem?_eq_some_iff.mp hget).1
    refine .left _ _ ?_
    cases hstar : search.star with
    | none => exact Nat.lt_succ_of_le (Nat.sub_le ..)
    | some star =>
      have hlt := (search.star_lt star.1 star.2 hstar).1
      dsimp only [passStar]
      omega
  | both =>
    exact .right _ (.right _ (Nat.sub_lt_sub_left hsubject (Nat.lt_succ_self _)))
  | back _ htake =>
    obtain ⟨⟨index, taken⟩, hstar, hnext⟩ := Option.map_eq_some_iff.mp htake
    have hle := (search.star_lt index taken hstar).2
    subst hnext
    simp only [left, hstar]
    exact .right _ (.left _ _ (Nat.sub_lt_sub_left (Nat.lt_of_le_of_lt hle hsubject)
      (Nat.lt_succ_self _)))

end Search

/-- The loop of `match_segment`. -/
def matchFrom (pattern subject : Text) (search : Search) : Bool :=
  if _ : search.subjectIndex < subject.length then
    match _ : search.step pattern subject with
    | some next => matchFrom pattern subject next
    | none => false
  else (pattern.drop search.patternIndex).all (· = '*')
termination_by search.left pattern subject
decreasing_by exact Search.step_left (by assumption) (by assumption)

/-- Wildcard match inside one path segment. -/
def matchSegment (pattern subject : Text) : Bool := matchFrom pattern subject .start

def matchSegments : List Text → List Text → Bool
  | [], subject => subject.isEmpty
  | head :: rest, subject =>
    -- `**` consumes any number of segments, including none
    if head = "**".toList then
      (List.range (subject.length + 1)).any fun skip => matchSegments rest (subject.drop skip)
    else match subject with
      | first :: remaining => matchSegment head first && matchSegments rest remaining
      | [] => false

/-- `rsplit('/').next()`. -/
def fileName (path : Text) : Text := ((path.splitOn '/').getLast?).getD path

def globMatch (casing : Casing) (pattern path : Text) : Bool :=
  let pattern := casing.toLowercase pattern
  let path := casing.toLowercase path
  let subject := if '/' ∈ pattern then path else fileName path
  matchSegments (pattern.splitOn '/') (subject.splitOn '/')

end Glob
end RDownloader
