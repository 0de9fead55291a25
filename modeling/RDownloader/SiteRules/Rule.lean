import RDownloader.Core.Lines
import RDownloader.SiteRules.AddressScope

/-!
# Site rules as data (`rd-siterules/src/format.rs`, `step.rs`, `groups.rs`, `text.rs`)

What a rule is called and what it says to people is left out.
-/

namespace RDownloader

namespace SiteRules

inductive Decoding
  | base64
  | hex
  | rot13
  | url
  | jsString
  deriving DecidableEq, Repr

/-- One step of a rule. -/
inductive Step
  | fetch (url into : Option String)
  | fetchJson (url path into : String)
  | regex (pattern : String) (source : Option String) (into : String) (all : Bool)
  | decode (encoding : Decoding) (source into : String)
  | form (url : String) (fields : List (String × String)) (into : Option String) (json : Bool)
  | redirect (source into : String)
  | captcha (challenge : String) (sitekey into page : Option String) (invisible : Bool)
  deriving DecidableEq, Repr

/-- The variable `fetch` writes and `regex` reads when neither names one. -/
def pageVariable : String := "page"
/-- The variable the executor reads the result from. -/
def linksVariable : String := "links"
def addressVariable : String := "url"
def pageUrlVariable : String := "page_url"
def captchaVariable : String := "captcha"
def deviceVariable : String := "device_id"
def entryVariable : String := "entry"

/-- The variable a step writes, with the defaults the executor applies. -/
def Step.writtenBy : Step → String
  | fetch _ into | form _ _ into _ => into.getD pageVariable
  | captcha _ _ into _ _ => into.getD captchaVariable
  | fetchJson _ _ into | regex _ _ into _ | decode _ _ into | redirect _ into => into

inductive GroupMirrors
  | all
  | byHost
  deriving DecidableEq, Repr

/-- Where a package name comes from. -/
inductive PackageSource
  /-- The page's `<title>`. -/
  | title
  | regex (pattern : String) (source : Option String)
  | «variable» (name : String)
  deriving DecidableEq, Repr

/-- How a rule turns one page into several packages. -/
structure Groups where
  source : String
  into : Option String
  /-- The patterns of the attributes, by name, when the entries are listed for somebody to choose
  before any is resolved. -/
  pick : Option (List (String × String))
  steps : List Step
  package : PackageSource
  mirrors : Option GroupMirrors
  deriving DecidableEq, Repr

/-- The variable one entry is handed over in. -/
def Groups.entryVariable (groups : Groups) : String := groups.into.getD SiteRules.entryVariable

/-- The addresses a rule claims. -/
structure Match where
  hosts : List String
  paths : List String
  deriving DecidableEq, Repr

structure Rule where
  matched : Match
  dead : List String
  steps : List Step
  package : PackageSource
  mirrors : Bool
  groups : Option Groups
  deriving DecidableEq, Repr

/-- `host_pattern_matches` with the apex included. -/
def hostMatches (pattern host : String) : Bool :=
  match pattern.toList with
  | '*' :: '.' :: suffix =>
    if suffix ≠ [] ∧ '*' ∉ suffix then
      host.toList = suffix ∨
        (suffix.isSuffixOf host.toList ∧
          1 < (host.toList.take (host.length - suffix.length)).length ∧
          (host.toList.take (host.length - suffix.length)).getLast? = some '.')
    else false
  | pattern => '*' ∉ pattern ∧ host.toList = pattern

/-- One variable's content. -/
inductive Value
  | one (text : String)
  | many (texts : List String)
  deriving DecidableEq, Repr

namespace Value

/-- Every string, in order. -/
def iter : Value → List String
  | one text => [text]
  | many texts => texts

def first? (value : Value) : Option String := value.iter.head?

/-- An empty string counts as nothing. -/
def isEmpty : Value → Bool
  | one text => text = ""
  | many texts => texts = []

/-- A list of exactly one is that one. -/
def list : List String → Value
  | [text] => one text
  | texts => many texts

end Value

/-- A variable name: `[a-z][a-z0-9_]*`. -/
def isVariable (name : Text) : Bool :=
  name.length ≤ 32 ∧ name.head?.any Char.isLower ∧
    name.all fun c => c.isLower ∨ c.isDigit ∨ c = '_'

/-- The names a template references; without its end a placeholder is malformed. -/
def placeholders : Nat → Text → Option (List String)
  | 0, _ => some []
  | _ + 1, [] => some []
  | fuel + 1, '$' :: '{' :: rest =>
    match Text.splitOnce '}' rest with
    | none => none
    | some (name, after) =>
      if isVariable name then (placeholders fuel after).map (String.ofList name :: ·) else none
  | fuel + 1, _ :: rest => placeholders fuel rest

/-- The variable names a template references through `${…}`. -/
def templateVariables (template : String) : Option (List String) :=
  placeholders (template.length + 1) template.toList

/-- `str::replace`, from left to right. -/
def replaceIn (pattern value : Text) : Nat → Text → Text
  | 0, text => text
  | _ + 1, [] => []
  | fuel + 1, c :: rest =>
    if pattern.isPrefixOf (c :: rest) then
      value ++ replaceIn pattern value fuel ((c :: rest).drop pattern.length)
    else c :: replaceIn pattern value fuel rest

def replacePlaceholder (text name value : String) : String :=
  String.ofList (replaceIn ("$\x7b" ++ name ++ "\x7d").toList value.toList (text.length + 1) text.toList)

/-- The variables of one run. -/
abbrev Variables := String → Option Value

/-- What a template becomes for a step that runs once per entry. -/
inductive Expansion
  | one (text : String)
  | each (texts : List String)
  deriving DecidableEq, Repr

/-- Why a template could not be expanded. -/
inductive ExpandError
  | missing (name : String)
  | severalLists (names : List String)
  deriving DecidableEq, Repr

namespace Variables

variable (vars : Variables)

def set (name : String) (value : Value) : Variables :=
  fun other => if other = name then some value else vars other

def unset (name : String) : Variables :=
  fun other => if other = name then none else vars other

/-- Replaces every placeholder with that variable's first string, or with the entry's text for the
one variable it names. -/
def substitute (template : String) (entry : Option (String × String)) : Except String String :=
  match templateVariables template with
  | none => .error template
  | some names => names.foldlM (fun expanded name =>
      let value := match entry with
        | some (list, text) => if list = name then some text else (vars name).bind Value.first?
        | none => (vars name).bind Value.first?
      match value with
      | none => .error name
      | some value => .ok (replacePlaceholder expanded name value)) template

def expand (template : String) : Except String String := vars.substitute template none

/-- The placeholders that hold lists, each once. -/
def lists : List String → List String → Except ExpandError (List String)
  | [], found => .ok found
  | name :: names, found =>
    match vars name with
    | none => .error (.missing name)
    | some (.many _) => lists names (if name ∈ found then found else found ++ [name])
    | some (.one _) => lists names found

/-- Expands a template once per distinct entry when one of its placeholders holds a list. -/
def expandEach (template : String) : Except ExpandError Expansion :=
  match templateVariables template with
  | none => .error (.missing template)
  | some names =>
    match vars.lists names [] with
    | .error error => .error error
    | .ok [] => ((vars.expand template).map .one).mapError .missing
    | .ok [list] =>
      let entries := (((vars list).map Value.iter).getD []).eraseDups
      ((entries.mapM fun entry => vars.substitute template (some (list, entry))).map
        .each).mapError .missing
    | .ok lists => .error (.severalLists lists)

end Variables

example : Variables.expandEach (Variables.set (fun _ => none) "id" (.many ["7", "8", "7"]))
    "dl/${id}" = .ok (.each ["dl/7", "dl/8"]) := by rfl

end SiteRules

end RDownloader
