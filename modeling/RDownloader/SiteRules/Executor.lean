import RDownloader.SiteRules.Steps

/-!
# Running a rule (`rd-siterules/src/exec/mod.rs`, `groups.rs`, `pick.rs`)
-/

namespace RDownloader

namespace SiteRules

/-- One link of a group, with its mirror set. -/
structure GroupLink where
  url : String
  mirror : Option Nat
  deriving DecidableEq, Repr

/-- One package a rule with `groups` produced. -/
structure CrawlGroup where
  name : Option String
  links : List GroupLink
  deriving DecidableEq, Repr

/-- One entry to choose. -/
structure PickEntry where
  text : String
  label : Option String
  attributes : List (String × String)
  deriving DecidableEq, Repr

/-- What the first stage of a two-stage rule found, and what the second one starts from. -/
structure PickList where
  entries : List PickEntry
  vars : Variables

/-- What a run produced. -/
structure Crawl (Url : Type) where
  address : Url
  links : List String
  packageName : Option String
  pagesFetched : Nat
  mirrors : Bool
  groups : List CrawlGroup
  pick : Option PickList

/-- Longest attribute value kept. -/
def maxValueLength : Nat := 120

variable {Url : Type}

/-- The how-manieth link at its host each one is. -/
def hostPositions (linkHost : String → String) : List String → List String → List (Option Nat)
  | _, [] => []
  | before, link :: links =>
    let host := linkHost link
    some (before.count host + 1) :: hostPositions linkHost (host :: before) links

/-- Numbers the mirror sets of one group's links; a set of one is no mirror. -/
def numberMirrors (web : Web Url) (links : List String) (mirrors : Option GroupMirrors) :
    List GroupLink :=
  let sets := match mirrors with
    | none => links.map fun _ => none
    | some .all => links.map fun _ => some 1
    | some .byHost => hostPositions web.linkHost [] links
  (links.zip sets).map fun (url, set) =>
    { url, mirror := set.filter fun number => 1 < sets.count (some number) }

example : hostPositions id [] ["a", "b", "a"] = [some 1, some 1, some 2] := by decide

/-- The same address on the canonical host when it sits on a dead one. -/
def Rule.revive (rule : Rule) (web : Web Url) (url : Url) : Option Url :=
  match web.hostStr url with
  | none => none
  | some host =>
    if host ∈ rule.dead then rule.matched.hosts.head?.bind (web.setHost url) else none

def Match.claims (claimed : Match) (web : Web Url) (url : Url) : Bool :=
  match web.hostStr url with
  | none => false
  | some host =>
    claimed.hosts.any (hostMatches · host) ∧
      (claimed.paths = [] ∨ claimed.paths.any fun pattern =>
        (web.captures pattern).any fun captures => captures (web.pathAndQuery url) ≠ [])

namespace Variables

variable (vars : Variables)

/-- The variables a group's steps may change, as the rule's own steps left them. -/
def saved (groups : Groups) : List (String × Option Value) :=
  let written :=
    groups.steps.map Step.writtenBy ++ [linksVariable, pageUrlVariable, groups.entryVariable]
  written.map fun name => (name, vars name)

/-- Puts back what was saved, removing what was not there. -/
def restore (saved : List (String × Option Value)) : Variables :=
  saved.foldl (fun vars (name, value) =>
    match value with
    | some value => vars.set name value
    | none => vars.unset name) vars

end Variables

namespace Run

variable (setting : Setting Url)

/-- The loop of `groups` over the entries; each starts where the rule's own steps left the run. The
answer is the deepest page and the packages. -/
def groupEntries (groups : Groups) (fallback : Option String)
    (saved : List (String × Option Value)) (start : Nat) (startWay : List Url) :
    List String → Nat → List String → Nat → List CrawlGroup →
      Crawling Url (Nat × List CrawlGroup)
  | [], deepest, _, _, found => return (deepest, found)
  | entry :: entries, deepest, seen, proposed, found => do
    modify fun run => { run with
      vars := ((run.vars.restore saved).unset linksVariable).set groups.entryVariable
        (.one entry) }
    goTo start startWay
    steps setting setting.rule.steps.length groups.steps
    let run ← get
    let deepest := max deepest run.depth
    match run.vars linksVariable with
    | none => groupEntries groups fallback saved start startWay entries deepest seen proposed found
    | some value =>
      let proposed := proposed + value.iter.length
      if setting.limits.maxLinks < proposed then throw (.limitLinks setting.limits.maxLinks)
      else
        let links := (absoluteLinks setting run value).filter (· ∉ seen)
        if links = [] then
          groupEntries groups fallback saved start startWay entries deepest seen proposed found
        else
          let name := (packageFrom setting run.vars groups.package).or fallback
          let group := { name, links := numberMirrors setting.web links groups.mirrors }
          groupEntries groups fallback saved start startWay entries deepest (links ++ seen) proposed
            (found ++ [group])

/-- Runs the group's steps once per entry. -/
def groups (groups : Groups) (fallback : Option String) : Crawling Url (List CrawlGroup) := do
  let run ← get
  let value ← MonadExcept.ofExcept
    (read run setting.rule.steps.length "groups" groups.source)
  if setting.limits.maxLinks < value.iter.length then throw (.limitLinks setting.limits.maxLinks)
  else
    let saved := run.vars.saved groups
    let (deepest, found) ←
      groupEntries setting groups fallback saved run.depth run.way value.iter run.depth [] 0 []
    modify fun run => { run with vars := run.vars.restore saved }
    goTo deepest run.way
    if found = [] then throw .noLinks else return found

/-- What the patterns of a pick read from one entry. -/
def attributesOf (patterns : List (String × (String → List String))) (text : String) :
    List (String × String) :=
  patterns.filterMap fun (name, captures) => do
    let found ← (captures text).head?
    let value := collapsed maxValueLength found
    if value = "" then none else some (name, value)

/-- Lists the entries with their labels and attributes. -/
def pickList (run : Run Url) (groups : Groups) (pick : List (String × String))
    (fallback : Option String) : Except RunError PickList := do
  let first := setting.rule.steps.length
  let value ← read run first "groups" groups.source
  if setting.limits.maxLinks < value.iter.length then
    .error (.limitLinks setting.limits.maxLinks)
  else
    match pick.mapM fun (name, pattern) => (setting.web.captures pattern).map (name, ·) with
    | none => .error (.structure first "pick" .patternInvalid)
    | some patterns =>
      let entry (text : String) : PickEntry :=
        { text
          label := (packageFrom setting (run.vars.set groups.entryVariable (.one text))
            groups.package).or fallback
          attributes := attributesOf patterns text }
      .ok { entries := value.iter.map entry, vars := run.vars }

/-- What follows the steps of a rule. -/
def finish : Crawling Url (Crawl Url) := do
  let run ← get
  let packageName := packageFrom setting run.vars setting.rule.package
  match setting.rule.groups with
  | none =>
    checkTime setting
    let links ← MonadExcept.ofExcept (links setting run)
    return { address := setting.address, links, packageName, pagesFetched := run.pages
             mirrors := setting.rule.mirrors, groups := [], pick := none }
  | some grouping =>
    match grouping.pick with
    | some pick =>
      -- A two-stage rule stops here: the entries are listed, none is resolved.
      let list ← MonadExcept.ofExcept (pickList setting run grouping pick packageName)
      checkTime setting
      return { address := setting.address, links := [], packageName, pagesFetched := run.pages
               mirrors := false, groups := [], pick := some list }
    | none =>
      let found ← groups setting grouping packageName
      checkTime setting
      let run ← get
      return { address := setting.address, packageName, pagesFetched := run.pages
               links := found.flatMap fun group => group.links.map GroupLink.url
               mirrors := setting.rule.mirrors, groups := found, pick := none }

/-- What follows the steps of a group for a chosen entry. -/
def finishEntry (groups : Groups) (entry : PickEntry) : Crawling Url CrawlGroup := do
  checkTime setting
  let run ← get
  let links ← MonadExcept.ofExcept (links setting run)
  let name := (packageFrom setting run.vars groups.package).or entry.label
  return { name, links := numberMirrors setting.web links groups.mirrors }

end Run

/-- What runs rules: the libraries, the ports and the limits. -/
structure Executor (Url : Type) where
  web : Web Url
  ports : Ports Url
  limits : Limits

namespace Executor

variable (executor : Executor Url) (rule : Rule) (address : Url)

/-- What a run goes by: `address` is the one that is crawled, and `given` the one it was given. -/
def setting (given : Url) (captchaPaused : Bool) : Setting Url where
  web := executor.web
  ports := executor.ports
  limits := executor.limits
  rule
  originHost := (executor.web.hostStr given).getD ""
  address
  captchaPaused

/-- Runs a rule against an address; with the answer, what was asked of the world. -/
def run : Except RunError (Crawl Url) × List (PortEvent Url) :=
  let revived := (rule.revive executor.web address).getD address
  if rule.matched.claims executor.web revived then
    let setting := executor.setting rule revived address false
    let program := do
      Run.steps setting 0 rule.steps
      Run.finish setting
    let (answer, run) := Refusing.exec program (Run.new setting)
    (answer, run.trace)
  else (.error (.notClaimed (executor.web.text revived)), [])

/-- What the second stage starts from. -/
def chosen (setting : Setting Url) (list : PickList) (groups : Groups) (entry : PickEntry) :
    Run Url :=
  let vars := match setting.ports.deviceId with
    | some device => list.vars.set deviceVariable (.one device)
    | none => list.vars
  { Run.new setting with
    vars := (vars.unset linksVariable).set groups.entryVariable (.one entry.text) }

/-- The second stage of a two-stage rule: the group's steps for one entry. -/
def resolve (list : PickList) (index : Nat) :
    Except RunError CrawlGroup × List (PortEvent Url) :=
  match rule.groups, list.entries[index]? with
  | some groups, some entry =>
    let setting := executor.setting rule address address true
    let program := do
      Run.steps setting rule.steps.length groups.steps
      Run.finishEntry setting groups entry
    let (answer, run) := Refusing.exec program (chosen setting list groups entry)
    (answer, run.trace)
  | _, _ => (.error (.noEntry index), [])

end Executor

end SiteRules

end RDownloader
