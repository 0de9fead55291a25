import RDownloader.SiteRules.Run

/-!
# The steps of a rule (`rd-siterules/src/exec/steps.rs`, `step_kinds.rs`)
-/

namespace RDownloader

namespace SiteRules

/-- `str::trim`. -/
def trimmed (text : String) : String := String.ofList (Text.trimmed text.toList)

/-- White space collapsed, and cut to so many characters. -/
def collapsed (length : Nat) (text : String) : String :=
  let words := (text.toList.splitOnP isWhiteSpace).filter (· ≠ [])
  String.ofList ((Text.join [' '] words).take length)

/-- The longest package name a run yields. -/
def maxPackageNameChars : Nat := 200

namespace Run

variable {Url : Type} (setting : Setting Url)

/-- The page in hand. -/
def currentPage (run : Run Url) (step : Nat) : Except RunError Url :=
  let text := ((run.vars pageUrlVariable).bind Value.first?).getD ""
  match setting.web.parse text with
  | some url => .ok url
  | none => .error (.structure step "page" .pageUnusable)

/-- An address from a rule, absolute or relative to the page in hand. -/
def target (run : Run Url) (step : Nat) (kind text : String) : Except RunError Url :=
  match setting.web.parse (trimmed text) with
  | some url => .ok url
  | none =>
    match currentPage setting run step with
    | .error error => .error error
    | .ok page =>
      match setting.web.join page (trimmed text) with
      | some url => .ok url
      | none => .error (.structure step kind (.notAnAddress (trimmed text)))

def expand (run : Run Url) (step : Nat) (kind template : String) : Except RunError String :=
  (run.vars.expand template).mapError fun name => .structure step kind (.unwritten name)

/-- `expand` for the two steps that run once per entry of a list. -/
def expandEach (run : Run Url) (step : Nat) (kind template : String) : Except RunError Expansion :=
  (run.vars.expandEach template).mapError fun error =>
    .structure step kind (match error with
      | .missing name => .unwritten name
      | .severalLists names => .severalLists names)

def read (run : Run Url) (step : Nat) (kind name : String) : Except RunError Value :=
  match run.vars name with
  | none => .error (.structure step kind (.unwritten name))
  | some value =>
    if value.isEmpty then .error (.structure step kind (.emptyVariable name)) else .ok value

/-- Writes a variable. -/
def setVariable (name : String) (value : Value) : Crawling Url Unit :=
  modify fun run => { run with vars := run.vars.set name value }

/-- Goes back to a page so many requests deep. -/
def goTo (depth : Nat) (way : List Url) : Crawling Url Unit :=
  modify fun run => { run with depth, way }

/-- How deep the run is once a page lay that deep. -/
def setDepth (depth : Nat) : Crawling Url Unit := modify fun run => { run with depth }

/-- The loop of `fetch_each` over the targets; every one is one request below the page it started
from. The answer is the deepest page and what was found. -/
def fetchTargets (parse : String → Except RunError Value) (start : Nat) (startWay : List Url) :
    List Url → Nat → List String → Crawling Url (Nat × List String)
  | [], deepest, found => return (deepest, found)
  | target :: targets, deepest, found => do
    goTo start startWay
    let (_, response) ← fetchPage setting target .get [] false
    let run ← get
    let value ← MonadExcept.ofExcept (parse response.body)
    fetchTargets parse start startWay targets (max deepest run.depth) (found ++ value.iter)

/-- One GET per entry of a list. -/
def fetchEach (step : Nat) (kind : String) (entries : List String)
    (parse : String → Except RunError Value) : Crawling Url Value := do
  let run ← get
  let targets ← MonadExcept.ofExcept (entries.mapM (target setting run step kind))
  let (deepest, found) ← fetchTargets setting parse run.depth run.way targets run.depth []
  setDepth deepest
  return Value.list found

/-- A page in full, or one per entry of a list placeholder. -/
def fetchExpanded (step : Nat) (kind template : String) (parse : String → Except RunError Value) :
    Crawling Url Value := do
  let run ← get
  match ← MonadExcept.ofExcept (expandEach run step kind template) with
  | .one expanded =>
    let url ← MonadExcept.ofExcept (target setting run step kind expanded)
    let (_, response) ← fetchPage setting url .get [] false
    MonadExcept.ofExcept (parse response.body)
  | .each entries => fetchEach setting step kind entries parse

def fetchStep (step : Nat) (url into : Option String) : Crawling Url Unit := do
  match url with
  | some template =>
    let bodies ← fetchExpanded setting step "fetch" template (.ok ∘ .one)
    setVariable (into.getD pageVariable) bodies
  | none =>
    let (_, response) ← fetchPage setting setting.address .get [] false
    setVariable (into.getD pageVariable) (.one response.body)

/-- `json_at`. -/
def jsonAt (step : Nat) (path body : String) : Except RunError Value :=
  (setting.web.jsonAt body path).mapError fun reason => .structure step "fetch-json" (.json reason)

def fetchJsonStep (step : Nat) (url path into : String) : Crawling Url Unit := do
  let value ← fetchExpanded setting step "fetch-json" url (jsonAt setting step path)
  setVariable into value

/-- The first captures in each text, of the first match or of every one. -/
def matchedIn (captures : String → List String) (all : Bool) (texts : List String) : List String :=
  texts.flatMap fun text => if all then captures text else (captures text).head?.toList

def regexStep (step : Nat) (pattern : String) (source : Option String) (into : String)
    (all : Bool) : Crawling Url Unit := do
  let run ← get
  let value ← MonadExcept.ofExcept (read run step "regex" (source.getD pageVariable))
  match setting.web.captures pattern with
  | none => throw (.structure step "regex" .patternInvalid)
  | some captures =>
    if matchedIn captures all value.iter = [] then
      throw (.structure step "regex" (.matchedNothing pattern (source.getD pageVariable)))
    else setVariable into (Value.list (matchedIn captures all value.iter))

def decodeStep (step : Nat) (encoding : Decoding) (source into : String) : Crawling Url Unit := do
  let run ← get
  let value ← MonadExcept.ofExcept (read run step "decode" source)
  match value.iter.mapM (setting.web.decode encoding) with
  | none => throw (.decodeFailed step encoding)
  | some decoded => setVariable into (Value.list decoded)

def formStep (step : Nat) (url : String) (fields : List (String × String)) (into : Option String)
    (json : Bool) : Crawling Url Unit := do
  let run ← get
  let expanded ← MonadExcept.ofExcept (expand run step "form" url)
  let url ← MonadExcept.ofExcept (target setting run step "form" expanded)
  let body ← MonadExcept.ofExcept (fields.mapM fun field =>
    (expand run step "form" field.2).map (field.1, ·))
  let (_, response) ← fetchPage setting url .post body json
  setVariable (into.getD pageVariable) (.one response.body)

/-- The target each address answers with. -/
def redirectTargets (step : Nat) : List String → Crawling Url (List String)
  | [] => return []
  | text :: texts => do
    let run ← get
    let url ← MonadExcept.ofExcept (target setting run step "redirect" text)
    let found ← redirectTargetOf setting step url
    let targets ← redirectTargets step texts
    return found :: targets

def redirectStep (step : Nat) (source into : String) : Crawling Url Unit := do
  let run ← get
  let value ← MonadExcept.ofExcept (read run step "redirect" source)
  let targets ← redirectTargets setting step value.iter
  setVariable into (Value.list targets)

/-- Hands a challenge to the broker, and counts its wait out of the budget where the run does that. -/
def solve (solver : Nat → CaptchaRequest Url → Except String String) (request : CaptchaRequest Url) :
    Crawling Url (Except String String) := do
  let asked ← elapsed setting
  let run ← get
  modify fun run => { run with asked := run.asked + 1, trace := .solved request :: run.trace }
  let now ← elapsed setting
  modify fun run =>
    { run with waited := if setting.captchaPaused then run.waited + (now - asked) else run.waited }
  return solver run.asked request

/-- The page a challenge is for. -/
def captchaPage (run : Run Url) (step : Nat) : Option String → Except RunError Url
  | some template =>
    match expand run step "captcha" template with
    | .ok expanded => target setting run step "captcha" expanded
    | .error error => .error error
  | none => currentPage setting run step

def captchaStep (step : Nat) (challenge : String) (sitekey into page : Option String)
    (invisible : Bool) : Crawling Url Unit := do
  match setting.ports.captcha with
  | none => throw (.captchaFailed step "no captcha broker is available to this run")
  | some solver =>
    let run ← get
    let sitekey ← MonadExcept.ofExcept (sitekey.mapM (expand run step "captcha"))
    let pageUrl ← MonadExcept.ofExcept (captchaPage setting run step page)
    if hostAllowed setting.web setting.rule setting.originHost pageUrl then
      match ← solve setting solver { challenge, sitekey, pageUrl, invisible } with
      | .error reason => throw (.captchaFailed step reason)
      | .ok token =>
        if token = "" then throw (.captchaFailed step "the broker returned an empty answer")
        else setVariable (into.getD captchaVariable) (.one token)
    else throw (.targetNotAllowed (setting.web.text pageUrl))

/-- Runs one step of the rule. -/
def step (index : Nat) (step : Step) : Crawling Url Unit := do
  checkTime setting
  match step with
  | .fetch url into => fetchStep setting index url into
  | .fetchJson url path into => fetchJsonStep setting index url path into
  | .regex pattern source into all => regexStep setting index pattern source into all
  | .decode encoding source into => decodeStep setting index encoding source into
  | .form url fields into json => formStep setting index url fields into json
  | .redirect source into => redirectStep setting index source into
  | .captcha challenge sitekey into page invisible =>
    captchaStep setting index challenge sitekey into page invisible

/-- Steps one after another, numbered from `first`. -/
def steps : Nat → List Step → Crawling Url Unit
  | _, [] => return ()
  | first, next :: rest => do
    step setting first next
    steps (first + 1) rest

/-- Whether a link is delivered: http(s), and not on a literal local address. -/
def deliverable (url : Url) : Bool :=
  (setting.web.scheme url = "http" ∨ setting.web.scheme url = "https") ∧
    (setting.web.literalAddress url).all IpAddr.isPublic

/-- What a link variable holds, as links: absolute against the page in hand, each once, in order. -/
def absoluteLinks (run : Run Url) (value : Value) : List String :=
  let base := match currentPage setting run 0 with
    | .ok page => page
    | .error _ => setting.address
  let links := value.iter.filterMap fun text =>
    if trimmed text = "" then none
    else (setting.web.join base (trimmed text)).filter (deliverable setting)
  (links.map setting.web.text).eraseDups

/-- The links the run produced. -/
def links (run : Run Url) : Except RunError (List String) :=
  match run.vars linksVariable with
  | none => .error .noLinks
  | some value =>
    if setting.limits.maxLinks < value.iter.length then .error (.limitLinks setting.limits.maxLinks)
    else if absoluteLinks setting run value = [] then .error .noLinks
    else .ok (absoluteLinks setting run value)

/-- What a source reads from the variables in hand. -/
def packageFrom (vars : Variables) (source : PackageSource) : Option String :=
  let found := match source with
    | .title => do
      let page ← (vars pageVariable).bind Value.first?
      let captures ← setting.web.captures "(?is)<title[^>]*>(.*?)</title>"
      (captures page).head?
    | .regex pattern source => do
      let value ← vars (source.getD pageVariable)
      let captures ← setting.web.captures pattern
      value.iter.findSome? fun text => (captures text).head?
    | .variable name => (vars name).bind Value.first?
  (found.map fun text => trimmed (collapsed maxPackageNameChars text)).filter (· ≠ "")

end Run

end SiteRules

end RDownloader
