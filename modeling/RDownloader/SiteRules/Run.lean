import RDownloader.Lib.Refusing
import RDownloader.SiteRules.Rule

/-!
# One run and the requests it may make (`rd-siterules/src/exec/run.rs`, `guard.rs`, `ports.rs`)

Whatever the run asks of the world is put on record, newest first. The world may answer each question
as it likes, so an answer depends on how many questions there were before.
-/

namespace RDownloader

namespace SiteRules

/-- What a refusal for the structure of a page says. -/
inductive Detail
  | unwritten (name : String)
  | emptyVariable (name : String)
  | severalLists (names : List String)
  | patternInvalid
  | matchedNothing (pattern source : String)
  | notAnAddress (text : String)
  | noRedirect (url : String) (status : Nat)
  | pageUnusable
  | json (reason : String)
  deriving DecidableEq, Repr

/-- Addresses, regular expressions and documents, as the libraries for them work. -/
structure Web (Url : Type) where
  parse : String → Option Url
  join : Url → String → Option Url
  /-- The address as it is written. -/
  text : Url → String
  scheme : Url → String
  hostStr : Url → Option String
  /-- The address that the host is, when it is not a name. -/
  literalAddress : Url → Option IpAddr
  setHost : Url → String → Option Url
  withoutFragment : Url → Url
  /-- The path, with the query if there is one. -/
  pathAndQuery : Url → String
  /-- Which host a link counts to. -/
  linkHost : String → String
  /-- When a pattern compiles: the first captures of all its matches in a text. -/
  captures : String → Option (String → List String)
  /-- The value a JSON pointer names. -/
  jsonAt : String → String → Except String Value
  decode : Decoding → String → Option String

inductive Method
  | get
  | post
  deriving DecidableEq, Repr

/-- One outgoing request. -/
structure FetchRequest (Url : Type) where
  url : Url
  /-- What the host was resolved to. -/
  addresses : List IpAddr
  method : Method
  form : List (String × String)
  json : Bool
  maxBytes : Nat
  timeout : Nat

structure FetchResponse where
  status : Nat
  headers : List (String × String)
  body : String
  deriving DecidableEq, Repr

/-- The first value of a header. -/
def FetchResponse.header (response : FetchResponse) (name : String) : Option String :=
  (response.headers.find? fun header =>
    Text.eqIgnoreAsciiCase header.1.toList name.toList).map (·.2)

inductive FetchFailure
  | unreachable (reason : String)
  | timeout
  | tooLarge
  | other (reason : String)
  deriving DecidableEq, Repr

structure CaptchaRequest (Url : Type) where
  challenge : String
  sitekey : Option String
  pageUrl : Url
  invisible : Bool

/-- Why a rule produced nothing. -/
inductive RunError
  | notClaimed (url : String)
  | pageDead (url reason : String)
  | blocked (url : String) (status : Nat)
  | fetchFailed (url reason : String)
  | targetNotAllowed (url : String)
  | addressNotPublic (host : String) (address : IpAddr)
  | responseTooLarge (url : String) (limit : Nat)
  | structure (step : Nat) (kind : String) (detail : Detail)
  | decodeFailed (step : Nat) (encoding : Decoding)
  | captchaFailed (step : Nat) (reason : String)
  | cycle (url : String)
  | limitDepth (limit : Nat)
  | limitPages (limit : Nat)
  | limitLinks (limit : Nat)
  | limitTime (limit : Nat)
  | noLinks
  | noEntry (index : Nat)
  deriving DecidableEq, Repr

/-- What one run may spend. -/
structure Limits where
  maxDepth : Nat
  maxPages : Nat
  maxLinks : Nat
  maxTotalTime : Nat
  maxResponseBytes : Nat
  requestTimeout : Nat
  deriving DecidableEq, Repr

/-- The world; the number is how many questions there were before. -/
structure Ports (Url : Type) where
  fetch : Nat → FetchRequest Url → Except FetchFailure FetchResponse
  resolve : Nat → String → Except String (List IpAddr)
  captcha : Option (Nat → CaptchaRequest Url → Except String String)
  elapsed : Nat → Nat
  deviceId : Option String

/-- What a run goes by. -/
structure Setting (Url : Type) where
  web : Web Url
  ports : Ports Url
  limits : Limits
  rule : Rule
  originHost : String
  address : Url
  captchaPaused : Bool

/-- What was asked of the world, apart from the time. -/
inductive PortEvent (Url : Type)
  | resolved (host : String) (answer : Except String (List IpAddr))
  /-- A request, with the addresses that were requested on the way to it, from the last on: its own,
  those that redirected to it, the page in hand and so on. -/
  | fetched (request : FetchRequest Url) (way : List Url)
  | solved (request : CaptchaRequest Url)

/-- The state of one run. -/
structure Run (Url : Type) where
  vars : Variables
  /-- Every address already requested. -/
  seen : List String := []
  pages : Nat := 0
  /-- How many requests deep the page in hand sits. -/
  depth : Nat := 0
  waited : Nat := 0
  /-- How many questions there were. -/
  asked : Nat := 1
  /-- The way to the page in hand. -/
  way : List Url := []
  trace : List (PortEvent Url) := []

variable {Url : Type}

abbrev Crawling (Url α : Type) := Refusing (Run Url) RunError α

/-- Whether a rule may reach an address: it is http(s), and on a host the rule names or on the host
of the address the run was given. -/
def hostAllowed (web : Web Url) (rule : Rule) (originHost : String) (url : Url) : Bool :=
  if web.scheme url = "http" ∨ web.scheme url = "https" then
    match web.hostStr url with
    | none => false
    | some host => host = originHost ∨ rule.matched.hosts.any (hostMatches · host)
  else false

/-- What the cycle set remembers. -/
def cycleKey (web : Web Url) (url : Url) : String := web.text (web.withoutFragment url)

/-- The `Location` of a redirect answer. -/
def redirectTarget (response : FetchResponse) : Option String :=
  if response.status ∈ [301, 302, 303, 307, 308] then response.header "location" else none

namespace Run

variable (setting : Setting Url)

/-- The state a run starts with; the time was read once before. -/
def new : Run Url where
  vars :=
    let vars : Variables := fun _ => none
    let vars := vars.set addressVariable (.one (setting.web.text setting.address))
    let vars := vars.set pageUrlVariable (.one (setting.web.text setting.address))
    match setting.ports.deviceId with
    | some device => vars.set deviceVariable (.one device)
    | none => vars

/-- Reads the clock. -/
def elapsed : Crawling Url Nat := do
  let run ← get
  modify fun run => { run with asked := run.asked + 1 }
  return setting.ports.elapsed run.asked

/-- Refuses once the run has spent its budget. -/
def checkTime : Crawling Url Unit := do
  let now ← elapsed setting
  let run ← get
  if setting.limits.maxTotalTime < now - setting.ports.elapsed 0 - run.waited then
    throw (.limitTime setting.limits.maxTotalTime)

/-- Asks for the addresses of a host. -/
def resolve (host : String) : Crawling Url (Except String (List IpAddr)) := do
  let run ← get
  let answer := setting.ports.resolve run.asked host
  modify fun run => { run with asked := run.asked + 1, trace := .resolved host answer :: run.trace }
  return answer

/-- The two bolts; the answer is the addresses that were checked, and none for a literal one. -/
def guard (url : Url) : Crawling Url (List IpAddr) := do
  if !hostAllowed setting.web setting.rule setting.originHost url then
    throw (.targetNotAllowed (setting.web.text url))
  else
    match setting.web.hostStr url with
    | none => throw (.targetNotAllowed (setting.web.text url))
    | some host =>
      match setting.web.literalAddress url with
      | some address => if address.isPublic then pure [] else throw (.addressNotPublic host address)
      | none =>
        match ← resolve setting host with
        | .error reason => throw (.pageDead (setting.web.text url) reason)
        | .ok addresses =>
          if addresses = [] then
            throw (.pageDead (setting.web.text url) "the name has no address")
          else
            match addresses.find? (!·.isPublic) with
            | some address => throw (.addressNotPublic host address)
            | none => pure addresses

def transportFailure (url : Url) : FetchFailure → RunError
  | .unreachable reason => .pageDead (setting.web.text url) reason
  | .timeout => .fetchFailed (setting.web.text url) "the request timed out"
  | .tooLarge => .responseTooLarge (setting.web.text url) setting.limits.maxResponseBytes
  | .other reason => .fetchFailed (setting.web.text url) reason

/-- Hands a request to the fetcher. -/
def fetch (request : FetchRequest Url) (way : List Url) :
    Crawling Url (Except FetchFailure FetchResponse) := do
  let run ← get
  modify fun run => { run with
    seen := cycleKey setting.web request.url :: run.seen
    pages := run.pages + 1
    asked := run.asked + 1
    trace := .fetched request (request.url :: way) :: run.trace }
  return setting.ports.fetch run.asked request

/-- One request, with every limit and both bolts applied. -/
def issue (url : Url) (method : Method) (form : List (String × String)) (json : Bool) (depth : Nat)
    (way : List Url) : Crawling Url FetchResponse := do
  checkTime setting
  if setting.limits.maxDepth < depth then throw (.limitDepth setting.limits.maxDepth)
  else
    let addresses ← guard setting url
    let run ← get
    if setting.limits.maxPages ≤ run.pages then throw (.limitPages setting.limits.maxPages)
    else if cycleKey setting.web url ∈ run.seen then throw (.cycle (setting.web.text url))
    else
      let answer ← fetch setting
        { url, addresses, method, form, json
          maxBytes := setting.limits.maxResponseBytes
          timeout := setting.limits.requestTimeout } way
      match answer with
      | .error failure => throw (transportFailure setting url failure)
      | .ok response =>
        if setting.limits.maxResponseBytes < response.body.utf8ByteSize then
          throw (.responseTooLarge (setting.web.text url) setting.limits.maxResponseBytes)
        else pure response

/-- Turns a status into the refusal that names what happened. -/
def acceptStatus (url : Url) (status : Nat) : Except RunError Unit :=
  if 200 ≤ status ∧ status ≤ 299 then .ok ()
  else if status ∈ [401, 403, 429] then .error (.blocked (setting.web.text url) status)
  else if status ∈ [404, 410] then .error (.pageDead (setting.web.text url) s!"status {status}")
  else .error (.fetchFailed (setting.web.text url) s!"status {status}")

/-- A redirect target that is not an address. -/
def badLocation (url : Url) (location : String) : RunError :=
  .fetchFailed (setting.web.text url) location

/-- The loop of `fetch_page`; `fuel` is how many more requests the depth allows. -/
def fetchLoop : Nat → Url → Method → List (String × String) → Bool → Nat → List Url →
    Crawling Url (Url × FetchResponse)
  | 0, url, method, form, json, depth, way => do
    let _ ← issue setting url method form json depth way
    throw (.limitDepth setting.limits.maxDepth)
  | fuel + 1, url, method, form, json, depth, way => do
    let response ← issue setting url method form json depth way
    match redirectTarget response with
    | some location =>
      match setting.web.join url location with
      | none => throw (badLocation setting url location)
      -- A redirect off a form submission is a GET at the target.
      | some target => fetchLoop fuel target .get [] false (depth + 1) (url :: way)
    | none =>
      MonadExcept.ofExcept (acceptStatus setting url response.status)
      modify fun run => { run with
        depth
        vars := run.vars.set pageUrlVariable (.one (setting.web.text url))
        way := url :: way }
      return (url, response)

/-- Fetches a page and follows redirects. -/
def fetchPage (url : Url) (method : Method) (form : List (String × String)) (json : Bool) :
    Crawling Url (Url × FetchResponse) := do
  let run ← get
  fetchLoop setting (setting.limits.maxDepth - run.depth) url method form json (run.depth + 1)
    run.way

section

variable {setting} {url : Url} {method : Method} {form : List (String × String)} {json : Bool}
  {depth : Nat} {way : List Url} {α : Type}

/-- Nothing is asked deeper than the limit. -/
theorem issue_deep (h : setting.limits.maxDepth < depth) (rest : FetchResponse → Crawling Url α) :
    issue setting url method form json depth way >>= rest =
      (do checkTime setting; throw (.limitDepth setting.limits.maxDepth)) := by
  unfold issue
  rw [if_pos h, bind_assoc]
  rfl

/-- The depth ends `fetch_page`, not the fuel. -/
theorem fetchLoop_fuel {fuel : Nat} (h : setting.limits.maxDepth < fuel + depth) :
    fetchLoop setting (fuel + 1) url method form json depth way =
      fetchLoop setting fuel url method form json depth way := by
  induction fuel generalizing url method form json depth way with
  | zero =>
    have hdeep : setting.limits.maxDepth < depth := by simpa using h
    exact (issue_deep hdeep _).trans (issue_deep hdeep _).symm
  | succ fuel ih =>
    unfold fetchLoop
    congr 1
    funext response
    split
    · split
      · rfl
      · exact ih (by omega)
    · rfl

end

/-- Asks one address what it redirects to, without following. -/
def redirectTargetOf (step : Nat) (url : Url) : Crawling Url String := do
  let run ← get
  let response ← issue setting url .get [] false (run.depth + 1) run.way
  match redirectTarget response with
  | some location =>
    match setting.web.join url location with
    | none => throw (badLocation setting url location)
    | some target => pure (setting.web.text target)
  | none =>
    MonadExcept.ofExcept (acceptStatus setting url response.status)
    throw (.structure step "redirect" (.noRedirect (setting.web.text url) response.status))

end Run

end SiteRules

end RDownloader
