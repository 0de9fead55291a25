import RDownloader.Core.CookieFile

/-!
# Cookies imported for a scope (`rd-http/src/cookies.rs`)

A row is admitted by its domain, and then handed to the jar as a `Set-Cookie` text made of its other
fields. The jar reads that text again.
-/

namespace RDownloader

/-- Why a cookie's domain may not be stored for a scope. -/
inductive CookieDomainRefused
  | publicSuffix
  | outsideScope
  deriving DecidableEq, Repr

/-- Why an import failed. -/
inductive CookieImportError
  | refused (reason : CookieDomainRefused)
  | malformedRow
  | badAddress
  | malformedPair
  | badValue
  | noCookies
  deriving DecidableEq, Repr

/-! ## Jars -/

/-- A host as host names are written, in lower case. -/
structure PlainHost (host : Text) : Prop where
  nonempty : host ≠ []
  no_dot : host.head? ≠ some '.'
  letters : ∀ c ∈ host, c ≠ ';' ∧ isWhiteSpace c = false ∧ Text.asciiLowercase c = c

/-- How a jar reads the pieces of a `Set-Cookie` text. -/
structure Jar where
  /-- Whether the first piece is a pair to keep. -/
  keeps : Text → Bool
  /-- The domain another piece names. -/
  domain? : Text → Option Text
  /-- Whether a request's host lies in a domain. -/
  liesIn : Text → Text → Bool
  domain_path : ∀ path, domain? (" Path=".toList ++ path) = none
  domain_secure : domain? " Secure".toList = none
  domain_plain : ∀ host, PlainHost host → domain? (" Domain=".toList ++ host) = some host
  below_of_liesIn : ∀ host domain, liesIn host domain → host = domain ∨ '.' :: domain <:+ host

/-- The requests a stored cookie goes to. -/
inductive CookieReach
  | hostOnly (host : Text)
  | below (domain : Text)
  deriving DecidableEq, Repr

namespace Jar

variable (jar : Jar)

/-- What becomes of a cookie that a host sets; the last domain wins, and one that the host does not
lie in refuses the cookie. -/
def add (cookie host : Text) : Option CookieReach :=
  match cookie.splitOn ';' with
  | [] => none
  | pair :: attributes =>
    if jar.keeps pair then
      match (attributes.filterMap jar.domain?).getLast? with
      | none => some (.hostOnly host)
      | some domain => if jar.liesIn host domain then some (.below domain) else none
    else none

/-- Whether a cookie goes to a host. -/
def sends : CookieReach → Text → Prop
  | .hostOnly host, target => target = host
  | .below domain, target => jar.liesIn target domain

end Jar

/-- The domain that a `Domain` attribute names, without a leading dot. -/
def domainAttribute (piece : Text) : Option Text :=
  match Text.splitOnce '=' piece with
  | none => none
  | some (name, value) =>
    let value := Text.trimmed value
    if Text.eqIgnoreAsciiCase (Text.trimmed name) "domain".toList && value ≠ [] then
      some (Text.toAsciiLowercase (if value.head? = some '.' then value.tail else value))
    else none

theorem domainAttribute_plain {host : Text} (h : PlainHost host) :
    domainAttribute (" Domain=".toList ++ host) = some host := by
  have htight : Text.trimmed host = host := by
    apply Text.trimmed_of_tight
    exact ⟨fun c hc => (h.letters c (List.mem_of_head? hc)).2.1,
      fun c hc => (h.letters c (List.mem_of_getLast? hc)).2.1⟩
  have hlower : Text.toAsciiLowercase host = host := by
    rw [Text.toAsciiLowercase_eq_map]
    exact (List.map_congr_left fun c hc => (h.letters c hc).2.2).trans (List.map_id host)
  have hname : '=' ∉ " Domain".toList := by decide
  have hsplit : Text.splitOnce '=' (" Domain=".toList ++ host) = some (" Domain".toList, host) :=
    Text.splitOnce_append hname
  have hdomain : Text.eqIgnoreAsciiCase (Text.trimmed " Domain".toList) "domain".toList = true := by
    decide
  rw [domainAttribute, hsplit]
  dsimp only
  rw [htight, if_neg h.no_dot, hlower, hdomain, Bool.true_and]
  exact if_pos (decide_eq_true h.nonempty)

/-- The jar of RFC 6265, for requests to host names. -/
def standardJar : Jar where
  keeps pair := ((Text.splitOnce '=' pair).map fun (name, _) => Text.trimmed name ≠ []).getD false
  domain? := domainAttribute
  liesIn host domain := host = domain || ('.' :: domain).isSuffixOf host
  domain_path path := by
    have hname : '=' ∉ " Path".toList := by decide
    have hsplit : Text.splitOnce '=' (" Path=".toList ++ path) = some (" Path".toList, path) :=
      Text.splitOnce_append hname
    have hother : Text.eqIgnoreAsciiCase (Text.trimmed " Path".toList) "domain".toList = false := by
      decide
    rw [domainAttribute, hsplit]
    dsimp only
    rw [hother, Bool.false_and]
    rfl
  domain_secure := by decide
  domain_plain _ := domainAttribute_plain
  below_of_liesIn host domain h := by
    rw [Bool.or_eq_true, decide_eq_true_eq, List.isSuffixOf_iff_suffix] at h
    exact h

/-! ## Scopes -/

/-- A host as a scope keeps it. -/
def hostOf (host : Text) : Text := Text.toAsciiLowercase (CookieFile.trimEnd '.' host)

/-- The hosts an imported cookie may reach. -/
structure CookieScope where
  /-- The host of `url`. -/
  urlHost : Text
  host : Text
  includeSubdomains : Bool
  host_eq : host = hostOf urlHost
  host_ne : host ≠ []

namespace CookieScope

/-- A scope as a profile declares it. -/
def new (url : Option Text) (includeSubdomains : Bool) : Option CookieScope :=
  match url with
  | none => none
  | some urlHost =>
    if h : hostOf urlHost ≠ [] then
      some { urlHost, host := hostOf urlHost, includeSubdomains, host_eq := rfl, host_ne := h }
    else none

/-- A provider's scope: its base domain and every subdomain. -/
def provider (url : Option Text) : Option CookieScope := new url true

variable (suffixOf : Text → Option Text) (scope : CookieScope)

/-- Whether a domain is a public suffix, by the list. -/
def isPublicSuffix (domain : Text) : Bool := suffixOf domain = some domain

/-- Whether a cookie of a domain may be stored for this scope. -/
def admits (domain : Text) : Except CookieDomainRefused Unit :=
  let domain := Text.toAsciiLowercase (domain.dropWhile (· = '.'))
  if domain = scope.host then .ok ()
  else if domain = [] || !('.' :: domain).isSuffixOf scope.host then .error .outsideScope
  else if isPublicSuffix suffixOf domain then .error .publicSuffix
  else .ok ()

def reachesSubdomains : Bool :=
  scope.includeSubdomains && !isPublicSuffix suffixOf scope.host

/-- The `Set-Cookie` form of one admitted cookie. -/
def cookie (pair path : Text) (secure : Bool) : Text :=
  pair ++ "; Path=".toList ++ path ++
    (if scope.reachesSubdomains suffixOf then "; Domain=".toList ++ scope.host else []) ++
    (if secure then "; Secure".toList else [])

/-! ## Importing -/

variable (parseHost : Text → Option Text) (jar : Jar)

/-- The address a row's cookie is set from. -/
def address (secure : Bool) : Text :=
  (if secure then "https".toList else "http".toList) ++ "://".toList ++ scope.host ++ ['/']

/-- One row of a file; the answer is what the jar stores of it. -/
def importRow : List Text → Except CookieImportError (Option CookieReach)
  | [domain, _, path, secure, _, name, value] =>
    match scope.admits suffixOf domain with
    | .error reason => .error (.refused reason)
    | .ok () =>
      let secure := Text.eqIgnoreAsciiCase secure "true".toList
      match parseHost (scope.address secure) with
      | none => .error .badAddress
      | some host =>
        .ok (jar.add (scope.cookie suffixOf (name ++ '=' :: value) path secure) host)
  | _ => .error .malformedRow

/-- The rows of a file. -/
def rows (content : Text) : List (List Text) :=
  ((Text.lines content).filterMap CookieFile.rowText).map (·.splitOn '\t')

def importNetscape (content : Text) : Except CookieImportError (List (Option CookieReach)) := do
  let cookies ← (rows content).mapM (scope.importRow suffixOf parseHost jar)
  if cookies = [] then .error .noCookies else .ok cookies

/-- One pair of a header. -/
def importPair (pair : Text) : Except CookieImportError (Option CookieReach) :=
  match Text.splitOnce '=' pair with
  | none => .error .malformedPair
  | some (name, value) =>
    if name = [] || name.any isControl || value.any isControl then .error .badValue
    else .ok (jar.add (scope.cookie suffixOf (name ++ '=' :: value) ['/'] false) scope.urlHost)

/-- The pairs of a header. -/
def pairs (content : Text) : List Text :=
  let content := Text.trimmed content
  let cookie := "Cookie:".toList
  let content := if cookie.isPrefixOf content then content.drop cookie.length else content
  ((content.splitOn ';').map Text.trimmed).filter (· ≠ [])

def importHeader (content : Text) : Except CookieImportError (List (Option CookieReach)) := do
  let cookies ← (pairs content).mapM (scope.importPair suffixOf jar)
  if cookies = [] then .error .noCookies else .ok cookies

/-- Imports a file's rows or a header's pairs, one after the other. -/
def importInto (content : Text) : Except CookieImportError (List (Option CookieReach)) :=
  if CookieFile.isNetscape content then scope.importNetscape suffixOf parseHost jar content
  else scope.importHeader suffixOf jar content

end CookieScope

end RDownloader
