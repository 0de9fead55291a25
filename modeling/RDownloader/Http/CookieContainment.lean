import RDownloader.Core.CookieRoundTrip
import RDownloader.Http.CookieScope

/-!
# Where imported cookies go (`rd-http/src/cookies.rs`)

A semicolon in a row's path, name or value begins an attribute of its own in the text that the jar
reads. With one that names a domain the cookie leaves its scope, unless the scope writes a domain of
its own behind it.
-/

namespace RDownloader

variable (suffixOf : Text → Option Text) (parseHost : Text → Option Text) (jar : Jar)
  (scope : CookieScope)

/-! ## Conditions -/

namespace CookieScope

/-- The hosts of a scope: its own, with or without a trailing dot, and its subdomains where it reaches
them. -/
def Covers (target : Text) : Prop :=
  hostOf target = scope.host ∨
    (scope.reachesSubdomains suffixOf ∧ '.' :: scope.host <:+ target)

/-- A stored cookie goes to hosts of the scope alone. -/
def Stays (reach : CookieReach) : Prop :=
  ∀ target, jar.sends reach target → scope.Covers suffixOf target

/-- The domains that a field names behind its semicolons. -/
def domainsBehind (field : Text) : List Text := (field.splitOn ';').tail.filterMap jar.domain?

/-- The domains that a scope names itself. -/
def ownDomains : List Text :=
  if scope.reachesSubdomains suffixOf then
    ((" Domain=".toList ++ scope.host).splitOn ';').filterMap jar.domain?
  else []

/-- The last domain that a pair and a path name behind their semicolons, or else the scope itself, is
one whose hosts are all of the scope, or one that the jar refuses. -/
def FieldsStay (pair path host : Text) : Prop :=
  jar.keeps ((pair.splitOn ';').headD []) →
    match (domainsBehind jar pair ++ domainsBehind jar path ++
      scope.ownDomains suffixOf jar).getLast? with
    | none => scope.Covers suffixOf host
    | some domain => jar.liesIn host domain →
        ∀ target, jar.liesIn target domain → scope.Covers suffixOf target

/-- The fields of every row stay. -/
def RowsStay (content : Text) : Prop :=
  ∀ domain subdomains path secure expires name value,
    [domain, subdomains, path, secure, expires, name, value] ∈ rows content →
    ∀ host, parseHost (scope.address (Text.eqIgnoreAsciiCase secure "true".toList)) = some host →
      scope.FieldsStay suffixOf jar (name ++ '=' :: value) path host

/-! ## The text of a cookie -/

variable {suffixOf parseHost jar scope} {pair path host content : Text}

/-- A text without the separator goes in front of the first piece. -/
theorem splitOn_append_left {separator : Char} {front : Text} (h : separator ∉ front) (text : Text) :
    (front ++ text).splitOn separator = (text.splitOn separator).modifyHead (front ++ ·) := by
  induction front with
  | nil =>
    obtain ⟨first, more, hsplit⟩ := List.exists_cons_of_ne_nil (List.splitOn_ne_nil separator text)
    rw [List.nil_append, hsplit]
    rfl
  | cons c front ih =>
    rw [List.mem_cons, not_or] at h
    rw [List.cons_append, List.splitOn_cons_eq_if_modifyHead, if_neg (by simpa using Ne.symm h.1),
      ih h.2, List.modifyHead_modifyHead]
    rfl

theorem filterMap_splitOn_path (path : Text) :
    ((" Path=".toList ++ path).splitOn ';').filterMap jar.domain? = domainsBehind jar path := by
  obtain ⟨first, more, hsplit⟩ := List.exists_cons_of_ne_nil (List.splitOn_ne_nil ';' path)
  rw [splitOn_append_left (by decide), domainsBehind, hsplit, List.modifyHead_cons,
    List.filterMap_cons, jar.domain_path]
  rfl

theorem splitOn_cookie (pair path : Text) (secure : Bool) :
    (scope.cookie suffixOf pair path secure).splitOn ';' =
      pair.splitOn ';' ++ (" Path=".toList ++ path).splitOn ';' ++
        (if scope.reachesSubdomains suffixOf then (" Domain=".toList ++ scope.host).splitOn ';'
          else []) ++ (if secure then [" Secure".toList] else []) := by
  have hpath : pair ++ "; Path=".toList ++ path = pair ++ ';' :: (" Path=".toList ++ path) := by
    rw [List.append_assoc]
    rfl
  have hdomain : ∀ front : Text, (front ++ if scope.reachesSubdomains suffixOf then
      "; Domain=".toList ++ scope.host else []).splitOn ';' = front.splitOn ';' ++
        if scope.reachesSubdomains suffixOf then (" Domain=".toList ++ scope.host).splitOn ';'
        else [] := by
    intro front
    split
    · exact List.splitOn_append_cons_self front (" Domain=".toList ++ scope.host)
    · rw [List.append_nil, List.append_nil]
  have hsecure : ∀ front : Text, (front ++ if secure then "; Secure".toList else []).splitOn ';' =
      front.splitOn ';' ++ if secure then [" Secure".toList] else [] := by
    intro front
    split
    · exact List.splitOn_append_cons_self front " Secure".toList
    · rw [List.append_nil, List.append_nil]
  rw [cookie, hsecure, hdomain, hpath, List.splitOn_append_cons_self]

/-- The last domain of a cookie is that of its fields and of its scope. -/
theorem getLast_domains (pair path : Text) (secure : Bool) :
    (((scope.cookie suffixOf pair path secure).splitOn ';').tail.filterMap jar.domain?).getLast? =
      (domainsBehind jar pair ++ domainsBehind jar path ++
        scope.ownDomains suffixOf jar).getLast? := by
  obtain ⟨first, more, hsplit⟩ := List.exists_cons_of_ne_nil (List.splitOn_ne_nil ';' pair)
  have hown : (if scope.reachesSubdomains suffixOf then
      (" Domain=".toList ++ scope.host).splitOn ';' else []).filterMap jar.domain? =
      scope.ownDomains suffixOf jar := by
    rw [ownDomains]
    split
    · rfl
    · rfl
  have hsecure : (if secure then [" Secure".toList] else []).filterMap jar.domain? = [] := by
    cases secure with
    | false => rfl
    | true =>
      rw [if_pos rfl, List.filterMap_cons, jar.domain_secure]
      rfl
  rw [splitOn_cookie, domainsBehind, hsplit]
  simp only [List.cons_append, List.tail_cons, List.filterMap_append]
  rw [filterMap_splitOn_path, hown, hsecure, List.append_nil]

/-- What becomes of a cookie, by the fields it is made of. -/
theorem add_cookie (pair path host : Text) (secure : Bool) :
    jar.add (scope.cookie suffixOf pair path secure) host =
      if jar.keeps ((pair.splitOn ';').headD []) then
        match (domainsBehind jar pair ++ domainsBehind jar path ++
          scope.ownDomains suffixOf jar).getLast? with
        | none => some (.hostOnly host)
        | some domain => if jar.liesIn host domain then some (.below domain) else none
      else none := by
  obtain ⟨first, more, hsplit⟩ := List.exists_cons_of_ne_nil (List.splitOn_ne_nil ';' pair)
  obtain ⟨rest, hcookie⟩ : ∃ rest, (scope.cookie suffixOf pair path secure).splitOn ';' =
      first :: rest := by
    rw [splitOn_cookie, hsplit]
    exact ⟨_, rfl⟩
  rw [← getLast_domains pair path secure, Jar.add, hcookie, hsplit]
  rfl

theorem stays_iff (pair path host : Text) (secure : Bool) :
    (∀ reach, jar.add (scope.cookie suffixOf pair path secure) host = some reach →
      scope.Stays suffixOf jar reach) ↔ scope.FieldsStay suffixOf jar pair path host := by
  rw [add_cookie, FieldsStay]
  by_cases hkeeps : jar.keeps ((pair.splitOn ';').headD []) = true
  · rw [if_pos hkeeps]
    simp only [hkeeps, true_imp_iff]
    cases (domainsBehind jar pair ++ domainsBehind jar path ++
      scope.ownDomains suffixOf jar).getLast? with
    | none =>
      constructor
      · exact fun h => h _ rfl host rfl
      · rintro h _ ⟨⟩ target rfl
        exact h
    | some domain =>
      by_cases hlies : jar.liesIn host domain = true
      · constructor
        · intro h _ target htarget
          exact h _ (if_pos hlies) target htarget
        · intro h reach hreach target htarget
          dsimp only at hreach
          rw [if_pos hlies] at hreach
          obtain rfl := Option.some.inj hreach
          exact h hlies target htarget
      · constructor
        · exact fun _ hlies' => absurd hlies' hlies
        · intro _ reach hreach
          dsimp only at hreach
          rw [if_neg hlies] at hreach
          cases hreach
  · rw [if_neg hkeeps]
    exact ⟨fun _ h => absurd h hkeeps, fun _ _ h => (nomatch h)⟩

/-! ## Scopes that keep every cookie -/

theorem hostOf_hostOf (host : Text) : hostOf (hostOf host) = hostOf host := by
  have hlast : (hostOf host).getLast? ≠ some '.' := by
    rw [hostOf, Text.toAsciiLowercase_eq_map, List.getLast?_map, Ne, Option.map_eq_some_iff]
    simp only [Text.asciiLowercase_eq_iff (d := '.') (by decide), exists_eq_right]
    exact CookieFile.trimEnd_getLast '.' host
  rw [hostOf, CookieFile.trimEnd_of_getLast hlast, hostOf, Text.toAsciiLowercase_toAsciiLowercase]

theorem covers_urlHost : scope.Covers suffixOf scope.urlHost := .inl scope.host_eq.symm

theorem hostOf_host : hostOf scope.host = scope.host := by
  rw [scope.host_eq, hostOf_hostOf]

/-- A scope that writes its own domain, in plain letters, keeps every cookie. -/
theorem fieldsStay_of_plain (hreaches : scope.reachesSubdomains suffixOf) (hplain : PlainHost scope.host)
    (pair path host : Text) : scope.FieldsStay suffixOf jar pair path host := by
  intro _
  have hsemicolon : ';' ∉ scope.host := fun h => (hplain.letters _ h).1 rfl
  have hown : scope.ownDomains suffixOf jar = [scope.host] := by
    have hpiece : ';' ∉ " Domain=".toList ++ scope.host := by
      rw [List.mem_append, not_or]
      exact ⟨by decide, hsemicolon⟩
    rw [ownDomains, if_pos hreaches, List.splitOn_eq_singleton hpiece, List.filterMap_cons,
      jar.domain_plain _ hplain]
    rfl
  rw [hown, List.getLast?_concat]
  intro _ target htarget
  rcases jar.below_of_liesIn _ _ htarget with rfl | hbelow
  · exact .inl hostOf_host
  · exact .inr ⟨hreaches, hbelow⟩

/-- A header's pair has no semicolons, so what its scope does not write is not there. -/
theorem fieldsStay_of_header (hreaches : ¬ scope.reachesSubdomains suffixOf) (hpair : ';' ∉ pair) :
    scope.FieldsStay suffixOf jar pair ['/'] scope.urlHost := by
  intro _
  have hdomains : domainsBehind jar pair ++ domainsBehind jar ['/'] ++
      scope.ownDomains suffixOf jar = [] := by
    rw [domainsBehind, domainsBehind, ownDomains, if_neg hreaches,
      List.splitOn_eq_singleton hpair, List.splitOn_eq_singleton (by decide)]
    rfl
  rw [hdomains]
  exact covers_urlHost

/-! ## Whole imports -/

theorem mem_of_mapM {α β ε : Type} {f : α → Except ε β} {list : List α} {found : List β}
    (h : list.mapM f = .ok found) :
    (∀ a ∈ list, ∃ b ∈ found, f a = .ok b) ∧ ∀ b ∈ found, ∃ a ∈ list, f a = .ok b := by
  induction list generalizing found with
  | nil =>
    cases h
    exact ⟨fun a ha => absurd ha List.not_mem_nil, fun b hb => absurd hb List.not_mem_nil⟩
  | cons a list ih =>
    rw [List.mapM_cons] at h
    cases ha : f a with
    | error error =>
      rw [ha] at h
      cases h
    | ok b =>
      cases hlist : list.mapM f with
      | error error =>
        rw [ha, hlist] at h
        cases h
      | ok more =>
        rw [ha, hlist] at h
        cases h
        obtain ⟨hall, hback⟩ := ih hlist
        constructor
        · rintro x hx
          rcases List.mem_cons.mp hx with rfl | hx
          · exact ⟨b, List.mem_cons_self, ha⟩
          · obtain ⟨y, hy, heq⟩ := hall x hx
            exact ⟨y, List.mem_cons_of_mem _ hy, heq⟩
        · rintro y hy
          rcases List.mem_cons.mp hy with rfl | hy
          · exact ⟨a, List.mem_cons_self, ha⟩
          · obtain ⟨x, hx, heq⟩ := hback y hy
            exact ⟨x, List.mem_cons_of_mem _ hx, heq⟩

theorem importRow_eq_ok {fields : List Text} {found : Option CookieReach}
    (h : scope.importRow suffixOf parseHost jar fields = .ok found) :
    ∃ domain subdomains path secure expires name value host,
      fields = [domain, subdomains, path, secure, expires, name, value] ∧
      parseHost (scope.address (Text.eqIgnoreAsciiCase secure "true".toList)) = some host ∧
      found = jar.add (scope.cookie suffixOf (name ++ '=' :: value) path
        (Text.eqIgnoreAsciiCase secure "true".toList)) host := by
  unfold importRow at h
  split at h
  next domain subdomains path secure expires name value =>
    split at h
    next => cases h
    next =>
      dsimp only at h
      split at h
      next => cases h
      next host hhost =>
        exact ⟨domain, subdomains, path, secure, expires, name, value, host, rfl, hhost,
          (Except.ok.inj h).symm⟩
  next => cases h

theorem importPair_eq_ok {found : Option CookieReach}
    (h : scope.importPair suffixOf jar pair = .ok found) :
    found = jar.add (scope.cookie suffixOf pair ['/'] false) scope.urlHost := by
  unfold importPair at h
  split at h
  next => cases h
  next name value hsplit =>
    split at h
    next => cases h
    next =>
      rw [(Text.splitOnce_eq hsplit).1]
      exact (Except.ok.inj h).symm

theorem semicolon_not_mem_pairs (h : pair ∈ pairs content) : ';' ∉ pair := by
  obtain ⟨piece, hpiece, rfl⟩ := List.mem_map.mp (List.mem_filter.mp h).1
  exact fun hsemicolon => (Text.mem_of_mem_splitOn hpiece (Text.mem_of_mem_trimmed hsemicolon)).2 rfl

theorem netscape_ok {found : List (Option CookieReach)}
    (h : scope.importNetscape suffixOf parseHost jar content = .ok found) :
    (rows content).mapM (scope.importRow suffixOf parseHost jar) = .ok found := by
  rw [importNetscape] at h
  cases hrows : (rows content).mapM (scope.importRow suffixOf parseHost jar) with
  | error error =>
    rw [hrows] at h
    cases h
  | ok cookies =>
    rw [hrows] at h
    change (if cookies = [] then _ else _) = _ at h
    split at h
    · cases h
    · exact h

theorem header_ok {found : List (Option CookieReach)}
    (h : scope.importHeader suffixOf jar content = .ok found) :
    (pairs content).mapM (scope.importPair suffixOf jar) = .ok found := by
  rw [importHeader] at h
  cases hpairs : (pairs content).mapM (scope.importPair suffixOf jar) with
  | error error =>
    rw [hpairs] at h
    cases h
  | ok cookies =>
    rw [hpairs] at h
    change (if cookies = [] then _ else _) = _ at h
    split at h
    · cases h
    · exact h

theorem netscape_stays_iff {found : List (Option CookieReach)}
    (h : scope.importNetscape suffixOf parseHost jar content = .ok found) :
    (∀ reach, some reach ∈ found → scope.Stays suffixOf jar reach) ↔
      scope.RowsStay suffixOf parseHost jar content := by
  obtain ⟨hrows, hfound⟩ := mem_of_mapM (netscape_ok h)
  constructor
  · intro hstays domain subdomains path secure expires name value hrow host hhost
    obtain ⟨cookie, hcookie, himport⟩ := hrows _ hrow
    obtain ⟨_, _, _, _, _, _, _, host', hfields, hhost', rfl⟩ := importRow_eq_ok himport
    cases hfields
    obtain rfl := Option.some.inj (hhost.symm.trans hhost')
    rw [← stays_iff]
    exact fun reach hreach => hstays reach (hreach ▸ hcookie)
  · intro hkept reach hreach
    obtain ⟨row, hrow, himport⟩ := hfound _ hreach
    obtain ⟨domain, subdomains, path, secure, expires, name, value, host, rfl, hhost, hadd⟩ :=
      importRow_eq_ok himport
    exact (stays_iff _ _ _ _).mpr (hkept _ _ _ _ _ _ _ hrow host hhost) reach hadd.symm

theorem header_stays_iff {found : List (Option CookieReach)}
    (h : scope.importHeader suffixOf jar content = .ok found) :
    (∀ reach, some reach ∈ found → scope.Stays suffixOf jar reach) ↔
      ∀ pair ∈ pairs content, scope.FieldsStay suffixOf jar pair ['/'] scope.urlHost := by
  obtain ⟨hpairs, hfound⟩ := mem_of_mapM (header_ok h)
  constructor
  · intro hstays pair hpair
    obtain ⟨cookie, hcookie, himport⟩ := hpairs _ hpair
    obtain rfl := importPair_eq_ok himport
    rw [← stays_iff _ _ _ false]
    exact fun reach hreach => hstays reach (hreach ▸ hcookie)
  · intro hkept reach hreach
    obtain ⟨pair, hpair, himport⟩ := hfound _ hreach
    exact (stays_iff _ _ _ _).mpr (hkept pair hpair) reach (importPair_eq_ok himport).symm

variable (suffixOf parseHost jar scope content) in
/-- The condition under which an import stays in its scope: the scope writes its own plain domain, or
the content is a header, or what the fields name behind their semicolons stays. -/
def ContentStays : Prop :=
  if CookieFile.isNetscape content then
    (scope.reachesSubdomains suffixOf ∧ PlainHost scope.host) ∨
      scope.RowsStay suffixOf parseHost jar content
  else
    (scope.reachesSubdomains suffixOf → PlainHost scope.host) ∨
      ∀ pair ∈ pairs content, scope.FieldsStay suffixOf jar pair ['/'] scope.urlHost

/-- Every cookie that an import stores goes to the hosts of its scope alone, exactly when the content
stays. -/
theorem import_stays_iff {found : List (Option CookieReach)}
    (h : scope.importInto suffixOf parseHost jar content = .ok found) :
    (∀ reach, some reach ∈ found → scope.Stays suffixOf jar reach) ↔
      scope.ContentStays suffixOf parseHost jar content := by
  rw [importInto] at h
  rw [ContentStays]
  split at h
  next hnetscape =>
    rw [netscape_stays_iff h, if_pos hnetscape]
    refine ⟨.inr, fun hkept => hkept.elim (fun ⟨hreaches, hplain⟩ => ?_) id⟩
    intro _ _ _ _ _ _ _ _ _ _
    exact fieldsStay_of_plain hreaches hplain _ _ _
  next hheader =>
    rw [header_stays_iff h, if_neg hheader]
    refine ⟨.inr, fun hkept => hkept.elim (fun hplain pair hpair => ?_) id⟩
    by_cases hreaches : scope.reachesSubdomains suffixOf
    · exact fieldsStay_of_plain hreaches (hplain hreaches) _ _ _
    · exact fieldsStay_of_header hreaches (semicolon_not_mem_pairs hpair)

/-! ## A profile for one host -/

/-- `www.example.com` without its subdomains. -/
def wwwExample : CookieScope where
  urlHost := "www.example.com".toList
  host := "www.example.com".toList
  includeSubdomains := false
  host_eq := by decide
  host_ne := by decide

/-- The suffix list, for names below a top-level domain of its own. -/
def lastLabel (domain : Text) : Option Text :=
  some ((domain.reverse.takeWhile (· ≠ '.')).reverse)

/-- The host in a written address. -/
def hostOfAddress (address : Text) : Option Text :=
  some (((address.dropWhile (· ≠ '/')).drop 2).takeWhile (· ≠ '/'))

theorem import_stays_row :
    (∀ reach, some reach ∈ [some (CookieReach.hostOnly "www.example.com".toList)] →
      wwwExample.Stays lastLabel standardJar reach) ↔
    wwwExample.ContentStays lastLabel hostOfAddress standardJar
      ".example.com\tTRUE\t/\tTRUE\t0\tsession\tabc".toList :=
  import_stays_iff (by decide)

/-- A path that names a domain of its own takes the cookie out of its scope. -/
theorem path_names_domain :
    ∃ content found reach, wwwExample.importInto lastLabel hostOfAddress standardJar content = .ok found ∧
      some reach ∈ found ∧ ¬ wwwExample.Stays lastLabel standardJar reach := by
  refine ⟨"www.example.com\tFALSE\t/; Domain=example.com\tTRUE\t0\tsession\tabc".toList,
    [some (.below "example.com".toList)], .below "example.com".toList, by decide, by decide, ?_⟩
  intro hstays
  have hsent : standardJar.liesIn "dl.example.com".toList "example.com".toList = true := by decide
  rcases hstays "dl.example.com".toList hsent with hhost | ⟨hreaches, -⟩
  · exact absurd hhost (by decide)
  · exact absurd hreaches (by decide)

end CookieScope

end RDownloader
