import Mathlib.Data.List.Infix
import Mathlib.Data.List.Basic
import RDownloader.Collector.Crawljob

/-!
# Reading a crawljob back

A block is read as it was written, whatever its addresses are; an address is read as one link
exactly when it holds none of the reader's separators.
-/

namespace RDownloader

variable {Url : Type} {crate : UrlCrate Url} {json : SerdeJson}

/-! ## Cutting -/

/-- A text that the reader cuts: it holds a separator, or an escapeQuotes the reader takes for one. -/
def Separated (text : Text) : Prop :=
  (∃ c ∈ text, isSeparator c) ∨ ['\\', 'n'] <:+: text ∨ ['\\', 'r'] <:+: text

instance (text : Text) : Decidable (Separated text) :=
  decidable_of_iff (text.any isSeparator ∨ ['\\', 'n'] <:+: text ∨ ['\\', 'r'] <:+: text)
    (or_congr_left List.any_eq_true)

theorem replacePair_append_space (ha : a ≠ ' ') (hb : b ≠ ' ') (xs ys : Text) :
    replacePair a b (xs ++ ' ' :: ys) = replacePair a b xs ++ ' ' :: replacePair a b ys := by
  have hspace : replacePair a b (' ' :: ys) = ' ' :: replacePair a b ys := by
    cases ys with
    | nil => rfl
    | cons y ys => rw [replacePair, if_neg fun h => ha h.1.symm]
  fun_induction replacePair a b xs with
  | case1 c d rest h ih => simp only [List.cons_append, replacePair, if_pos h, ih]
  | case2 c d rest h ih =>
    rw [List.cons_append, List.cons_append, replacePair, if_neg h, ← List.cons_append, ih,
      List.cons_append]
  | case3 text hshort =>
    match text with
    | [] => exact hspace
    | [c] => simp only [List.cons_append, List.nil_append, replacePair,
        if_neg fun h : c = a ∧ ' ' = b => hb h.2.symm, hspace]
    | c :: d :: rest => exact (hshort c d rest rfl).elim

theorem replacePair_of_not_infix (h : ¬[a, b] <:+: text) : replacePair a b text = text := by
  fun_induction replacePair a b text with
  | case1 c d rest hpair ih =>
    obtain ⟨rfl, rfl⟩ := hpair
    exact (h ⟨[], rest, rfl⟩).elim
  | case2 c d rest hpair ih => rw [ih fun hpart => h (List.IsInfix.trans hpart (List.suffix_cons ..).isInfix)]
  | case3 => rfl

theorem splitAny_ne_nil (separates : Char → Bool) (text : Text) : splitAny separates text ≠ [] := by
  cases text with
  | nil => exact nofun
  | cons c text =>
    rw [splitAny]
    split
    · exact nofun
    · split <;> exact nofun

theorem splitAny_append (hs : separates s) (xs ys : Text) :
    splitAny separates (xs ++ s :: ys) = splitAny separates xs ++ splitAny separates ys := by
  induction xs with
  | nil => simp [splitAny, hs]
  | cons x xs ih =>
    rw [List.cons_append, splitAny, splitAny]
    split
    · rw [ih, List.cons_append]
    · rw [ih]
      cases hcut : splitAny separates xs with
      | nil => exact (splitAny_ne_nil _ _ hcut).elim
      | cons piece pieces => rfl

theorem splitAny_of_none (h : ∀ c ∈ text, separates c = false) : splitAny separates text = [text] := by
  induction text with
  | nil => rfl
  | cons c text ih =>
    rw [splitAny, if_neg (by simp [h c]), ih fun c hc => h c (List.mem_cons_of_mem _ hc)]

theorem linkPieces_append_space (xs ys : Text) :
    linkPieces (xs ++ ' ' :: ys) = linkPieces xs ++ linkPieces ys := by
  rw [linkPieces, replacePair_append_space (by decide) (by decide),
    replacePair_append_space (by decide) (by decide), splitAny_append rfl, linkPieces, linkPieces]

theorem linkPieces_of_whole (h : ¬Separated text) : linkPieces text = [text] := by
  rw [Separated, not_or, not_or] at h
  obtain ⟨hchars, hbreak, hreturn⟩ := h
  rw [linkPieces, replacePair_of_not_infix hbreak, replacePair_of_not_infix hreturn]
  exact splitAny_of_none fun c hc => Bool.eq_false_iff.mpr fun hsep => hchars ⟨c, hc, hsep⟩

/-- The links of a line of addresses are the links of each. -/
theorem linksIn_join (texts : List Text) :
    linksIn crate (Text.join [' '] texts) = texts.flatMap (linksIn crate) := by
  induction texts with
  | nil => rfl
  | cons text texts ih =>
    cases texts with
    | nil => simp [Text.join]
    | cons next texts =>
      rw [List.flatMap_cons, ← ih, Text.join, List.append_assoc, List.singleton_append]
      simp only [linksIn, linkPieces_append_space, List.map_append, List.filter_append,
        List.filterMap_append]

/-! ## What is relied on outside -/

/-- A serialised http(s) address is printable, begins with its scheme and parses to itself, and a
piece of it that a separator cuts off is another address or none. -/
structure UrlCrate.Lawful (crate : UrlCrate Url) : Prop where
  parse_asStr : ∀ url, crate.isWeb url → crate.parse (crate.asStr url) = some url
  startsWeb : ∀ url, crate.isWeb url → startsWeb (crate.asStr url)
  printable : ∀ url, crate.isWeb url → ∀ c ∈ crate.asStr url, '!' ≤ c ∧ c ≤ '~'
  parse_piece : ∀ url, crate.isWeb url → Separated (crate.asStr url) →
    ∀ piece ∈ linkPieces (crate.asStr url), ∀ other, crate.parse piece.trimmed = some other →
      crate.asStr other ≠ crate.asStr url

/-- A list of one string is read back, and stands in brackets on one line. -/
structure SerdeJson.Lawful (json : SerdeJson) : Prop where
  fromStr_toString : ∀ text, json.fromStr (json.toString [text]) = some [text]
  head : ∀ text, (json.toString [text]).head? = some '['
  last : ∀ text, (json.toString [text]).getLast? = some ']'
  unbroken : ∀ text, (∀ c ∈ text, isControl c = false) →
    '\n' ∉ json.toString [text] ∧ '\r' ∉ json.toString [text]

/-- The addresses the reader makes of one address. -/
def readBack (crate : UrlCrate Url) (address : Text) : List Text :=
  (linksIn crate address).map crate.asStr

theorem not_whiteSpace_of_printable (h : '!' ≤ c ∧ c ≤ '~') : isWhiteSpace c = false := by
  have hlow : 33 ≤ c.toNat := h.1
  have hhigh : c.toNat ≤ 126 := h.2
  simp [isWhiteSpace]
  omega

namespace UrlCrate.Lawful

variable {url : Url}

theorem tight (hcrate : crate.Lawful) (hweb : crate.isWeb url) : (crate.asStr url).Tight :=
  Text.tight_of_forall fun c hc => not_whiteSpace_of_printable (hcrate.printable url hweb c hc)

/-- An address without separators is read as itself. -/
theorem readBack_of_whole (hcrate : crate.Lawful) (hweb : crate.isWeb url)
    (hwhole : ¬Separated (crate.asStr url)) :
    readBack crate (crate.asStr url) = [crate.asStr url] := by
  rw [readBack, linksIn, linkPieces_of_whole hwhole, List.map_singleton,
    Text.trimmed_of_tight (hcrate.tight hweb)]
  simp [hcrate.startsWeb url hweb, hcrate.parse_asStr url hweb]

theorem not_mem_readBack (hcrate : crate.Lawful) (hweb : crate.isWeb url)
    (hcut : Separated (crate.asStr url)) : crate.asStr url ∉ readBack crate (crate.asStr url) := by
  intro hmem
  obtain ⟨other, hother, heq⟩ := List.mem_map.mp hmem
  obtain ⟨token, htoken, hparse⟩ := List.mem_filterMap.mp hother
  obtain ⟨piece, hpiece, rfl⟩ := List.mem_map.mp (List.mem_filter.mp htoken).1
  exact hcrate.parse_piece url hweb hcut piece hpiece other hparse heq

end UrlCrate.Lawful

/-! ## Lines of a block -/

/-- A value on one line is tight, not empty and free of control characters. -/
theorem oneLine_eq_some {value : Option Text} (h : oneLine value = some text) :
    text.Tight ∧ text ≠ [] ∧ ∀ c ∈ text, isControl c = false := by
  obtain ⟨hmap, hne⟩ := Option.filter_eq_some_iff.mp h
  obtain ⟨value, -, rfl⟩ := Option.map_eq_some_iff.mp hmap
  refine ⟨Text.tight_trimmed _, of_decide_eq_true hne, fun c hc => ?_⟩
  obtain ⟨d, -, rfl⟩ := List.mem_map.mp (Text.mem_of_mem_trimmed hc)
  split
  · rfl
  · next hcontrol => exact Bool.eq_false_iff.mpr hcontrol

/-! ## Blocks -/

variable {package : LinksPackage Url}

/-- The block the reader makes of a written one. -/
def blockOf (crate : UrlCrate Url) (package : LinksPackage Url) : Crawljob.Block Url where
  urls := (webUrls crate package).flatMap (linksIn crate)
  name := oneLine package.name
  password := oneLine package.password

/-- A text on one line. -/
def Unbroken (text : Text) : Prop := '\n' ∉ text ∧ '\r' ∉ text

instance (text : Text) : Decidable (Unbroken text) := by
  unfold Unbroken
  infer_instance

/-- The keys the writer uses. -/
structure IsKey (key : Text) : Prop where
  ne_nil : key ≠ []
  head : ∀ c ∈ key.head?, isWhiteSpace c = false ∧ c ≠ '#' ∧ c ≠ '/'
  no_equals : '=' ∉ key
  unbroken : Unbroken key

/-- A `key=value` line is read as such. -/
theorem readLines_line {key value rest : Text} {block : Crawljob.Block Url} (hkey : IsKey key)
    (hvalue : value.Tight) (hne : value ≠ []) (hunbroken : Unbroken value) :
    readLines crate json block (Text.lines (key ++ '=' :: value ++ '\n' :: rest)) =
      readLines crate json (block.read crate json (key ++ '=' :: value)) (Text.lines rest) := by
  have hbreak : '\n' ∉ key ++ '=' :: value := by
    simp [hkey.unbroken.1, hunbroken.1]
  have hreturn : '\r' ∉ key ++ '=' :: value := by
    simp [hkey.unbroken.2, hunbroken.2]
  have htight : Text.Tight (key ++ '=' :: value) := by
    rw [List.append_cons]
    refine Text.Tight.append (fun c hc => ?_) (by simp) hvalue hne
    obtain ⟨d, tail, rfl⟩ := List.exists_cons_of_ne_nil hkey.ne_nil
    exact (hkey.head c hc).1
  rw [Text.lines_append hbreak hreturn, readLines, Text.trimmed_of_tight htight]
  obtain ⟨d, tail, rfl⟩ := List.exists_cons_of_ne_nil hkey.ne_nil
  obtain ⟨-, hhash, hslash⟩ := hkey.head d rfl
  rw [if_neg (by simp), if_neg]
  simp [hhash, Ne.symm hslash]

theorem read_line {key value : Text} {block : Crawljob.Block Url} (hequals : '=' ∉ key)
    (hvalue : value.Tight) :
    block.read crate json (key ++ '=' :: value) =
      let key := lowercaseKey key.trimmed
      if key = "text".toList then { block with urls := block.urls ++ linksIn crate value }
      else if key = "packagename".toList ∧ value ≠ [] then { block with name := some value }
      else if key = "filename".toList ∧ value ≠ [] then { block with fileName := some value }
      else if key = "extractpasswords".toList then
        { block with password := firstPassword json value }
      else block := by
  rw [Crawljob.Block.read, Text.splitOnce_append hequals]
  dsimp only
  rw [Text.trimmed_of_tight hvalue]

/-- The four keys. -/
theorem isKey_of_mem : ∀ key ∈ ["text", "packageName", "extractPasswords", "autoStart"],
    IsKey (String.toList key) := by
  simp only [List.forall_mem_cons, List.not_mem_nil, false_implies, implies_true, and_true]
  refine ⟨?_, ?_, ?_, ?_⟩
  all_goals
    exact ⟨by decide +kernel, by rintro _ ⟨⟩; decide, by decide +kernel, by decide +kernel⟩

theorem unbroken_of_not_control (h : ∀ c ∈ text, isControl c = false) : Unbroken text :=
  ⟨fun hmem => absurd (h _ hmem) (by decide), fun hmem => absurd (h _ hmem) (by decide)⟩

theorem readLines_text {value rest : Text} {block : Crawljob.Block Url} (htight : value.Tight)
    (hne : value ≠ []) (hunbroken : Unbroken value) :
    readLines crate json block (Text.lines ("text=".toList ++ value ++ '\n' :: rest)) =
      readLines crate json { block with urls := block.urls ++ linksIn crate value }
        (Text.lines rest) := by
  have hkey : lowercaseKey (Text.trimmed "text".toList) = "text".toList := by decide +kernel
  have hshape : "text=".toList ++ value ++ '\n' :: rest =
      "text".toList ++ '=' :: value ++ '\n' :: rest := by simp
  have his := isKey_of_mem "text" (by simp)
  rw [hshape, readLines_line his htight hne hunbroken, read_line his.no_equals htight, hkey,
    if_pos rfl]

theorem readLines_name {rest : Text} {block : Crawljob.Block Url} (hname : block.name = none) :
    readLines crate json block (Text.lines (nameLine package ++ rest)) =
      readLines crate json { block with name := oneLine package.name } (Text.lines rest) := by
  rw [nameLine]
  cases hline : oneLine package.name with
  | none =>
    cases block
    cases hname
    rfl
  | some name =>
    obtain ⟨htight, hne, hcontrol⟩ := oneLine_eq_some hline
    have hkey : lowercaseKey (Text.trimmed "packageName".toList) = "packagename".toList := by
      decide +kernel
    have hshape : "packageName=".toList ++ name ++ ['\n'] ++ rest =
        "packageName".toList ++ '=' :: name ++ '\n' :: rest := by simp
    have his := isKey_of_mem "packageName" (by simp)
    dsimp only
    rw [hshape, readLines_line his htight hne (unbroken_of_not_control hcontrol),
      read_line his.no_equals htight, hkey, if_neg (by decide +kernel), if_pos ⟨rfl, hne⟩]

/-- The first password of a list of one is that one. -/
theorem firstPassword_eq (hjson : json.Lawful) (htight : Text.Tight password)
    (hne : password ≠ []) : firstPassword json (json.toString [password]) = some password := by
  rw [firstPassword, hjson.fromStr_toString]
  simp [Text.trimmed_of_tight htight, hne]

theorem readLines_password {rest : Text} {block : Crawljob.Block Url} (hjson : json.Lawful)
    (hpassword : block.password = none) :
    readLines crate json block (Text.lines (passwordLine json package ++ rest)) =
      readLines crate json { block with password := oneLine package.password }
        (Text.lines rest) := by
  rw [passwordLine]
  cases hline : oneLine package.password with
  | none =>
    cases block
    cases hpassword
    rfl
  | some password =>
    obtain ⟨htight, hne, hcontrol⟩ := oneLine_eq_some hline
    have hkey : lowercaseKey (Text.trimmed "extractPasswords".toList) =
        "extractpasswords".toList := by decide +kernel
    have hshape : "extractPasswords=".toList ++ json.toString [password] ++ ['\n'] ++ rest =
        "extractPasswords".toList ++ '=' :: json.toString [password] ++ '\n' :: rest := by simp
    have his := isKey_of_mem "extractPasswords" (by simp)
    have hvalue : Text.Tight (json.toString [password]) := by
      constructor
      · rw [hjson.head]
        rintro _ ⟨⟩
        rfl
      · rw [hjson.last]
        rintro _ ⟨⟩
        rfl
    have hlist : json.toString [password] ≠ [] := fun hnil => by
      have := hjson.head password
      rw [hnil] at this
      cases this
    dsimp only
    rw [hshape, readLines_line his hvalue hlist (hjson.unbroken _ hcontrol), read_line his.no_equals hvalue,
      hkey, if_neg (by decide +kernel), if_neg fun h => absurd h.1 (by decide +kernel),
      if_neg fun h => absurd h.1 (by decide +kernel), if_pos rfl,
      firstPassword_eq hjson htight hne]

theorem readLines_autoStart (block : Crawljob.Block Url) (rest : Text) :
    readLines crate json block (Text.lines ("autoStart=FALSE\n".toList ++ rest)) =
      readLines crate json block (Text.lines rest) := by
  have hkey : lowercaseKey (Text.trimmed "autoStart".toList) = "autostart".toList := by
    decide +kernel
  have hshape : "autoStart=FALSE\n".toList ++ rest =
      "autoStart".toList ++ '=' :: "FALSE".toList ++ '\n' :: rest := by simp
  have his := isKey_of_mem "autoStart" (by simp)
  have hvalue : Text.Tight "FALSE".toList := ⟨by rintro _ ⟨⟩; rfl, by rintro _ ⟨⟩; rfl⟩
  rw [hshape, readLines_line his hvalue (by decide +kernel) (by decide +kernel),
    read_line his.no_equals hvalue, hkey, if_neg (by decide +kernel), if_neg (by decide +kernel),
    if_neg (by decide +kernel), if_neg (by decide +kernel)]

theorem mem_webUrls (h : address ∈ webUrls crate package) :
    ∃ url, crate.isWeb url ∧ crate.asStr url = address := by
  obtain ⟨link, hlink, rfl⟩ := List.mem_map.mp h
  exact ⟨link.url, (List.mem_filter.mp hlink).2, rfl⟩

theorem UrlCrate.Lawful.asStr_ne_nil {url : Url} (hcrate : crate.Lawful) (hweb : crate.isWeb url) :
    crate.asStr url ≠ [] := fun hnil => by
  have := hcrate.startsWeb url hweb
  rw [hnil] at this
  cases this

/-- The addresses of a package make one line. -/
theorem UrlCrate.Lawful.line (hcrate : crate.Lawful) (hkept : webUrls crate package ≠ []) :
    (Text.join [' '] (webUrls crate package)).Tight ∧
      Text.join [' '] (webUrls crate package) ≠ [] ∧
      Unbroken (Text.join [' '] (webUrls crate package)) := by
  have hchars {c} (hc : c ∈ Text.join [' '] (webUrls crate package)) (hne : c ≠ ' ') :
      '!' ≤ c ∧ c ≤ '~' := by
    rcases Text.mem_join hc with hspace | ⟨address, hmem, hc⟩
    · exact (hne (List.mem_singleton.mp hspace)).elim
    · obtain ⟨url, hweb, rfl⟩ := mem_webUrls hmem
      exact hcrate.printable url hweb c hc
  refine ⟨Text.tight_join fun address hmem => ?_, Text.join_ne_nil hkept fun address hmem => ?_,
    fun hmem => absurd (hchars hmem (by decide)) (by decide),
    fun hmem => absurd (hchars hmem (by decide)) (by decide)⟩
  · obtain ⟨url, hweb, rfl⟩ := mem_webUrls hmem
    exact ⟨hcrate.tight hweb, hcrate.asStr_ne_nil hweb⟩
  · obtain ⟨url, hweb, rfl⟩ := mem_webUrls hmem
    exact hcrate.asStr_ne_nil hweb

/-- A written block is read as one. -/
theorem readLines_writeBlock (hcrate : crate.Lawful) (hjson : json.Lawful)
    (hkept : webUrls crate package ≠ []) (rest : Text) :
    readLines crate json {} (Text.lines (writeBlock crate json package ++ rest)) =
      readLines crate json (blockOf crate package) (Text.lines rest) := by
  obtain ⟨htight, hne, hunbroken⟩ := hcrate.line hkept
  have hshape : writeBlock crate json package ++ rest =
      "text=".toList ++ Text.join [' '] (webUrls crate package) ++ '\n' ::
        (nameLine package ++ (passwordLine json package ++ ("autoStart=FALSE\n".toList ++ rest))) := by
    delta writeBlock
    generalize "text=".toList = first, "autoStart=FALSE\n".toList = last
    simp only [List.append_assoc, List.cons_append, List.nil_append]
  rw [hshape, readLines_text htight hne hunbroken, readLines_name rfl, readLines_password hjson rfl,
    readLines_autoStart _ rest, linksIn_join]
  rfl

/-- The blocks of a file are read one after the other. -/
theorem readLines_blocks (hcrate : crate.Lawful) (hjson : json.Lawful)
    {packages : List (LinksPackage Url)} (hkept : ∀ package ∈ packages, webUrls crate package ≠ []) :
    readLines crate json {} (Text.lines (Text.join ['\n']
        (packages.map (writeBlock crate json)))) =
      packages.flatMap fun package => (blockOf crate package).finish := by
  match packages with
  | [] => rfl
  | [package] =>
    have := readLines_writeBlock hcrate hjson (hkept package (List.mem_singleton_self _)) []
    rw [List.append_nil] at this
    rw [List.flatMap_singleton]
    exact this
  | package :: next :: packages =>
    obtain ⟨hfirst, hrest⟩ := List.forall_mem_cons.mp hkept
    have ih := readLines_blocks hcrate hjson hrest
    rw [List.map_cons, List.map_cons, Text.join, List.append_assoc,
      readLines_writeBlock hcrate hjson hfirst, ← List.map_cons, List.singleton_append,
      ← List.nil_append ('\n' :: _), Text.lines_append (by simp) (by simp), readLines,
      if_pos (by decide), ih]
    rfl

/-! ## Whole files -/

/-- What is compared of a package: its name, its password and its addresses. -/
def packageSummary (crate : UrlCrate Url) (package : DlcPackage Url) :
    Option Text × Option Text × List Text :=
  (package.name, package.password, package.files.map (crate.asStr ·.url))

/-- The same of a package that was written. -/
def writtenSummary (crate : UrlCrate Url) (package : LinksPackage Url) :
    Option Text × Option Text × List Text :=
  (oneLine package.name, oneLine package.password, webUrls crate package)

/-- A crawljob read back holds the packages it was written from, and what was skipped is what is
missing. -/
def ReadsBack (crate : UrlCrate Url) (json : SerdeJson) (document : LinksDocument Url) : Prop :=
  ∃ packages, readCrawljob crate json (writeCrawljob crate json document).text = .ok packages ∧
    packages.map (packageSummary crate) = (document.kept crate).map (writtenSummary crate) ∧
    (writeCrawljob crate json document).skipped + (packages.map (·.files.length)).sum =
      (document.packages.map (·.links.length)).sum

/-- No address that a crawljob carries holds a separator of the reader. -/
def AddressesWhole (crate : UrlCrate Url) (document : LinksDocument Url) : Prop :=
  ∀ package ∈ document.packages, ∀ link ∈ package.links, crate.isWeb link.url →
    ¬Separated (crate.asStr link.url)

/-- The bytes of a block. -/
def crawljobBlockBytes (crate : UrlCrate Url) (json : SerdeJson) (package : LinksPackage Url) : Nat :=
  5 + ((webUrls crate package).map (Text.byteLength · + 1)).sum +
    ((oneLine package.name).elim 0 (13 + Text.byteLength ·)) +
    ((oneLine package.password).elim 0 fun password =>
      18 + Text.byteLength (json.toString [password])) + 16

/-- The bytes of a document's crawljob: its blocks, and a line break between two of them. -/
def crawljobBytes (crate : UrlCrate Url) (json : SerdeJson) (document : LinksDocument Url) : Nat :=
  ((document.kept crate).map (crawljobBlockBytes crate json · + 1)).sum - 1

theorem webUrls_ne_nil_of_kept {document : LinksDocument Url} (h : package ∈ document.kept crate) :
    webUrls crate package ≠ [] := by
  have := (List.mem_filter.mp h).2
  rwa [Bool.not_eq_true', List.isEmpty_eq_false_iff] at this

theorem byteLength_writeBlock (hkept : webUrls crate package ≠ []) :
    Text.byteLength (writeBlock crate json package) = crawljobBlockBytes crate json package := by
  have hname : Text.byteLength (nameLine package) =
      (oneLine package.name).elim 0 (13 + Text.byteLength ·) := by
    rw [nameLine]
    cases oneLine package.name with
    | none => rfl
    | some name =>
      simp only [Text.byteLength_append, Option.elim_some]
      have : Text.byteLength "packageName=".toList = 12 := by decide +kernel
      have : Text.byteLength ['\n'] = 1 := rfl
      omega
  have hpassword : Text.byteLength (passwordLine json package) =
      (oneLine package.password).elim 0 fun password =>
        18 + Text.byteLength (json.toString [password]) := by
    rw [passwordLine]
    cases oneLine package.password with
    | none => rfl
    | some password =>
      simp only [Text.byteLength_append, Option.elim_some]
      have : Text.byteLength "extractPasswords=".toList = 17 := by decide +kernel
      have : Text.byteLength ['\n'] = 1 := rfl
      omega
  have htext : Text.byteLength "text=".toList = 5 := by decide +kernel
  have hstart : Text.byteLength "autoStart=FALSE\n".toList = 16 := by decide +kernel
  have hbreak : Text.byteLength ['\n'] = 1 := rfl
  have hspace : Text.byteLength [' '] = 1 := rfl
  obtain ⟨address, addresses, hurls⟩ := List.exists_cons_of_ne_nil hkept
  delta writeBlock
  generalize "text=".toList = first at *
  generalize "autoStart=FALSE\n".toList = last at *
  simp only [crawljobBlockBytes, Text.byteLength_append, Text.byteLength_join, hname, hpassword,
    htext, hstart, hbreak, hspace, hurls, List.map_cons, List.sum_cons]
  omega

theorem byteLength_text (document : LinksDocument Url) :
    Text.byteLength (writeCrawljob crate json document).text = crawljobBytes crate json document := by
  rw [writeCrawljob, Text.byteLength_join, List.map_map, crawljobBytes]
  congr 2
  apply List.map_congr_left
  intro package hpackage
  rw [Function.comp_apply, byteLength_writeBlock (webUrls_ne_nil_of_kept hpackage)]
  rfl

/-- Where every element is mapped to itself or to elements that are not it, a list is its own
image only if every element is mapped to itself. -/
theorem whole_of_flatMap_eq {f : α → List α} (whole : α → Prop) (xs : List α) {ys : List α}
    (hwhole : ∀ y ∈ ys, whole y → f y = [y]) (hcut : ∀ y ∈ ys, ¬whole y → y ∉ f y)
    (hxs : ∀ x ∈ xs, ¬whole x) (h : ys.flatMap f = xs ++ ys) : xs = [] ∧ ∀ y ∈ ys, whole y := by
  induction ys generalizing xs with
  | nil => exact ⟨(List.append_nil xs).symm.trans h.symm, nofun⟩
  | cons y ys ih =>
    obtain ⟨hwholeY, hwhole⟩ := List.forall_mem_cons.mp hwhole
    obtain ⟨hcutY, hcut⟩ := List.forall_mem_cons.mp hcut
    rw [List.flatMap_cons] at h
    by_cases hy : whole y
    · rw [hwholeY hy] at h
      cases xs with
      | nil =>
        obtain ⟨-, hall⟩ := ih [] hwhole hcut (List.forall_mem_nil _) (List.cons.inj h).2
        exact ⟨rfl, List.forall_mem_cons.mpr ⟨hy, hall⟩⟩
      | cons x xs =>
        obtain rfl := (List.cons.inj h).1
        exact (hxs y (List.mem_cons_self ..) hy).elim
    · -- What `y` is mapped to ends before `y`, so `y` is owed by the rest.
      have howed (owed : List α) (howed : ∀ x ∈ owed, ¬whole x)
          (heq : ys.flatMap f = owed ++ y :: ys) : False := by
        rw [List.append_cons] at heq
        have hall : ∀ x ∈ owed ++ [y], ¬whole x := by
          intro x hx
          rcases List.mem_append.mp hx with hx | hx
          · exact howed x hx
          · rwa [List.mem_singleton.mp hx]
        have := (ih (owed ++ [y]) hwhole hcut hall heq).1
        simp at this
      rcases List.append_eq_append_iff.mp h with ⟨owed, rfl, heq⟩ | ⟨beyond, hf, heq⟩
      · exact (howed owed (fun x hx => hxs x (List.mem_append_right _ hx)) heq).elim
      · cases beyond with
        | nil => exact (howed [] (List.forall_mem_nil _) heq.symm).elim
        | cons z beyond =>
          obtain rfl := (List.cons.inj heq).1
          exact (hcutY hy (by simp [hf])).elim

/-- A file begins with a key, not with a byte order mark. -/
theorem stripMark_text (document : LinksDocument Url) :
    stripMark (writeCrawljob crate json document).text =
      (writeCrawljob crate json document).text := by
  dsimp only [writeCrawljob]
  match document.kept crate with
  | [] => rfl
  | [package] => rfl
  | package :: next :: packages => rfl

/-- The file is read as the blocks of its packages, unless it is too long. -/
theorem readCrawljob_eq (hcrate : crate.Lawful) (hjson : json.Lawful)
    (document : LinksDocument Url) :
    readCrawljob crate json (writeCrawljob crate json document).text =
      if crawljobBytes crate json document > maxCrawljobBytes then
        .error "the crawljob exceeds the 4 MiB limit"
      else .ok ((document.kept crate).flatMap fun package => (blockOf crate package).finish) := by
  rw [readCrawljob, byteLength_text, stripMark_text,
    ← readLines_blocks hcrate hjson fun package => webUrls_ne_nil_of_kept]
  rfl

theorem summary_finish (package : LinksPackage Url) :
    (blockOf crate package).finish.map (packageSummary crate) =
      if (blockOf crate package).urls = [] then []
      else [(oneLine package.name, oneLine package.password,
        (webUrls crate package).flatMap (readBack crate))] := by
  rw [Crawljob.Block.finish]
  cases hurls : (blockOf crate package).urls with
  | nil => rfl
  | cons url urls =>
    have haddresses : (webUrls crate package).flatMap (readBack crate) =
        (url :: urls).map crate.asStr := by
      rw [← hurls, blockOf, List.map_flatMap]
      rfl
    rw [if_neg (by simp), if_neg (List.cons_ne_nil _ _), List.map_singleton, haddresses]
    simp only [packageSummary, List.map_map]
    rfl

theorem length_flatMap_finish (packages : List (LinksPackage Url)) :
    (packages.flatMap fun package => (blockOf crate package).finish).length ≤ packages.length := by
  induction packages with
  | nil => exact Nat.le_refl _
  | cons package packages ih =>
    have hone : (blockOf crate package).finish.length ≤ 1 := by
      rw [Crawljob.Block.finish]
      split
      · exact Nat.zero_le _
      · exact Nat.le_refl _
    rw [List.flatMap_cons, List.length_append, List.length_cons]
    omega

/-- A package whose addresses are whole is read back as it was written. -/
theorem summary_finish_of_whole (hcrate : crate.Lawful) (hkept : webUrls crate package ≠ [])
    (hwhole : ∀ address ∈ webUrls crate package, ¬Separated address) :
    (blockOf crate package).finish.map (packageSummary crate) = [writtenSummary crate package] := by
  have hread : (webUrls crate package).flatMap (readBack crate) = webUrls crate package := by
    have hsame : ∀ address ∈ webUrls crate package, readBack crate address = [address] := by
      intro address hmem
      obtain ⟨url, hweb, rfl⟩ := mem_webUrls hmem
      exact hcrate.readBack_of_whole hweb (hwhole _ hmem)
    rw [List.flatMap_congr hsame, List.flatMap_singleton']
  rw [summary_finish, if_neg, hread]
  · rfl
  · intro hnone
    apply hkept
    rw [← hread, ← List.map_nil (f := crate.asStr), ← hnone, blockOf, List.map_flatMap]
    rfl

/-- Packages read back as they were written had whole addresses. -/
theorem whole_of_summary (hcrate : crate.Lawful) {packages : List (LinksPackage Url)}
    (h : (packages.flatMap fun package => (blockOf crate package).finish).map (packageSummary crate) =
      packages.map (writtenSummary crate)) :
    ∀ package ∈ packages, ∀ address ∈ webUrls crate package, ¬Separated address := by
  induction packages with
  | nil => exact nofun
  | cons package packages ih =>
    rw [List.flatMap_cons, List.map_append, summary_finish, List.map_cons] at h
    split at h
    · -- A block without links leaves too few packages.
      have hlength := congrArg List.length h
      have hle : ((packages.flatMap fun package => (blockOf crate package).finish).map
          (packageSummary crate)).length ≤ packages.length := by
        rw [List.length_map]
        exact length_flatMap_finish packages
      simp only [List.nil_append, List.length_cons, List.length_map] at hlength hle
      omega
    · obtain ⟨hfirst, hrest⟩ := List.cons.inj h
      refine List.forall_mem_cons.mpr ⟨?_, ih hrest⟩
      have hread : (webUrls crate package).flatMap (readBack crate) = webUrls crate package :=
        congrArg (·.2.2) hfirst
      refine (whole_of_flatMap_eq (fun address => ¬Separated address) [] ?_ ?_
        (List.forall_mem_nil _) hread).2
      · intro address hmem hwhole
        obtain ⟨url, hweb, rfl⟩ := mem_webUrls hmem
        exact hcrate.readBack_of_whole hweb hwhole
      · intro address hmem hcut
        obtain ⟨url, hweb, rfl⟩ := mem_webUrls hmem
        exact hcrate.not_mem_readBack hweb (Classical.not_not.mp hcut)

/-- The links that are skipped, and the links of the packages that are kept, are all links. -/
theorem skipped_add (crate : UrlCrate Url) (json : SerdeJson) (document : LinksDocument Url) :
    (writeCrawljob crate json document).skipped +
        ((document.kept crate).map fun package => (webUrls crate package).length).sum =
      (document.packages.map (·.links.length)).sum := by
  obtain ⟨packages⟩ := document
  simp only [writeCrawljob, LinksDocument.kept]
  induction packages with
  | nil => rfl
  | cons package packages ih =>
    have hle : (webUrls crate package).length ≤ package.links.length := by
      rw [webUrls, List.length_map]
      exact List.length_filter_le _ _
    rw [List.filter_cons]
    split
    · simp only [List.map_cons, List.sum_cons]
      omega
    · next hnone =>
      have : (webUrls crate package).length = 0 := by simpa using hnone
      simp only [List.map_cons, List.sum_cons]
      omega

/-- A crawljob is read back as it was written exactly when its addresses are whole and the file
is not too long. -/
theorem readsBack_iff (hcrate : crate.Lawful) (hjson : json.Lawful)
    (document : LinksDocument Url) :
    ReadsBack crate json document ↔
      AddressesWhole crate document ∧ crawljobBytes crate json document ≤ maxCrawljobBytes := by
  rw [ReadsBack, readCrawljob_eq hcrate hjson]
  constructor
  · rintro ⟨packages, hread, hsummary, -⟩
    split at hread
    · cases hread
    · next hfits =>
      cases hread
      refine ⟨fun package hpackage link hlink hweb => ?_, Nat.le_of_not_gt hfits⟩
      have hmem : crate.asStr link.url ∈ webUrls crate package :=
        List.mem_map.mpr ⟨link, List.mem_filter.mpr ⟨hlink, hweb⟩, rfl⟩
      have hkept : package ∈ document.kept crate :=
        List.mem_filter.mpr ⟨hpackage, by simp [List.ne_nil_of_mem hmem]⟩
      exact whole_of_summary hcrate hsummary package hkept _ hmem
  · rintro ⟨hwhole, hfits⟩
    rw [if_neg (Nat.not_lt.mpr hfits)]
    have hsummary : ((document.kept crate).flatMap fun package =>
        (blockOf crate package).finish).map (packageSummary crate) =
        (document.kept crate).map (writtenSummary crate) := by
      rw [List.map_flatMap, List.map_eq_flatMap]
      refine List.flatMap_congr fun package hpackage => ?_
      refine summary_finish_of_whole hcrate (webUrls_ne_nil_of_kept hpackage) ?_
      intro address hmem
      obtain ⟨link, hlink, rfl⟩ := List.mem_map.mp hmem
      obtain ⟨hlink, hweb⟩ := List.mem_filter.mp hlink
      exact hwhole package (List.mem_filter.mp hpackage).1 link hlink hweb
    refine ⟨_, rfl, hsummary, ?_⟩
    rw [← skipped_add crate json]
    have hlengths := congrArg (fun summaries => (summaries.map (·.2.2.length)).sum) hsummary
    simp only [List.map_map] at hlengths
    congr 1
    refine Eq.trans ?_ (hlengths.trans rfl)
    congr 2
    funext package
    simp [packageSummary]

/-! ### An address with a semicolon -/

inductive Address where
  | file
  | version
  | start
  deriving DecidableEq, Repr

def Address.text : Address → Text
  | file => "http://a.b/f".toList
  | version => "http://a.b/c;2".toList
  | start => "http://a.b/c".toList

def addressCrate : UrlCrate Address where
  parse text := [Address.file, .version, .start].find? (·.text = text)
  asStr := Address.text
  scheme _ := "http".toList

def escapeQuotes (text : Text) : Text :=
  text.flatMap fun c => if c = '"' ∨ c = '\\' then ['\\', c] else [c]

/-- A string up to its closing quotation mark, and what follows. -/
def readString : Text → Option (Text × Text)
  | [] => none
  | '"' :: rest => some ([], rest)
  | '\\' :: c :: rest => (readString rest).map fun (text, after) => (c :: text, after)
  | c :: rest => (readString rest).map fun (text, after) => (c :: text, after)

def quotedJson : SerdeJson where
  toString list := "[\"".toList ++ escapeQuotes list.flatten ++ "\"]".toList
  fromStr text := match text with
    | '[' :: '"' :: rest => (readString rest).bind fun (text, after) =>
      if after = [']'] then some [text] else none
    | _ => none

theorem addressCrate_lawful : addressCrate.Lawful where
  parse_asStr url _ := by cases url <;> decide +kernel
  startsWeb url _ := by cases url <;> decide +kernel
  printable url _ := by
    have hall : url.text.all fun c => '!' ≤ c && c ≤ '~' := by cases url <;> decide +kernel
    have hrange : ∀ c ∈ url.text, '!' ≤ c ∧ c ≤ '~' := by simpa using hall
    exact hrange
  parse_piece url _ hcut := by
    cases url with
    | file => exact absurd hcut (by decide +kernel)
    | start => exact absurd hcut (by decide +kernel)
    | version =>
      have hpieces : ∀ piece ∈ linkPieces Address.version.text,
          addressCrate.parse piece.trimmed ≠ some .version := by decide +kernel
      intro piece hpiece other hother heq
      cases other with
      | version => exact hpieces piece hpiece hother
      | file => exact absurd heq (by decide +kernel)
      | start => exact absurd heq (by decide +kernel)

theorem readString_escape (text rest : Text) :
    readString (escapeQuotes text ++ '"' :: rest) = some (text, rest) := by
  induction text with
  | nil => rfl
  | cons c text ih =>
    rw [escapeQuotes, List.flatMap_cons]
    split
    · next hquoted =>
      rcases hquoted with rfl | rfl
      · change (readString (escapeQuotes text ++ '"' :: rest)).map _ = _
        rw [ih]
        rfl
      · change (readString (escapeQuotes text ++ '"' :: rest)).map _ = _
        rw [ih]
        rfl
    · next hplain =>
      rw [not_or] at hplain
      change readString (c :: (escapeQuotes text ++ '"' :: rest)) = _
      rw [readString.eq_4 _ _ hplain.1 (fun _ _ h _ => hplain.2 h), ih]
      rfl

theorem mem_of_mem_escape {text : Text} (h : c ∈ escapeQuotes text) : c = '\\' ∨ c ∈ text := by
  obtain ⟨d, hd, hc⟩ := List.mem_flatMap.mp h
  split at hc
  · rcases List.mem_cons.mp hc with rfl | hc
    · exact .inl rfl
    · exact .inr (List.mem_singleton.mp hc ▸ hd)
  · exact .inr (List.mem_singleton.mp hc ▸ hd)

theorem quotedJson_toString (text : Text) :
    quotedJson.toString [text] = '[' :: '"' :: (escapeQuotes text ++ ['"', ']']) := by
  simp [quotedJson]

theorem quotedJson_lawful : quotedJson.Lawful where
  fromStr_toString text := by
    rw [quotedJson_toString]
    change (readString (escapeQuotes text ++ '"' :: [']'])).bind _ = _
    rw [readString_escape]
    rfl
  head text := rfl
  last text := by
    rw [quotedJson_toString]
    simp [List.getLast?_cons]
  unbroken text hcontrol := by
    obtain ⟨hbreak, hreturn⟩ := unbroken_of_not_control hcontrol
    rw [quotedJson_toString]
    exact ⟨by simpa using fun h => (mem_of_mem_escape h).elim nofun hbreak,
      by simpa using fun h => (mem_of_mem_escape h).elim nofun hreturn⟩

def oneLink (url : Address) : LinksDocument Address where
  packages := [{
    name := some "Trip".toList
    password := some "a\"b".toList
    links := [⟨url⟩] }]

/-- The reader takes the part before the semicolon for the link. -/
theorem address_cut : ¬ReadsBack addressCrate quotedJson (oneLink .version) := by
  rintro ⟨packages, hread, hsummary, -⟩
  rw [readCrawljob_eq addressCrate_lawful quotedJson_lawful, if_neg (by decide +kernel)] at hread
  cases hread
  revert hsummary
  decide +kernel

theorem readsBack_iff_oneLink :
    ReadsBack addressCrate quotedJson (oneLink .file) ↔
      AddressesWhole addressCrate (oneLink .file) ∧
        crawljobBytes addressCrate quotedJson (oneLink .file) ≤ maxCrawljobBytes :=
  readsBack_iff addressCrate_lawful quotedJson_lawful _

end RDownloader
