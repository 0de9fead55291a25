import Mathlib.Control.Monad.Basic
import RDownloader.Core.CookieFile

/-!
# A cookie file reads back

Whatever is read is put out as a file, and the file is read as the same rows when no row of it is
a comment to the reader and the host of a header is one word without a leading dot.
-/

namespace RDownloader

namespace CookieFile

variable {rows : List CookieRow} {row : CookieRow} {content host line text : Text} {c : Char}

/-! ## What is read -/

/-- What reading promises of a row, from a file or from a header. -/
structure Plain (row : CookieRow) : Prop where
  domain_ne_nil : row.domain ≠ []
  domain_lower : Text.toAsciiLowercase row.domain = row.domain
  path_ne_nil : row.path ≠ []
  field_ok : ∀ field ∈ [row.path, row.name, row.value], '\t' ∉ field ∧ '\n' ∉ field
  value_end : row.value.getLast? ≠ some '\r'
  expires_ok : -(i64Max + 1) ≤ row.expires ∧ row.expires ≤ i64Max

/-- A domain that is one field without a leading dot. -/
def Domain (domain : Text) : Prop :=
  domain.head? ≠ some '.' ∧ '\t' ∉ domain ∧ '\n' ∉ domain

instance : DecidablePred Domain := fun _ => inferInstanceAs (Decidable (_ ∧ _ ∧ _))

/-- A row that is no comment in the file. -/
def Shown (row : CookieRow) : Prop :=
  row.includeSubdomains ∨ row.domain.head? ≠ some '#'

instance : DecidablePred Shown := fun _ => inferInstanceAs (Decidable (_ ∨ _))

theorem head_dropWhile_ne (c : Char) (text : Text) :
    (text.dropWhile (· = c)).head? ≠ some c := by
  induction text with
  | nil => exact nofun
  | cons d text ih =>
    rw [List.dropWhile_cons]
    split
    next => exact ih
    next hd => exact fun h => hd (decide_eq_true (Option.some.inj h))

theorem trimEnd_getLast (c : Char) (text : Text) : (trimEnd c text).getLast? ≠ some c := by
  rw [trimEnd, List.getLast?_reverse]
  exact head_dropWhile_ne c _

theorem trimEnd_of_getLast (h : text.getLast? ≠ some c) : trimEnd c text = text := by
  rw [← List.head?_reverse] at h
  rw [trimEnd]
  cases hreverse : text.reverse with
  | nil => rw [List.dropWhile_nil, ← hreverse, List.reverse_reverse]
  | cons d rest =>
    rw [hreverse] at h
    rw [List.dropWhile_cons_of_neg (by simpa using h), ← hreverse, List.reverse_reverse]

theorem trimEnd_isPrefix (c : Char) (text : Text) : trimEnd c text <+: text := by
  rw [← List.reverse_suffix, trimEnd, List.reverse_reverse]
  exact List.dropWhile_suffix _

theorem lowercase_head (hc : c.toNat < 65) (text : Text) :
    (Text.toAsciiLowercase text).head? = some c ↔ text.head? = some c := by
  rw [Text.toAsciiLowercase_eq_map, List.head?_map, Option.map_eq_some_iff]
  simp only [Text.asciiLowercase_eq_iff hc, exists_eq_right]

theorem mem_lowercase (hc : c.toNat < 65) (text : Text) :
    c ∈ Text.toAsciiLowercase text ↔ c ∈ text := by
  rw [Text.toAsciiLowercase_eq_map, List.mem_map]
  simp only [Text.asciiLowercase_eq_iff hc, exists_eq_right]

theorem lowercase_eq_nil : Text.toAsciiLowercase text = [] ↔ text = [] := List.map_eq_nil_iff

/-! ### From a file -/

/-- A row that is no comment when it is put out again: its domain does not begin like one, or the
row covers subdomains. -/
def Lasting : List Text → Prop
  | rawDomain :: subdomains :: _ =>
    rawDomain.head? ≠ some '#' ∨ Text.eqIgnoreAsciiCase subdomains "true".toList
  | _ => True

instance : DecidablePred Lasting
  | [] => isTrue trivial
  | [_] => isTrue trivial
  | _ :: _ :: _ => inferInstanceAs (Decidable (_ ∨ _))

/-- The fields of a row that is read. -/
theorem readRow_ok {fields : List Text} (h : readRow fields = .ok row) :
    ∃ rawDomain subdomains path secure expires name value,
      fields = [rawDomain, subdomains, path, secure, expires, name, value] ∧
      row.domain ≠ [] ∧ row = {
        domain := Text.toAsciiLowercase (rawDomain.dropWhile (· = '.'))
        includeSubdomains :=
          rawDomain.head? = some '.' || Text.eqIgnoreAsciiCase subdomains "true".toList
        path := if path = [] then ['/'] else path
        secure := Text.eqIgnoreAsciiCase secure "true".toList
        expires := (Text.parseI64 expires).getD 0
        name, value } := by
  unfold readRow at h
  split at h
  next rawDomain subdomains path secure expires name value =>
    dsimp only at h
    split at h
    next => cases h
    next hdomain =>
      cases h
      exact ⟨rawDomain, subdomains, path, secure, expires, name, value, rfl, hdomain, rfl⟩
  next => cases h

theorem expires_ok (text : Text) :
    -(i64Max + 1) ≤ (Text.parseI64 text).getD 0 ∧ (Text.parseI64 text).getD 0 ≤ i64Max := by
  cases hread : Text.parseI64 text with
  | none => decide
  | some value => exact Text.isI64_of_parseI64 hread

theorem intercalate_concat (separator : Char) {fields : List Text} (hne : fields ≠ [])
    (field : Text) : [separator].intercalate (fields ++ [field]) =
      [separator].intercalate fields ++ separator :: field := by
  induction fields with
  | nil => exact absurd rfl hne
  | cons first fields ih =>
    cases fields with
    | nil => simp [List.intercalate_cons_cons]
    | cons second fields =>
      rw [List.cons_append, List.intercalate_cons_of_ne_nil (by simp), ih (List.cons_ne_nil _ _),
        List.intercalate_cons_of_ne_nil (List.cons_ne_nil _ _)]
      simp only [List.append_assoc]

/-- What a row of a file holds when the line is one. -/
theorem plain_of_readRow (hbreak : '\n' ∉ text) (hend : text.getLast? ≠ some '\r')
    (h : readRow (text.splitOn '\t') = .ok row) : Plain row ∧ Domain row.domain := by
  obtain ⟨rawDomain, subdomains, path, secure, expires, name, value, hfields, hdomain, rfl⟩ :=
    readRow_ok h
  have hfield (field : Text) (hmem : field ∈ text.splitOn '\t') : '\t' ∉ field ∧ '\n' ∉ field :=
    ⟨fun hc => (Text.mem_of_mem_splitOn hmem hc).2 rfl,
      fun hc => hbreak (Text.mem_of_mem_splitOn hmem hc).1⟩
  rw [hfields] at hfield
  refine ⟨⟨hdomain, Text.toAsciiLowercase_toAsciiLowercase _, ?_, ?_, ?_, expires_ok expires⟩, ?_⟩
  · dsimp only
    split
    next => exact List.cons_ne_nil _ _
    next hpath => exact hpath
  · simp only [List.forall_mem_cons] at hfield ⊢
    refine ⟨?_, hfield.2.2.2.2.2.1, hfield.2.2.2.2.2.2⟩
    split
    next => decide
    next => exact hfield.2.2.1
  · intro hlast
    have htext : text = _ ++ '\t' :: value :=
      (List.intercalate_splitOn '\t').symm.trans ((congrArg _ hfields).trans
        (intercalate_concat '\t' (List.cons_ne_nil rawDomain [_, _, _, _, _]) value))
    rw [htext, List.getLast?_append, List.getLast?_cons, hlast] at hend
    exact hend rfl
  · have hraw : '\t' ∉ rawDomain ∧ '\n' ∉ rawDomain := hfield _ List.mem_cons_self
    have hdrop {c : Char} (hc : c.toNat < 65) (h : c ∉ rawDomain) :
        c ∉ Text.toAsciiLowercase (rawDomain.dropWhile (· = '.')) := fun hmem =>
      h ((List.dropWhile_suffix _).subset ((mem_lowercase hc _).mp hmem))
    refine ⟨?_, hdrop (by decide) hraw.1, hdrop (by decide) hraw.2⟩
    rw [ne_eq, lowercase_head (by decide)]
    exact head_dropWhile_ne '.' _

/-- A row is shown again exactly when it lasts. -/
theorem shown_iff_lasting {fields : List Text} (h : readRow fields = .ok row) :
    Shown row ↔ Lasting fields := by
  obtain ⟨rawDomain, subdomains, path, secure, expires, name, value, rfl, hdomain, rfl⟩ :=
    readRow_ok h
  rw [Shown, Lasting]
  dsimp only
  rw [ne_eq, lowercase_head (by decide), Bool.or_eq_true, decide_eq_true_eq]
  cases rawDomain with
  | nil => simp
  | cons c rawDomain =>
    by_cases hc : c = '.'
    · simp [hc]
    · rw [List.dropWhile_cons_of_neg (by simpa using hc)]
      simp [hc, or_comm]

theorem rowText_some (h : rowText line = some text) :
    ∃ start, trimEnd '\r' line = start ++ text ∧ text.getLast? ≠ some '\r' := by
  unfold rowText at h
  dsimp only at h
  split at h
  next => cases h
  next =>
    have hend := trimEnd_getLast '\r' line
    split at h
    next =>
      refine ⟨(trimEnd '\r' line).take httpOnly.length, ?_, ?_⟩
      · rw [← Option.some.inj h, List.take_append_drop]
      · intro hlast
        have hsuffix : text <:+ trimEnd '\r' line := Option.some.inj h ▸ List.drop_suffix _ _
        obtain ⟨start, hstart⟩ := hsuffix
        rw [← hstart, List.getLast?_append, hlast] at hend
        exact hend rfl
    next => exact ⟨[], Option.some.inj h, Option.some.inj h ▸ hend⟩

/-- The rows of a file are read from the lines that hold one. -/
theorem readRows_ok {lines : List Text} (h : readRows lines = .ok rows) :
    (lines.filterMap rowText).map (fun text => readRow (text.splitOn '\t')) = rows.map .ok := by
  induction lines generalizing rows with
  | nil =>
    cases h
    rfl
  | cons line lines ih =>
    rw [readRows] at h
    cases hrow : rowText line with
    | none =>
      rw [hrow] at h
      rw [List.filterMap_cons_none hrow]
      exact ih h
    | some text =>
      rw [hrow] at h
      dsimp only at h
      rw [List.filterMap_cons_some hrow]
      cases hread : readRow (text.splitOn '\t') with
      | error error =>
        rw [hread] at h
        cases h
      | ok row =>
        cases hrest : readRows lines with
        | error error =>
          rw [hread, hrest] at h
          cases h
        | ok rest =>
          rw [hread, hrest] at h
          cases h
          rw [List.map_cons, List.map_cons, hread, ih hrest]

/-- The lines that hold a row are those that the rows are read from. -/
theorem mem_rows_iff (h : parseNetscape content = .ok rows) :
    (∀ row ∈ rows, ∃ text ∈ (Text.lines content).filterMap rowText,
        readRow (text.splitOn '\t') = .ok row) ∧
      ∀ text ∈ (Text.lines content).filterMap rowText, ∃ row ∈ rows,
        readRow (text.splitOn '\t') = .ok row := by
  have hmap := readRows_ok h
  constructor
  · intro row hrow
    exact List.mem_map.mp (hmap ▸ List.mem_map_of_mem hrow)
  · intro text htext
    have hmem := List.mem_map_of_mem (f := fun text => readRow (List.splitOn '\t' text)) htext
    rw [hmap] at hmem
    obtain ⟨row, hrow, heq⟩ := List.mem_map.mp hmem
    exact ⟨row, hrow, heq.symm⟩

theorem plain_of_parseNetscape (h : parseNetscape content = .ok rows) :
    ∀ row ∈ rows, Plain row ∧ Domain row.domain := by
  intro row hrow
  obtain ⟨text, htext, hread⟩ := (mem_rows_iff h).1 row hrow
  obtain ⟨line, hline, hsome⟩ := List.mem_filterMap.mp htext
  obtain ⟨start, hstart, hend⟩ := rowText_some hsome
  have hbreak : '\n' ∉ text := fun hc =>
    Text.not_mem_of_mem_lines hline
      ((trimEnd_isPrefix '\r' line).subset (hstart ▸ List.mem_append_right _ hc))
  exact plain_of_readRow hbreak hend hread

/-- The rows of a file are all shown again exactly when its lines last. -/
theorem forall_shown_iff (h : parseNetscape content = .ok rows) :
    (∀ row ∈ rows, Shown row) ↔
      ∀ text ∈ (Text.lines content).filterMap rowText, Lasting (text.splitOn '\t') := by
  obtain ⟨hrows, htexts⟩ := mem_rows_iff h
  constructor
  · intro hshown text htext
    obtain ⟨row, hrow, hread⟩ := htexts text htext
    exact (shown_iff_lasting hread).mp (hshown row hrow)
  · intro hlasting row hrow
    obtain ⟨text, htext, hread⟩ := hrows row hrow
    exact (shown_iff_lasting hread).mpr (hlasting text htext)

/-! ### From a header -/

theorem readPair_ok {pair : Text} (hhost : host ≠ []) (hlower : Text.toAsciiLowercase host = host)
    (h : readPair host pair = .ok row) :
    Plain row ∧ row.domain = host ∧ row.includeSubdomains = true := by
  unfold readPair at h
  split at h
  next => cases h
  next name value _ =>
    dsimp only at h
    split at h
    next => cases h
    next hcontrol =>
      simp only [Bool.or_eq_true, decide_eq_true_eq, not_or, Bool.not_eq_true, List.any_eq_false]
        at hcontrol
      cases h
      have hclean {field : Text} (hfield : ∀ c ∈ field, isControl c = false) :
          '\t' ∉ field ∧ '\n' ∉ field :=
        ⟨fun hc => Bool.noConfusion (hfield _ hc), fun hc => Bool.noConfusion (hfield _ hc)⟩
      have hexpires : -(i64Max + 1 : Int) ≤ 0 ∧ (0 : Int) ≤ i64Max := by decide
      refine ⟨⟨hhost, hlower, List.cons_ne_nil _ _, ?_, ?_, hexpires⟩, rfl, rfl⟩
      · simp only [List.forall_mem_cons]
        exact ⟨by decide, hclean hcontrol.1.2, hclean hcontrol.2, nofun⟩
      · intro hlast
        have hreturn := hcontrol.2 '\r' (List.mem_of_getLast? hlast)
        cases hreturn

theorem readPairs_ok {pairs : List Text} (h : pairs.mapM (readPair host) = .ok rows) :
    ∀ row ∈ rows, ∃ pair, readPair host pair = .ok row := by
  induction pairs generalizing rows with
  | nil =>
    cases h
    exact nofun
  | cons pair pairs ih =>
    rw [List.mapM_cons] at h
    cases hread : readPair host pair with
    | error error =>
      rw [hread] at h
      cases h
    | ok row =>
      cases hrest : pairs.mapM (readPair host) with
      | error error =>
        rw [hread, hrest] at h
        cases h
      | ok rest =>
        rw [hread, hrest] at h
        cases h
        exact List.forall_mem_cons.mpr ⟨⟨pair, hread⟩, ih hrest⟩

/-- The rows of a header are bound to its host and what is below it. -/
theorem plain_of_parseHeader (h : parseHeader content host = .ok rows) :
    trimEnd '.' host ≠ [] ∧ ∀ row ∈ rows, Plain row ∧
      row.domain = Text.toAsciiLowercase (trimEnd '.' host) ∧ row.includeSubdomains = true := by
  unfold parseHeader at h
  dsimp only at h
  split at h
  next => cases h
  next hne =>
    refine ⟨fun hnil => hne (by rw [hnil]; rfl), fun row hrow => ?_⟩
    obtain ⟨pair, hread⟩ := readPairs_ok h row hrow
    exact readPair_ok hne (Text.toAsciiLowercase_toAsciiLowercase _) hread

theorem head_trimEnd (c : Char) (h : trimEnd c text ≠ []) :
    (trimEnd c text).head? = text.head? := by
  obtain ⟨rest, hrest⟩ := trimEnd_isPrefix c text
  rw [List.head?_eq_some_head h]
  refine (congrArg List.head? hrest.symm).trans ?_ |>.symm
  rw [List.head?_append, List.head?_eq_some_head h, Option.some_or]

theorem mem_trimEnd {d : Char} (h : d ≠ c) : d ∈ trimEnd c text ↔ d ∈ text := by
  rw [trimEnd, List.mem_reverse, Text.mem_dropWhile (decide_eq_false h), List.mem_reverse]

/-- The host of a header is a domain of the file when it was one before. -/
theorem domain_header_iff (h : trimEnd '.' host ≠ []) :
    Domain (Text.toAsciiLowercase (trimEnd '.' host)) ↔ Domain host := by
  rw [Domain, Domain, ne_eq, lowercase_head (by decide), head_trimEnd '.' h,
    mem_lowercase (by decide), mem_lowercase (by decide), mem_trimEnd (by decide),
    mem_trimEnd (by decide)]

/-! ## What is written -/

theorem mem_flag (value : Bool) : '\t' ∉ flag value ∧ '\n' ∉ flag value := by
  cases value <;> decide

theorem mem_ofInt (n : Int) : ∀ c ∈ Text.ofInt n, c.isDigit ∨ c = '-' := by
  cases n with
  | ofNat n => exact fun c hc => .inl (Text.isDigit_of_mem_toDigits hc)
  | negSucc n =>
    intro c hc
    rcases List.mem_cons.mp hc with rfl | hdigit
    · exact .inr rfl
    · exact .inl (Text.isDigit_of_mem_toDigits hdigit)

theorem not_mem_ofInt (n : Int) : '\t' ∉ Text.ofInt n ∧ '\n' ∉ Text.ofInt n := by
  constructor
  · intro hc
    rcases mem_ofInt n _ hc with h | h <;> cases h
  · intro hc
    rcases mem_ofInt n _ hc with h | h <;> cases h

/-- The domain as the file shows it. -/
def shownDomain (row : CookieRow) : Text :=
  if row.includeSubdomains then '.' :: row.domain else row.domain

/-- What follows the domain of a row in the file. -/
def restFields (row : CookieRow) : List Text :=
  [flag row.includeSubdomains, row.path, flag row.secure, Text.ofInt row.expires, row.name,
    row.value]

theorem restFields_ok (h : Plain row) : ∀ field ∈ restFields row, '\t' ∉ field ∧ '\n' ∉ field := by
  have hfield := h.field_ok
  simp only [List.forall_mem_cons] at hfield
  simp only [restFields, List.forall_mem_cons]
  exact ⟨mem_flag _, hfield.1, mem_flag _, not_mem_ofInt _, hfield.2.1, hfield.2.2.1, nofun⟩

theorem toNetscape_eq (row : CookieRow) :
    toNetscape row = shownDomain row ++ '\t' :: ['\t'].intercalate (restFields row) := by
  rw [toNetscape, fields, List.intercalate_cons_of_ne_nil (List.cons_ne_nil _ _), shownDomain,
    List.append_assoc]
  rfl

theorem not_mem_intercalate {fields : List Text} {separator : Char} (hne : c ≠ separator)
    (h : ∀ field ∈ fields, c ∉ field) : c ∉ [separator].intercalate fields := by
  induction fields with
  | nil => exact List.not_mem_nil
  | cons field fields ih =>
    obtain ⟨hfield, hrest⟩ := List.forall_mem_cons.mp h
    cases fields with
    | nil => rwa [List.intercalate_singleton]
    | cons next fields =>
      rw [List.intercalate_cons_of_ne_nil (List.cons_ne_nil _ _), List.mem_append, List.mem_append,
        List.mem_singleton]
      exact fun hc => hc.elim (fun hc => hc.elim hfield hne) (ih hrest)

theorem toNetscapeFile_cons (row : CookieRow) (rows : List CookieRow) :
    toNetscapeFile (row :: rows) = (fileHeader ++ '\n' :: shownDomain row) ++
      '\t' :: ['\t'].intercalate (restFields row) ++
        '\n' :: rows.flatMap fun row => toNetscape row ++ ['\n'] := by
  rw [toNetscapeFile, List.flatMap_cons, toNetscape_eq]
  simp only [List.append_assoc, List.cons_append, List.nil_append]

/-- Whatever its domain is, a row ends a line with seven fields. -/
theorem isNetscape_toNetscapeFile (hne : rows ≠ []) (h : ∀ row ∈ rows, Plain row) :
    isNetscape (toNetscapeFile rows) = true := by
  obtain ⟨row, rows, rfl⟩ := List.exists_cons_of_ne_nil hne
  have hok := restFields_ok (h row List.mem_cons_self)
  have hbreak : '\n' ∉ '\t' :: ['\t'].intercalate (restFields row) := fun hc =>
    (List.mem_cons.mp hc).elim (by decide)
      (not_mem_intercalate (by decide) (fun field hmem => (hok field hmem).2))
  obtain ⟨full, hfull, hsuffix⟩ := Text.exists_splitLines (fileHeader ++ '\n' :: shownDomain row)
    (rows.flatMap fun row => toNetscape row ++ ['\n']) hbreak
  rw [← toNetscapeFile_cons] at hfull
  have hfields := Text.length_splitOn '\t' (['\t'].intercalate (restFields row))
  rw [List.splitOn_intercalate _ (fun field hmem => (hok field hmem).1) (List.cons_ne_nil _ _)]
    at hfields
  have htabs := hsuffix.sublist.count_le '\t'
  rw [List.count_cons_self, ← hfields] at htabs
  refine List.any_eq_true.mpr ⟨Text.stripReturn full, List.mem_map_of_mem hfull, ?_⟩
  rw [decide_eq_true_eq, Text.length_splitOn, Text.count_stripReturn (by decide)]
  exact Nat.succ_le_succ htabs

/-! ## What is read again -/

theorem not_mem_shownDomain (h : Domain row.domain) :
    '\t' ∉ shownDomain row ∧ '\n' ∉ shownDomain row := by
  unfold shownDomain
  split
  next => exact ⟨by simpa using h.2.1, by simpa using h.2.2⟩
  next => exact h.2

/-- A row without tabs or breaks in its domain is read from its own fields. -/
theorem readRow_toNetscape (hplain : Plain row) (hdomain : Domain row.domain) :
    readRow ((toNetscape row).splitOn '\t') = .ok row := by
  have hfields : ∀ field ∈ fields row, '\t' ∉ field :=
    List.forall_mem_cons.mpr ⟨(not_mem_shownDomain hdomain).1, fun field hmem =>
      (restFields_ok hplain field hmem).1⟩
  have hdrop : (shownDomain row).dropWhile (· = '.') = row.domain := by
    have hself : row.domain.dropWhile (· = '.') = row.domain := by
      cases hlist : row.domain with
      | nil => rfl
      | cons c domain =>
        have hhead := hdomain.1
        rw [hlist] at hhead
        exact List.dropWhile_cons_of_neg (by simpa using hhead)
    unfold shownDomain
    split
    next => rw [List.dropWhile_cons_of_pos (by decide), hself]
    next => exact hself
  have hsub : ((shownDomain row).head? = some '.' ||
      Text.eqIgnoreAsciiCase (flag row.includeSubdomains) "true".toList) =
        row.includeSubdomains := by
    cases hinclude : row.includeSubdomains with
    | true => simp [shownDomain, hinclude]
    | false =>
      have hhead : decide ((shownDomain row).head? = some '.') = false := by
        simp [shownDomain, hinclude, hdomain.1]
      rw [hhead]
      rfl
  have hsecure : Text.eqIgnoreAsciiCase (flag row.secure) "true".toList = row.secure := by
    cases row.secure <;> rfl
  rw [toNetscape, List.splitOn_intercalate _ hfields (List.cons_ne_nil _ _)]
  unfold fields readRow
  dsimp only
  rw [← shownDomain, hdrop, hplain.domain_lower, if_neg hplain.domain_ne_nil, hsub, hsecure,
    if_neg hplain.path_ne_nil, Text.parseI64_ofInt hplain.expires_ok]
  rfl

/-- The prefix of a hidden row holds capitals, and a stored domain has none. -/
theorem httpOnly_isPrefixOf_toNetscape (h : Plain row) : httpOnly.isPrefixOf (toNetscape row) = false := by
  have hletters : httpOnly = '#' :: 'H' :: "ttpOnly_".toList := by decide
  have hsecond (d : Char) (rest : Text) (hd : d ≠ 'H') :
      httpOnly.isPrefixOf ('#' :: d :: rest) = false := by
    rw [hletters, List.isPrefixOf, List.isPrefixOf, beq_eq_false_iff_ne.mpr (Ne.symm hd),
      Bool.false_and, Bool.and_false]
  have hfirst (c : Char) (rest : Text) (hc : c ≠ '#') : httpOnly.isPrefixOf (c :: rest) = false := by
    rw [hletters, List.isPrefixOf, beq_eq_false_iff_ne.mpr (Ne.symm hc), Bool.false_and]
  rw [toNetscape_eq, shownDomain]
  split
  next => exact hfirst _ _ (by decide)
  next =>
    obtain ⟨c, domain, hdomain⟩ := List.exists_cons_of_ne_nil h.domain_ne_nil
    rw [hdomain]
    by_cases hc : c = '#'
    · subst hc
      cases domain with
      | nil => exact hsecond _ _ (by decide)
      | cons d domain =>
        refine hsecond _ _ ?_
        have hlower := h.domain_lower
        rw [hdomain] at hlower
        rw [← (List.cons.inj (List.cons.inj hlower).2).1]
        exact Text.asciiLowercase_ne (by decide)
    · exact hfirst _ _ hc

theorem head_toNetscape (h : Plain row) : (toNetscape row).head? = some '#' ↔ ¬ Shown row := by
  have hne : shownDomain row ≠ [] := by
    unfold shownDomain
    split
    next => exact List.cons_ne_nil _ _
    next => exact h.domain_ne_nil
  rw [toNetscape_eq, List.head?_append, List.head?_eq_some_head hne, Option.some_or,
    ← List.head?_eq_some_head hne, Shown, not_or, Decidable.not_not, shownDomain]
  split
  next hinclude => simp [hinclude]
  next hinclude => simp [hinclude]

theorem trimmed_toNetscape (row : CookieRow) : Text.trimmed (toNetscape row) ≠ [] := by
  have hflag : 'E' ∈ flag row.includeSubdomains := by
    cases row.includeSubdomains <;> decide
  have hmem : 'E' ∈ toNetscape row := by
    rw [toNetscape_eq, restFields, List.intercalate_cons_of_ne_nil (List.cons_ne_nil _ _),
      List.append_assoc]
    exact List.mem_append_right _ (List.mem_cons_of_mem _ (List.mem_append_left _ hflag))
  exact List.ne_nil_of_mem (Text.mem_trimmed (by decide) hmem)

theorem getLast_toNetscape (h : Plain row) : (toNetscape row).getLast? ≠ some '\r' := by
  have hlast : toNetscape row = _ ++ '\t' :: row.value :=
    intercalate_concat '\t' (List.cons_ne_nil (shownDomain row) [_, _, _, _, _]) row.value
  rw [hlast, List.getLast?_append, List.getLast?_cons, Option.some_or]
  cases hvalue : row.value.getLast? with
  | none => decide
  | some c => exact hvalue ▸ h.value_end

/-- A written row is read as itself, or skipped as a comment. -/
theorem rowText_toNetscape (h : Plain row) :
    rowText (toNetscape row) = if Shown row then some (toNetscape row) else none := by
  have htrim := trimEnd_of_getLast (getLast_toNetscape h)
  unfold rowText
  rw [htrim]
  dsimp only
  rw [httpOnly_isPrefixOf_toNetscape h, Bool.not_false, Bool.and_true, if_neg Bool.false_ne_true]
  by_cases hshown : Shown row
  · have hhead : (toNetscape row).head? ≠ some '#' := fun hhead =>
      (head_toNetscape h).mp hhead hshown
    rw [if_pos hshown, decide_eq_false (trimmed_toNetscape row), decide_eq_false hhead]
    rfl
  · rw [if_neg hshown, decide_eq_true ((head_toNetscape h).mpr hshown), Bool.or_true]
    rfl

/-- A file of plain rows holds those that are shown. -/
theorem parseNetscape_toNetscapeFile (h : ∀ row ∈ rows, Plain row ∧ Domain row.domain) :
    parseNetscape (toNetscapeFile rows) = .ok (rows.filter Shown) := by
  have hrows : readRows (Text.lines (rows.flatMap fun row => toNetscape row ++ ['\n'])) =
      .ok (rows.filter Shown) := by
    induction rows with
    | nil => rfl
    | cons row rows ih =>
      obtain ⟨⟨hplain, hdomain⟩, hrest⟩ := List.forall_mem_cons.mp h
      have hbreak : '\n' ∉ toNetscape row :=
        not_mem_intercalate (by decide) (List.forall_mem_cons.mpr
          ⟨(not_mem_shownDomain hdomain).2, fun field hmem => (restFields_ok hplain field hmem).2⟩)
      rw [List.flatMap_cons, List.append_assoc, List.singleton_append, Text.lines,
        Text.splitLines_append hbreak, List.map_cons,
        Text.stripReturn_of_getLast (getLast_toNetscape hplain), ← Text.lines, readRows,
        rowText_toNetscape hplain, List.filter_cons]
      by_cases hshown : Shown row
      · rw [if_pos hshown, if_pos (decide_eq_true hshown), ih hrest]
        dsimp only
        rw [readRow_toNetscape hplain hdomain]
        rfl
      · rw [if_neg hshown, if_neg (by simpa using hshown)]
        exact ih hrest
  have hheader : Text.lines (toNetscapeFile rows) =
      fileHeader :: Text.lines (rows.flatMap fun row => toNetscape row ++ ['\n']) :=
    Text.lines_append (by decide) (by decide)
  rw [parseNetscape, hheader, readRows]
  exact hrows

/-! ## The round trip -/

theorem parse_ok (h : parse content host = .ok rows) :
    rows ≠ [] ∧ if isNetscape content then parseNetscape content = .ok rows
      else parseHeader content host = .ok rows := by
  have hkept {read : Except CookieFileError (List CookieRow)}
      (h : (do let rows ← read; if rows = [] then .error .empty else .ok rows) = Except.ok rows) :
      rows ≠ [] ∧ read = .ok rows := by
    cases read with
    | error error => cases h
    | ok read =>
      change (if read = [] then Except.error CookieFileError.empty else .ok read) = Except.ok rows at h
      split at h
      next => cases h
      next hne =>
        cases h
        exact ⟨hne, rfl⟩
  unfold parse at h
  split at h
  next => cases h
  next =>
    split at h
    next hnetscape =>
      rw [if_pos hnetscape]
      exact hkept h
    next hheader =>
      rw [if_neg hheader]
      exact hkept h

/-- Rows read back from their file exactly when each has a domain of the file and is shown. -/
theorem parse_toNetscapeFile_iff (hne : rows ≠ []) (hplain : ∀ row ∈ rows, Plain row)
    (hsize : Text.byteLength (toNetscapeFile rows) ≤ maxCookieFile) :
    parse (toNetscapeFile rows) host = .ok rows ↔
      ∀ row ∈ rows, Domain row.domain ∧ Shown row := by
  have hnetscape := isNetscape_toNetscapeFile hne hplain
  constructor
  · intro hread
    obtain ⟨-, hrows⟩ := parse_ok hread
    rw [if_pos hnetscape] at hrows
    have hdomains := fun row hrow => (plain_of_parseNetscape hrows row hrow).2
    rw [parseNetscape_toNetscapeFile fun row hrow => ⟨hplain row hrow, hdomains row hrow⟩] at hrows
    have hshown := List.filter_eq_self.mp (Except.ok.inj hrows)
    exact fun row hrow => ⟨hdomains row hrow, of_decide_eq_true (hshown row hrow)⟩
  · intro h
    have hfilter : rows.filter Shown = rows :=
      List.filter_eq_self.mpr fun row hrow => decide_eq_true (h row hrow).2
    have hread := parseNetscape_toNetscapeFile fun row hrow => ⟨hplain row hrow, (h row hrow).1⟩
    rw [hfilter] at hread
    rw [parse, if_neg (Nat.not_lt.mpr hsize), hnetscape, if_pos rfl, hread]
    exact if_neg hne

/-- Content that the file of its rows stands for: no row of a file begins like a comment unless it
covers subdomains, and the host of a header is a domain of the file. -/
def Restorable (content host : Text) : Prop :=
  if isNetscape content then
    ∀ text ∈ (Text.lines content).filterMap rowText, Lasting (text.splitOn '\t')
  else Domain host

instance (content host : Text) : Decidable (Restorable content host) :=
  inferInstanceAs (Decidable (if isNetscape content then
      ∀ text ∈ (Text.lines content).filterMap rowText, Lasting (text.splitOn '\t')
    else Domain host))

/-- Stored cookies read back exactly when nothing in them means something else to the reader. -/
theorem reads_back_iff (h : parse content host = .ok rows)
    (hsize : Text.byteLength (toNetscapeFile rows) ≤ maxCookieFile) :
    parse (toNetscapeFile rows) host = .ok rows ↔ Restorable content host := by
  obtain ⟨hne, hread⟩ := parse_ok h
  unfold Restorable
  split at hread
  next hnetscape =>
    have hplain := plain_of_parseNetscape hread
    rw [if_pos hnetscape, ← forall_shown_iff hread,
      parse_toNetscapeFile_iff hne (fun row hrow => (hplain row hrow).1) hsize]
    exact forall_congr' fun row => forall_congr' fun hrow => and_iff_right (hplain row hrow).2
  next hheader =>
    obtain ⟨hhost, hplain⟩ := plain_of_parseHeader hread
    rw [if_neg hheader, parse_toNetscapeFile_iff hne (fun row hrow => (hplain row hrow).1) hsize,
      ← domain_header_iff hhost]
    constructor
    · intro hrows
      obtain ⟨row, rest, rfl⟩ := List.exists_cons_of_ne_nil hne
      exact (hplain row List.mem_cons_self).2.1 ▸ (hrows row List.mem_cons_self).1
    · intro hdomain row hrow
      obtain ⟨-, heq, hinclude⟩ := hplain row hrow
      exact ⟨heq ▸ hdomain, .inl hinclude⟩

theorem example_com_reads_back :
    parse ".example.com\tTRUE\t/\tTRUE\t1700000000\tsid\tabc".toList [] =
        .ok [⟨"example.com".toList, true, ['/'], true, 1700000000, "sid".toList, "abc".toList⟩] ∧
      parse (toNetscapeFile
          [⟨"example.com".toList, true, ['/'], true, 1700000000, "sid".toList, "abc".toList⟩]) [] =
        .ok [⟨"example.com".toList, true, ['/'], true, 1700000000, "sid".toList, "abc".toList⟩] := by
  have hread : parse ".example.com\tTRUE\t/\tTRUE\t1700000000\tsid\tabc".toList [] =
      .ok [⟨"example.com".toList, true, ['/'], true, 1700000000, "sid".toList, "abc".toList⟩] := by
    decide +kernel
  exact ⟨hread, (reads_back_iff hread (by decide +kernel)).mpr (by decide +kernel)⟩

/-- A hidden row whose domain begins like a comment is lost. -/
theorem hidden_comment_lost :
    ¬ ∀ content host rows, parse content host = .ok rows →
      Text.byteLength (toNetscapeFile rows) ≤ maxCookieFile →
      parse (toNetscapeFile rows) host = .ok rows := by
  intro h
  have hread : parse "#HttpOnly_#a.example\tFALSE\t/\tFALSE\t0\tsid\tabc".toList [] =
      .ok [⟨"#a.example".toList, false, ['/'], false, 0, "sid".toList, "abc".toList⟩] := by
    decide +kernel
  have hback := h _ _ _ hread (by decide +kernel)
  revert hback
  decide +kernel

end CookieFile
end RDownloader
