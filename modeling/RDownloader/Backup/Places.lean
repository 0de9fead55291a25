import RDownloader.Backup.ForeignPaths
import RDownloader.Torrent.GlobCase

/-!
# The places Windows paths name

One folder of a Windows system has many spellings: either separator, any case, a verbatim lead-in.
Here a spelling is read without a preference for one of them, and the parser is held against it: it
reads every spelling alike whose lead-in is written with backslashes and `UNC` in capitals.
-/

namespace RDownloader.Backup

open ForeignPath

/-! ## Places -/

inductive Volume where
  | drive (letter : Char)
  | share (server name : Text)
  deriving DecidableEq

def Volume.text : Volume → Text
  | drive letter => [letter, ':']
  | share server name => '\\' :: '\\' :: server ++ '\\' :: name

/-- A folder of a Windows system. -/
structure Place where
  volume : Volume
  names : List Text
  deriving DecidableEq

/-- How the parser has the place. -/
def Place.foreign (casing : Casing) (place : Place) : ForeignPath where
  style := .windows
  volume := casing.toLowercase place.volume.text
  components := place.names

/-- What may stand before a drive or the server of a share. -/
inductive LeadIn where
  | verbatimShare
  | verbatim
  | share
  | plain
  deriving DecidableEq

def LeadIn.text : LeadIn → Text
  | verbatimShare => ['\\', '\\', '?', '\\', 'U', 'N', 'C', '\\']
  | verbatim => ['\\', '\\', '?', '\\']
  | share => ['\\', '\\']
  | plain => []

/-- The other separator is a backslash too. -/
def backslash (c : Char) : Char := if c = '/' then '\\' else c

def backslashed (value : Text) : Text := (CookieFile.trimEnd '\x00' value).map backslash

def leadIn : Text → LeadIn
  | '\\' :: '\\' :: '?' :: '\\' :: u :: n :: c :: '\\' :: _ =>
    if Text.eqIgnoreAsciiCase [u, n, c] ['U', 'N', 'C'] then .verbatimShare else .verbatim
  | '\\' :: '\\' :: '?' :: '\\' :: _ => .verbatim
  | '\\' :: '\\' :: _ => .share
  | _ => .plain

def shareAt (rest : Text) : Option Place :=
  match named (rest.splitOn '\\') with
  | server :: share :: names => some ⟨.share server share, names⟩
  | _ => none

def driveAt : Text → Option Place
  | letter :: ':' :: rest =>
    if letter.isAlpha ∧ rest.head?.all (· = '\\') then
      some ⟨.drive letter, named (rest.splitOn '\\')⟩
    else none
  | _ => none

def placeAfter : LeadIn → Text → Option Place
  | .verbatimShare | .share => shareAt
  | .verbatim | .plain => driveAt

/-- The place a Windows path names, in whichever spelling. -/
def windowsPlace (value : Text) : Option Place :=
  let text := backslashed value
  placeAfter (leadIn text) (text.drop (leadIn text).text.length)

/-- The lead-in stands there as the parser looks for it. -/
def LeadInWritten (value : Text) : Prop :=
  (leadIn (backslashed value)).text <+: CookieFile.trimEnd '\x00' value

instance (value : Text) : Decidable (LeadInWritten value) := inferInstanceAs (Decidable (_ <+: _))

/-! ## Separators -/

variable {c : Char} {text rest value : Text} {place : Place} {lead : LeadIn}

theorem backslash_eq_backslash : backslash c = '\\' ↔ c = '\\' ∨ c = '/' := by
  rw [backslash]
  split
  next h => simp [h]
  next h => simp [h]

theorem backslash_eq_iff {d : Char} (hd : d ≠ '\\') (hslash : d ≠ '/') :
    backslash c = d ↔ c = d := by
  rw [backslash]
  split
  next h => simp [h, hd.symm, hslash.symm]
  next => exact Iff.rfl

theorem isPathSeparator_iff : isPathSeparator c = true ↔ backslash c = '\\' := by
  rw [backslash_eq_backslash, isPathSeparator, Bool.or_eq_true, decide_eq_true_iff, decide_eq_true_iff]

theorem backslash_of_not_isPathSeparator (h : isPathSeparator c ≠ true) : backslash c = c := by
  refine if_neg fun hslash => h ?_
  rw [hslash]
  rfl

theorem splitOnP_isPathSeparator (text : Text) :
    text.splitOnP isPathSeparator = (text.map backslash).splitOn '\\' := by
  induction text with
  | nil => rfl
  | cons c text ih =>
    rw [List.map_cons, List.splitOnP_cons_eq_if_modifyHead, List.splitOn_cons_eq_if_modifyHead, ih]
    by_cases hc : isPathSeparator c = true
    · rw [if_pos hc, if_pos (by rw [isPathSeparator_iff.mp hc]; rfl)]
    · have hne : (backslash c == '\\') ≠ true := fun heq => hc (isPathSeparator_iff.mpr (eq_of_beq heq))
      rw [if_neg hc, if_neg hne, backslash_of_not_isPathSeparator hc]

theorem windowsSplit_eq (text : Text) :
    windowsSplit text = named ((text.map backslash).splitOn '\\') := by
  rw [windowsSplit, splitOnP_isPathSeparator]

theorem readShare_eq (casing : Casing) (rest : Text) :
    readShare casing rest = (shareAt (rest.map backslash)).map (Place.foreign casing) := by
  rw [readShare, shareAt, windowsSplit_eq]
  rcases named ((rest.map backslash).splitOn '\\') with _ | ⟨server, _ | ⟨share, names⟩⟩ <;> rfl

/-- A drive is read wherever it is named. -/
theorem driveAt_eq (h : driveAt (rest.map backslash) = some place) :
    ∃ letter names, rest = letter :: ':' :: names ∧ letter.isAlpha = true ∧
      names.head?.all isPathSeparator = true ∧ place = ⟨.drive letter, windowsSplit names⟩ := by
  unfold driveAt at h
  split at h
  next letter names hrest =>
    split at h
    next hdrive =>
      obtain ⟨hletter, hnames⟩ := hdrive
      obtain ⟨letter', rest', rfl, hletter', htail⟩ := List.map_eq_cons_iff.mp hrest
      obtain ⟨colon, names', rfl, hcolon, rfl⟩ := List.map_eq_cons_iff.mp htail
      rw [backslash_eq_iff (by decide) (by decide)] at hcolon
      subst hcolon
      have hkept : letter' = letter := by
        have hne : letter ≠ '\\' ∧ letter ≠ '/' := by
          constructor <;> rintro rfl <;> exact absurd hletter (by decide)
        rwa [backslash_eq_iff hne.1 hne.2] at hletter'
      subst hkept
      cases h
      refine ⟨letter', names', rfl, hletter, ?_, by rw [windowsSplit_eq]⟩
      cases names' with
      | nil => rfl
      | cons c names' =>
        refine isPathSeparator_iff.mpr ?_
        simpa using hnames
    next => cases h
  next => cases h

theorem shareAt_eq (h : shareAt (rest.map backslash) = some place) :
    ∃ server share, windowsSplit rest = server :: share :: place.names := by
  rw [shareAt, ← windowsSplit_eq] at h
  split at h
  next server share names heq =>
    cases h
    exact ⟨server, share, heq⟩
  next => cases h

/-! ## What the parser reads -/

theorem withoutVerbatim_of_ne (h : ∀ rest, text ≠ '\\' :: '\\' :: '?' :: '\\' :: rest) :
    withoutVerbatim text = text := by
  unfold withoutVerbatim
  split
  next => exact absurd rfl (h _)
  next => exact absurd rfl (h _)
  next => rfl

theorem readShape_of_ne (casing : Casing) (h : ∀ rest, text ≠ '\\' :: '\\' :: rest) :
    readShape casing text = if isDrive text then readDrive casing text else readPosix text := by
  unfold readShape
  split
  next => exact absurd rfl (h _)
  next => rfl

theorem ne_backslash_of_isAlpha {letter : Char} (h : letter.isAlpha = true) : letter ≠ '\\' := by
  rintro rfl
  exact absurd h (by decide)

/-- A drive is read with its letter in front, verbatim or not. -/
theorem read_drive (casing : Casing) (h : driveAt (rest.map backslash) = some place) :
    readShape casing rest = some (place.foreign casing) ∧ withoutVerbatim rest = rest ∧
      withoutVerbatim ('\\' :: '\\' :: '?' :: '\\' :: rest) = rest := by
  obtain ⟨letter, names, rfl, hletter, hnames, rfl⟩ := driveAt_eq h
  have hread : readDrive casing (letter :: ':' :: names) =
      some (Place.foreign casing ⟨.drive letter, windowsSplit names⟩) := if_pos hnames
  have hne := ne_backslash_of_isAlpha hletter
  refine ⟨?_, withoutVerbatim_of_ne fun rest heq => hne (List.cons.inj heq).1, ?_⟩
  · rw [readShape_of_ne casing fun rest heq => hne (List.cons.inj heq).1, if_pos, hread]
    exact hletter
  · unfold withoutVerbatim
    split
    next heq => simp at heq
    next heq => simpa using heq.symm
    next hverbatim => exact absurd rfl (hverbatim _)

/-- A spelling with the lead-in as the parser looks for it is read as the place it names. -/
theorem parse_of_written (casing : Casing) (hwritten : LeadInWritten value)
    (hplace : windowsPlace value = some place) :
    parse casing value = some (place.foreign casing) := by
  obtain ⟨rest, hrest⟩ := hwritten
  obtain ⟨lead, hlead⟩ : ∃ lead, leadIn (backslashed value) = lead := ⟨_, rfl⟩
  rw [hlead] at hrest
  have htext : backslashed value = lead.text ++ rest.map backslash := by
    rw [backslashed, ← hrest, List.map_append]
    cases lead <;> rfl
  rw [windowsPlace, hlead, htext, List.drop_left] at hplace
  rw [htext] at hlead
  rw [parse, ← hrest]
  cases lead with
  | verbatimShare => exact (readShare_eq casing rest).trans (congrArg _ hplace)
  | verbatim =>
    obtain ⟨hread, -, hverbatim⟩ := read_drive casing hplace
    exact (congrArg _ hverbatim).trans hread
  | share =>
    have hne : ∀ rest', LeadIn.share.text ++ rest ≠ '\\' :: '\\' :: '?' :: '\\' :: rest' := by
      intro rest' heq
      cases heq
      unfold leadIn at hlead
      split at hlead
      next => split at hlead <;> cases hlead
      next => cases hlead
      next hno heq => exact hno _ (List.cons.inj (List.cons.inj heq).2).2.symm
      next => cases hlead
    rw [withoutVerbatim_of_ne hne]
    exact (readShare_eq casing rest).trans (congrArg _ hplace)
  | plain =>
    obtain ⟨hread, hverbatim, -⟩ := read_drive casing hplace
    exact (congrArg _ hverbatim).trans hread

/-! ## What the parser misreads -/

theorem leadIn_ne_plain (h : leadIn text ≠ .plain) : ∃ rest, text = '\\' :: '\\' :: rest := by
  unfold leadIn at h
  split at h
  next => exact ⟨_, rfl⟩
  next => exact ⟨_, rfl⟩
  next => exact ⟨_, rfl⟩
  next => exact absurd rfl h

theorem leadIn_verbatim (h : leadIn text = .verbatim) :
    ∃ rest, text = '\\' :: '\\' :: '?' :: '\\' :: rest := by
  unfold leadIn at h
  split at h
  next => exact ⟨_, rfl⟩
  next => exact ⟨_, rfl⟩
  next => cases h
  next => cases h

theorem leadIn_verbatimShare (h : leadIn text = .verbatimShare) :
    ∃ u n c rest, text = '\\' :: '\\' :: '?' :: '\\' :: u :: n :: c :: '\\' :: rest ∧
      Text.asciiLowercase u = 'u' ∧ Text.asciiLowercase n = 'n' ∧ Text.asciiLowercase c = 'c' := by
  unfold leadIn at h
  split at h
  next u n c rest =>
    split at h
    next heq =>
      have hletters : [Text.asciiLowercase u, Text.asciiLowercase n, Text.asciiLowercase c] =
          ['u', 'n', 'c'] := of_decide_eq_true heq
      simp only [List.cons.injEq, and_true] at hletters
      exact ⟨u, n, c, rest, rfl, hletters⟩
    next => cases h
  next => cases h
  next => cases h
  next => cases h

theorem map_backslash_eq_cons (h : text.map backslash = '\\' :: rest) :
    ∃ c text', text = c :: text' ∧ (c = '\\' ∨ c = '/') ∧ text'.map backslash = rest := by
  obtain ⟨c, text', rfl, hc, hrest⟩ := List.map_eq_cons_iff.mp h
  exact ⟨c, text', rfl, backslash_eq_backslash.mp hc, hrest⟩

theorem map_backslash_eq_cons_of_ne {d : Char} (hd : isPathSeparator d = false)
    (h : text.map backslash = d :: rest) :
    ∃ text', text = d :: text' ∧ text'.map backslash = rest := by
  obtain ⟨c, text', rfl, hc, hrest⟩ := List.map_eq_cons_iff.mp h
  have hne : d ≠ '\\' ∧ d ≠ '/' := by
    constructor <;> rintro rfl <;> cases hd
  rw [backslash_eq_iff hne.1 hne.2] at hc
  exact ⟨text', hc ▸ rfl, hrest⟩

theorem windowsSplit_cons (h : isPathSeparator c = true) (rest : Text) :
    windowsSplit (c :: rest) = windowsSplit rest := by
  rw [windowsSplit, List.splitOnP_cons_eq_if_modifyHead, if_pos h]
  rfl

theorem windowsSplit_append {piece : Text} (hpiece : ∀ c ∈ piece, isPathSeparator c = false)
    (hne : piece ≠ []) (hdot : piece ≠ ['.']) (hrest : rest.head?.all isPathSeparator = true) :
    windowsSplit (piece ++ rest) = piece :: windowsSplit rest := by
  have hnamed (pieces : List Text) : named (piece :: pieces) = piece :: named pieces := by
    rw [named, List.filter_cons_of_pos (by simp [hne, hdot])]
    rfl
  cases rest with
  | nil =>
    rw [List.append_nil, windowsSplit, List.splitOnP_eq_singleton hpiece, hnamed]
    rfl
  | cons c rest =>
    have hc : isPathSeparator c = true := hrest
    rw [windowsSplit_cons hc, windowsSplit, List.splitOnP_append_cons _ _ hc,
      List.splitOnP_eq_singleton hpiece, List.singleton_append, hnamed]
    rfl

/-- A text that begins with a slash is a POSIX path to the parser, and one that begins with both
separators none. -/
theorem parse_slash (casing : Casing) (htext : CookieFile.trimEnd '\x00' value = '/' :: rest) :
    parse casing value =
      some { style := .posix, volume := [], components := named (rest.splitOn '/') } := by
  rw [parse, htext, withoutVerbatim_of_ne (by simp), readShape_of_ne casing (by simp), if_neg]
  · rfl
  · unfold isDrive
    split
    next heq =>
      cases heq
      decide
    next => exact Bool.false_ne_true

theorem parse_mixed (casing : Casing)
    (htext : CookieFile.trimEnd '\x00' value = '\\' :: '/' :: rest) :
    parse casing value = none := by
  rw [parse, htext, withoutVerbatim_of_ne (by simp), readShape_of_ne casing (by simp)]
  rfl

theorem parse_lower_unc (casing : Casing) {u n : Char} (hu : Text.asciiLowercase u = 'u')
    (hn : Text.asciiLowercase n = 'n')
    (hno : ¬['U', 'N', 'C', '\\'] <+: u :: n :: rest)
    (htext : CookieFile.trimEnd '\x00' value = '\\' :: '\\' :: '?' :: '\\' :: u :: n :: rest) :
    parse casing value = none := by
  have hhead : u ≠ '\\' ∧ u ≠ '/' ∧ n ≠ ':' := by
    refine ⟨?_, ?_, ?_⟩
    · rintro rfl
      exact absurd hu (by decide)
    · rintro rfl
      exact absurd hu (by decide)
    · rintro rfl
      exact absurd hn (by decide)
  have hverbatim :
      withoutVerbatim ('\\' :: '\\' :: '?' :: '\\' :: u :: n :: rest) = u :: n :: rest := by
    unfold withoutVerbatim
    split
    next heq =>
      simp only [List.cons.injEq, true_and] at heq
      exact absurd (by simp [heq]) hno
    next heq => simpa using heq.symm
    next hne => exact absurd rfl (hne _)
  rw [parse, htext, hverbatim, readShape_of_ne casing (by simp [hhead.1]), if_neg]
  · unfold readPosix
    split
    next heq => exact absurd (List.cons.inj heq).1 hhead.2.1
    next => rfl
  · unfold isDrive
    split
    next heq => exact absurd (List.cons.inj (List.cons.inj heq).2).1 hhead.2.2
    next => exact Bool.false_ne_true

theorem isPathSeparator_asciiLowercase (h : isPathSeparator (Text.asciiLowercase c) = false) :
    isPathSeparator c = false := by
  refine Bool.eq_false_iff.mpr fun hseparator => ?_
  rw [isPathSeparator, Bool.or_eq_true, decide_eq_true_iff, decide_eq_true_iff] at hseparator
  rcases hseparator with rfl | rfl <;> exact absurd h (by decide)

/-- The verbatim lead-in with a slash at its end: the parser has the question mark for a server. -/
theorem parse_question (casing : Casing)
    (htext : CookieFile.trimEnd '\x00' value = '\\' :: '\\' :: '?' :: '/' :: rest) :
    parse casing value = match windowsSplit rest with
      | share :: names => some {
          style := .windows
          volume := casing.toLowercase ('\\' :: '\\' :: '?' :: '\\' :: share)
          components := names }
      | [] => none := by
  have hsplit : windowsSplit ('?' :: '/' :: rest) = ['?'] :: windowsSplit rest := by
    have hmark : ∀ c ∈ ['?'], isPathSeparator c = false := by simp [isPathSeparator]
    rw [← windowsSplit_cons (c := '/') rfl rest]
    exact windowsSplit_append hmark (by decide) (by decide) rfl
  rw [parse, htext, withoutVerbatim_of_ne (by simp)]
  change readShare casing ('?' :: '/' :: rest) = _
  rw [readShare, hsplit]
  cases windowsSplit rest <;> rfl

/-- What the parser takes a spelling for that it does not read: a POSIX path, a share of two names
too many, or one whose server is a question mark. -/
inductive Misread (casing : Casing) (place : Place) (path : ForeignPath) : Prop
  | posix : path.style = .posix → Misread casing place path
  | server : path.components.length = place.names.length + 2 → Misread casing place path
  | drive {letter : Char} : place.volume = .drive letter →
      path.volume = casing.toLowercase ['\\', '\\', '?', '\\', letter, ':'] →
      Misread casing place path

/-- A verbatim drive that is not led in by backslashes is a share of a question mark. -/
theorem misread_of_verbatim {casing : Casing} {path : ForeignPath}
    (hno : ¬LeadIn.verbatim.text <+: '\\' :: '\\' :: text)
    (hplace : driveAt rest = some place) (hparse : parse casing value = some path)
    (htext : CookieFile.trimEnd '\x00' value = '\\' :: '\\' :: text)
    (hrest : text.map backslash = '?' :: '\\' :: rest) : Misread casing place path := by
  obtain ⟨text, rfl, hmark⟩ := map_backslash_eq_cons_of_ne rfl hrest
  obtain ⟨c, text, rfl, rfl | rfl, rfl⟩ := map_backslash_eq_cons hmark
  · exact absurd ⟨text, rfl⟩ hno
  · obtain ⟨letter, names, rfl, hletter, hnames, rfl⟩ := driveAt_eq hplace
    have hkept : isPathSeparator letter = false := by
      refine Bool.eq_false_iff.mpr fun hseparator => ?_
      rw [isPathSeparator, Bool.or_eq_true, decide_eq_true_iff, decide_eq_true_iff] at hseparator
      rcases hseparator with rfl | rfl <;> exact absurd hletter (by decide)
    have hcolon : isPathSeparator ':' = false := rfl
    have hletters : ∀ c ∈ [letter, ':'], isPathSeparator c = false := by simp [hkept, hcolon]
    have hpiece : windowsSplit (letter :: ':' :: names) = [letter, ':'] :: windowsSplit names :=
      windowsSplit_append hletters (by simp) (by simp) hnames
    rw [parse_question casing htext, hpiece] at hparse
    cases hparse
    exact .drive rfl rfl

/-- A verbatim share that is not led in by backslashes and capitals is none to the parser, or one
whose server is a question mark. -/
theorem misread_of_verbatimShare {casing : Casing} {path : ForeignPath} {u n c : Char}
    (hu : Text.asciiLowercase u = 'u') (hn : Text.asciiLowercase n = 'n')
    (hc : Text.asciiLowercase c = 'c')
    (hno : ¬LeadIn.verbatimShare.text <+: '\\' :: '\\' :: text)
    (hplace : shareAt rest = some place) (hparse : parse casing value = some path)
    (htext : CookieFile.trimEnd '\x00' value = '\\' :: '\\' :: text)
    (hrest : text.map backslash = '?' :: '\\' :: u :: n :: c :: '\\' :: rest) :
    Misread casing place path := by
  have hu' : isPathSeparator u = false := isPathSeparator_asciiLowercase (by rw [hu]; rfl)
  have hn' : isPathSeparator n = false := isPathSeparator_asciiLowercase (by rw [hn]; rfl)
  have hc' : isPathSeparator c = false := isPathSeparator_asciiLowercase (by rw [hc]; rfl)
  obtain ⟨text, rfl, hmark⟩ := map_backslash_eq_cons_of_ne rfl hrest
  obtain ⟨d, text, rfl, hd, hunc⟩ := map_backslash_eq_cons hmark
  obtain ⟨text, rfl, hnc⟩ := map_backslash_eq_cons_of_ne hu' hunc
  obtain ⟨text, rfl, hlast⟩ := map_backslash_eq_cons_of_ne hn' hnc
  obtain ⟨text, rfl, hend⟩ := map_backslash_eq_cons_of_ne hc' hlast
  obtain ⟨e, text, rfl, he, rfl⟩ := map_backslash_eq_cons hend
  rcases hd with rfl | rfl
  · have hcapitals : ¬['U', 'N', 'C', '\\'] <+: u :: n :: c :: e :: text := by
      rintro ⟨rest, heq⟩
      exact hno ⟨rest, congrArg ('\\' :: '\\' :: '?' :: '\\' :: ·) heq⟩
    rw [parse_lower_unc casing hu hn hcapitals htext] at hparse
    cases hparse
  · have hletters : ∀ d ∈ [u, n, c], isPathSeparator d = false := by simp [hu', hn', hc']
    have he : isPathSeparator e = true := isPathSeparator_iff.mpr (backslash_eq_backslash.mpr he)
    obtain ⟨server, share, hnames⟩ := shareAt_eq hplace
    have hpiece : windowsSplit (u :: n :: c :: e :: text) = [u, n, c] :: windowsSplit (e :: text) :=
      windowsSplit_append hletters (by simp) (by simp) he
    rw [parse_question casing htext, hpiece, windowsSplit_cons he, hnames] at hparse
    cases hparse
    exact .server rfl

theorem misread_of_not_written {casing : Casing} {path : ForeignPath} (hno : ¬LeadInWritten value)
    (hplace : windowsPlace value = some place) (hparse : parse casing value = some path) :
    Misread casing place path := by
  have hopened : leadIn (backslashed value) ≠ .plain := by
    intro hlead
    rw [LeadInWritten, hlead] at hno
    exact hno (List.nil_prefix)
  obtain ⟨shape, hshape⟩ := leadIn_ne_plain hopened
  obtain ⟨c, text, htext, hc, hrest⟩ := map_backslash_eq_cons hshape
  obtain ⟨c', text, rfl, hc', rfl⟩ := map_backslash_eq_cons hrest
  rcases hc with rfl | rfl
  · rcases hc' with rfl | rfl
    · rw [windowsPlace] at hplace
      rw [LeadInWritten, htext] at hno
      have hback : backslashed value = '\\' :: '\\' :: text.map backslash := hshape
      cases hlead : leadIn (backslashed value) with
      | plain => exact absurd hlead hopened
      | share =>
        rw [hlead] at hno
        exact absurd ⟨text, rfl⟩ hno
      | verbatim =>
        obtain ⟨rest, hrest⟩ := leadIn_verbatim hlead
        rw [hlead, hrest] at hplace
        rw [hlead] at hno
        rw [hback] at hrest
        simp only [List.cons.injEq, true_and] at hrest
        exact misread_of_verbatim hno hplace hparse htext hrest
      | verbatimShare =>
        obtain ⟨u, n, c, rest, hrest, hu, hn, hc⟩ := leadIn_verbatimShare hlead
        rw [hlead, hrest] at hplace
        rw [hlead] at hno
        rw [hback] at hrest
        simp only [List.cons.injEq, true_and] at hrest
        exact misread_of_verbatimShare hu hn hc hno hplace hparse htext hrest
    · rw [parse_mixed casing htext] at hparse
      cases hparse
  · rw [parse_slash casing htext] at hparse
    cases hparse
    exact .posix rfl

end RDownloader.Backup
