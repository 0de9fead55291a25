import Mathlib.Data.List.DropRight
import RDownloader.Files.Names

/-!
# Names every system takes

A sanitised name is read in two steps, the name before it is cut and what the cut leaves of it. The
first has every property a portable name has; the cut can lay a device name bare, and either can end
in white space that the next pass trims.
-/

namespace RDownloader

namespace Names

open Text

/-- A character the sanitiser keeps. -/
def permitted (c : Char) : Bool :=
  !(isControl c || c.toNat = 0xfffd || "<>:\"/\\|?*".toList.contains c)

/-- A name of permitted characters that does not end in a dot or a space. -/
structure Clean (limit : Nat) (name : Text) : Prop where
  nonempty : name ≠ []
  units : utf16Units name ≤ limit
  permitted : ∀ c ∈ name, permitted c = true
  ending : ∀ c ∈ name.getLast?, c ≠ '.' ∧ c ≠ ' '

/-- What Windows, Linux and macOS take as a name. -/
structure Portable (limit : Nat) (name : Text) : Prop extends Clean limit name where
  device : isWindowsReserved name = false

/-- What Unicode's composed normal form keeps: parts of a normal text are normal, and no character
of ASCII composes with what stands before it, or the underscore with what follows. -/
structure NormalForm (nfc : Text → Text) : Prop where
  idempotent (text : Text) : nfc (nfc text) = nfc text
  part (a b c : Text) : nfc (a ++ b ++ c) = a ++ b ++ c → nfc b = b
  ascii (text : Text) : (∀ c ∈ text, c.toNat < 128) → nfc text = text
  joined (a b : Text) (c : Char) : nfc a = a → nfc (c :: b) = c :: b → c.toNat < 128 →
    nfc (a ++ c :: b) = a ++ c :: b
  underscore (text : Text) : nfc text = text → nfc ('_' :: text) = '_' :: text

/-- A text ends in white space. -/
def EndsWhite (text : Text) : Prop := ∃ c ∈ text.getLast?, isWhiteSpace c = true

/-! ## Trimming -/

def isDot (c : Char) : Bool := c = '.' || c = ' '

variable {text a b : Text} {c : Char} {limit : Nat}

theorem trimEndDots_eq (text : Text) : trimEndDots text = text.rdropWhile isDot := rfl

theorem trimEndDots_isPrefix (text : Text) : trimEndDots text <+: text := List.rdropWhile_prefix ..

theorem last_trimEndDots (text : Text) : ∀ c ∈ (trimEndDots text).getLast?, c ≠ '.' ∧ c ≠ ' ' := by
  intro c hc
  have hne : trimEndDots text ≠ [] := by
    rintro heq
    rw [heq] at hc
    cases hc
  have hlast : isDot ((trimEndDots text).getLast hne) ≠ true :=
    List.rdropWhile_last_not isDot text hne
  rw [Option.mem_def, List.getLast?_eq_some_getLast hne] at hc
  rw [Option.some.inj hc] at hlast
  simpa [isDot] using hlast

theorem trimEndDots_of_last (h : ∀ c ∈ text.getLast?, c ≠ '.' ∧ c ≠ ' ') :
    trimEndDots text = text := by
  rw [trimEndDots_eq, List.rdropWhile_eq_self_iff]
  intro hne
  simpa [isDot] using h _ (List.getLast?_eq_some_getLast hne)

/-- What is trimmed away is dots and spaces. -/
theorem exists_trimEndDots (text : Text) :
    ∃ gap, text = trimEndDots text ++ gap ∧ ∀ c ∈ gap, isDot c = true :=
  ⟨text.rtakeWhile isDot, (List.rdropWhile_append_rtakeWhile ..).symm,
    fun _ hc => List.mem_rtakeWhile_imp hc⟩

theorem trimEndDots_append_gap (h : ∀ c ∈ b, isDot c = true) :
    trimEndDots (a ++ b) = trimEndDots a := by
  induction b using List.reverseRecOn with
  | nil => rw [List.append_nil]
  | append_singleton b c ih =>
    rw [trimEndDots_eq, ← List.append_assoc,
      List.rdropWhile_concat_pos _ _ _ (h c (by simp)), ← trimEndDots_eq]
    exact ih fun c hc => h c (List.mem_append_left _ hc)

theorem trimEndDots_cons (h : isDot c = false) : trimEndDots (c :: text) = c :: trimEndDots text := by
  rw [trimEndDots_eq, trimEndDots_eq, List.rdropWhile, List.reverse_cons, List.dropWhile_append]
  split
  next hempty =>
    rw [List.isEmpty_iff] at hempty
    rw [List.rdropWhile, hempty, List.dropWhile_cons_of_neg (by simp [h])]
    rfl
  next => simp [List.rdropWhile]

theorem trimmed_isInfix (text : Text) : trimmed text <:+: text :=
  (List.rdropWhile_prefix isWhiteSpace _).isInfix.trans (List.dropWhile_suffix _).isInfix

/-! ## Units -/

@[simp] theorem utf16Units_nil : utf16Units [] = 0 := rfl

theorem utf16Units_cons (c : Char) (text : Text) :
    utf16Units (c :: text) = utf16Units [c] + utf16Units text := by
  simp [utf16Units]

theorem utf16Units_append (a b : Text) : utf16Units (a ++ b) = utf16Units a + utf16Units b := by
  simp [utf16Units]

theorem utf16Units_pos (c : Char) : 0 < utf16Units [c] := by
  unfold utf16Units
  simp only [List.map_cons, List.map_nil, List.sum_cons, List.sum_nil]
  split <;> decide

theorem utf16Units_of_ascii (h : ∀ c ∈ text, c.toNat < 128) : utf16Units text = text.length := by
  induction text with
  | nil => rfl
  | cons c text ih =>
    have hc := h c (List.mem_cons_self ..)
    have hunit : utf16Units [c] = 1 := by
      simp [utf16Units, show c.toNat < 0x10000 by omega]
    rw [utf16Units_cons, hunit, ih fun c hc => h c (List.mem_cons_of_mem _ hc), List.length_cons]
    omega

theorem takeUnits_isPrefix (limit : Nat) (text : Text) : takeUnits limit text <+: text := by
  induction text generalizing limit with
  | nil => exact List.nil_prefix
  | cons c text ih =>
    rw [takeUnits]
    split
    · exact List.nil_prefix
    · exact List.cons_prefix_cons.mpr ⟨rfl, ih _⟩

theorem units_takeUnits (limit : Nat) (text : Text) : utf16Units (takeUnits limit text) ≤ limit := by
  induction text generalizing limit with
  | nil => simp [takeUnits]
  | cons c text ih =>
    rw [takeUnits]
    split
    · exact Nat.zero_le _
    · have := ih (limit - utf16Units [c])
      rw [utf16Units_cons]
      omega

/-- What fits and is followed by what does not is what is taken. -/
theorem takeUnits_append (hfits : utf16Units a ≤ limit)
    (hfull : ∀ c ∈ b.head?, limit < utf16Units a + utf16Units [c]) :
    takeUnits limit (a ++ b) = a := by
  induction a generalizing limit with
  | nil =>
    cases b with
    | nil => rfl
    | cons c b =>
      have := hfull c rfl
      rw [List.nil_append, takeUnits, if_pos (by simpa using this)]
  | cons c a ih =>
    rw [utf16Units_cons] at hfits hfull
    rw [List.cons_append, takeUnits, if_neg (by omega)]
    congr 1
    refine ih (by omega) fun d hd => ?_
    have := hfull d hd
    omega

theorem exists_takeUnits (limit : Nat) (text : Text) :
    ∃ rest, text = takeUnits limit text ++ rest ∧
      ∀ c ∈ rest.head?, limit < utf16Units (takeUnits limit text) + utf16Units [c] := by
  induction text generalizing limit with
  | nil => exact ⟨[], rfl, fun _ h => nomatch h⟩
  | cons c text ih =>
    rw [takeUnits]
    split
    next hfull => exact ⟨c :: text, rfl, fun d hd => by cases hd; simpa using hfull⟩
    next hfits =>
      obtain ⟨rest, htext, hrest⟩ := ih (limit - utf16Units [c])
      refine ⟨rest, by rw [List.cons_append, ← htext], fun d hd => ?_⟩
      have := hrest d hd
      rw [utf16Units_cons]
      omega

/-! ## Device names -/

/-- What of a name Windows compares with its devices. -/
def baseName (fileName : Text) : Text :=
  trimEndDots <| match splitOnce '.' fileName with
    | some (base, _) => base
    | none => fileName

def isDevice (base : Text) : Bool :=
  if base ∈ ["CON", "PRN", "AUX", "NUL", "CONIN$", "CONOUT$"].map String.toList then true
  else
    match base with
    | ['C', 'O', 'M', port] | ['L', 'P', 'T', port] =>
      port.isDigit || port.toNat ∈ [0xb9, 0xb2, 0xb3]
    | _ => false

theorem isWindowsReserved_eq (fileName : Text) :
    isWindowsReserved fileName = isDevice (toAsciiUppercase (baseName fileName)) := rfl

/-- No device begins with an underscore. -/
theorem not_reserved_underscore (text : Text) : isWindowsReserved ('_' :: text) = false := by
  have hbase : ∃ rest, baseName ('_' :: text) = '_' :: rest := by
    rw [baseName, splitOnce, if_neg (by decide)]
    cases splitOnce '.' text with
    | none => exact ⟨_, trimEndDots_cons (by decide)⟩
    | some split => exact ⟨_, trimEndDots_cons (by decide)⟩
  obtain ⟨rest, hrest⟩ := hbase
  have hupper : toAsciiUppercase ('_' :: rest) = '_' :: toAsciiUppercase rest := rfl
  rw [isWindowsReserved_eq, hrest, hupper]
  rfl

/-- An extension does not make or hide a device. -/
theorem reserved_append_suffix (h : b = [] ∨ b.head? = some '.') :
    isWindowsReserved (a ++ b) = isWindowsReserved a := by
  have hbase : baseName (a ++ b) = baseName a := by
    cases hsplit : splitOnce '.' a with
    | some split =>
      obtain ⟨rfl, hkey⟩ := splitOnce_eq hsplit
      rw [baseName, baseName, hsplit, List.append_assoc, List.cons_append, splitOnce_append hkey]
    | none =>
      rcases h with rfl | h
      · rw [List.append_nil]
      · obtain ⟨b, rfl⟩ := List.head?_eq_some_iff.mp h
        rw [baseName, baseName, hsplit, splitOnce_append (splitOnce_eq_none.mp hsplit)]
  rw [isWindowsReserved_eq, isWindowsReserved_eq, hbase]

/-! ## The name before it is cut -/

variable {nfc : Text → Text} {input : Text}

def replaceForbidden (c : Char) : Char :=
  if isControl c || c.toNat = 0xfffd || "<>:\"/\\|?*".toList.contains c then '_' else c

/-- The input without what no name holds or begins or ends with. -/
def cleaned (nfc : Text → Text) (input : Text) : Text :=
  trimEndDots (trimmed ((nfc input).map replaceForbidden))

/-- The name that is cut when it is too long. -/
def uncut (nfc : Text → Text) (input : Text) : Text :=
  let sanitized := if cleaned nfc input = [] then "download".toList else cleaned nfc input
  if isWindowsReserved sanitized then '_' :: sanitized else sanitized

theorem sanitizeToLimit_eq (nfc : Text → Text) (input : Text) (limit : Nat) :
    sanitizeToLimit nfc input limit = truncateUtf16 (uncut nfc input) limit := rfl

theorem permitted_replaceForbidden (c : Char) : permitted (replaceForbidden c) = true := by
  unfold replaceForbidden permitted
  split
  · decide
  next h => simpa using h

theorem replaceForbidden_eq_self (h : permitted c = true) : replaceForbidden c = c := by
  unfold permitted at h
  exact if_neg (by simpa using h)

theorem permitted_cleaned (h : c ∈ cleaned nfc input) : permitted c = true := by
  have hmem := mem_of_mem_trimmed ((trimEndDots_isPrefix _).subset h)
  obtain ⟨d, -, rfl⟩ := List.mem_map.mp hmem
  exact permitted_replaceForbidden d

theorem head_cleaned : ∀ c ∈ (cleaned nfc input).head?, isWhiteSpace c = false := by
  intro c hc
  obtain ⟨gap, hsplit⟩ := trimEndDots_isPrefix (trimmed ((nfc input).map replaceForbidden))
  refine (tight_trimmed ((nfc input).map replaceForbidden)).1 c ?_
  rw [← hsplit, List.head?_append]
  exact Option.mem_def.mp hc ▸ rfl

theorem plain_download (c : Char) (h : c ∈ "download".toList) :
    permitted c = true ∧ c.toNat < 128 := by
  have hall : "download".toList.all (fun c => permitted c && c.toNat < 128) = true := by decide
  simpa using List.all_eq_true.mp hall c h

/-- What the last step before the cut leaves, by what it did. -/
theorem uncut_cases (nfc : Text → Text) (input : Text) :
    uncut nfc input = "download".toList ∨
      cleaned nfc input ≠ [] ∧ (uncut nfc input = cleaned nfc input ∧
          isWindowsReserved (cleaned nfc input) = false ∨
        uncut nfc input = '_' :: cleaned nfc input ∧
          isWindowsReserved (cleaned nfc input) = true) := by
  unfold uncut
  dsimp only
  by_cases hempty : cleaned nfc input = []
  · left
    rw [if_pos hempty]
    decide +kernel
  · refine .inr ⟨hempty, ?_⟩
    rw [if_neg hempty]
    cases hreserved : isWindowsReserved (cleaned nfc input) with
    | false => exact .inl ⟨if_neg Bool.false_ne_true, rfl⟩
    | true => exact .inr ⟨if_pos rfl, rfl⟩

theorem uncut_ne_nil (nfc : Text → Text) (input : Text) : uncut nfc input ≠ [] := by
  rcases uncut_cases nfc input with h | ⟨hne, ⟨h, -⟩ | ⟨h, -⟩⟩
  · rw [h]; decide
  · rwa [h]
  · rw [h]; exact List.cons_ne_nil _ _

theorem permitted_uncut (h : c ∈ uncut nfc input) : permitted c = true := by
  rcases uncut_cases nfc input with heq | ⟨-, ⟨heq, -⟩ | ⟨heq, -⟩⟩ <;> rw [heq] at h
  · exact (plain_download c h).1
  · exact permitted_cleaned h
  · rcases List.mem_cons.mp h with rfl | h
    · decide
    · exact permitted_cleaned h

theorem head_uncut : ∀ c ∈ (uncut nfc input).head?, isWhiteSpace c = false := by
  rcases uncut_cases nfc input with heq | ⟨-, ⟨heq, -⟩ | ⟨heq, -⟩⟩ <;> rw [heq]
  · rintro _ ⟨⟩
    decide
  · exact head_cleaned
  · rintro _ ⟨⟩
    decide

theorem last_uncut : ∀ c ∈ (uncut nfc input).getLast?, c ≠ '.' ∧ c ≠ ' ' := by
  rcases uncut_cases nfc input with heq | ⟨hne, ⟨heq, -⟩ | ⟨heq, -⟩⟩ <;> rw [heq]
  · rintro _ ⟨⟩
    decide
  · exact last_trimEndDots _
  · rw [List.getLast?_cons_of_ne_nil hne]
    exact last_trimEndDots _

theorem not_reserved_uncut (nfc : Text → Text) (input : Text) :
    isWindowsReserved (uncut nfc input) = false := by
  rcases uncut_cases nfc input with heq | ⟨-, ⟨heq, h⟩ | ⟨heq, -⟩⟩ <;> rw [heq]
  · decide +kernel
  · exact h
  · exact not_reserved_underscore _

namespace NormalForm

variable (h : NormalForm nfc)
include h

theorem of_isPrefix (hab : a <+: b) (hb : nfc b = b) : nfc a = a := by
  obtain ⟨rest, rfl⟩ := hab
  exact h.part [] a rest hb

theorem of_isInfix (hab : a <:+: b) (hb : nfc b = b) : nfc a = a := by
  obtain ⟨front, rest, rfl⟩ := hab
  exact h.part front a rest hb

/-- Replacing characters one after the other leaves the text normal. -/
theorem map_replaceForbidden (a b : Text) (hab : nfc (a ++ b) = a ++ b) :
    nfc (a ++ b.map replaceForbidden) = a ++ b.map replaceForbidden := by
  induction b generalizing a with
  | nil => exact hab
  | cons c b ih =>
    have hnext : nfc (a ++ replaceForbidden c :: b) = a ++ replaceForbidden c :: b := by
      unfold replaceForbidden
      split
      · have ha : nfc a = a := h.of_isPrefix (List.prefix_append ..) hab
        have hb : nfc b = b :=
          h.of_isInfix ((List.suffix_cons c b).trans (List.suffix_append a _)).isInfix hab
        exact h.joined a b '_' ha (h.underscore b hb) (by decide)
      · exact hab
    have hmap := ih (a ++ [replaceForbidden c]) (by simpa using hnext)
    simpa using hmap

theorem cleaned (input : Text) : nfc (cleaned nfc input) = Names.cleaned nfc input := by
  have hmap : nfc ((nfc input).map replaceForbidden) = (nfc input).map replaceForbidden :=
    h.map_replaceForbidden [] (nfc input) (h.idempotent input)
  exact h.of_isInfix ((trimEndDots_isPrefix _).isInfix.trans (trimmed_isInfix _)) hmap

theorem uncut (input : Text) : nfc (uncut nfc input) = Names.uncut nfc input := by
  rcases uncut_cases nfc input with heq | ⟨-, ⟨heq, -⟩ | ⟨heq, -⟩⟩ <;> rw [heq]
  · exact h.ascii _ fun c hc => (plain_download c hc).2
  · exact h.cleaned input
  · exact h.underscore _ (h.cleaned input)

end NormalForm

/-! ## The cut -/

/-- What is cut, and the extension that is kept behind it. -/
def stemAndSuffix (input : Text) : Text × Text :=
  match rsplitOnce '.' input with
  | some (stem, extension) =>
    if stem ≠ [] ∧ extension ≠ [] ∧ extension.byteLength ≤ maxExtensionChars ∧
        extension.all isAsciiAlphanumeric then (stem, '.' :: extension)
    else (input, [])
  | none => (input, [])

/-- An extension that is kept: a dot and at most eight letters and digits. -/
def KeptSuffix (suffix : Text) : Prop :=
  ∃ extension, suffix = '.' :: extension ∧ extension ≠ [] ∧ extension.length ≤ maxExtensionChars ∧
    ∀ c ∈ extension, isAsciiAlphanumeric c = true

theorem truncateUtf16_eq (input : Text) (limit : Nat) :
    truncateUtf16 input limit =
      if utf16Units input ≤ limit then input
      else
        let result := trimEndDots
          (takeUnits (limit - utf16Units (stemAndSuffix input).2) (stemAndSuffix input).1)
        (if result = [] then "download".toList else result) ++ (stemAndSuffix input).2 := rfl

theorem length_le_byteLength (text : Text) : text.length ≤ text.byteLength := by
  induction text with
  | nil => exact Nat.le_refl _
  | cons c text ih =>
    have hc := Char.utf8Size_pos c
    have hsum : byteLength (c :: text) = c.utf8Size + byteLength text := rfl
    rw [hsum, List.length_cons]
    omega

theorem stemAndSuffix_spec (input : Text) :
    input = (stemAndSuffix input).1 ++ (stemAndSuffix input).2 ∧
      ((stemAndSuffix input).2 = [] ∨ KeptSuffix (stemAndSuffix input).2) := by
  unfold stemAndSuffix
  split
  next stem extension hsplit =>
    split
    next h =>
      refine ⟨(rsplitOnce_eq hsplit).1, .inr ⟨extension, rfl, h.2.1, ?_, ?_⟩⟩
      · exact (length_le_byteLength extension).trans h.2.2.1
      · exact List.all_eq_true.mp h.2.2.2
    next => exact ⟨(List.append_nil _).symm, .inl rfl⟩
  next => exact ⟨(List.append_nil _).symm, .inl rfl⟩

theorem toNat_of_alphanumeric (h : isAsciiAlphanumeric c = true) :
    48 ≤ c.toNat ∧ c.toNat ≤ 57 ∨ 65 ≤ c.toNat ∧ c.toNat ≤ 90 ∨ 97 ≤ c.toNat ∧ c.toNat ≤ 122 := by
  obtain h | h := Bool.or_eq_true_iff.mp h
  · obtain h | h := Bool.or_eq_true_iff.mp (h : (c.isUpper || c.isLower) = true)
    · exact .inr (.inl (of_decide_eq_true h))
    · have h := Bool.and_eq_true_iff.mp h
      exact .inr (.inr ⟨of_decide_eq_true h.1, of_decide_eq_true h.2⟩)
  · exact .inl (Char.isDigit_iff_toNat.mp h)

/-- A letter or digit is kept wherever it stands in a name. -/
theorem alphanumeric_kept (h : isAsciiAlphanumeric c = true) :
    permitted c = true ∧ isWhiteSpace c = false ∧ c ≠ '.' ∧ c ≠ ' ' := by
  have hall : ∀ n < 128, isAsciiAlphanumeric (Char.ofNat n) = true →
      permitted (Char.ofNat n) = true ∧ isWhiteSpace (Char.ofNat n) = false ∧
        Char.ofNat n ≠ '.' ∧ Char.ofNat n ≠ ' ' := by
    decide +kernel
  have hnat := toNat_of_alphanumeric h
  rw [← Char.ofNat_toNat c] at h ⊢
  exact hall c.toNat (by omega) h

namespace KeptSuffix

variable {suffix : Text} (h : KeptSuffix suffix)
include h

theorem mem (hc : c ∈ suffix) : c = '.' ∨ isAsciiAlphanumeric c = true := by
  obtain ⟨extension, rfl, -, -, hall⟩ := h
  exact (List.mem_cons.mp hc).imp_right (hall c)

theorem ascii : ∀ c ∈ suffix, c.toNat < 128 := by
  intro c hc
  rcases h.mem hc with rfl | hc
  · decide
  · have := toNat_of_alphanumeric hc
    omega

theorem last (hc : c ∈ suffix.getLast?) : isAsciiAlphanumeric c = true := by
  obtain ⟨extension, rfl, hne, -, hall⟩ := h
  rw [List.getLast?_cons_of_ne_nil hne] at hc
  exact hall c (List.mem_of_mem_getLast? hc)

theorem permitted (hc : c ∈ suffix) : permitted c = true := by
  rcases h.mem hc with rfl | hc
  · decide
  · exact (alphanumeric_kept hc).1

theorem units : utf16Units suffix ≤ 9 := by
  rw [utf16Units_of_ascii h.ascii]
  obtain ⟨extension, rfl, -, hlength, -⟩ := h
  have : extension.length ≤ 8 := hlength
  rw [List.length_cons]
  omega

end KeptSuffix

/-- Where a name that is too long is cut: of its stem no more fits than `front` and dots and spaces
behind it. -/
structure CutBehind (limit : Nat) (name front : Text) : Prop where
  long : limit < utf16Units name
  last : ∀ c ∈ front.getLast?, c ≠ '.' ∧ c ≠ ' '
  room : ∃ gap rest, (stemAndSuffix name).1 = front ++ gap ++ rest ∧
    (∀ c ∈ gap, isDot c = true) ∧
    utf16Units (front ++ gap) ≤ limit - utf16Units (stemAndSuffix name).2 ∧
    ∀ c ∈ rest.head?,
      limit - utf16Units (stemAndSuffix name).2 < utf16Units (front ++ gap) + utf16Units [c]

variable {name front : Text}

theorem CutBehind.eq (h : CutBehind limit name front) :
    trimEndDots (takeUnits (limit - utf16Units (stemAndSuffix name).2) (stemAndSuffix name).1) =
      front := by
  obtain ⟨gap, rest, hstem, hgap, hfits, hfull⟩ := h.room
  rw [hstem, takeUnits_append hfits hfull, trimEndDots_append_gap hgap,
    trimEndDots_of_last h.last]

theorem exists_cutBehind (h : limit < utf16Units name) : ∃ front, CutBehind limit name front := by
  obtain ⟨rest, hstem, hrest⟩ :=
    exists_takeUnits (limit - utf16Units (stemAndSuffix name).2) (stemAndSuffix name).1
  have hunits := units_takeUnits (limit - utf16Units (stemAndSuffix name).2) (stemAndSuffix name).1
  obtain ⟨gap, htaken, hgap⟩ := exists_trimEndDots
    (takeUnits (limit - utf16Units (stemAndSuffix name).2) (stemAndSuffix name).1)
  rw [htaken] at hstem hrest hunits
  exact ⟨_, h, last_trimEndDots _, gap, rest, hstem, hgap, hunits, hrest⟩

theorem truncateUtf16_of_cutBehind (h : CutBehind limit name front) :
    truncateUtf16 name limit =
      (if front = [] then "download".toList else front) ++ (stemAndSuffix name).2 := by
  rw [truncateUtf16_eq, if_neg (by have := h.long; omega)]
  dsimp only
  rw [h.eq]

/-- What is left of the stem, or the name that stands in for it. -/
def keptFront (front : Text) : Text := if front = [] then "download".toList else front

theorem suffix_cases (name : Text) :
    (stemAndSuffix name).2 = [] ∨ KeptSuffix (stemAndSuffix name).2 := (stemAndSuffix_spec name).2

theorem suffix_head (name : Text) :
    (stemAndSuffix name).2 = [] ∨ (stemAndSuffix name).2.head? = some '.' := by
  refine (suffix_cases name).imp_right ?_
  rintro ⟨extension, heq, -⟩
  rw [heq]
  rfl

namespace CutBehind

theorem isPrefix (h : CutBehind limit name front) : front <+: name := by
  obtain ⟨gap, rest, hstem, -⟩ := h.room
  rw [(stemAndSuffix_spec name).1, hstem, List.append_assoc, List.append_assoc]
  exact List.prefix_append ..

theorem units (hlimit : 24 ≤ limit) (h : CutBehind limit name front) :
    utf16Units (keptFront front ++ (stemAndSuffix name).2) ≤ limit := by
  have hsuffix : utf16Units (stemAndSuffix name).2 ≤ 9 := by
    rcases suffix_cases name with heq | hkept
    · rw [heq]; decide
    · exact hkept.units
  rw [utf16Units_append, keptFront]
  split
  · have : utf16Units "download".toList = 8 := by decide
    omega
  · obtain ⟨gap, -, -, -, hfits, -⟩ := h.room
    rw [utf16Units_append] at hfits
    omega

theorem permitted (hname : ∀ c ∈ name, permitted c = true) (h : CutBehind limit name front) :
    ∀ c ∈ keptFront front ++ (stemAndSuffix name).2, permitted c = true := by
  intro c hc
  rcases List.mem_append.mp hc with hc | hc
  · rw [keptFront] at hc
    split at hc
    · exact (plain_download c hc).1
    · exact hname c (h.isPrefix.subset hc)
  · rcases suffix_cases name with heq | hkept
    · rw [heq] at hc
      cases hc
    · exact hkept.permitted hc

theorem last_keptFront (h : CutBehind limit name front) :
    ∀ c ∈ (keptFront front).getLast?, c ≠ '.' ∧ c ≠ ' ' := by
  rw [keptFront]
  split
  · rintro _ ⟨⟩
    decide
  · exact h.last

theorem ending (h : CutBehind limit name front) :
    ∀ c ∈ (keptFront front ++ (stemAndSuffix name).2).getLast?, c ≠ '.' ∧ c ≠ ' ' := by
  rcases suffix_cases name with heq | hkept
  · rw [heq, List.append_nil]
    exact h.last_keptFront
  · intro c hc
    have hne : (stemAndSuffix name).2 ≠ [] := by
      obtain ⟨extension, heq, -⟩ := hkept
      rw [heq]
      exact List.cons_ne_nil _ _
    rw [List.getLast?_append_of_ne_nil _ hne] at hc
    exact (alphanumeric_kept (hkept.last hc)).2.2

theorem reserved (front : Text) (name : Text) :
    isWindowsReserved (keptFront front ++ (stemAndSuffix name).2) = isWindowsReserved front := by
  rw [reserved_append_suffix (suffix_head name), keptFront]
  split
  next h =>
    rw [h]
    decide +kernel
  next => rfl

theorem clean (hlimit : 24 ≤ limit) (hname : ∀ c ∈ name, Names.permitted c = true)
    (h : CutBehind limit name front) : Clean limit (keptFront front ++ (stemAndSuffix name).2) := by
  refine ⟨?_, h.units hlimit, h.permitted hname, h.ending⟩
  rw [keptFront]
  split
  · exact List.cons_ne_nil _ _
  next hne => exact List.append_ne_nil_of_left_ne_nil hne _

end CutBehind

/-- The cut lays no device name bare. -/
def NoDeviceBared (nfc : Text → Text) (input : Text) (limit : Nat) : Prop :=
  ∀ front, CutBehind limit (uncut nfc input) front → isWindowsReserved front = false

/-- What is returned is the name that fits, or what is cut of the one that does not. -/
theorem sanitize_cases (nfc : Text → Text) (input : Text) (limit : Nat) :
    utf16Units (uncut nfc input) ≤ limit ∧ sanitizeToLimit nfc input limit = uncut nfc input ∨
      ∃ front, CutBehind limit (uncut nfc input) front ∧ sanitizeToLimit nfc input limit =
        keptFront front ++ (stemAndSuffix (uncut nfc input)).2 := by
  rw [sanitizeToLimit_eq]
  by_cases hfits : utf16Units (uncut nfc input) ≤ limit
  · exact .inl ⟨hfits, by rw [truncateUtf16_eq, if_pos hfits]⟩
  · obtain ⟨front, h⟩ := exists_cutBehind (Nat.not_le.mp hfits)
    exact .inr ⟨front, h, truncateUtf16_of_cutBehind h⟩

theorem clean_sanitize (nfc : Text → Text) (input : Text) (hlimit : 24 ≤ limit) :
    Clean limit (sanitizeToLimit nfc input limit) := by
  rcases sanitize_cases nfc input limit with ⟨hfits, heq⟩ | ⟨front, h, heq⟩ <;> rw [heq]
  · exact ⟨uncut_ne_nil nfc input, hfits, fun c => permitted_uncut, last_uncut⟩
  · exact h.clean hlimit fun c => permitted_uncut

/-- A sanitised name is portable exactly when the cut lays no device name bare. -/
theorem portable_iff (hlimit : 24 ≤ limit) :
    Portable limit (sanitizeToLimit nfc input limit) ↔ NoDeviceBared nfc input limit := by
  have hclean := clean_sanitize nfc input hlimit
  rcases sanitize_cases nfc input limit with ⟨hfits, heq⟩ | ⟨front, h, heq⟩ <;>
    rw [heq] at hclean ⊢
  · refine ⟨fun _ front h => absurd h.long (Nat.not_lt.mpr hfits), fun _ => ?_⟩
    exact ⟨hclean, not_reserved_uncut nfc input⟩
  · constructor
    · intro hportable front' h'
      rw [← h'.eq, h.eq, ← CutBehind.reserved front (uncut nfc input)]
      exact hportable.device
    · intro hall
      exact ⟨hclean, (CutBehind.reserved ..).trans (hall front h)⟩

/-! ## The next pass -/

/-- The next pass trims the white space a name ends in, and dots and spaces before it. -/
theorem cleaned_of_endsWhite (hnormal : nfc name = name) (hmap : name.map replaceForbidden = name)
    (hhead : ∀ c ∈ name.head?, isWhiteSpace c = false) (h : EndsWhite name) :
    ∃ rest c, name = cleaned nfc name ++ rest ++ [c] ∧ isWhiteSpace c = true := by
  obtain ⟨c, hc, hwhite⟩ := h
  obtain ⟨init, hinit⟩ := List.getLast?_eq_some_iff.mp hc
  have htrimmed : trimmed name = init.rdropWhile isWhiteSpace := by
    have hrdrop : trimmed name = name.rdropWhile isWhiteSpace := by
      rw [trimmed, dropWhile_eq_self hhead, List.rdropWhile]
    rw [hrdrop, hinit, List.rdropWhile_concat_pos _ _ _ hwhite]
  have hprefix : cleaned nfc name <+: init := by
    rw [cleaned, hnormal, hmap, htrimmed]
    exact (trimEndDots_isPrefix _).trans (List.rdropWhile_prefix ..)
  obtain ⟨rest, hrest⟩ := hprefix
  exact ⟨rest, c, by rw [hrest, ← hinit], hwhite⟩

/-- A portable name stays as it is exactly when it does not end in white space. -/
theorem Portable.fixed_iff (hlimit : 24 ≤ limit) (hnormal : nfc name = name)
    (hhead : ∀ c ∈ name.head?, isWhiteSpace c = false) (h : Portable limit name) :
    sanitizeToLimit nfc name limit = name ↔ ¬ EndsWhite name := by
  have hmap : name.map replaceForbidden = name := by
    calc name.map replaceForbidden
      _ = name.map id := List.map_congr_left fun c hc => replaceForbidden_eq_self (h.permitted c hc)
      _ = name := List.map_id name
  rw [sanitizeToLimit_eq, truncateUtf16_eq]
  constructor
  · intro hfixed hends
    obtain ⟨rest, c, hname, hwhite⟩ := cleaned_of_endsWhite hnormal hmap hhead hends
    have hunits : utf16Units (cleaned nfc name) + 1 ≤ limit := by
      have hall := h.units
      have hlast := utf16Units_pos c
      rw [hname, utf16Units_append, utf16Units_append] at hall
      omega
    rcases uncut_cases nfc name with huncut | ⟨hne, ⟨huncut, -⟩ | ⟨huncut, hreserved⟩⟩ <;>
      rw [huncut] at hfixed
    · rw [if_pos (le_trans (by decide) hlimit)] at hfixed
      obtain ⟨d, hd, hwhite⟩ := hends
      rw [← hfixed] at hd
      cases hd
      cases hwhite
    · rw [if_pos (by omega)] at hfixed
      have hlength := congrArg List.length (hfixed.trans hname)
      simp at hlength
    · have hunderscore : utf16Units ['_'] = 1 := by decide
      rw [utf16Units_cons, hunderscore, if_pos (by omega)] at hfixed
      -- the underscore was there before, and so what follows it was no device
      obtain ⟨d, cleaned', heq⟩ := List.exists_cons_of_ne_nil hne
      have hcons := hfixed.trans hname
      rw [heq] at hcons hreserved
      cases (List.cons.inj hcons).1
      rw [not_reserved_underscore] at hreserved
      cases hreserved
  · intro hends
    have htight : name.Tight := by
      refine ⟨hhead, fun c hc => ?_⟩
      exact Bool.eq_false_iff.mpr fun hwhite => hends ⟨c, hc, hwhite⟩
    have hcleaned : cleaned nfc name = name := by
      rw [cleaned, hnormal, hmap, trimmed_of_tight htight, trimEndDots_of_last h.ending]
    have huncut : uncut nfc name = name := by
      unfold uncut
      dsimp only
      rw [hcleaned, if_neg h.nonempty, if_neg (by rw [h.device]; exact Bool.false_ne_true)]
    rw [huncut, if_pos h.units]

namespace CutBehind

theorem normal (hnfc : NormalForm nfc) (hname : nfc name = name) (h : CutBehind limit name front) :
    nfc (keptFront front ++ (stemAndSuffix name).2) =
      keptFront front ++ (stemAndSuffix name).2 := by
  have hfront : nfc (keptFront front) = keptFront front := by
    rw [keptFront]
    split
    · exact hnfc.ascii _ fun c hc => (plain_download c hc).2
    · exact hnfc.of_isPrefix h.isPrefix hname
  rcases suffix_cases name with heq | hkept
  · rw [heq, List.append_nil]
    exact hfront
  · have hsuffix := hnfc.ascii _ hkept.ascii
    obtain ⟨extension, heq, -⟩ := hkept
    rw [heq] at hsuffix ⊢
    exact hnfc.joined _ _ _ hfront hsuffix (by decide)

theorem head (hname : ∀ c ∈ name.head?, isWhiteSpace c = false) (h : CutBehind limit name front) :
    ∀ c ∈ (keptFront front ++ (stemAndSuffix name).2).head?, isWhiteSpace c = false := by
  rw [keptFront]
  split
  · rintro _ ⟨⟩
    decide
  next hne =>
    obtain ⟨c, front, rfl⟩ := List.exists_cons_of_ne_nil hne
    obtain ⟨rest, rfl⟩ := h.isPrefix
    exact hname

/-- An extension ends in no white space, and hides what it stands behind. -/
theorem endsWhite_iff (front name : Text) :
    EndsWhite (keptFront front ++ (stemAndSuffix name).2) ↔
      (stemAndSuffix name).2 = [] ∧ EndsWhite front := by
  rcases suffix_cases name with heq | hkept
  · rw [heq, List.append_nil, and_iff_right rfl, keptFront]
    split
    next hempty =>
      rw [hempty]
      refine ⟨?_, ?_⟩
      · rintro ⟨_, ⟨⟩, hwhite⟩
        cases hwhite
      · rintro ⟨_, ⟨⟩, -⟩
    next => exact Iff.rfl
  · have hne : (stemAndSuffix name).2 ≠ [] := by
      obtain ⟨extension, heq, -⟩ := hkept
      rw [heq]
      exact List.cons_ne_nil _ _
    refine iff_of_false ?_ fun h => hne h.1
    rintro ⟨c, hc, hwhite⟩
    rw [List.getLast?_append_of_ne_nil _ hne] at hc
    rw [(alphanumeric_kept (hkept.last hc)).2.1] at hwhite
    cases hwhite

end CutBehind

/-- What decides over the next pass: the cut lays no device name bare, and where no extension
follows, what is left ends in no white space. -/
structure Settles (nfc : Text → Text) (input : Text) (limit : Nat) : Prop where
  device : NoDeviceBared nfc input limit
  whole : utf16Units (uncut nfc input) ≤ limit → ¬ EndsWhite (uncut nfc input)
  cut : ∀ front, CutBehind limit (uncut nfc input) front →
    (stemAndSuffix (uncut nfc input)).2 = [] → ¬ EndsWhite front

/-- A sanitised name is portable and sanitised to itself exactly when the name settles. -/
theorem portable_and_fixed_iff (hnfc : NormalForm nfc) (hlimit : 24 ≤ limit) :
    Portable limit (sanitizeToLimit nfc input limit) ∧
        sanitizeToLimit nfc (sanitizeToLimit nfc input limit) limit =
          sanitizeToLimit nfc input limit ↔
      Settles nfc input limit := by
  have hdevice : Portable limit (sanitizeToLimit nfc input limit) ↔ NoDeviceBared nfc input limit :=
    portable_iff hlimit
  rcases sanitize_cases nfc input limit with ⟨hfits, heq⟩ | ⟨front, hcut, heq⟩ <;>
    rw [heq] at hdevice ⊢
  · have hfixed (hportable : Portable limit (uncut nfc input)) :=
      hportable.fixed_iff hlimit (hnfc.uncut input) head_uncut
    constructor
    · rintro ⟨hportable, heq⟩
      exact ⟨hdevice.mp hportable, fun _ => (hfixed hportable).mp heq,
        fun front h => absurd h.long (Nat.not_lt.mpr hfits)⟩
    · intro h
      have hportable := hdevice.mpr h.device
      exact ⟨hportable, (hfixed hportable).mpr (h.whole hfits)⟩
  · have hfixed (hportable : Portable limit _) :=
      hportable.fixed_iff hlimit (hcut.normal hnfc (hnfc.uncut input)) (hcut.head head_uncut)
    simp only [CutBehind.endsWhite_iff, not_and] at hfixed
    constructor
    · rintro ⟨hportable, heq⟩
      refine ⟨hdevice.mp hportable, fun hle => absurd hcut.long (Nat.not_lt.mpr hle),
        fun front' hcut' => ?_⟩
      rw [← hcut'.eq, hcut.eq]
      exact (hfixed hportable).mp heq
    · intro h
      have hportable := hdevice.mpr h.device
      exact ⟨hportable, (hfixed hportable).mpr (h.cut front hcut)⟩

theorem normalForm_id : NormalForm id where
  idempotent _ := rfl
  part _ _ _ _ := rfl
  ascii _ _ := rfl
  joined _ _ _ _ _ _ := rfl
  underscore _ _ := rfl

theorem question_settles :
    Portable 24 (sanitizeToLimit id "What now?".toList 24) ∧
      sanitizeToLimit id (sanitizeToLimit id "What now?".toList 24) 24 =
        sanitizeToLimit id "What now?".toList 24 := by
  refine (portable_and_fixed_iff normalForm_id (by decide)).mpr
    ⟨fun front h => absurd h.long (by decide +kernel), fun _ => ?_,
      fun front h => absurd h.long (by decide +kernel)⟩
  rintro ⟨c, hc, hwhite⟩
  have hlast : (uncut id "What now?".toList).getLast? = some '_' := by decide +kernel
  cases hlast.symm.trans hc
  cases hwhite

/-- The blanks behind a device name are cut away with what stood behind them, and a no-break space
shows when the dot behind it is trimmed. -/
theorem device_bared :
    sanitizeToLimit id ("CON".toList ++ List.replicate 30 ' ' ++ "x".toList) 24 = "CON".toList ∧
      isWindowsReserved "CON".toList = true ∧
      sanitizeToLimit id ['a', '\u00a0', '.'] 24 = ['a', '\u00a0'] ∧
      sanitizeToLimit id ['a', '\u00a0'] 24 = ['a'] := by
  decide +kernel

end Names
end RDownloader
