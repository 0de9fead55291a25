import RDownloader.Core.Digits
import RDownloader.Core.Lines

/-!
# Concatenated string literals (`rd-siterules/src/exec/decode.rs`)

The decoding joins what the string literals of a text say and passes over everything else. Against
it stands what a JavaScript string literal says: the forms a character may be written in are data,
so that every choice of escapes is one.
-/

namespace RDownloader

namespace JsString

open Text

/-- What a literal is put between. -/
def quotes : Text := ['"', '\'', '`']

/-! ## The decoding -/

/-- `char::from_u32`. -/
def charFromU32 (code : UInt32) : Option Char :=
  if code.toNat.isValidChar then some (Char.ofNat code.toNat) else none

/-- `unicode_escape`: the character and what is left. -/
def unicodeEscape (width : Nat) (characters : Text) : Option (Char × Text) :=
  let digits := characters.take width
  if byteLength digits ≠ width then none
  else ((parseHex32 digits).bind charFromU32).map (·, characters.drop width)

/-- `braced_or_fixed`. -/
def bracedOrFixed : Text → Option (Char × Text)
  | '\x7b' :: characters =>
    let digits := characters.takeWhile (· ≠ '\x7d')
    ((parseHex32 digits).bind charFromU32).map (·, characters.drop (digits.length + 1))
  | characters => unicodeEscape 4 characters

/-- What a backslash and a character behind it stand for. -/
def escaped (character : Char) (characters : Text) : Option (Char × Text) :=
  match character with
  | 'n' => some ('\n', characters)
  | 'r' => some ('\r', characters)
  | 't' => some ('\t', characters)
  | 'b' => some ('\x08', characters)
  | 'f' => some ('\x0c', characters)
  | 'v' => some ('\x0b', characters)
  | '0' => some ('\x00', characters)
  | 'x' => unicodeEscape 2 characters
  | 'u' => bracedOrFixed characters
  | other => some (other, characters)

/-- The inner loop of `js_string`: what a literal says, and what is left behind it. Every round takes
a character at least. -/
def literal (quote : Char) : Nat → Text → Option (Text × Text)
  | 0, _ => none
  | _ + 1, [] => some ([], [])
  | rounds + 1, inner :: characters =>
    if inner = quote then some ([], characters)
    else if inner ≠ '\\' then
      (literal quote rounds characters).map fun (out, rest) => (inner :: out, rest)
    else
      match characters with
      | [] => none
      | character :: characters =>
        (escaped character characters).bind fun (c, characters) =>
          (literal quote rounds characters).map fun (out, rest) => (c :: out, rest)

/-- The outer loop: whether there was a literal, and what they say. -/
def literals : Nat → Text → Option (Bool × Text)
  | 0, _ => none
  | _ + 1, [] => some (false, [])
  | rounds + 1, character :: characters =>
    if character ∈ quotes then
      (literal character rounds characters).bind fun (out, rest) =>
        (literals rounds rest).map fun (_, more) => (true, out ++ more)
    else literals rounds characters

/-- `js_string`. -/
def jsString (input : Text) : Option Text :=
  (literals (input.length + 1) input).bind fun (found, out) => if found then some out else none

/-! ## What a literal says -/

/-- `LineTerminator`. -/
def isLineTerminator (c : Char) : Bool := c ∈ ['\n', '\r', '\u2028', '\u2029']

/-- `CharacterEscapeSequence` of one character, and `\0`. -/
def singleEscape (letter : Char) : Option Char :=
  match letter with
  | 'b' => some '\x08'
  | 't' => some '\t'
  | 'n' => some '\n'
  | 'v' => some '\x0b'
  | 'f' => some '\x0c'
  | 'r' => some '\r'
  | '0' => some '\x00'
  | letter =>
    if letter.isDigit || letter = 'x' || letter = 'u' || isLineTerminator letter then none
    else some letter

/-- A character as a literal writes it. -/
inductive Written
  | raw (c : Char)
  | single (c letter : Char)
  | hex (c : Char) (digits : Text)
  | unicode (c : Char) (digits : Text)
  /-- Two code units, for a character beyond the basic plane. -/
  | surrogates (c : Char) (high low : Text)
  | braced (c : Char) (digits : Text)
  deriving DecidableEq, Repr

namespace Written

def char : Written → Char
  | raw c | single c _ | hex c _ | unicode c _ | surrogates c _ _ | braced c _ => c

def source : Written → Text
  | raw c => [c]
  | single _ letter => ['\\', letter]
  | hex _ digits => '\\' :: 'x' :: digits
  | unicode _ digits => '\\' :: 'u' :: digits
  | surrogates _ high low => '\\' :: 'u' :: high ++ '\\' :: 'u' :: low
  | braced _ digits => '\\' :: 'u' :: '\x7b' :: digits ++ ['\x7d']

/-- Whether the form is one of the language's for the character. -/
def Valid (quote : Char) : Written → Prop
  | raw c => c ≠ quote ∧ c ≠ '\\' ∧ c ≠ '\r' ∧ (c = '\n' → quote = '`')
  | single c letter => singleEscape letter = some c
  | hex c digits => digits.length = 2 ∧ hexDigits? digits = some c.toNat
  | unicode c digits => digits.length = 4 ∧ hexDigits? digits = some c.toNat
  | surrogates c high low => high.length = 4 ∧ low.length = 4 ∧ ∃ first second,
      hexDigits? high = some first ∧ hexDigits? low = some second ∧
      0xD800 ≤ first ∧ first ≤ 0xDBFF ∧ 0xDC00 ≤ second ∧ second ≤ 0xDFFF ∧
      c.toNat = 0x10000 + (first - 0xD800) * 0x400 + (second - 0xDC00)
  | braced c digits => hexDigits? digits = some c.toNat

/-- What may stand behind a form: no digit behind `\0`, and in a template no brace behind a raw
dollar sign, which would begin a substitution. -/
def Before (quote : Char) (written : Written) (behind : Text) : Prop :=
  (∀ c, written = single c '0' → ∀ d ∈ behind.head?, d.isDigit = false) ∧
    (quote = '`' → written = raw '$' → behind.head? ≠ some '\x7b')

def isSurrogates : Written → Bool
  | surrogates .. => true
  | _ => false

end Written

/-- What stands between the quotes. -/
def body (written : List Written) : Text := written.flatMap Written.source

/-- Whether a body is one a literal between these quotes may have. -/
def ValidBody (quote : Char) : List Written → Prop
  | [] => True
  | first :: rest => first.Valid quote ∧ first.Before quote (body rest) ∧ ValidBody quote rest

/-- A string literal. -/
structure Literal where
  quote : Char
  written : List Written
  quoted : quote ∈ quotes
  valid : ValidBody quote written

namespace Literal

def source (literal : Literal) : Text := literal.quote :: body literal.written ++ [literal.quote]

/-- The string it says. -/
def value (literal : Literal) : Text := literal.written.map Written.char

def hasSurrogates (literal : Literal) : Bool := literal.written.any Written.isSurrogates

end Literal

/-- Literals, each behind some other text, and what stands behind the last. -/
def joined (pieces : List (Text × Literal)) (tail : Text) : Text :=
  (pieces.flatMap fun (between, literal) => between ++ literal.source) ++ tail

/-! ## Reading a form -/

variable {quote c : Char} {written : Written} {rest digits : Text} {result : Option (Text × Text)}
  {n : Nat}

theorem charFromU32_ofNat (h : n ≤ u32Max) :
    charFromU32 (UInt32.ofNat n) = if n.isValidChar then some (Char.ofNat n) else none := by
  rw [charFromU32, UInt32.toNat_ofNat_of_lt' (Nat.lt_succ_of_le h)]

theorem toNat_le_u32Max (c : Char) : c.toNat ≤ u32Max := Nat.le_of_lt_succ c.val.toNat_lt

theorem hexDigits_plus (rest : Text) : hexDigits? ('+' :: rest) = none := by
  rw [hexDigits?, List.foldl_cons, hexStep_plus, foldl_hexStep_none]
  exact List.cons_ne_nil _ _

/-- Digits are read without a sign. -/
theorem parseHex32_of_digits (h : hexDigits? digits = some n) (hn : n ≤ u32Max) :
    parseHex32 digits = some (UInt32.ofNat n) := by
  unfold parseHex32
  split
  next rest =>
    rw [hexDigits_plus] at h
    cases h
  · dsimp only
    rw [h, Option.filter_some, if_pos (decide_eq_true hn), Option.map_some]

theorem charFromU32_of_char (h : hexDigits? digits = some c.toNat) :
    (parseHex32 digits).bind charFromU32 = some c := by
  have hvalid : c.toNat.isValidChar := c.valid
  rw [parseHex32_of_digits h (toNat_le_u32Max c), Option.bind_some,
    charFromU32_ofNat (toNat_le_u32Max c), if_pos hvalid, Char.ofNat_toNat]

theorem charFromU32_of_surrogate (h : hexDigits? digits = some n) (hfirst : 0xD800 ≤ n)
    (hlast : n ≤ 0xDBFF) : (parseHex32 digits).bind charFromU32 = none := by
  have hn : n ≤ u32Max := Nat.le_trans hlast (by decide)
  have hinvalid : ¬ n.isValidChar := by
    unfold Nat.isValidChar
    omega
  rw [parseHex32_of_digits h hn, Option.bind_some, charFromU32_ofNat hn, if_neg hinvalid]

/-! ### Digits -/

theorem hexDigit_of_foldl {value : Option Nat} (h : digits.foldl hexStep value = some n) :
    ∀ c ∈ digits, (hexDigit? c).isSome := by
  induction digits generalizing value with
  | nil => exact fun _ hc => nomatch hc
  | cons c digits ih =>
    rw [List.foldl_cons] at h
    refine List.forall_mem_cons.mpr ⟨?_, ih h⟩
    rw [Option.isSome_iff_ne_none]
    intro hnone
    have hstep : hexStep value c = none := by
      cases value with
      | none => rfl
      | some value => rw [hexStep, hnone, Option.bind_some, Option.map_none]
    rw [hstep, foldl_hexStep_none] at h
    cases h

theorem hexDigit_of_mem (h : hexDigits? digits = some n) : ∀ c ∈ digits, (hexDigit? c).isSome := by
  unfold hexDigits? at h
  split at h
  · cases h
  · exact hexDigit_of_foldl h

theorem utf8Size_of_hexDigit (h : (hexDigit? c).isSome) : c.utf8Size = 1 := by
  have hascii : c.val ≤ 0x7f := by
    unfold hexDigit? at h
    split at h
    next hc => exact UInt32.le_trans hc.2 (by decide)
    · split at h
      next hc => exact UInt32.le_trans hc.2 (by decide)
      · split at h
        next hc => exact UInt32.le_trans hc.2 (by decide)
        · cases h
  exact Char.utf8Size_eq_one_iff.mpr hascii

theorem byteLength_of_hexDigits (h : ∀ c ∈ digits, (hexDigit? c).isSome) :
    byteLength digits = digits.length := by
  induction digits with
  | nil => rfl
  | cons c digits ih =>
    obtain ⟨hc, hdigits⟩ := List.forall_mem_cons.mp h
    rw [byteLength, List.map_cons, List.sum_cons, utf8Size_of_hexDigit hc, List.length_cons,
      Nat.add_comm]
    exact congrArg (· + 1) (ih hdigits)

theorem unicodeEscape_append {width : Nat} (hwidth : digits.length = width)
    (h : hexDigits? digits = some n) :
    unicodeEscape width (digits ++ rest) = ((parseHex32 digits).bind charFromU32).map (·, rest) := by
  subst hwidth
  rw [unicodeEscape, List.take_left, List.drop_left]
  rw [if_neg (not_not_intro (byteLength_of_hexDigits (hexDigit_of_mem h)))]

theorem bracedOrFixed_braced (h : hexDigits? digits = some n) :
    bracedOrFixed ('\x7b' :: digits ++ '\x7d' :: rest) =
      ((parseHex32 digits).bind charFromU32).map (·, rest) := by
  have hdigits : ∀ c ∈ digits, decide (c ≠ '\x7d') = true := by
    intro c hc
    refine decide_eq_true ?_
    rintro rfl
    exact absurd (hexDigit_of_mem h _ hc) (by decide)
  rw [List.cons_append, bracedOrFixed, List.takeWhile_append_of_pos hdigits,
    List.takeWhile_cons_of_neg (by decide), List.append_nil]
  rw [← List.drop_drop, List.drop_left, List.drop_one, List.tail_cons]

theorem bracedOrFixed_fixed (hwidth : digits.length = 4) (h : hexDigits? digits = some n) :
    bracedOrFixed (digits ++ rest) = ((parseHex32 digits).bind charFromU32).map (·, rest) := by
  rw [← unicodeEscape_append hwidth h]
  cases digits with
  | nil => cases hwidth
  | cons d digits =>
    have hd := hexDigit_of_mem h d (List.mem_cons_self ..)
    have hbrace : d ≠ '\x7b' := by
      rintro rfl
      exact absurd hd (by decide)
    rw [List.cons_append, bracedOrFixed]
    intro rest' hcons
    exact hbrace (List.cons.inj hcons).1

/-! ## Reading a literal -/

/-- What a literal reads as, whatever the number of rounds is. -/
def Reads (quote : Char) (text : Text) (result : Option (Text × Text)) : Prop :=
  ∀ rounds, text.length < rounds → literal quote rounds text = result

theorem reads_end (quote : Char) (rest : Text) : Reads quote (quote :: rest) (some ([], rest)) := by
  intro rounds hrounds
  cases rounds with
  | zero => cases hrounds
  | succ rounds =>
    rw [literal.eq_def]
    dsimp only
    rw [if_pos rfl]

theorem Reads.raw (hquote : c ≠ quote) (hbackslash : c ≠ '\\') (h : Reads quote rest result) :
    Reads quote (c :: rest) (result.map fun (out, rest) => (c :: out, rest)) := by
  intro rounds hrounds
  cases rounds with
  | zero => cases hrounds
  | succ rounds =>
    rw [literal.eq_def]
    dsimp only
    rw [if_neg hquote, if_pos hbackslash, h rounds (Nat.lt_of_succ_lt_succ hrounds)]

theorem Reads.escape {letter : Char} {more : Text} (hquote : quote ∈ quotes)
    (hescaped : escaped letter more = some (c, rest)) (hlength : rest.length ≤ more.length)
    (h : Reads quote rest result) :
    Reads quote ('\\' :: letter :: more) (result.map fun (out, rest) => (c :: out, rest)) := by
  intro rounds hrounds
  cases rounds with
  | zero => cases hrounds
  | succ rounds =>
    have hbackslash : '\\' ≠ quote := by
      rintro rfl
      revert hquote
      decide
    rw [literal, if_neg hbackslash, if_neg (not_not_intro rfl)]
    dsimp only
    rw [hescaped, Option.bind_some]
    dsimp only
    rw [h rounds]
    rw [List.length_cons, List.length_cons] at hrounds
    omega

theorem reads_refused {letter : Char} {more : Text} (hquote : quote ∈ quotes)
    (hescaped : escaped letter more = none) : Reads quote ('\\' :: letter :: more) none := by
  intro rounds hrounds
  cases rounds with
  | zero => cases hrounds
  | succ rounds =>
    have hbackslash : '\\' ≠ quote := by
      rintro rfl
      revert hquote
      decide
    rw [literal, if_neg hbackslash, if_neg (not_not_intro rfl)]
    dsimp only
    rw [hescaped, Option.bind_none]

/-- A letter behind a backslash stands for what the language says. -/
theorem escaped_single {letter : Char} (h : singleEscape letter = some c) (rest : Text) :
    escaped letter rest = some (c, rest) := by
  unfold singleEscape at h
  split at h
  · cases h; rfl
  · cases h; rfl
  · cases h; rfl
  · cases h; rfl
  · cases h; rfl
  · cases h; rfl
  · cases h; rfl
  · split at h
    · cases h
    next hletter =>
      cases h
      simp only [Bool.or_eq_true, decide_eq_true_eq, not_or] at hletter
      unfold escaped
      split <;> simp_all

/-- A form that is no pair of surrogates is read as its character, and a pair is refused. -/
theorem reads_written (hquote : quote ∈ quotes) (hvalid : written.Valid quote)
    (h : Reads quote rest result) :
    Reads quote (written.source ++ rest)
      (if written.isSurrogates then none
      else result.map fun (out, rest) => (written.char :: out, rest)) := by
  have hlonger : ∀ digits : Text, rest.length ≤ (digits ++ rest).length := fun digits => by
    rw [List.length_append]
    exact Nat.le_add_left _ _
  cases written with
  | raw c => exact h.raw hvalid.1 hvalid.2.1
  | single c letter => exact h.escape hquote (escaped_single hvalid rest) (Nat.le_refl _)
  | hex c digits =>
    obtain ⟨hwidth, hdigits⟩ := hvalid
    have hescaped : escaped 'x' (digits ++ rest) = some (c, rest) := by
      rw [escaped, unicodeEscape_append hwidth hdigits, charFromU32_of_char hdigits]
      rfl
    exact h.escape hquote hescaped (hlonger digits)
  | unicode c digits =>
    obtain ⟨hwidth, hdigits⟩ := hvalid
    have hescaped : escaped 'u' (digits ++ rest) = some (c, rest) := by
      rw [escaped, bracedOrFixed_fixed hwidth hdigits, charFromU32_of_char hdigits]
      rfl
    exact h.escape hquote hescaped (hlonger digits)
  | surrogates c high low =>
    obtain ⟨hwidth, -, first, second, hfirst, -, hmin, hmax, -⟩ := hvalid
    have hescaped : escaped 'u' (high ++ ('\\' :: 'u' :: low ++ rest)) = none := by
      rw [escaped, bracedOrFixed_fixed hwidth hfirst, charFromU32_of_surrogate hfirst hmin hmax]
      rfl
    have hrefused := reads_refused hquote hescaped
    rw [← List.append_assoc] at hrefused
    exact hrefused
  | braced c digits =>
    have hescaped : escaped 'u' ('\x7b' :: digits ++ '\x7d' :: rest) = some (c, rest) := by
      rw [escaped, bracedOrFixed_braced hvalid, charFromU32_of_char hvalid]
      rfl
    have hlength : rest.length ≤ ('\x7b' :: digits ++ '\x7d' :: rest).length := by
      simp only [List.length_append, List.length_cons]
      omega
    have hsource : (Written.braced c digits).source ++ rest =
        '\\' :: 'u' :: ('\x7b' :: digits ++ '\x7d' :: rest) := by
      rw [Written.source, List.append_assoc]
      rfl
    rw [hsource]
    exact h.escape hquote hescaped hlength

theorem reads_body (hquote : quote ∈ quotes) {forms : List Written} (hvalid : ValidBody quote forms)
    (rest : Text) :
    Reads quote (body forms ++ quote :: rest)
      (if forms.any Written.isSurrogates then none else some (forms.map Written.char, rest)) := by
  induction forms with
  | nil => exact reads_end quote rest
  | cons first forms ih =>
    obtain ⟨hfirst, -, hforms⟩ := hvalid
    have hread := reads_written hquote hfirst (ih hforms)
    rw [← List.append_assoc] at hread
    rw [List.any_cons]
    cases hsurrogates : first.isSurrogates with
    | true =>
      rw [hsurrogates] at hread
      exact hread
    | false =>
      rw [hsurrogates, if_neg Bool.false_ne_true] at hread
      rw [Bool.false_or]
      cases hmore : forms.any Written.isSurrogates with
      | true =>
        rw [hmore] at hread
        exact hread
      | false =>
        rw [hmore] at hread
        exact hread

/-! ## Reading a text -/

variable {pieces : List (Text × Literal)} {tail : Text}

/-- What a text reads as, whatever the number of rounds is. -/
def Joins (text : Text) (result : Option (Bool × Text)) : Prop :=
  ∀ rounds, text.length < rounds → literals rounds text = result

/-- Text without quotes is passed over. -/
theorem Joins.skip {between text : Text} {result : Option (Bool × Text)}
    (hbetween : ∀ c ∈ between, c ∉ quotes) (h : Joins text result) :
    Joins (between ++ text) result := by
  induction between with
  | nil => exact h
  | cons c between ih =>
    obtain ⟨hc, hrest⟩ := List.forall_mem_cons.mp hbetween
    intro rounds hrounds
    cases rounds with
    | zero => cases hrounds
    | succ rounds =>
      rw [List.cons_append, literals, if_neg hc]
      exact ih hrest rounds (Nat.lt_of_succ_lt_succ hrounds)

theorem joins_nil : Joins [] (some (false, [])) := by
  intro rounds hrounds
  cases rounds with
  | zero => cases hrounds
  | succ rounds => rfl

theorem Joins.literal (literal : Literal) {text : Text} {result : Option (Bool × Text)}
    (h : Joins text result) :
    Joins (literal.source ++ text)
      (if literal.hasSurrogates then none
      else result.map fun (_, more) => (true, literal.value ++ more)) := by
  intro rounds hrounds
  cases rounds with
  | zero => cases hrounds
  | succ rounds =>
    have hsource : literal.source ++ text =
        literal.quote :: (body literal.written ++ literal.quote :: text) := by
      rw [Literal.source, List.append_assoc]
      rfl
    rw [hsource] at hrounds ⊢
    have hlength := Nat.lt_of_succ_lt_succ hrounds
    rw [literals, if_pos literal.quoted,
      reads_body literal.quoted literal.valid text rounds hlength, Literal.hasSurrogates]
    split
    · rfl
    · rw [List.length_append, List.length_cons] at hlength
      rw [Option.bind_some]
      dsimp only
      rw [h rounds (by omega)]
      rfl

theorem joins_pieces (hpieces : ∀ piece ∈ pieces, ∀ c ∈ piece.1, c ∉ quotes)
    (htail : ∀ c ∈ tail, c ∉ quotes) :
    Joins (joined pieces tail)
      (if pieces.any (·.2.hasSurrogates) then none
      else some (!pieces.isEmpty, pieces.flatMap (·.2.value))) := by
  induction pieces with
  | nil =>
    have hskip := Joins.skip htail joins_nil
    rw [List.append_nil] at hskip
    exact hskip
  | cons piece pieces ih =>
    obtain ⟨hfirst, hrest⟩ := List.forall_mem_cons.mp hpieces
    have hjoined : joined (piece :: pieces) tail =
        piece.1 ++ (piece.2.source ++ joined pieces tail) := by
      rw [joined, List.flatMap_cons, List.append_assoc, List.append_assoc]
      rfl
    rw [hjoined, List.any_cons]
    have hread := Joins.skip hfirst ((ih hrest).literal piece.2)
    cases hsurrogates : piece.2.hasSurrogates with
    | true =>
      rw [hsurrogates] at hread
      exact hread
    | false =>
      rw [hsurrogates, if_neg Bool.false_ne_true] at hread
      rw [Bool.false_or]
      cases hmore : pieces.any (·.2.hasSurrogates) with
      | true =>
        rw [hmore] at hread
        exact hread
      | false =>
        rw [hmore] at hread
        exact hread

/-- Joined literals decode to the concatenation of what they say exactly when there is one and none
of them writes a character as two surrogates. -/
theorem decoded_iff (hpieces : ∀ piece ∈ pieces, ∀ c ∈ piece.1, c ∉ quotes)
    (htail : ∀ c ∈ tail, c ∉ quotes) :
    jsString (joined pieces tail) = some (pieces.flatMap (·.2.value)) ↔
      pieces ≠ [] ∧ ∀ piece ∈ pieces, piece.2.hasSurrogates = false := by
  rw [jsString, joins_pieces hpieces htail _ (Nat.lt_succ_self _)]
  cases hsurrogates : pieces.any (·.2.hasSurrogates) with
  | true =>
    obtain ⟨piece, hmem, hpiece⟩ := List.any_eq_true.mp hsurrogates
    constructor
    · intro h
      cases h
    · rintro ⟨-, hnone⟩
      rw [hnone piece hmem] at hpiece
      cases hpiece
  | false =>
    have hnone : ∀ piece ∈ pieces, piece.2.hasSurrogates = false := fun piece hmem =>
      Bool.eq_false_iff.mpr (List.any_eq_false.mp hsurrogates piece hmem)
    cases pieces with
    | nil => exact ⟨fun h => (nomatch h), fun h => absurd rfl h.1⟩
    | cons piece pieces => exact ⟨fun _ => ⟨List.cons_ne_nil _ _, hnone⟩, fun _ => rfl⟩

/-- `"a\x2f"`. -/
def slashLiteral : Literal where
  quote := '"'
  written := [.raw 'a', .hex '/' ['2', 'f']]
  quoted := by decide
  valid := ⟨⟨by decide, by decide, by decide, by decide⟩,
    ⟨fun _ h => (nomatch h), fun _ h => (nomatch h)⟩, ⟨rfl, rfl⟩,
    ⟨fun _ h => (nomatch h), fun _ h => (nomatch h)⟩, trivial⟩

/-- A character beyond the basic plane. -/
def grin : Char := Char.ofNat 0x1f600

/-- `'\u{1f600}'`. -/
def bracedLiteral : Literal where
  quote := '\''
  written := [.braced grin ['1', 'f', '6', '0', '0']]
  quoted := by decide
  valid := ⟨rfl, ⟨fun _ h => (nomatch h), fun _ h => (nomatch h)⟩, trivial⟩

theorem decoded_slash_and_braced :
    jsString (joined [(['='], slashLiteral), ([' ', '+'], bracedLiteral)] [';']) =
      some ['a', '/', grin] :=
  (decoded_iff (by simp [quotes]) (by simp [quotes])).mpr
    ⟨List.cons_ne_nil _ _, by
      simp [slashLiteral, bracedLiteral, Literal.hasSurrogates, Written.isSurrogates]⟩

/-- `"\ud83d\ude00"`. -/
def pairLiteral : Literal where
  quote := '"'
  written := [.surrogates grin ['d', '8', '3', 'd'] ['d', 'e', '0', '0']]
  quoted := by decide
  valid := ⟨⟨rfl, rfl, 0xd83d, 0xde00, rfl, rfl, by decide, by decide, by decide, by decide, rfl⟩,
    ⟨fun _ h => (nomatch h), fun _ h => (nomatch h)⟩, trivial⟩

/-- A literal that writes a character as two surrogates says the character, and is not decoded. -/
theorem pair_refused : pairLiteral.value = [grin] ∧
    jsString (joined [([], pairLiteral)] []) = none := by
  decide

end JsString

end RDownloader
