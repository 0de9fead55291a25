import Mathlib.Data.List.TakeWhile
import RDownloader.Core.Lines
import RDownloader.Usenet.Yenc

/-!
# The `=ybegin` line

The name is the last field of the line and runs to its end. The decoder splits the line at blanks
first, so it keeps the name up to its first blank, and takes the words behind for fields.
-/

namespace RDownloader

namespace Text

variable {text word rest key value : Text} {c : Char} {b : UInt8}

/-! ## Bytes of a text -/

@[simp] theorem encode_append (a b : Text) : encode (a ++ b) = encode a ++ encode b :=
  List.flatMap_append

theorem fromUtf8_encode (text : Text) : fromUtf8 (encode text) = some text := by
  have hdecode := List.utf8Decode?_utf8Encode (l := text)
  rw [List.utf8Encode] at hdecode
  rw [fromUtf8, encode, hdecode]
  rfl

/-- A byte below 128 stands for itself. -/
theorem toNat_of_mem_utf8EncodeChar (hb : b ∈ String.utf8EncodeChar c) (hlow : b.toNat < 128) :
    c.toNat = b.toNat := by
  have hc : c.val.toNat = c.toNat := rfl
  rw [String.utf8EncodeChar, hc] at hb
  split at hb
  · rw [List.mem_singleton.mp hb, UInt8.toNat_ofNat']
    omega
  · exfalso
    revert hlow
    split at hb
    · simp only [List.mem_cons, List.not_mem_nil, or_false] at hb
      rcases hb with rfl | rfl <;> rw [UInt8.toNat_ofNat'] <;> omega
    · split at hb
      · simp only [List.mem_cons, List.not_mem_nil, or_false] at hb
        rcases hb with rfl | rfl | rfl <;> rw [UInt8.toNat_ofNat'] <;> omega
      · simp only [List.mem_cons, List.not_mem_nil, or_false] at hb
        rcases hb with rfl | rfl | rfl | rfl <;> rw [UInt8.toNat_ofNat'] <;> omega

theorem ascii_toNat (hc : c.toNat < 128) : (ascii c).toNat = c.toNat := by
  rw [ascii, UInt8.toNat_ofNat']
  omega

/-- An ASCII character is in a text when its byte is among the bytes. -/
theorem mem_of_ascii_mem_encode (hc : c.toNat < 128) (h : ascii c ∈ encode text) : c ∈ text := by
  obtain ⟨c', hmem, hb⟩ := List.mem_flatMap.mp h
  have heq := toNat_of_mem_utf8EncodeChar hb (by rwa [ascii_toNat hc])
  rw [ascii_toNat hc] at heq
  rwa [← Char.toNat_inj.mp heq]

theorem encode_ascii (h : text.all (·.toNat < 128) = true) : encode text = text.map ascii := by
  induction text with
  | nil => rfl
  | cons c text ih =>
    rw [List.all_cons, Bool.and_eq_true] at h
    have hc : String.utf8EncodeChar c = [ascii c] := by
      have hlow := of_decide_eq_true h.1
      have hval : c.val.toNat = c.toNat := rfl
      rw [String.utf8EncodeChar, hval, if_pos (by omega), ascii]
    rw [encode, List.flatMap_cons, hc, List.map_cons, ← ih h.2]
    rfl

/-! ## Words -/

/-- A word without blanks. -/
def Plain (word : Text) : Prop := ∀ c ∈ word, isAsciiWhitespace c = false

theorem plain_of_all (h : word.all (!isAsciiWhitespace ·) = true) : Plain word := by
  intro c hc
  simpa using List.all_eq_true.mp h c hc

theorem splitAsciiWhitespace_plain (h : Plain word) (hne : word ≠ []) :
    splitAsciiWhitespace word = [word] := by
  rw [splitAsciiWhitespace, List.splitOnP_eq_singleton h]
  exact List.filter_cons_of_pos (decide_eq_true hne)

theorem splitAsciiWhitespace_append (hc : isAsciiWhitespace c) :
    splitAsciiWhitespace (text ++ c :: rest) =
      splitAsciiWhitespace text ++ splitAsciiWhitespace rest := by
  rw [splitAsciiWhitespace, List.splitOnP_append_cons _ _ hc, List.filter_append]
  rfl

@[simp] theorem splitAsciiWhitespace_nil : splitAsciiWhitespace [] = [] := rfl

/-- What stands before the first blank. -/
def firstWord (text : Text) : Text := text.takeWhile (!isAsciiWhitespace ·)

/-- What stands from the first blank on. -/
def behindFirst (text : Text) : Text := text.dropWhile (!isAsciiWhitespace ·)

theorem firstWord_plain (text : Text) : Plain (firstWord text) := by
  intro c hc
  simpa using List.mem_takeWhile_imp hc

theorem firstWord_eq (h : Plain text) : firstWord text = text :=
  List.takeWhile_eq_self_iff.mpr fun c hc => by rw [h c hc]; rfl

theorem behindFirst_eq (h : Plain text) : behindFirst text = [] :=
  List.dropWhile_eq_nil_iff.mpr fun c hc => by rw [h c hc]; rfl

/-- Behind a word, the first one of the text belongs to it. -/
theorem splitAsciiWhitespace_word (h : Plain word) (hne : word ≠ []) :
    splitAsciiWhitespace (word ++ text) =
      (word ++ firstWord text) :: splitAsciiWhitespace (behindFirst text) := by
  have hplain : Plain (word ++ firstWord text) := by
    intro c hc
    obtain hc | hc := List.mem_append.mp hc
    · exact h c hc
    · exact firstWord_plain text c hc
  have hne' : word ++ firstWord text ≠ [] := by simp [hne]
  have hsplit : text = firstWord text ++ behindFirst text := (List.takeWhile_append_dropWhile).symm
  cases hbehind : behindFirst text with
  | nil =>
    rw [hbehind, List.append_nil] at hsplit
    rw [← hsplit, splitAsciiWhitespace_nil, hsplit, splitAsciiWhitespace_plain hplain hne']
  | cons c rest =>
    have hc : isAsciiWhitespace c := by
      have hhead := List.head?_dropWhile_not (!isAsciiWhitespace ·) text
      rw [← behindFirst, hbehind] at hhead
      simpa using hhead
    have hnone : splitAsciiWhitespace ([] ++ c :: rest) = _ := splitAsciiWhitespace_append hc
    rw [List.nil_append, splitAsciiWhitespace_nil, List.nil_append] at hnone
    rw [hbehind] at hsplit
    calc splitAsciiWhitespace (word ++ text)
      _ = splitAsciiWhitespace (word ++ firstWord text ++ c :: rest) := by
        rw [List.append_assoc, ← hsplit]
      _ = (word ++ firstWord text) :: splitAsciiWhitespace (c :: rest) := by
        rw [splitAsciiWhitespace_append hc, splitAsciiWhitespace_plain hplain hne', hnone]
        rfl

end Text
namespace Yenc

open Text

/-! ## Lines -/

section
variable {line rest : Bytes} {fields more : Fields} {key : String}

theorem lines_cons (hline : ascii '\n' ∉ line) :
    lines (line ++ ascii '\n' :: rest) = trimCr line :: lines rest := by
  have hplain : ∀ b ∈ line, decide (b = ascii '\n') = false :=
    fun b hb => decide_eq_false fun heq => hline (heq ▸ hb)
  have hfeed : decide (ascii '\n' = ascii '\n') = true := decide_eq_true rfl
  rw [lines, List.splitOnP_append_cons line rest (p := (decide <| · = ascii '\n')) hfeed,
    List.splitOnP_eq_singleton hplain]
  rfl

theorem trimCr_eq (hline : ascii '\r' ∉ line) : trimCr line = line :=
  if_neg fun hlast => hline (List.mem_of_getLast? hlast)

theorem lines_last (hline : ascii '\n' ∉ line) : lines line = [trimCr line] := by
  have hplain : ∀ b ∈ line, decide (b = ascii '\n') = false :=
    fun b hb => decide_eq_false fun heq => hline (heq ▸ hb)
  rw [lines, List.splitOnP_eq_singleton hplain]
  rfl

@[simp] theorem trimCr_append : trimCr (line ++ [ascii '\r']) = line := by
  rw [trimCr, List.getLast?_concat, if_pos rfl, List.dropLast_concat]

theorem parseFields_encode (text : Text) : parseFields (encode text) = .ok (fieldsOf text) := by
  rw [parseFields, fromUtf8_encode]

theorem text_append : text (fields ++ more) key = (text fields key).or (text more key) :=
  List.findSome?_append

theorem text_cons_ne {field : Text × Text} (h : field.1 ≠ key.toList) :
    text (field :: fields) key = text fields key := by
  rw [text, List.findSome?_cons, if_neg h]
  rfl

theorem numeric_append (h : numeric fields key = .ok n) :
    numeric (fields ++ more) key = .ok n := by
  rw [numeric, text_append]
  cases htext : text fields key with
  | none =>
    rw [numeric, htext] at h
    cases h
  | some value =>
    rw [numeric, htext] at h
    exact h

end

/-! ## Headers -/

def beginWord : Text := "=ybegin".toList

def nameWord : Text := "name=".toList

theorem beginWord_plain : Plain beginWord := plain_of_all (by decide)

theorem nameWord_plain : Plain nameWord := plain_of_all (by decide)

/-- An `=ybegin` line. -/
structure Header where
  /-- The fields in front of the name. -/
  words : List Text
  name : Text
  words_ne : ∀ word ∈ words, word ≠ []
  words_plain : ∀ word ∈ words, Plain word
  words_other : ∀ word ∈ words, ¬ nameWord <+: word
  name_line : ∀ c ∈ name, c ≠ '\n' ∧ c ≠ '\r'

namespace Header

variable {header : Header} {words : List Text} {word tail : Text} {key : String}

def line (header : Header) : Text :=
  beginWord ++ (header.words.flatMap (' ' :: ·) ++ ' ' :: (nameWord ++ header.name))

/-- The fields in front of the name. -/
def fields (header : Header) : Fields := header.words.filterMap (splitOnce '=')

/-- The words of the name behind its first blank that look like fields. -/
def nameFields (header : Header) : Fields :=
  (splitAsciiWhitespace (behindFirst header.name)).filterMap (splitOnce '=')

theorem not_mem_line (hc : c = '\n' ∨ c = '\r') (header : Header) : c ∉ header.line := by
  have hblank : isAsciiWhitespace c := by rcases hc with rfl | rfl <;> rfl
  have hspace : c ≠ ' ' := by rcases hc with rfl | rfl <;> decide
  have hfixed : c ∉ beginWord ∧ c ∉ nameWord := by
    rcases hc with rfl | rfl <;> exact ⟨by decide, by decide⟩
  have hname : c ∉ header.name := by
    intro hmem
    have hline := header.name_line c hmem
    rcases hc with rfl | rfl
    · exact hline.1 rfl
    · exact hline.2 rfl
  intro hmem
  simp only [line, List.mem_append, List.mem_cons, List.mem_flatMap] at hmem
  obtain hmem | ⟨word, hword, hmem | hmem⟩ | hmem | hmem | hmem := hmem
  · exact hfixed.1 hmem
  · exact hspace hmem
  · exact absurd hblank (by rw [header.words_plain word hword c hmem]; exact Bool.false_ne_true)
  · exact hspace hmem
  · exact hfixed.2 hmem
  · exact hname hmem

/-- A word, more words with a blank in front of each, and what follows them. -/
theorem splitAsciiWhitespace_words (hword : Plain word) (hword' : word ≠ [])
    (hplain : ∀ word ∈ words, Plain word) (hne : ∀ word ∈ words, word ≠ []) :
    splitAsciiWhitespace (word ++ (words.flatMap (' ' :: ·) ++ ' ' :: tail)) =
      word :: words ++ splitAsciiWhitespace tail := by
  induction words generalizing word with
  | nil =>
    rw [List.flatMap_nil, List.nil_append, splitAsciiWhitespace_append rfl,
      splitAsciiWhitespace_plain hword hword']
  | cons next words ih =>
    rw [List.flatMap_cons, List.cons_append, List.cons_append, splitAsciiWhitespace_append rfl,
      splitAsciiWhitespace_plain hword hword', List.append_assoc,
      ih (hplain next List.mem_cons_self) (hne next List.mem_cons_self)
        (fun w hw => hplain w (List.mem_cons_of_mem _ hw))
        fun w hw => hne w (List.mem_cons_of_mem _ hw)]
    rfl

/-- The decoder's fields: the header's own, the name's first word, and fields inside the name. -/
theorem fieldsOf_line (header : Header) :
    fieldsOf header.line =
      header.fields ++ ("name".toList, firstWord header.name) :: header.nameFields := by
  have hname : splitAsciiWhitespace (nameWord ++ header.name) = _ :=
    splitAsciiWhitespace_word nameWord_plain nofun
  rw [fieldsOf, line, splitAsciiWhitespace_words beginWord_plain nofun header.words_plain
    header.words_ne, hname, List.cons_append, List.drop_one, List.tail_cons, List.filterMap_append]
  rfl

/-- No field in front of the name is called so. -/
theorem text_fields_name (header : Header) : text header.fields "name" = none := by
  refine List.findSome?_eq_none_iff.mpr fun field hfield => if_neg fun hkey => ?_
  obtain ⟨word, hword, hsplit⟩ := List.mem_filterMap.mp hfield
  obtain ⟨key, value⟩ := field
  obtain rfl : key = "name".toList := hkey
  refine header.words_other word hword ⟨value, ?_⟩
  rw [(splitOnce_eq hsplit).1]
  rfl

/-- The name comes out up to its first blank. -/
theorem text_name (header : Header) :
    Yenc.text (fieldsOf header.line) "name" = some (firstWord header.name) := by
  rw [fieldsOf_line, text_append, text_fields_name]
  rfl

/-- A number in front of the name is read there. -/
theorem numeric_line (h : numeric header.fields key = .ok n) :
    numeric (fieldsOf header.line) key = .ok n := by
  rw [fieldsOf_line]
  exact numeric_append h

/-- A name without blanks hides no field. -/
theorem numeric_line_eq (h : Plain header.name) (hkey : "name" ≠ key) :
    numeric (fieldsOf header.line) key = numeric header.fields key := by
  have hnone : header.nameFields = [] := by
    rw [nameFields, behindFirst_eq h]
    rfl
  have hname : "name".toList ≠ key.toList := fun heq => hkey (String.toList_inj.mp heq)
  rw [numeric, numeric, fieldsOf_line, hnone, text_append, text_cons_ne hname]
  cases Yenc.text header.fields key <;> rfl

end Header

/-! ## Articles -/

/-- An article: lines in front of the header, the header, and bytes behind it. -/
structure Article where
  before : List Bytes
  header : Header
  /-- What stands between the line and its line feed. -/
  ending : Bytes
  rest : Bytes
  before_lines : ∀ line ∈ before, ascii '\n' ∉ line
  before_other : ∀ line ∈ before, ¬ beginMark <+: trimCr line
  ending_eq : ending = [] ∨ ending = [ascii '\r']

/-! An article may begin with its header. -/

theorem Article.nil_lines : ∀ line ∈ ([] : List Bytes), ascii '\n' ∉ line := List.forall_mem_nil _

theorem Article.nil_other : ∀ line ∈ ([] : List Bytes), ¬ beginMark <+: trimCr line :=
  List.forall_mem_nil _

namespace Article

variable {article : Article} {before : List Bytes} {crc32 : Bytes → UInt32}
  {decoded : DecodedArticle}

def bytes (article : Article) : Bytes :=
  article.before.flatMap (· ++ [ascii '\n']) ++
    (encode article.header.line ++ article.ending ++ ascii '\n' :: article.rest)

/-- What the format makes of the article: the name as it is, the size from the fields in front. -/
def decodeAs (crc32 : Bytes → UInt32) (article : Article) : Except String DecodedArticle :=
  (numeric article.header.fields "size").bind fun declaredSize =>
    decodeNamed crc32 article.header.name declaredSize (lines article.rest)

theorem lines_before (hlines : ∀ line ∈ before, ascii '\n' ∉ line) (rest : Bytes) :
    lines (before.flatMap (· ++ [ascii '\n']) ++ rest) = before.map trimCr ++ lines rest := by
  induction before with
  | nil => rfl
  | cons line before ih =>
    rw [List.flatMap_cons, List.append_assoc, List.append_assoc, List.singleton_append,
      lines_cons (hlines line List.mem_cons_self),
      ih fun line hline => hlines line (List.mem_cons_of_mem _ hline)]
    rfl

theorem beginMark_begins (header : Header) : beginMark <+: encode header.line := by
  have hmark : encode (beginWord ++ [' ']) = beginMark := encode_ascii (by decide)
  have hprefix : beginWord ++ [' '] <+: header.line := by
    rw [Header.line]
    cases header.words with
    | nil => exact ⟨nameWord ++ header.name, rfl⟩
    | cons word words => exact ⟨_, by rw [List.flatMap_cons, List.append_assoc]; rfl⟩
  obtain ⟨tail, htail⟩ := hprefix
  exact ⟨encode tail, by rw [← hmark, ← encode_append, htail]⟩

/-- The lines of an article. -/
theorem lines_bytes (article : Article) :
    lines article.bytes =
      article.before.map trimCr ++ encode article.header.line :: lines article.rest := by
  have hfeed : ascii '\n' ∉ encode article.header.line :=
    fun h => article.header.not_mem_line (.inl rfl) (mem_of_ascii_mem_encode (by decide) h)
  have hreturn : ascii '\r' ∉ encode article.header.line :=
    fun h => article.header.not_mem_line (.inr rfl) (mem_of_ascii_mem_encode (by decide) h)
  rw [bytes, lines_before article.before_lines]
  obtain hending | hending := article.ending_eq
  · rw [hending, List.append_nil, lines_cons hfeed, trimCr_eq hreturn]
  · have hboth : ascii '\n' ∉ encode article.header.line ++ [ascii '\r'] := fun h =>
      (List.mem_append.mp h).elim hfeed (by decide)
    rw [hending, lines_cons hboth, trimCr_append]

theorem decodeYenc_bytes (article : Article) :
    decodeYenc crc32 article.bytes = (numeric (fieldsOf article.header.line) "size").bind
      fun declaredSize =>
        decodeNamed crc32 (firstWord article.header.name) declaredSize (lines article.rest) := by
  have hbefore : ∀ line ∈ article.before.map trimCr, (!beginMark.isPrefixOf line) = true := by
    intro line hline
    obtain ⟨raw, hraw, rfl⟩ := List.mem_map.mp hline
    rw [Bool.not_eq_true', ← Bool.not_eq_true, List.isPrefixOf_iff_prefix]
    exact article.before_other raw hraw
  have hheader : beginMark.isPrefixOf (encode article.header.line) = true :=
    List.isPrefixOf_iff_prefix.mpr (beginMark_begins article.header)
  rw [decodeYenc, lines_bytes, List.dropWhile_append_of_pos hbefore, List.dropWhile_cons, hheader]
  simp only [Bool.not_true, Bool.false_eq_true, if_false, parseFields_encode]
  change decodeFields crc32 (fieldsOf article.header.line) (lines article.rest) = _
  rw [decodeFields, article.header.text_name]
  rfl

end Article

/-! ## Names -/

variable {header : Header} {crc32 : Bytes → UInt32} {decoded : DecodedArticle}

theorem decodeNamed_name {found : List Bytes}
    (h : decodeNamed crc32 name declaredSize found = .ok decoded) : decoded.metadata.name = name := by
  rw [decodeNamed] at h
  cases hread : readPart {} found with
  | error error =>
    rw [hread] at h
    cases h
  | ok read =>
    rw [hread] at h
    dsimp only [bind, Except.bind] at h
    split at h
    · cases h
    · split at h <;> cases h
      rfl

/-- What decodes has a readable size. -/
theorem decodeNamed_of_bind {size : Except String Nat} {found : List Bytes}
    (h : (size.bind fun declaredSize => decodeNamed crc32 name declaredSize found) = .ok decoded) :
    ∃ declaredSize, size = .ok declaredSize ∧ decoded.metadata.name = name := by
  cases size with
  | error error => cases h
  | ok declaredSize => exact ⟨declaredSize, rfl, decodeNamed_name h⟩

namespace Article

/-- Whatever the name, the decoder keeps it up to its first blank. -/
theorem decodeYenc_ok (article : Article) (h : decodeYenc crc32 article.bytes = .ok decoded) :
    ∃ size, numeric (fieldsOf article.header.line) "size" = .ok size ∧
      decoded.metadata.name = firstWord article.header.name := by
  rw [article.decodeYenc_bytes] at h
  exact decodeNamed_of_bind h

theorem decodeAs_ok (article : Article) (h : article.decodeAs crc32 = .ok decoded) :
    ∃ size, numeric article.header.fields "size" = .ok size ∧
      decoded.metadata.name = article.header.name :=
  decodeNamed_of_bind h

end Article

/-- The header is read as the format says, whatever follows it. -/
def Header.Faithful (crc32 : Bytes → UInt32) (header : Header) : Prop :=
  ∀ article : Article, article.header = header → ∀ decoded,
    decodeYenc crc32 article.bytes = .ok decoded ↔ article.decodeAs crc32 = .ok decoded

def emptyPartLine : Text := "=ypart begin=1 end=0".toList

def emptyEndLine : Text := "=yend size=0".toList

/-- The shortest article behind a header. -/
def Header.emptyPart (header : Header) : Article where
  before := []
  header
  ending := []
  rest := encode emptyPartLine ++ ascii '\n' :: encode emptyEndLine
  before_lines := Article.nil_lines
  before_other := Article.nil_other
  ending_eq := .inl rfl

theorem readPart_emptyPart : readPart {} [encode emptyPartLine, encode emptyEndLine] =
    .ok ({ begin_ := some 1, end_ := some 0 }, none) := by
  have hpart : partMark.isPrefixOf (encode emptyPartLine) = true := by
    rw [encode_ascii (by decide)]
    decide
  have hend : partMark.isPrefixOf (encode emptyEndLine) = false ∧
      endMark.isPrefixOf (encode emptyEndLine) = true := by
    rw [encode_ascii (by decide)]
    decide
  rw [readPart_part hpart (parseFields_encode _) (by decide : numeric _ "begin" = .ok 1)
    (by decide : numeric _ "end" = .ok 0)]
  exact readPart_end hend.1 hend.2 (parseFields_encode _) (by decide) (by decide)

theorem Header.decodeNamed_emptyPart (crc32 : Bytes → UInt32) (header : Header) (name : Text)
    (size : Nat) :
    ∃ decoded, decodeNamed crc32 name size (lines header.emptyPart.rest) = .ok decoded := by
  have hlines : lines header.emptyPart.rest = [encode emptyPartLine, encode emptyEndLine] := by
    have hpart : encode emptyPartLine = _ := encode_ascii (by decide)
    have hend : encode emptyEndLine = _ := encode_ascii (by decide)
    change lines (encode emptyPartLine ++ ascii '\n' :: encode emptyEndLine) = _
    rw [hpart, hend]
    decide
  rw [hlines, decodeNamed, readPart_emptyPart]
  exact ⟨_, rfl⟩

theorem Header.faithful_of_plain (h : Plain header.name) : header.Faithful crc32 := by
  rintro article rfl decoded
  rw [article.decodeYenc_bytes, firstWord_eq h, Header.numeric_line_eq h (by decide)]
  rfl

/-- A blank in the name shows in the shortest article. -/
theorem Header.Faithful.plain (h : header.Faithful crc32)
    (hsize : numeric (fieldsOf header.line) "size" = .ok size) : Plain header.name := by
  obtain ⟨decoded, hdecoded⟩ := header.decodeNamed_emptyPart crc32 (firstWord header.name) size
  have hcode : decodeYenc crc32 header.emptyPart.bytes = .ok decoded := by
    rw [Article.decodeYenc_bytes]
    change (numeric (fieldsOf header.line) "size").bind _ = _
    rw [hsize]
    exact hdecoded
  have hformat := (h header.emptyPart rfl decoded).mp hcode
  obtain ⟨-, -, hfirst⟩ := header.emptyPart.decodeYenc_ok hcode
  obtain ⟨-, -, hname⟩ := header.emptyPart.decodeAs_ok hformat
  have hsame : header.name = firstWord header.name := hname.symm.trans hfirst
  rw [hsame]
  exact firstWord_plain header.name

/-- A header is read as the format says when its name has no blank, or when the line gives no size
and nothing decodes. -/
theorem Header.faithful_iff (crc32 : Bytes → UInt32) (header : Header) :
    header.Faithful crc32 ↔ Plain header.name ∨
      ∀ size, numeric (fieldsOf header.line) "size" ≠ .ok size := by
  constructor
  · intro h
    by_cases hsize : ∃ size, numeric (fieldsOf header.line) "size" = .ok size
    · obtain ⟨size, hsize⟩ := hsize
      exact .inl (h.plain hsize)
    · exact .inr (not_exists.mp hsize)
  · rintro (hplain | hnone)
    · exact faithful_of_plain hplain
    · rintro article rfl decoded
      constructor
      · intro hcode
        obtain ⟨size, hsize, -⟩ := article.decodeYenc_ok hcode
        exact absurd hsize (hnone size)
      · intro hformat
        obtain ⟨size, hsize, -⟩ := article.decodeAs_ok hformat
        exact absurd (Header.numeric_line hsize) (hnone size)

def spacedHeader : Header where
  words := ["line=128".toList, "size=1".toList]
  name := "my file.bin".toList
  words_ne := List.forall_mem_cons.mpr ⟨nofun, List.forall_mem_cons.mpr ⟨nofun, nofun⟩⟩
  words_plain := List.forall_mem_cons.mpr ⟨plain_of_all (by decide),
    List.forall_mem_cons.mpr ⟨plain_of_all (by decide), nofun⟩⟩
  words_other := List.forall_mem_cons.mpr ⟨by decide, List.forall_mem_cons.mpr ⟨by decide, nofun⟩⟩
  name_line c hc := by
    have hall : "my file.bin".toList.all (fun c => c ≠ '\n' && c ≠ '\r') = true := by decide
    simpa using List.all_eq_true.mp hall c hc

/-- Of `my file.bin` only `my` comes out. -/
theorem not_faithful : ¬ ∀ crc32 header, Header.Faithful crc32 header := by
  intro h
  have hsize : numeric (fieldsOf spacedHeader.line) "size" = .ok 1 := by decide
  have hplain := (h (fun _ => 0) spacedHeader).plain hsize
  exact absurd (hplain ' ' (by decide)) (by decide)

end Yenc
end RDownloader
