import RDownloader.Usenet.NntpReader

/-!
# An article over the wire

An encoder chooses where lines end and which bytes it escapes besides those it must. What it writes
is read back, except where an escape it was free to leave out makes a line feed or a control line.
-/

namespace RDownloader

namespace Yenc

open Text NntpReader

/-! ## Encoding -/

/-- The values that must be escaped. -/
def critical (value : UInt8) : Bool :=
  value = 0 || value = ascii '\n' || value = ascii '\r' || value = ascii '='

/-- A byte, and whether the encoder escapes it where it need not. -/
abbrev Choice := UInt8 × Bool

def encodeByte (choice : Choice) : Bytes :=
  let value := choice.1 + 42
  if choice.2 || critical value then [ascii '=', value + 64] else [value]

def encodeRow (row : List Choice) : Bytes := row.flatMap encodeByte

/-- A control line with these fields. -/
def controlLine (mark : Text) (fields : Fields) : Text :=
  mark ++ fields.flatMap fun field => ' ' :: (field.1 ++ '=' :: field.2)

def partWord : Text := "=ypart".toList

def endWord : Text := "=yend".toList

def decimal (n : Nat) : Text := Nat.toDigits 10 n

/-- A field that a control line can hold. -/
structure PlainField (field : Text × Text) : Prop where
  key : Plain field.1
  key_sign : '=' ∉ field.1
  value : Plain field.2

/-- An article as a poster writes it. -/
structure Post (crc32 : Bytes → UInt32) where
  header : Header
  declaredSize : Nat
  /-- The range of the article in its file. -/
  part : Option (Nat × Nat)
  rows : List (List Choice)
  /-- The fields of `=yend` behind the size. -/
  ending : Fields
  size_field : Yenc.text header.fields "size" = some (decimal declaredSize)
  declaredSize_word : declaredSize ≤ u64Max
  part_word : ∀ range ∈ part, range.1 ≤ u64Max ∧ range.2 ≤ u64Max
  whole : part = none → declaredSize = rows.flatten.length
  ending_plain : ∀ field ∈ ending, PlainField field
  /-- The checksums are those of the data. That of the whole file may stand in any part. -/
  sums : ∀ field ∈ ending, field.1 = "pcrc32".toList ∨ (part = none ∧ field.1 = "crc32".toList) →
    ∃ zeros, field.2 = List.replicate zeros '0' ++
      Nat.toDigits 16 (crc32 (rows.flatten.map Prod.fst)).toNat

namespace Post

variable {crc32 : Bytes → UInt32} {post : Post crc32}

def data (post : Post crc32) : Bytes := post.rows.flatten.map Prod.fst

def partFields (range : Nat × Nat) : Fields :=
  [("begin".toList, decimal range.1), ("end".toList, decimal range.2)]

def endFields (post : Post crc32) : Fields :=
  ("size".toList, decimal post.data.length) :: post.ending

/-- The lines behind the header. -/
def dataLines (post : Post crc32) : List Bytes :=
  (post.part.map fun range => encode (controlLine partWord (partFields range))).toList ++
    (post.rows.map encodeRow ++ [encode (controlLine endWord post.endFields)])

def articleLines (post : Post crc32) : List Bytes := encode post.header.line :: post.dataLines

/-- No escape the encoder chose makes a line feed, or a line of data that looks like control. -/
def Readable (post : Post crc32) : Prop :=
  ∀ row ∈ post.rows, lineFeed ∉ encodeRow row ∧ ¬ partMark <+: encodeRow row ∧
    ¬ endMark <+: encodeRow row

end Post

/-! ## Control lines -/

variable {mark : Text} {fields : Fields} {field : Text × Text} {row : List Choice}

theorem PlainField.word (h : PlainField field) : Plain (field.1 ++ '=' :: field.2) := by
  intro c hc
  obtain hc | hc := List.mem_append.mp hc
  · exact h.key c hc
  · obtain rfl | hc := List.mem_cons.mp hc
    · rfl
    · exact h.value c hc

theorem splitAsciiWhitespace_controlLine (hmark : Plain mark) (hne : mark ≠ [])
    (hfields : ∀ field ∈ fields, PlainField field) :
    splitAsciiWhitespace (controlLine mark fields) =
      mark :: fields.map fun field => field.1 ++ '=' :: field.2 := by
  induction fields generalizing mark with
  | nil => rw [controlLine, List.flatMap_nil, List.append_nil, splitAsciiWhitespace_plain hmark hne]; rfl
  | cons field fields ih =>
    rw [List.forall_mem_cons] at hfields
    have hword := hfields.1.word
    have hrest := ih hword (by simp) hfields.2
    rw [controlLine, List.flatMap_cons, List.cons_append, splitAsciiWhitespace_append rfl,
      splitAsciiWhitespace_plain hmark hne]
    exact congrArg (mark :: ·) hrest

/-- A control line gives its fields. -/
theorem fieldsOf_controlLine (hmark : Plain mark) (hne : mark ≠ [])
    (hfields : ∀ field ∈ fields, PlainField field) : fieldsOf (controlLine mark fields) = fields := by
  rw [fieldsOf, splitAsciiWhitespace_controlLine hmark hne hfields, List.drop_one, List.tail_cons]
  clear hmark hne
  induction fields with
  | nil => rfl
  | cons field fields ih =>
    rw [List.forall_mem_cons] at hfields
    rw [List.map_cons, List.filterMap_cons, splitOnce_append hfields.1.key_sign, ih hfields.2]

theorem plain_decimal (n : Nat) : Plain (decimal n) := by
  intro c hc
  have hdigit := isDigit_of_mem_toDigits hc
  refine Bool.eq_false_iff.mpr fun hblank => ?_
  simp only [isAsciiWhitespace, Bool.or_eq_true, decide_eq_true_eq] at hblank
  rcases hblank with (((rfl | rfl) | rfl) | rfl) | rfl <;> cases hdigit

theorem numeric_decimal {key : String} (h : Yenc.text fields key = some (decimal n))
    (hn : n ≤ u64Max) : numeric fields key = .ok n := by
  rw [numeric, h]
  dsimp only
  rw [decimal, parseU64_toDigits hn]

/-! ## Data lines -/

theorem decodeLine_escape (value : UInt8) (rest : Bytes) :
    decodeLine (ascii '=' :: value :: rest) = (decodeLine rest).map ((value - 64 - 42) :: ·) := by
  rw [decodeLine.eq_def]
  exact if_pos rfl

theorem decodeLine_plain {byte : UInt8} (h : byte ≠ ascii '=') (rest : Bytes) :
    decodeLine (byte :: rest) = (decodeLine rest).map ((byte - 42) :: ·) := by
  rw [decodeLine.eq_def]
  exact if_neg h

theorem decodeLine_encodeByte (choice : Choice) (rest : Bytes) :
    decodeLine (encodeByte choice ++ rest) = (decodeLine rest).map (choice.1 :: ·) := by
  rw [encodeByte]
  split
  · rw [List.cons_append, List.cons_append, List.nil_append, decodeLine_escape,
      UInt8.add_sub_cancel, UInt8.add_sub_cancel]
  · rename_i hplain
    have hsign : choice.1 + 42 ≠ ascii '=' := fun heq => hplain (by simp [critical, heq])
    rw [List.cons_append, List.nil_append, decodeLine_plain hsign, UInt8.add_sub_cancel]

theorem decodeLine_encodeRow (row : List Choice) :
    decodeLine (encodeRow row) = .ok (row.map Prod.fst) := by
  induction row with
  | nil => rfl
  | cons choice row ih =>
    rw [encodeRow, List.flatMap_cons, decodeLine_encodeByte]
    change (decodeLine (encodeRow row)).map _ = _
    rw [ih]
    rfl

/-- The rows come out one behind the other. -/
theorem readPart_rows {part : Part} {rows : List (List Choice)} {more : List Bytes}
    (hrows : ∀ row ∈ rows, ¬ partMark <+: encodeRow row ∧ ¬ endMark <+: encodeRow row) :
    readPart part (rows.map encodeRow ++ more) =
      readPart { part with decoded := part.decoded ++ rows.flatten.map Prod.fst } more := by
  induction rows generalizing part with
  | nil =>
    have hnone : part.decoded ++ ([] : List (List Choice)).flatten.map Prod.fst = part.decoded :=
      List.append_nil _
    rw [hnone]
    rfl
  | cons row rows ih =>
    rw [List.forall_mem_cons] at hrows
    have hpart := Bool.eq_false_iff.mpr (mt List.isPrefixOf_iff_prefix.mp hrows.1.1)
    have hend := Bool.eq_false_iff.mpr (mt List.isPrefixOf_iff_prefix.mp hrows.1.2)
    rw [List.map_cons, List.cons_append, readPart_data hpart hend (decodeLine_encodeRow row),
      ih hrows.2, List.flatten_cons, List.map_append]
    dsimp only
    rw [List.append_assoc]

/-! ## Articles -/

/-- The lines of a body that came with line endings. -/
theorem lines_body {all : List Bytes} (hlines : ∀ line ∈ all, lineFeed ∉ line) :
    lines (body all) = all ++ [[]] := by
  induction all with
  | nil => rfl
  | cons line all ih =>
    rw [List.forall_mem_cons] at hlines
    have hbody : body (line :: all) = line ++ [ascii '\r'] ++ ascii '\n' :: body all := by
      simp [body, crlf]
    have hline : ascii '\n' ∉ line ++ [ascii '\r'] := fun h =>
      (List.mem_append.mp h).elim hlines.1 (by decide)
    rw [hbody, lines_cons hline, trimCr_append, ih hlines.2]
    rfl

theorem lineFeed_not_mem_controlLine (hmark : '\n' ∉ mark)
    (hfields : ∀ field ∈ fields, PlainField field) :
    lineFeed ∉ encode (controlLine mark fields) := by
  intro h
  have hmem : '\n' ∈ controlLine mark fields := mem_of_ascii_mem_encode (by decide) h
  obtain hmem | hmem := List.mem_append.mp hmem
  · exact hmark hmem
  · obtain ⟨field, hfield, hmem⟩ := List.mem_flatMap.mp hmem
    obtain hmem | hmem := List.mem_cons.mp hmem
    · cases hmem
    · cases (hfields field hfield).word '\n' hmem

namespace Post

variable {crc32 : Bytes → UInt32} {post : Post crc32}

theorem plainField_decimal {key : Text} (hkey : key.all (!isAsciiWhitespace ·) = true)
    (hsign : '=' ∉ key) (n : Nat) : PlainField (key, decimal n) :=
  ⟨plain_of_all hkey, hsign, plain_decimal n⟩

theorem endFields_plain (post : Post crc32) : ∀ field ∈ post.endFields, PlainField field :=
  List.forall_mem_cons.mpr ⟨plainField_decimal (by decide) (by decide) _, post.ending_plain⟩

theorem partFields_plain (range : Nat × Nat) : ∀ field ∈ partFields range, PlainField field :=
  List.forall_mem_cons.mpr ⟨plainField_decimal (by decide) (by decide) _,
    List.forall_mem_cons.mpr ⟨plainField_decimal (by decide) (by decide) _, nofun⟩⟩

/-- No line of a readable article has a line feed in it. -/
theorem articleLines_lines (h : post.Readable) : ∀ line ∈ post.articleLines, lineFeed ∉ line := by
  intro line hline
  obtain rfl | hline := List.mem_cons.mp hline
  · exact fun hmem => post.header.not_mem_line (.inl rfl) (mem_of_ascii_mem_encode (by decide) hmem)
  · obtain hline | hline := List.mem_append.mp hline
    · obtain ⟨range, -, rfl⟩ := Option.map_eq_some_iff.mp (Option.mem_toList.mp hline)
      exact lineFeed_not_mem_controlLine (by decide) (partFields_plain range)
    · obtain hline | hline := List.mem_append.mp hline
      · obtain ⟨row, hrow, rfl⟩ := List.mem_map.mp hline
        exact (h row hrow).1
      · obtain rfl := List.mem_singleton.mp hline
        exact lineFeed_not_mem_controlLine (by decide) post.endFields_plain

/-- A control line begins with its mark. -/
theorem controlLine_eq {word mark : Text} {fields : Fields} (hne : fields ≠ [])
    (hmark : word ++ [' '] = mark) (hascii : mark.all (·.toNat < 128) = true) :
    ∃ rest, encode (controlLine word fields) = mark.map ascii ++ rest := by
  cases fields with
  | nil => exact (hne rfl).elim
  | cons field fields =>
    have hline : controlLine word (field :: fields) = mark ++
        (field.1 ++ '=' :: field.2 ++ fields.flatMap fun field => ' ' :: (field.1 ++ '=' :: field.2)) := by
      simp [controlLine, ← hmark]
    rw [hline, encode_append, encode_ascii hascii]
    exact ⟨_, rfl⟩

theorem mem_of_text {fields : Fields} {key : String} {value : Text}
    (h : Yenc.text fields key = some value) : (key.toList, value) ∈ fields := by
  obtain ⟨field, hfield, hvalue⟩ := List.exists_of_findSome?_eq_some h
  split at hvalue
  · rename_i hkey
    rw [← hkey, ← Option.some.inj hvalue]
    exact hfield
  · cases hvalue

theorem parseHex32_ending {key : String} {value : Text} (post : Post crc32)
    (h : Yenc.text post.endFields key = some value) (hsize : "size" ≠ key)
    (hkey : key = "pcrc32" ∨ (post.part = none ∧ key = "crc32")) :
    parseHex32 value = some (crc32 post.data) := by
  have hother : "size".toList ≠ key.toList := fun heq => hsize (String.toList_inj.mp heq)
  rw [endFields, text_cons_ne hother] at h
  obtain ⟨zeros, hzeros⟩ := post.sums _ (mem_of_text h)
    (hkey.imp (congrArg String.toList) (And.imp_right (congrArg String.toList)))
  dsimp only at hzeros
  rw [hzeros, parseHex32_toDigits]
  rfl

/-- The checksum that `=yend` gives is that of the data. -/
theorem checksum_endFields (post : Post crc32) :
    ∃ sum, checksum post.endFields post.part.isNone = .ok sum ∧
      sum.any (· ≠ crc32 post.data) = false := by
  rw [checksum]
  cases hpart : Yenc.text post.endFields "pcrc32" with
  | some value =>
    have hsum := parseHex32_ending post hpart (by decide) (.inl rfl)
    simp only [Option.some_or, hsum]
    exact ⟨_, rfl, by simp⟩
  | none =>
    rw [Option.none_or]
    by_cases hwhole : post.part = none
    · rw [hwhole]
      cases hfile : Yenc.text post.endFields "crc32" with
      | some value =>
        have hsum := parseHex32_ending post hfile (by decide) (.inr ⟨hwhole, rfl⟩)
        simp only [Option.isNone_none, if_true, hsum]
        exact ⟨_, rfl, by simp⟩
      | none => exact ⟨none, rfl, rfl⟩
    · obtain ⟨range, hrange⟩ := Option.ne_none_iff_exists'.mp hwhole
      rw [hrange]
      exact ⟨none, rfl, rfl⟩

/-- What the decoder makes of the lines behind the header. -/
theorem readPart_dataLines (h : post.Readable) (hword : post.data.length ≤ u64Max) :
    ∃ sum, readPart {} (post.dataLines ++ [[]]) =
      .ok ({ begin_ := post.part.map (·.1), end_ := post.part.map (·.2), decoded := post.data }, sum) ∧
      sum.any (· ≠ crc32 post.data) = false := by
  obtain ⟨sum, hsum, hright⟩ := post.checksum_endFields
  refine ⟨sum, ?_, hright⟩
  have hrows := fun row hrow => (h row hrow).2
  obtain ⟨rest, hline⟩ : ∃ rest, encode (controlLine endWord post.endFields) = endMark ++ rest :=
    controlLine_eq (List.cons_ne_nil _ _) rfl (by decide)
  have hfields : fieldsOf (controlLine endWord post.endFields) = post.endFields :=
    fieldsOf_controlLine (plain_of_all (by decide)) nofun post.endFields_plain
  have hparse := parseFields_encode (controlLine endWord post.endFields)
  rw [hfields, hline] at hparse
  have hsize : numeric post.endFields "size" = .ok post.data.length := numeric_decimal rfl hword
  rw [dataLines, List.append_assoc, List.append_assoc, hline]
  cases hpart : post.part with
  | none =>
    rw [hpart] at hsum
    rw [Option.map_none, Option.toList_none, List.nil_append, readPart_rows hrows]
    exact readPart_end rfl rfl hparse hsum hsize
  | some range =>
    rw [hpart] at hsum
    have hrange := post.part_word range hpart
    obtain ⟨rest', hline'⟩ :
        ∃ rest, encode (controlLine partWord (partFields range)) = partMark ++ rest :=
      controlLine_eq (List.cons_ne_nil _ _) rfl (by decide)
    have hfields' : fieldsOf (controlLine partWord (partFields range)) = partFields range :=
      fieldsOf_controlLine (plain_of_all (by decide)) nofun (partFields_plain range)
    have hparse' := parseFields_encode (controlLine partWord (partFields range))
    rw [hfields', hline'] at hparse'
    rw [Option.map_some, Option.toList_some, List.singleton_append, hline',
      readPart_part rfl hparse' (numeric_decimal rfl hrange.1) (numeric_decimal rfl hrange.2),
      readPart_rows hrows]
    exact readPart_end rfl rfl hparse hsum hsize

/-- What comes out of an article. -/
def decoded (post : Post crc32) (sum : Option UInt32) : DecodedArticle where
  metadata := {
    name := firstWord post.header.name
    declaredSize := post.declaredSize
    partBegin := post.part.map (·.1)
    partEnd := post.part.map (·.2)
    expectedCrc32 := sum }
  data := post.data
  crc32 := crc32 post.data

theorem body_append (a b : List Bytes) : body (a ++ b) = body a ++ body b := List.flatMap_append

theorem length_row_le (row : List Choice) : row.length ≤ (encodeRow row).length := by
  induction row with
  | nil => exact Nat.le_refl _
  | cons choice row ih =>
    have hbyte : 1 ≤ (encodeByte choice).length := by
      rw [encodeByte]
      split
      · exact Nat.le_succ _
      · exact Nat.le_refl _
    have hrow : encodeRow (choice :: row) = encodeByte choice ++ encodeRow row := rfl
    rw [hrow, List.length_append, List.length_cons]
    omega

theorem length_rows_le (rows : List (List Choice)) :
    rows.flatten.length ≤ (body (rows.map encodeRow)).length := by
  induction rows with
  | nil => exact Nat.le_refl _
  | cons row rows ih =>
    have hrow := length_row_le row
    have hbody : body ((row :: rows).map encodeRow) =
        encodeRow row ++ crlf ++ body (rows.map encodeRow) := rfl
    simp only [hbody, List.flatten_cons, List.length_append]
    omega

/-- An encoder never writes less than the data. -/
theorem length_data_le (post : Post crc32) : post.data.length ≤ (body post.articleLines).length := by
  have hrows := length_rows_le post.rows
  have hlines : post.articleLines =
      encode post.header.line :: (post.part.map fun range =>
        encode (controlLine partWord (partFields range))).toList ++
        (post.rows.map encodeRow ++ [encode (controlLine endWord post.endFields)]) := rfl
  rw [hlines, body_append, body_append, List.length_append, List.length_append, data,
    List.length_map]
  omega

/-- The article on the wire, taken apart. -/
def article (post : Post crc32) : Article where
  before := []
  header := post.header
  ending := [ascii '\r']
  rest := body post.dataLines
  before_lines := Article.nil_lines
  before_other := Article.nil_other
  ending_eq := .inr rfl

theorem article_bytes (post : Post crc32) : post.article.bytes = body post.articleLines := by
  have hbody : body post.articleLines =
      encode post.header.line ++ crlf ++ body post.dataLines := rfl
  rw [hbody, Article.bytes]
  simp [article, crlf]

/-- A readable article decodes to its data. -/
theorem decodeYenc_body (h : post.Readable) (hword : post.data.length ≤ u64Max) :
    ∃ sum, decodeYenc crc32 (body post.articleLines) = .ok (post.decoded sum) := by
  obtain ⟨sum, hread, hright⟩ := readPart_dataLines h hword
  have hsize : numeric (fieldsOf post.header.line) "size" = .ok post.declaredSize :=
    Header.numeric_line (numeric_decimal post.size_field post.declaredSize_word)
  have hlines : lines post.article.rest = post.dataLines ++ [[]] :=
    lines_body fun line hline => articleLines_lines h line (List.mem_cons_of_mem _ hline)
  have hwhole : ((post.part.map (·.1)).isNone && decide (post.declaredSize ≠ post.data.length)) =
      false := by
    cases hpart : post.part with
    | none =>
      have hlength := post.whole hpart
      rw [← List.length_map (f := Prod.fst)] at hlength
      rw [hlength]
      exact decide_eq_false fun hne => hne rfl
    | some range => rfl
  refine ⟨sum, ?_⟩
  rw [← article_bytes, Article.decodeYenc_bytes]
  change (numeric (fieldsOf post.header.line) "size").bind _ = _
  rw [hsize, hlines]
  change decodeNamed crc32 _ _ _ = _
  rw [decodeNamed, hread]
  change (if _ then _ else if _ then _ else _) = _
  rw [if_neg (Bool.eq_false_iff.mp hwhole), if_neg (Bool.eq_false_iff.mp hright)]
  rfl

end Post

/-! ## The whole way -/

variable {crc32 : Bytes → UInt32} {post : Post crc32} {reader : NntpReader} {status : Text}
  {following : Bytes}

/-- The stream is an announced article, stuffed and terminated, and what follows it. -/
structure Sends (reader : NntpReader) (status : Text) (post : Post crc32) (following : Bytes) :
    Prop where
  announces : Announces status
  arrives : reader.pieces.flatten =
    encode status ++ (stuffed post.articleLines ++ (dot :: crlf ++ following))

/-- The data and its range come out, and what follows the article is still to be read. -/
def Survives (reader : NntpReader) (post : Post crc32) (following : Bytes) : Prop :=
  ∃ answer left decoded, reader.readBody = .ok (answer, left) ∧ left.flatten = following ∧
    decodeYenc crc32 answer.data = .ok decoded ∧ decoded.data = post.data ∧
    decoded.metadata.partBegin = post.part.map (·.1) ∧
    decoded.metadata.partEnd = post.part.map (·.2)

/-- A readable article survives the wire. Only one longer than the configured size is refused. -/
theorem survives_of_readable (hsends : Sends reader status post following) (h : post.Readable) :
    ((body post.articleLines).length ≤ reader.maxArticleBytes → Survives reader post following) ∧
    (reader.maxArticleBytes < (body post.articleLines).length →
      reader.readBody = .error (.broken tooLong.toList) ∧
        reader.maxArticleBytes < (stuffed post.articleLines).length) := by
  have hlines := Post.articleLines_lines h
  constructor
  · intro hfit
    have hword : post.data.length ≤ u64Max := by
      have hdata := post.length_data_le
      have hbounded := reader.bounded
      omega
    obtain ⟨left, hread, hleft⟩ := readBody_stuffed hsends.announces hlines hfit hsends.arrives
    obtain ⟨sum, hdecode⟩ := Post.decodeYenc_body h hword
    exact ⟨_, left, _, hread, hleft, hdecode, rfl, rfl, rfl⟩
  · intro hlong
    exact ⟨readBody_refused hsends.announces hlines hlong hsends.arrives,
      Nat.lt_of_lt_of_le hlong (length_body_le _)⟩

/-! ### Two articles -/

def shortHeader : Header where
  words := ["line=128".toList, "size=5".toList]
  name := ['a']
  words_ne := List.forall_mem_cons.mpr ⟨nofun, List.forall_mem_cons.mpr ⟨nofun, nofun⟩⟩
  words_plain := List.forall_mem_cons.mpr ⟨plain_of_all (by decide),
    List.forall_mem_cons.mpr ⟨plain_of_all (by decide), nofun⟩⟩
  words_other := List.forall_mem_cons.mpr ⟨by decide, List.forall_mem_cons.mpr ⟨by decide, nofun⟩⟩
  name_line := List.forall_mem_cons.mpr ⟨⟨by decide, by decide⟩, nofun⟩

/-- Five bytes without a checksum. -/
def shortPost (rows : List (List Choice)) (whole : 5 = rows.flatten.length) : Post fun _ => 0 where
  header := shortHeader
  declaredSize := 5
  part := none
  rows
  ending := []
  size_field := by decide
  declaredSize_word := by decide
  part_word := nofun
  whole _ := whole
  ending_plain := nofun
  sums := nofun

def shortStatus : Text := "222 0 <a@b>\r\n".toList

theorem announces_shortStatus : Announces shortStatus where
  oneLine := ⟨"222 0 <a@b>\r".toList, rfl, by decide⟩
  fits := by
    rw [encode_ascii (by decide)]
    decide
  follows := by decide

/-- The stream in two pieces. -/
def shortReader (post : Post crc32) (following : Bytes) : NntpReader where
  pieces := [encode shortStatus, stuffed post.articleLines ++ (dot :: crlf ++ following)]
  arrives := List.forall_mem_cons.mpr ⟨by rw [encode_ascii (by decide)]; nofun,
    List.forall_mem_cons.mpr ⟨List.append_ne_nil_of_right_ne_nil _ (List.cons_ne_nil _ _), nofun⟩⟩
  maxArticleBytes := 1024
  bounded := by decide

theorem shortReader_sends (post : Post crc32) (following : Bytes) :
    Sends (shortReader post following) shortStatus post following :=
  ⟨announces_shortStatus, by simp [shortReader]⟩

/-- The first byte stands as a lone dot on its line. -/
def dotPost : Post fun _ => 0 :=
  shortPost [[(4, false)], [(4, false), (19, false), (0, true), (224, false)]] rfl

theorem survives_dot : Survives (shortReader dotPost [ascii '2']) dotPost [ascii '2'] :=
  (survives_of_readable (shortReader_sends dotPost [ascii '2'])
    (List.forall_mem_cons.mpr ⟨by decide, List.forall_mem_cons.mpr ⟨by decide, nofun⟩⟩)).1
    (by decide)

/-- Five bytes, the first of them escaped, that read `=yend ` on the wire. -/
def controlPost : Post fun _ => 0 :=
  shortPost [[(15, true), (59, false), (68, false), (58, false), (246, false)]] rfl

theorem decodeYenc_controlPost (decoded : DecodedArticle) :
    decodeYenc (fun _ => 0) (body controlPost.articleLines) ≠ .ok decoded := by
  have hline : encodeRow [(15, true), (59, false), (68, false), (58, false), (246, false)] =
      encode (endWord ++ [' ']) := by
    rw [encode_ascii (by decide)]
    decide
  have hlines : lines controlPost.article.rest = encode (endWord ++ [' ']) ::
      ([encode (controlLine endWord controlPost.endFields)] ++ [[]]) := by
    have hrest : controlPost.article.rest = body controlPost.dataLines := rfl
    have hdata : controlPost.dataLines =
        [encodeRow [(15, true), (59, false), (68, false), (58, false), (246, false)],
          encode (controlLine endWord controlPost.endFields)] := rfl
    rw [hrest, lines_body (by decide), hdata, hline]
    rfl
  have hread : readPart {} (lines controlPost.article.rest) = .error "missing yEnc size" := by
    have hfields : parseFields (encode (endWord ++ [' '])) = .ok [] :=
      (parseFields_encode _).trans (congrArg Except.ok (by decide))
    have hmark : encode (endWord ++ [' ']) = endMark := encode_ascii (by decide)
    rw [hmark] at hfields hlines
    rw [hlines]
    exact readPart_end_error (by decide) (by decide) hfields rfl rfl
  rw [← Post.article_bytes, Article.decodeYenc_bytes]
  intro hdecode
  obtain ⟨size, hsize⟩ : ∃ size, numeric (fieldsOf controlPost.header.line) "size" = .ok size :=
    ⟨5, by decide⟩
  change (numeric (fieldsOf controlPost.header.line) "size").bind _ = _ at hdecode
  rw [hsize] at hdecode
  change decodeNamed (fun _ => 0) _ _ _ = _ at hdecode
  rw [decodeNamed, hread] at hdecode
  cases hdecode

/-- Not every choice of escapes survives. -/
theorem not_survives : ¬ ∀ (crc32 : Bytes → UInt32) (post : Post crc32) (reader : NntpReader)
    (status : Text) (following : Bytes), Sends reader status post following →
      (stuffed post.articleLines).length ≤ reader.maxArticleBytes →
        Survives reader post following := by
  intro h
  have hsends := shortReader_sends controlPost []
  obtain ⟨answer, left, decoded, hread, -, hdecode, -⟩ :=
    h _ controlPost (shortReader controlPost []) shortStatus [] hsends (by decide)
  obtain ⟨left', hread', -⟩ :=
    readBody_stuffed hsends.announces (by decide) (by decide) hsends.arrives
  rw [hread] at hread'
  cases hread'
  exact decodeYenc_controlPost decoded hdecode

end Yenc
end RDownloader
