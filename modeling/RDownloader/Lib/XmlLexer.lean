import RDownloader.Lib.Xml

/-!
# A pull reader

The reader goes through the characters once. It reads back the pieces it is given as they were
written, which makes it a `Reader`.
-/

namespace Xml

def resolveEntity (name : List Char) : Option Char :=
  ['<', '>', '&', '\'', '"'].find? (entityName · = some name)

/-- The character a `generalRef` names by its number; none is written here. -/
def resolveCharRef (name : List Char) : Except String (Option Char) :=
  match name with
  | '#' :: _ => .error "unsupported character reference"
  | _ => .ok none

/-- Resolves the references of a text; a reference that has begun holds its name so far. -/
def unescapeFrom : Option (List Char) → List Char → Except String (List Char)
  | none, [] => .ok []
  | some _, [] => .error "unterminated entity"
  | none, c :: rest =>
    if c = '&' then unescapeFrom (some []) rest else (unescapeFrom none rest).map (c :: ·)
  | some name, c :: rest =>
    if c = ';' then match resolveEntity name with
      | some resolved => (unescapeFrom none rest).map (resolved :: ·)
      | none => .error "unrecognized entity"
    else unescapeFrom (some (name ++ [c])) rest

def unescape (text : List Char) : Except String (List Char) := unescapeFrom none text

/-- Where the reader is inside a tag. -/
inductive TagMode
  | between
  | key (name : List Char)
  | quote (name : List Char)
  | value (name value : List Char)

def attributesFrom : TagMode → List Char → List (Except String Attribute)
  | .between, [] => []
  | _, [] => [.error "unterminated attribute"]
  | .between, c :: rest =>
    if c = ' ' then attributesFrom .between rest else attributesFrom (.key [c]) rest
  | .key name, c :: rest =>
    if c = '=' then attributesFrom (.quote name) rest else attributesFrom (.key (name ++ [c])) rest
  | .quote name, c :: rest =>
    if c = '"' then attributesFrom (.value name []) rest else [.error "unquoted value"]
  | .value name value, c :: rest =>
    if c = '"' then .ok ⟨name, unescape value⟩ :: attributesFrom .between rest
    else attributesFrom (.value name (value ++ [c])) rest

/-- The event of what stands between `<` and `>`. -/
def markupEvent (content : List Char) : Event :=
  match content with
  | '?' :: _ => .other
  | '!' :: 'D' :: 'O' :: 'C' :: 'T' :: 'Y' :: 'P' :: 'E' :: rest => .docType (rest.dropWhile isSpace)
  | '/' :: name => .close name
  | _ => .start (content.takeWhile (· ≠ ' ')) (attributesFrom .between (content.dropWhile (· ≠ ' ')))

inductive Mode
  | text (run : List Char)
  | reference (name : List Char)
  | markup (content : List Char)

def readFrom : Mode → List Char → List (Except String Event)
  | .text run, [] => (runEvents run).map .ok
  | _, [] => [.error "unexpected end"]
  | .text run, c :: rest =>
    if c = '<' then (runEvents run).map .ok ++ readFrom (.markup []) rest
    else if c = '&' then (runEvents run).map .ok ++ readFrom (.reference []) rest
    else readFrom (.text (run ++ [c])) rest
  | .reference name, c :: rest =>
    if c = ';' then .ok (.generalRef name) :: readFrom (.text []) rest
    else readFrom (.reference (name ++ [c])) rest
  | .markup content, c :: rest =>
    if c = '>' then .ok (markupEvent content) :: readFrom (.text []) rest
    else readFrom (.markup (content ++ [c])) rest

/-! ## Escaped characters -/

theorem escapeChar_cases (c : Char) : (isSpecial c = false ∧ escapeChar c = [c] ∧ c ≠ '<' ∧ c ≠ '>' ∧
    c ≠ '&' ∧ c ≠ '"') ∨ ∃ name, entityName c = some name ∧ escapeChar c = '&' :: name ++ [';'] ∧
      name ∈ [['l', 't'], ['g', 't'], ['a', 'm', 'p'], ['a', 'p', 'o', 's'], ['q', 'u', 'o', 't']] := by
  unfold isSpecial escapeChar entityName
  split
  all_goals simp_all

theorem resolveEntity_entity {c : Char} {name : List Char} (h : entityName c = some name) :
    resolveEntity name = some c := by
  unfold entityName at h
  split at h
  all_goals cases h
  all_goals rfl

theorem not_mem_escape {text : List Char} (h : c ∈ escape text) : c ≠ '<' ∧ c ≠ '>' ∧ c ≠ '"' := by
  obtain ⟨d, -, hd⟩ := List.mem_flatMap.mp h
  rcases escapeChar_cases d with ⟨-, hescape, hne⟩ | ⟨name, -, hescape, hname⟩
  · rw [hescape, List.mem_singleton] at hd
    exact hd ▸ ⟨hne.1, hne.2.1, hne.2.2.2⟩
  · have hall : ∀ c ∈ '&' :: name ++ [';'], c ≠ '<' ∧ c ≠ '>' ∧ c ≠ '"' := by
      simp only [List.mem_cons, List.not_mem_nil, or_false] at hname
      rcases hname with rfl | rfl | rfl | rfl | rfl <;> simp
    exact hall c (hescape ▸ hd)

theorem unescapeFrom_entity {name : List Char} {c : Char} (h : entityName c = some name)
    (rest : List Char) :
    unescapeFrom (some []) (name ++ ';' :: rest) = (unescapeFrom none rest).map (c :: ·) := by
  unfold entityName at h
  split at h
  all_goals cases h
  all_goals rfl

/-- An escaped text is resolved to what it was. -/
theorem unescape_escape (text : List Char) : unescape (escape text) = .ok text := by
  rw [unescape]
  induction text with
  | nil => rfl
  | cons c text ih =>
    rw [escape, List.flatMap_cons, ← escape]
    rcases escapeChar_cases c with ⟨-, hescape, -, -, hamp, -⟩ | ⟨name, hname, hescape, -⟩
    · rw [hescape, List.singleton_append, unescapeFrom, if_neg hamp, ih]
      rfl
    · rw [hescape, List.append_assoc, List.cons_append, List.singleton_append, unescapeFrom,
        if_pos rfl, unescapeFrom_entity hname, ih]
      rfl

theorem unescape_plain {text : List Char} (h : '&' ∉ text) : unescape text = .ok text := by
  rw [unescape]
  induction text with
  | nil => rfl
  | cons c text ih =>
    rw [List.mem_cons, not_or] at h
    rw [unescapeFrom, if_neg (Ne.symm h.1), ih h.2]
    rfl

/-! ## Tags -/

theorem attributesFrom_key {key : List Char} (h : '=' ∉ key) (name rest : List Char) :
    attributesFrom (.key name) (key ++ '=' :: rest) = attributesFrom (.quote (name ++ key)) rest := by
  induction key generalizing name with
  | nil => simp [attributesFrom]
  | cons c key ih =>
    rw [List.mem_cons, not_or] at h
    rw [List.cons_append, attributesFrom, if_neg (Ne.symm h.1), ih h.2, List.append_assoc]
    rfl

theorem attributesFrom_value {value : List Char} (h : '"' ∉ value) (name before rest : List Char) :
    attributesFrom (.value name before) (value ++ '"' :: rest) =
      .ok ⟨name, unescape (before ++ value)⟩ :: attributesFrom .between rest := by
  induction value generalizing before with
  | nil => simp [attributesFrom]
  | cons c value ih =>
    rw [List.mem_cons, not_or] at h
    rw [List.cons_append, attributesFrom, if_neg (Ne.symm h.1), ih h.2, List.append_assoc]
    rfl

theorem isAlpha_ne {c d : Char} (h : c.isAlpha) (hd : d.isAlpha = false) : c ≠ d := by
  rintro rfl
  rw [hd] at h
  cases h

theorem attributesFrom_written {attributes : List (List Char × List Char)}
    (h : ∀ pair ∈ attributes, Piece.IsName pair.1) :
    attributesFrom .between (attributes.flatMap Piece.writeAttribute) =
      attributes.map Piece.readAttribute := by
  induction attributes with
  | nil => rfl
  | cons pair attributes ih =>
    obtain ⟨key, value⟩ := pair
    obtain ⟨⟨hne, hkey⟩, hrest⟩ := List.forall_mem_cons.mp h
    obtain ⟨c, key, rfl⟩ := List.exists_cons_of_ne_nil hne
    have hc : c ≠ ' ' := isAlpha_ne (hkey c (List.mem_cons_self ..)) (by decide)
    have hequals : '=' ∉ key := fun hmem =>
      isAlpha_ne (hkey '=' (List.mem_cons_of_mem _ hmem)) (by decide : '='.isAlpha = false) rfl
    have hquote : '"' ∉ escape value := fun hmem => (not_mem_escape hmem).2.2 rfl
    rw [List.flatMap_cons, List.map_cons, Piece.writeAttribute]
    simp only [List.cons_append, List.append_assoc, List.nil_append]
    rw [attributesFrom, if_pos rfl, attributesFrom, if_neg hc, attributesFrom_key hequals,
      attributesFrom, if_pos rfl, attributesFrom_value hquote, List.nil_append, unescape_escape,
      ih hrest]
    rfl

theorem markupEvent_of_name {name text : List Char} (hname : Piece.IsName name)
    (htext : text = [] ∨ ∃ rest, text = ' ' :: rest) :
    markupEvent (name ++ text) = .start name (attributesFrom .between text) := by
  obtain ⟨c, rest, rfl⟩ := List.exists_cons_of_ne_nil hname.1
  have hc : c.isAlpha := hname.2 c (List.mem_cons_self ..)
  have hspace : ∀ d ∈ c :: rest, decide (d ≠ ' ') = true :=
    fun d hd => decide_eq_true (isAlpha_ne (hname.2 d hd) (by decide))
  have hsplit : ((c :: rest) ++ text).takeWhile (· ≠ ' ') = c :: rest ∧
      ((c :: rest) ++ text).dropWhile (· ≠ ' ') = text := by
    rw [List.takeWhile_append_of_pos hspace, List.dropWhile_append_of_pos hspace]
    rcases htext with rfl | ⟨rest, rfl⟩
    · exact ⟨List.append_nil _, rfl⟩
    · exact ⟨List.append_nil _, rfl⟩
  have hfirst : ∀ d, d.isAlpha = false → ∀ tail, c :: rest ++ text = d :: tail → False :=
    fun d hd tail heq => isAlpha_ne hc hd (List.cons.inj heq).1
  rw [markupEvent]
  · rw [hsplit.1, hsplit.2]
  · exact hfirst '?' (by decide)
  · exact fun tail => hfirst '!' (by decide) _
  · exact hfirst '/' (by decide)

theorem markupEvent_tag {name : List Char} {attributes : List (List Char × List Char)}
    (hname : Piece.IsName name) (hattributes : ∀ pair ∈ attributes, Piece.IsName pair.1) :
    markupEvent (name ++ attributes.flatMap Piece.writeAttribute) =
      Piece.startEvent name attributes := by
  rw [markupEvent_of_name hname, attributesFrom_written hattributes, Piece.startEvent]
  cases attributes with
  | nil => exact .inl rfl
  | cons pair attributes => exact .inr ⟨_, rfl⟩

/-! ## Texts -/

theorem readFrom_markup {content : List Char} (h : '>' ∉ content) (before rest : List Char) :
    readFrom (.markup before) (content ++ '>' :: rest) =
      .ok (markupEvent (before ++ content)) :: readFrom (.text []) rest := by
  induction content generalizing before with
  | nil => simp [readFrom]
  | cons c content ih =>
    rw [List.mem_cons, not_or] at h
    rw [List.cons_append, readFrom, if_neg (Ne.symm h.1), ih h.2, List.append_assoc]
    rfl

theorem readFrom_reference {name : List Char} {c : Char} (h : entityName c = some name)
    (rest : List Char) :
    readFrom (.reference []) (name ++ ';' :: rest) =
      .ok (.generalRef name) :: readFrom (.text []) rest := by
  unfold entityName at h
  split at h
  all_goals cases h
  all_goals rfl

theorem textEvents_plain {run : List Char} (h : ∀ c ∈ run, isSpecial c = false) :
    textEvents run = runEvents run := by
  rw [textEvents, cut_of_plain h]
  exact List.append_nil _

theorem textEvents_special {run rest : List Char} {c : Char} {name : List Char}
    (h : ∀ c ∈ run, isSpecial c = false) (hc : entityName c = some name) :
    textEvents (run ++ c :: rest) = runEvents run ++ .generalRef name :: textEvents rest := by
  have hcut : cut (run ++ c :: rest) = (run, (c, (cut rest).1) :: (cut rest).2) := by
    induction run with
    | nil => rw [List.nil_append, cut, if_pos (by simp [isSpecial, hc])]
    | cons d run ih =>
      rw [List.forall_mem_cons] at h
      rw [List.cons_append, cut, if_neg (by simp [h.1]), ih h.2]
  rw [textEvents, hcut, List.flatMap_cons, textEvents]
  simp only [hc, Option.getD_some, List.cons_append]

/-- A text is read up to the tag behind it, one event for each of its runs and references. -/
theorem readFrom_text {run : List Char} (h : ∀ c ∈ run, isSpecial c = false)
    (content rest : List Char) :
    readFrom (.text run) (escape content ++ '<' :: rest) =
      (textEvents (run ++ content)).map .ok ++ readFrom (.markup []) rest := by
  induction content generalizing run with
  | nil =>
    rw [List.append_nil, textEvents_plain h]
    exact rfl
  | cons c content ih =>
    rw [escape, List.flatMap_cons, ← escape, List.append_assoc]
    rcases escapeChar_cases c with ⟨hplain, hescape, hlt, -, hamp, -⟩ | ⟨name, hname, hescape, -⟩
    · rw [hescape, List.singleton_append, readFrom, if_neg hlt, if_neg hamp, ih]
      · rw [List.append_assoc, List.singleton_append]
      · intro d hd
        rcases List.mem_append.mp hd with hd | hd
        · exact h d hd
        · exact List.mem_singleton.mp hd ▸ hplain
    · rw [hescape, List.append_assoc, List.cons_append, List.singleton_append, readFrom,
        if_neg (by decide), if_pos rfl, readFrom_reference hname, ih (List.forall_mem_nil _),
        textEvents_special h hname, List.nil_append]
      simp

/-- Blank text is taken with what it stands before. -/
theorem readFrom_blank {blank : List Char} (h : ∀ c ∈ blank, isSpace c) (run rest : List Char) :
    readFrom (.text run) (blank ++ rest) = readFrom (.text (run ++ blank)) rest := by
  induction blank generalizing run with
  | nil => rw [List.nil_append, List.append_nil]
  | cons c blank ih =>
    rw [List.forall_mem_cons] at h
    have hlt : c ≠ '<' := by
      rintro rfl
      exact absurd h.1 (by decide)
    have hamp : c ≠ '&' := by
      rintro rfl
      exact absurd h.1 (by decide)
    rw [List.cons_append, readFrom, if_neg hlt, if_neg hamp, ih h.2, List.append_assoc,
      List.singleton_append]

theorem runEvents_blank {run : List Char} (h : ∀ c ∈ run, isSpace c) : runEvents run = [] := by
  have hdrop : run.dropWhile isSpace = [] := List.dropWhile_eq_nil_iff.mpr h
  rw [runEvents, trim, hdrop]
  rfl

/-! ## Pieces -/

/-- What a piece that is markup is read as, whatever blank text stands before it. -/
theorem readFrom_tag {content run : List Char} (rest : List Char) (hrun : ∀ c ∈ run, isSpace c)
    (h : '>' ∉ content) :
    readFrom (.text run) ('<' :: content ++ '>' :: rest) =
      .ok (markupEvent content) :: readFrom (.text []) rest := by
  rw [List.cons_append, readFrom, if_pos rfl, runEvents_blank hrun, readFrom_markup h]
  rfl

theorem not_mem_name {name : List Char} (h : Piece.IsName name) : '>' ∉ name :=
  fun hmem => isAlpha_ne (h.2 '>' hmem) (by decide : '>'.isAlpha = false) rfl

theorem not_mem_tag {name : List Char} {attributes : List (List Char × List Char)}
    (hname : Piece.IsName name) (hattributes : ∀ pair ∈ attributes, Piece.IsName pair.1) :
    '>' ∉ name ++ attributes.flatMap Piece.writeAttribute := by
  intro hmem
  rcases List.mem_append.mp hmem with hmem | hmem
  · exact not_mem_name hname hmem
  · obtain ⟨pair, hpair, hmem⟩ := List.mem_flatMap.mp hmem
    rw [Piece.writeAttribute] at hmem
    simp only [List.mem_cons, List.mem_append, List.cons_append, List.not_mem_nil, or_false] at hmem
    rcases hmem with h | (hmem | h | h | hmem) | h
    · cases h
    · exact not_mem_name (hattributes pair hpair) hmem
    · cases h
    · cases h
    · exact (not_mem_escape hmem).2.1 rfl
    · cases h

theorem readFrom_start {name rest run : List Char} {attributes : List (List Char × List Char)}
    (hrun : ∀ c ∈ run, isSpace c) (hname : Piece.IsName name)
    (hattributes : Piece.AreAttributes attributes) :
    readFrom (.text run) (Piece.tag name attributes ++ rest) =
      .ok (Piece.startEvent name attributes) :: readFrom (.text []) rest := by
  have hkeys : ∀ pair ∈ attributes, Piece.IsName pair.1 :=
    fun pair hpair => (hattributes.2 pair hpair).1
  rw [Piece.tag, ← markupEvent_tag hname hkeys, ← readFrom_tag rest hrun (not_mem_tag hname hkeys)]
  simp

theorem readFrom_close {name run : List Char} (rest : List Char) (hrun : ∀ c ∈ run, isSpace c)
    (hname : Piece.IsName name) :
    readFrom (.text run) (Piece.endTag name ++ rest) =
      .ok (.close name) :: readFrom (.text []) rest := by
  have h : '>' ∉ '/' :: name := by
    rw [List.mem_cons, not_or]
    exact ⟨by decide, not_mem_name hname⟩
  have hread := readFrom_tag rest hrun h
  rw [Piece.endTag, List.append_assoc]
  exact hread

/-- The pieces of a document are read as they were written. -/
theorem readFrom_written {pieces : List Piece} (h : ∀ piece ∈ pieces, piece.Proper)
    {run : List Char} (hrun : ∀ c ∈ run, isSpace c) :
    readFrom (.text run) (pieces.flatMap Piece.written) =
      (pieces.flatMap Piece.events).map .ok := by
  have hnil : ∀ c ∈ ([] : List Char), isSpace c := List.forall_mem_nil _
  induction pieces generalizing run with
  | nil => rw [List.flatMap_nil, readFrom, runEvents_blank hrun]; rfl
  | cons piece pieces ih =>
    obtain ⟨hpiece, hrest⟩ := List.forall_mem_cons.mp h
    rw [List.flatMap_cons, List.flatMap_cons]
    cases piece with
    | declaration content =>
      have hmem : '>' ∉ '?' :: content ++ ['?'] := by
        simp only [List.cons_append, List.mem_cons, List.mem_append, List.not_mem_nil, or_false]
        rintro (heq | hmem | heq)
        · cases heq
        · exact (hpiece '>' hmem).1 rfl
        · cases heq
      have hread := readFrom_tag (pieces.flatMap Piece.written) hrun hmem
      rw [ih hrest hnil, show markupEvent ('?' :: content ++ ['?']) = .other from rfl] at hread
      simpa [Piece.written, Piece.events] using hread
    | docType content =>
      have hmem : '>' ∉ "!DOCTYPE ".toList ++ content := by
        intro hmem
        rcases List.mem_append.mp hmem with hmem | hmem
        · revert hmem; decide
        · exact (hpiece.2 '>' hmem).2.1 rfl
      have hread := readFrom_tag (pieces.flatMap Piece.written) hrun hmem
      have hevent : markupEvent ("!DOCTYPE ".toList ++ content) = .docType content := by
        have hdrop : content.dropWhile isSpace = content := by
          cases content with
          | nil => rfl
          | cons c content => rw [List.dropWhile_cons_of_neg (by simp [hpiece.1 c rfl])]
        exact congrArg Event.docType hdrop
      rw [ih hrest hnil, hevent] at hread
      simpa [Piece.written, Piece.events] using hread
    | blank content =>
      rw [Piece.written, readFrom_blank hpiece, ih hrest]
      · rfl
      · intro c hc
        rcases List.mem_append.mp hc with hc | hc
        · exact hrun c hc
        · exact hpiece c hc
    | start name attributes =>
      rw [Piece.written, readFrom_start hrun hpiece.1 hpiece.2, ih hrest hnil]
      rfl
    | close name =>
      rw [Piece.written, readFrom_close _ hrun hpiece, ih hrest hnil]
      rfl
    | leaf name attributes content =>
      have hclose := readFrom_close (pieces.flatMap Piece.written) hnil hpiece.1
      rw [Piece.endTag] at hclose
      rw [Piece.written, List.append_assoc, List.append_assoc,
        readFrom_start hrun hpiece.1 hpiece.2, Piece.endTag, List.cons_append, List.cons_append,
        readFrom_text (List.forall_mem_nil _), List.nil_append]
      rw [List.cons_append, List.cons_append, readFrom, if_pos rfl, runEvents_blank hnil,
        List.map_nil, List.nil_append] at hclose
      rw [hclose, ih hrest hnil, Piece.events]
      simp

theorem resolveCharRef_entity {c : Char} {name : List Char} (h : entityName c = some name) :
    resolveCharRef name = .ok none := by
  unfold entityName at h
  split at h
  all_goals cases h
  all_goals rfl

def lexer : Reader where
  read := readFrom (.text [])
  unescape := unescape
  resolveCharRef := resolveCharRef
  resolveEntity name := (resolveEntity name).map ([·])
  read_written _ h _ := readFrom_written h (List.forall_mem_nil _)
  unescape_plain _ h := unescape_plain h
  resolveCharRef_entity _ _ h := resolveCharRef_entity h
  resolveEntity_entity _ _ h := by rw [resolveEntity_entity h]; rfl

end Xml
