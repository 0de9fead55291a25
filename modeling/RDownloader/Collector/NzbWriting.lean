import RDownloader.Collector.Nzb
import RDownloader.Core.Digits

/-!
# The pieces an NZB is written in

The writer spells its text out; here it is put together from the pieces that `Xml.Reader` reads back.
-/

namespace RDownloader

namespace Nzb

open Xml (Piece)

/-! ## What is written, in pieces -/

def element (name : Text) (attrs : List (Text × Text)) (inner : List Piece) : List Piece :=
  .start name attrs :: inner ++ [.close name]

def metaPieces (kind value : Text) : List Piece :=
  [.blank "  ".toList, .leaf "meta".toList [("type".toList, kind)] value, .blank ['\n']]

def headPieces (name password : Option Text) : List Piece :=
  if name.isSome ∨ password.isSome then
    .blank [' '] :: element "head".toList [] (.blank ['\n'] ::
      (name.map (metaPieces "name".toList)).getD [] ++
        (password.map (metaPieces "password".toList)).getD [] ++ [.blank [' ']]) ++ [.blank ['\n']]
  else []

def groupPieces (group : Text) : List Piece :=
  [.blank "   ".toList, .leaf "group".toList [] group, .blank ['\n']]

def segmentPieces (segment : NzbSegment) : List Piece :=
  [.blank "   ".toList,
    .leaf "segment".toList
      [("bytes".toList, decimal segment.bytes), ("number".toList, decimal segment.number)]
      segment.messageId,
    .blank ['\n']]

def filePieces (date : Int) (file : NzbFile) : List Piece :=
  .blank [' '] :: element "file".toList
    [("poster".toList, file.poster), ("date".toList, signed (file.date.getD date)),
      ("subject".toList, file.subject)]
    (.blank "\n  ".toList :: element "groups".toList []
        (.blank ['\n'] :: file.groups.flatMap groupPieces ++ [.blank "  ".toList]) ++
      .blank "\n  ".toList :: element "segments".toList []
        (.blank ['\n'] :: file.segments.flatMap segmentPieces ++ [.blank "  ".toList]) ++
      [.blank "\n ".toList]) ++ [.blank ['\n']]

def pieces (document : NzbDocument) (name : Option Text) (date : Int) : List Piece :=
  .declaration "xml version=\"1.0\" encoding=\"UTF-8\"".toList :: .blank ['\n'] ::
    .docType ("nzb PUBLIC \"-//newzBin//DTD NZB 1.1//EN\" ".toList ++
      "\"http://www.newzbin.com/DTD/nzb/nzb-1.1.dtd\"".toList) :: .blank ['\n'] ::
    element "nzb".toList [("xmlns".toList, "http://www.newzbin.com/DTD/2003/nzb".toList)]
      (.blank ['\n'] :: headPieces ((name.map Text.trimmed).filter (· ≠ [])) document.password ++
        document.files.flatMap (filePieces date)) ++ [.blank ['\n']]

section

variable {a b c d e f name indent : Text}

/-- The texts of the writer are spelled out where they are used, and only their cut matters here. -/
theorem leaf_written (ha : a = indent ++ '<' :: name ++ ['>']) (hb : b = Piece.endTag name ++ ['\n'])
    (content : Text) :
    [Piece.blank indent, .leaf name [] content, .blank ['\n']].flatMap Piece.written =
      a ++ Xml.escape content ++ b := by
  subst ha hb
  simp [Piece.written, Piece.tag, Piece.endTag]

theorem groupPieces_written (group : Text) :
    (groupPieces group).flatMap Piece.written = renderGroup group :=
  leaf_written (by decide) (by decide) group

theorem meta_written {key kind : Text} (hkind : ∀ c ∈ kind, Xml.isSpecial c = false)
    (ha : a = indent ++ '<' :: name ++ ' ' :: key ++ ['=', '"']) (hb : b = ['"', '>'])
    (hc : c = Piece.endTag name ++ ['\n']) (value : Text) :
    [Piece.blank indent, .leaf name [(key, kind)] value, .blank ['\n']].flatMap Piece.written =
      a ++ kind ++ b ++ Xml.escape value ++ c := by
  subst ha hb hc
  simp [Piece.written, Piece.tag, Piece.endTag, Piece.writeAttribute, Xml.escape_of_plain hkind]

theorem metaPieces_written {kind : Text} (h : ∀ c ∈ kind, Xml.isSpecial c = false) (value : Text) :
    (metaPieces kind value).flatMap Piece.written = renderMeta kind value :=
  meta_written h (by decide) (by decide) (by decide) value

theorem segment_written {bytes number key key' : Text}
    (hbytes : ∀ c ∈ bytes, Xml.isSpecial c = false)
    (hnumber : ∀ c ∈ number, Xml.isSpecial c = false)
    (ha : a = indent ++ '<' :: name ++ ' ' :: key ++ ['=', '"'])
    (hb : b = '"' :: ' ' :: key' ++ ['=', '"']) (hc : c = ['"', '>'])
    (hd : d = Piece.endTag name ++ ['\n']) (messageId : Text) :
    [Piece.blank indent, .leaf name [(key, bytes), (key', number)] messageId,
        .blank ['\n']].flatMap Piece.written =
      a ++ bytes ++ b ++ number ++ c ++ Xml.escape messageId ++ d := by
  subst ha hb hc hd
  simp [Piece.written, Piece.tag, Piece.endTag, Piece.writeAttribute, Xml.escape_of_plain hbytes,
    Xml.escape_of_plain hnumber]

end

/-! ## Numbers -/

theorem isDigit_of_mem_decimal {n : Nat} {c : Char} (h : c ∈ decimal n) : c.isDigit = true :=
  Text.isDigit_of_mem_toDigits h

theorem plain_of_isDigit {c : Char} (h : c.isDigit = true) : Xml.isSpecial c = false := by
  unfold Xml.isSpecial Xml.entityName
  split
  all_goals first | rfl | cases h

theorem digits_decimal (n : Nat) : Text.digits? (decimal n) = some n := Text.digits_toDigits n

theorem decimal_ne_cons {n : Nat} {rest : Text} (hc : c.isDigit = false) : decimal n ≠ c :: rest :=
  Text.toDigits_ne_cons hc

theorem parseWord_of_digits {digits : Text} {n limit : Nat} (hplus : ∀ rest, digits ≠ '+' :: rest)
    (h : Text.digits? digits = some n) (hle : n ≤ limit) : parseWord limit digits = .ok n := by
  unfold parseWord
  split
  next rest => exact (hplus rest rfl).elim
  · dsimp only
    rw [h]
    exact if_pos hle

theorem parseWord_decimal {n limit : Nat} (h : n ≤ limit) :
    parseWord limit (decimal n) = .ok n :=
  parseWord_of_digits (fun _ => decimal_ne_cons rfl) (digits_decimal n) h

/-- An `i64`. -/
def IsI64 (value : Int) : Prop := -(i64Max + 1) ≤ value ∧ value ≤ i64Max

theorem parseI64_signed {value : Int} (h : IsI64 value) : parseI64 (signed value) = some value :=
  Text.parseI64_ofInt h

theorem tight_signed (value : Int) : Text.Tight (signed value) := by
  refine Text.tight_of_forall fun c hc => ?_
  have hdigit : ∀ {n}, c ∈ decimal n → isWhiteSpace c = false := fun hmem => by
    have hc := isDigit_of_mem_decimal hmem
    rw [Char.isDigit, Bool.and_eq_true, decide_eq_true_iff, decide_eq_true_iff] at hc
    have hlow : 48 ≤ c.toNat := hc.1
    have hhigh : c.toNat ≤ 57 := hc.2
    simp only [isWhiteSpace, Bool.or_eq_false_iff, Bool.and_eq_false_iff, decide_eq_false_iff_not]
    omega
  cases value with
  | ofNat n => exact hdigit hc
  | negSucc n =>
    obtain rfl | hc := List.mem_cons.mp hc
    · rfl
    · exact hdigit hc

theorem plain_signed (value : Int) : ∀ c ∈ signed value, Xml.isSpecial c = false := by
  intro c hc
  cases value with
  | ofNat n => exact plain_of_isDigit (isDigit_of_mem_decimal hc)
  | negSucc n =>
    obtain rfl | hc := List.mem_cons.mp hc
    · rfl
    · exact plain_of_isDigit (isDigit_of_mem_decimal hc)

/-! ## What the pieces are written as -/

theorem segmentPieces_written (segment : NzbSegment) :
    (segmentPieces segment).flatMap Piece.written = renderSegment segment :=
  segment_written (fun _ hc => plain_of_isDigit (isDigit_of_mem_decimal hc))
    (fun _ hc => plain_of_isDigit (isDigit_of_mem_decimal hc)) (by decide) (by decide) (by decide)
    (by decide) segment.messageId

theorem flatMap_written {f : α → List Piece} {g : α → Text}
    (h : ∀ a, (f a).flatMap Piece.written = g a) (l : List α) :
    (l.flatMap f).flatMap Piece.written = l.flatMap g := by
  rw [List.flatMap_assoc]
  exact congrArg List.flatten (List.map_congr_left fun a _ => h a)

section

variable {a b c d e f indent wide line lineWide lineIndent file groups segments poster date subject : Text}

theorem file_written (ha : a = indent ++ '<' :: file ++ ' ' :: poster ++ ['=', '"'])
    (hb : b = '"' :: ' ' :: date ++ ['=', '"']) (hc : c = '"' :: ' ' :: subject ++ ['=', '"'])
    (hd : d = '"' :: '>' :: lineWide ++ Piece.tag groups [] ++ line)
    (he : e = wide ++ Piece.endTag groups ++ lineWide ++ Piece.tag segments [] ++ line)
    (hf : f = wide ++ Piece.endTag segments ++ lineIndent ++ Piece.endTag file ++ line)
    {time : Text} (htime : ∀ c ∈ time, Xml.isSpecial c = false) (author title : Text)
    {inGroups inSegments : List Piece} {writtenGroups writtenSegments : Text}
    (hgroups : inGroups.flatMap Piece.written = writtenGroups)
    (hsegments : inSegments.flatMap Piece.written = writtenSegments) :
    (Piece.blank indent :: element file [(poster, author), (date, time), (subject, title)]
      (.blank lineWide :: element groups [] (.blank line :: inGroups ++ [.blank wide]) ++
        .blank lineWide :: element segments [] (.blank line :: inSegments ++ [.blank wide]) ++
        [.blank lineIndent]) ++ [.blank line] : List Piece).flatMap Piece.written =
      a ++ Xml.escape author ++ b ++ time ++ c ++ Xml.escape title ++ d ++ writtenGroups ++ e ++
        writtenSegments ++ f := by
  subst ha hb hc hd he hf hgroups hsegments
  simp [element, Piece.written, Piece.tag, Piece.endTag, Piece.writeAttribute,
    Xml.escape_of_plain htime]

theorem filePieces_written (date : Int) (file : NzbFile) :
    (filePieces date file).flatMap Piece.written = renderFile date file :=
  file_written (by decide) (by decide) (by decide) (by decide) (by decide) (by decide)
    (plain_signed _) file.poster file.subject (flatMap_written groupPieces_written file.groups)
    (flatMap_written segmentPieces_written file.segments)

theorem head_written (ha : a = indent ++ Piece.tag file [] ++ line)
    (hb : b = indent ++ Piece.endTag file ++ line) {inName inPassword : List Piece}
    {writtenName writtenPassword : Text} (hname : inName.flatMap Piece.written = writtenName)
    (hpassword : inPassword.flatMap Piece.written = writtenPassword) :
    (Piece.blank indent :: element file [] (.blank line :: inName ++ inPassword ++
      [.blank indent]) ++ [.blank line] : List Piece).flatMap Piece.written =
      a ++ writtenName ++ writtenPassword ++ b := by
  subst ha hb hname hpassword
  simp [element, Piece.written]

theorem option_written {kind : Text} (h : ∀ c ∈ kind, Xml.isSpecial c = false)
    (value : Option Text) : ((value.map (metaPieces kind)).getD []).flatMap Piece.written =
      (value.map (renderMeta kind)).getD [] := by
  cases value with
  | none => rfl
  | some value => exact metaPieces_written h value

theorem headPieces_written (name password : Option Text) :
    (headPieces name password).flatMap Piece.written = renderHead name password := by
  unfold headPieces renderHead
  split
  · exact head_written (by decide) (by decide) (option_written (Xml.false_of_any (by decide)) name)
      (option_written (Xml.false_of_any (by decide)) password)
  · rfl

theorem document_written {declaration docType key address : Text}
    (ha : a = '<' :: '?' :: declaration ++ '?' :: '>' :: line ++
      Piece.written (.docType docType) ++ line ++ Piece.tag file [(key, address)] ++ line)
    (hb : b = Piece.endTag file ++ line) {inHead inFiles : List Piece}
    {writtenHead writtenFiles : Text} (hhead : inHead.flatMap Piece.written = writtenHead)
    (hfiles : inFiles.flatMap Piece.written = writtenFiles) :
    (.declaration declaration :: .blank line :: .docType docType :: .blank line ::
      element file [(key, address)] (.blank line :: inHead ++ inFiles) ++
        [.blank line] : List Piece).flatMap Piece.written = a ++ writtenHead ++ writtenFiles ++ b := by
  subst ha hb hhead hfiles
  simp [element, Piece.written]

theorem pieces_written (document : NzbDocument) (name : Option Text) (date : Int) :
    (pieces document name date).flatMap Piece.written = renderNzb document name date :=
  document_written (by decide +kernel) (by decide) (headPieces_written _ _)
    (flatMap_written (filePieces_written date) document.files)

end

/-! ## The documents -/

/-- A text without control characters or space around it. -/
def Clean (text : Text) : Prop := (∀ c ∈ text, isControl c = false) ∧ text.Tight

end Nzb

/-- A segment of a document that is written. -/
structure NzbSegment.Lawful (segment : NzbSegment) : Prop where
  positive : 1 ≤ segment.number
  number : segment.number ≤ u32Max
  bytes : segment.bytes ≤ u64Max
  messageId : Nzb.Clean segment.messageId

structure NzbFile.Lawful (file : NzbFile) : Prop where
  subject : Nzb.Clean file.subject
  poster : Nzb.Clean file.poster
  date : ∀ date ∈ file.date, Nzb.IsI64 date
  groups : ∀ group ∈ file.groups, Nzb.Clean group
  segments : ∀ segment ∈ file.segments, segment.Lawful
  increasing : file.segments.Pairwise (·.number < ·.number)

structure NzbDocument.Lawful (document : NzbDocument) : Prop where
  password : ∀ password ∈ document.password, Nzb.Clean password
  files : ∀ file ∈ document.files, file.Lawful

namespace Nzb

open Xml (Piece)

theorem Clean.printable {text : Text} (h : Clean text) : ∀ c ∈ text, 32 ≤ c.toNat := by
  intro c hc
  have hcontrol := h.1 c hc
  simp only [isControl, Bool.or_eq_false_iff, decide_eq_false_iff_not] at hcontrol
  omega

theorem printable_of_isDigit {c : Char} (h : c.isDigit = true) : 32 ≤ c.toNat := by
  rw [Char.isDigit, Bool.and_eq_true, decide_eq_true_iff] at h
  have hlow : 48 ≤ c.toNat := h.1
  omega

theorem printable_decimal (n : Nat) : ∀ c ∈ decimal n, 32 ≤ c.toNat :=
  fun _ hc => printable_of_isDigit (isDigit_of_mem_decimal hc)

theorem printable_signed (value : Int) : ∀ c ∈ signed value, 32 ≤ c.toNat := by
  intro c hc
  cases value with
  | ofNat n => exact printable_decimal n c hc
  | negSucc n =>
    obtain rfl | hc := List.mem_cons.mp hc
    · decide
    · exact printable_decimal _ c hc

theorem proper_flatMap {f : α → List Piece} {l : List α}
    (h : ∀ a ∈ l, ∀ piece ∈ f a, piece.Proper) : ∀ piece ∈ l.flatMap f, piece.Proper := by
  intro piece hpiece
  obtain ⟨a, ha, hmem⟩ := List.mem_flatMap.mp hpiece
  exact h a ha piece hmem

theorem proper_element {name : Text} {attrs : List (Text × Text)} {inner : List Piece}
    (hname : Piece.IsName name) (hattrs : Piece.AreAttributes attrs)
    (h : ∀ piece ∈ inner, piece.Proper) : ∀ piece ∈ element name attrs inner, piece.Proper := by
  intro piece hpiece
  simp only [element, List.cons_append, List.mem_cons, List.mem_append, List.not_mem_nil,
    or_false] at hpiece
  rcases hpiece with rfl | hpiece | rfl
  · exact ⟨hname, hattrs⟩
  · exact h piece hpiece
  · exact hname

theorem proper_groupPieces (group : Text) : ∀ piece ∈ groupPieces group, piece.Proper := by
  simp only [groupPieces, List.forall_mem_cons]
  exact ⟨by decide, ⟨by decide, ⟨by decide, nofun⟩⟩, by decide, nofun⟩

theorem proper_metaPieces {kind : Text} (h : ∀ c ∈ kind, 32 ≤ c.toNat) (value : Text) :
    ∀ piece ∈ metaPieces kind value, piece.Proper := by
  simp only [metaPieces, List.forall_mem_cons]
  refine ⟨by decide, ⟨by decide, List.nodup_singleton _, ?_⟩, by decide, nofun⟩
  have hname : Piece.IsName "type".toList := by decide
  exact List.forall_mem_cons.mpr ⟨⟨hname, h⟩, nofun⟩

theorem proper_segmentPieces (segment : NzbSegment) :
    ∀ piece ∈ segmentPieces segment, piece.Proper := by
  simp only [segmentPieces, List.forall_mem_cons]
  have hkeys : ["bytes".toList, "number".toList].Nodup := by decide
  refine ⟨by decide, ⟨by decide, hkeys, ?_⟩, by decide, nofun⟩
  have hbytes : Piece.IsName "bytes".toList := by decide
  have hnumber : Piece.IsName "number".toList := by decide
  simp only [List.forall_mem_cons]
  exact ⟨⟨hbytes, printable_decimal _⟩, ⟨hnumber, printable_decimal _⟩, nofun⟩

theorem proper_filePieces {file : NzbFile} (h : file.Lawful) (date : Int) :
    ∀ piece ∈ filePieces date file, piece.Proper := by
  simp only [filePieces, List.cons_append, List.forall_mem_cons, List.forall_mem_append]
  have hkeys : ["poster".toList, "date".toList, "subject".toList].Nodup := by decide
  refine ⟨by decide, proper_element (by decide) ⟨hkeys, ?_⟩ ?_, by decide, nofun⟩
  · have hposter : Piece.IsName "poster".toList := by decide
    have hdate : Piece.IsName "date".toList := by decide
    have hsubject : Piece.IsName "subject".toList := by decide
    simp only [List.forall_mem_cons]
    exact ⟨⟨hposter, h.poster.printable⟩, ⟨hdate, printable_signed _⟩,
      ⟨hsubject, h.subject.printable⟩, nofun⟩
  · simp only [List.append_assoc, List.cons_append, List.forall_mem_cons, List.forall_mem_append]
    refine ⟨by decide, proper_element (by decide) (by decide) ?_, by decide,
      proper_element (by decide) (by decide) ?_, by decide, nofun⟩
    · simp only [List.forall_mem_cons, List.forall_mem_append]
      exact ⟨by decide, proper_flatMap fun group _ => proper_groupPieces group, by decide, nofun⟩
    · simp only [List.forall_mem_cons, List.forall_mem_append]
      exact ⟨by decide, proper_flatMap fun segment _ => proper_segmentPieces segment, by decide,
        nofun⟩

theorem proper_option {kind : Text} (h : ∀ c ∈ kind, 32 ≤ c.toNat) (value : Option Text) :
    ∀ piece ∈ (value.map (metaPieces kind)).getD [], piece.Proper := by
  cases value with
  | none => exact nofun
  | some value => exact proper_metaPieces h value

theorem proper_headPieces (name password : Option Text) :
    ∀ piece ∈ headPieces name password, piece.Proper := by
  unfold headPieces
  split
  · simp only [List.cons_append, List.forall_mem_cons, List.forall_mem_append]
    refine ⟨by decide, proper_element (by decide) (by decide) ?_, by decide, nofun⟩
    simp only [List.append_assoc, List.forall_mem_cons, List.forall_mem_append]
    exact ⟨by decide, proper_option (Xml.of_all (by decide)) name, proper_option (Xml.of_all (by decide)) password,
      by decide, nofun⟩
  · exact nofun

theorem proper_pieces {document : NzbDocument} (h : document.Lawful) (name : Option Text)
    (date : Int) : ∀ piece ∈ pieces document name date, piece.Proper := by
  simp only [pieces, List.cons_append, List.forall_mem_cons, List.forall_mem_append]
  refine ⟨by decide, by decide, by decide, by decide, proper_element (by decide) (by decide) ?_,
    by decide, nofun⟩
  simp only [List.forall_mem_cons, List.forall_mem_append]
  exact ⟨by decide, proper_headPieces _ _,
    proper_flatMap fun file hfile => proper_filePieces (h.files file hfile) date⟩

/-! ## What is opened is closed -/

theorem even_groupPieces (group : Text) : Piece.Even (groupPieces group) :=
  Piece.even_blank_cons (Piece.even_leaf_cons (Piece.even_blank_cons Piece.even_nil))

theorem even_metaPieces (kind value : Text) : Piece.Even (metaPieces kind value) :=
  Piece.even_blank_cons (Piece.even_leaf_cons (Piece.even_blank_cons Piece.even_nil))

theorem even_segmentPieces (segment : NzbSegment) : Piece.Even (segmentPieces segment) :=
  Piece.even_blank_cons (Piece.even_leaf_cons (Piece.even_blank_cons Piece.even_nil))

theorem even_blank (content : Text) : Piece.Even [.blank content] :=
  Piece.even_blank_cons Piece.even_nil

theorem even_filePieces (date : Int) (file : NzbFile) : Piece.Even (filePieces date file) := by
  refine Piece.even_blank_cons (Piece.Even.append (Piece.Even.nest ?_ _ _) (even_blank _))
  refine Piece.even_blank_cons (Piece.Even.append (Piece.Even.append (Piece.Even.nest ?_ _ _)
    (Piece.even_blank_cons (Piece.Even.nest ?_ _ _))) (even_blank _))
  · exact Piece.even_blank_cons
      ((Piece.even_flatMap _ even_groupPieces _).append (even_blank _))
  · exact Piece.even_blank_cons
      ((Piece.even_flatMap _ even_segmentPieces _).append (even_blank _))

theorem even_option (kind : Text) (value : Option Text) :
    Piece.Even ((value.map (metaPieces kind)).getD []) := by
  cases value with
  | none => exact Piece.even_nil
  | some value => exact even_metaPieces kind value

theorem even_headPieces (name password : Option Text) : Piece.Even (headPieces name password) := by
  unfold headPieces
  split
  · refine Piece.even_blank_cons (Piece.Even.append (Piece.Even.nest ?_ _ _) (even_blank _))
    exact Piece.even_blank_cons
      (((even_option _ name).append (even_option _ password)).append (even_blank _))
  · exact Piece.even_nil

theorem balanced_pieces (document : NzbDocument) (name : Option Text) (date : Int) :
    Piece.Balanced [] (pieces document name date) := by
  have heven : Piece.Even (pieces document name date) := by
    refine Piece.even_declaration_cons (Piece.even_blank_cons (Piece.even_docType_cons
      (Piece.even_blank_cons (Piece.Even.append (Piece.Even.nest ?_ _ _) (even_blank _)))))
    exact Piece.even_blank_cons
      ((even_headPieces _ _).append (Piece.even_flatMap _ (even_filePieces date) _))
  have hclosed := (heven [] []).mpr rfl
  rwa [List.append_nil] at hclosed

theorem read_renderNzb {document : NzbDocument} (h : document.Lawful) (reader : Xml.Reader)
    (name : Option Text) (date : Int) :
    reader.read (renderNzb document name date) =
      ((pieces document name date).flatMap Piece.events).map .ok := by
  rw [← pieces_written]
  exact reader.read_written _ (proper_pieces h name date) (balanced_pieces document name date)

/-! ## How many bytes are written -/

/-- The bytes of a text that is escaped. -/
def escapedBytes (text : Text) : Nat :=
  (text.map fun c => match Xml.entityName c with
    | some name => name.length + 2
    | none => c.utf8Size).sum

def metaBytes (kind value : Text) : Nat := 24 + kind.length + escapedBytes value

def headBytes (name password : Option Text) : Nat :=
  if name.isSome ∨ password.isSome then
    17 + (name.map (metaBytes "name".toList)).getD 0 +
      (password.map (metaBytes "password".toList)).getD 0
  else 0

def groupBytes (group : Text) : Nat := 19 + escapedBytes group

def segmentBytes (segment : NzbSegment) : Nat :=
  42 + (decimal segment.bytes).length + (decimal segment.number).length +
    escapedBytes segment.messageId

def fileBytes (date : Int) (file : NzbFile) : Nat :=
  96 + escapedBytes file.poster + (signed (file.date.getD date)).length +
    escapedBytes file.subject + (file.groups.map groupBytes).sum +
    (file.segments.map segmentBytes).sum

/-- The bytes of an NZB, counted on the document it is written from. -/
def documentBytes (document : NzbDocument) (name : Option Text) (date : Int) : Nat :=
  193 + headBytes ((name.map Text.trimmed).filter (· ≠ [])) document.password +
    (document.files.map (fileBytes date)).sum

theorem byteLength_append (a b : Text) :
    Text.byteLength (a ++ b) = Text.byteLength a + Text.byteLength b := by
  rw [Text.byteLength, List.map_append, List.sum_append]
  rfl

theorem byteLength_flatMap {f : α → Text} {g : α → Nat} (h : ∀ a, Text.byteLength (f a) = g a)
    (l : List α) : Text.byteLength (l.flatMap f) = (l.map g).sum := by
  induction l with
  | nil => rfl
  | cons a l ih => rw [List.flatMap_cons, byteLength_append, h, ih, List.map_cons, List.sum_cons]

theorem byteLength_escape (text : Text) : Text.byteLength (Xml.escape text) = escapedBytes text := by
  refine byteLength_flatMap (fun c => ?_) text
  unfold Xml.escapeChar
  cases hname : Xml.entityName c with
  | none => exact Nat.add_zero _
  | some name =>
    unfold Xml.entityName at hname
    split at hname <;> cases hname <;> rfl

theorem byteLength_of_ascii {text : Text} (h : ∀ c ∈ text, c.toNat ≤ 127) :
    Text.byteLength text = text.length := by
  induction text with
  | nil => rfl
  | cons c text ih =>
    rw [List.forall_mem_cons] at h
    have hsize : c.utf8Size = 1 := Char.utf8Size_eq_one_iff.mpr h.1
    rw [Text.byteLength, List.map_cons, List.sum_cons, hsize, ← Text.byteLength, ih h.2,
      List.length_cons, Nat.add_comm]

theorem ascii_decimal (n : Nat) : ∀ c ∈ decimal n, c.toNat ≤ 127 := by
  intro c hc
  have hdigit := isDigit_of_mem_decimal hc
  rw [Char.isDigit, Bool.and_eq_true, decide_eq_true_iff, decide_eq_true_iff] at hdigit
  have hhigh : c.toNat ≤ 57 := hdigit.2
  omega

theorem ascii_signed (value : Int) : ∀ c ∈ signed value, c.toNat ≤ 127 := by
  intro c hc
  cases value with
  | ofNat n => exact ascii_decimal n c hc
  | negSucc n =>
    obtain rfl | hc := List.mem_cons.mp hc
    · decide
    · exact ascii_decimal _ c hc

section

variable {a b c d e f : Text}

theorem byteLength_meta {kind : Text} (h : ∀ c ∈ kind, c.toNat ≤ 127)
    (ha : Text.byteLength a = 14) (hb : Text.byteLength b = 2) (hc : Text.byteLength c = 8)
    (value : Text) : Text.byteLength (a ++ kind ++ b ++ Xml.escape value ++ c) =
      metaBytes kind value := by
  simp only [metaBytes, byteLength_append, byteLength_escape, byteLength_of_ascii h, ha, hb, hc]
  omega

theorem byteLength_group (ha : Text.byteLength a = 10) (hb : Text.byteLength b = 9)
    (group : Text) : Text.byteLength (a ++ Xml.escape group ++ b) = groupBytes group := by
  simp only [groupBytes, byteLength_append, byteLength_escape, ha, hb]
  omega

theorem byteLength_segment (ha : Text.byteLength a = 19) (hb : Text.byteLength b = 10)
    (hc : Text.byteLength c = 2) (hd : Text.byteLength d = 11) (segment : NzbSegment) :
    Text.byteLength (a ++ decimal segment.bytes ++ b ++ decimal segment.number ++ c ++
      Xml.escape segment.messageId ++ d) = segmentBytes segment := by
  simp only [segmentBytes, byteLength_append, byteLength_escape,
    byteLength_of_ascii (ascii_decimal _), ha, hb, hc, hd]
  omega

theorem byteLength_file (ha : Text.byteLength a = 15) (hb : Text.byteLength b = 8)
    (hc : Text.byteLength c = 11) (hd : Text.byteLength d = 14) (he : Text.byteLength e = 25)
    (hf : Text.byteLength f = 23) {file : NzbFile} {date : Int} {groups segments : Text}
    (hgroups : Text.byteLength groups = (file.groups.map groupBytes).sum)
    (hsegments : Text.byteLength segments = (file.segments.map segmentBytes).sum) :
    Text.byteLength (a ++ Xml.escape file.poster ++ b ++ signed (file.date.getD date) ++ c ++
      Xml.escape file.subject ++ d ++ groups ++ e ++ segments ++ f) = fileBytes date file := by
  simp only [fileBytes, byteLength_append, byteLength_escape, byteLength_of_ascii (ascii_signed _),
    ha, hb, hc, hd, he, hf, hgroups, hsegments]
  omega

end

theorem byteLength_renderMeta {kind : Text} (h : ∀ c ∈ kind, c.toNat ≤ 127) (value : Text) :
    Text.byteLength (renderMeta kind value) = metaBytes kind value :=
  byteLength_meta h (by decide +kernel) (by decide +kernel) (by decide +kernel) value

theorem byteLength_option {kind : Text} (h : ∀ c ∈ kind, c.toNat ≤ 127) (value : Option Text) :
    Text.byteLength ((value.map (renderMeta kind)).getD []) =
      (value.map (metaBytes kind)).getD 0 := by
  cases value with
  | none => rfl
  | some value => exact byteLength_renderMeta h value

theorem byteLength_renderHead (name password : Option Text) :
    Text.byteLength (renderHead name password) = headBytes name password := by
  have hopened : Text.byteLength " <head>\n".toList = 8 := by decide +kernel
  have hclosed : Text.byteLength " </head>\n".toList = 9 := by decide +kernel
  have hname : ∀ c ∈ "name".toList, c.toNat ≤ 127 := Xml.of_all (by decide)
  have hpassword : ∀ c ∈ "password".toList, c.toNat ≤ 127 := Xml.of_all (by decide)
  unfold renderHead headBytes
  split
  · simp only [byteLength_append, byteLength_option hname, byteLength_option hpassword, hopened,
      hclosed]
    clear hopened hclosed
    omega
  · rfl

theorem byteLength_renderGroup (group : Text) :
    Text.byteLength (renderGroup group) = groupBytes group :=
  byteLength_group (by decide +kernel) (by decide +kernel) group

theorem byteLength_renderSegment (segment : NzbSegment) :
    Text.byteLength (renderSegment segment) = segmentBytes segment :=
  byteLength_segment (by decide +kernel) (by decide +kernel) (by decide +kernel)
    (by decide +kernel) segment

theorem byteLength_renderFile (date : Int) (file : NzbFile) :
    Text.byteLength (renderFile date file) = fileBytes date file :=
  byteLength_file (by decide +kernel) (by decide +kernel) (by decide +kernel) (by decide +kernel)
    (by decide +kernel) (by decide +kernel) (byteLength_flatMap byteLength_renderGroup _)
    (byteLength_flatMap byteLength_renderSegment _)

theorem byteLength_renderNzb (document : NzbDocument) (name : Option Text) (date : Int) :
    Text.byteLength (renderNzb document name date) = documentBytes document name date := by
  have hprologue : Text.byteLength prologue = 186 := by decide +kernel
  have hclosed : Text.byteLength "</nzb>\n".toList = 7 := by decide +kernel
  change Text.byteLength (prologue ++ renderHead ((name.map Text.trimmed).filter (· ≠ []))
    document.password ++ document.files.flatMap (renderFile date) ++ "</nzb>\n".toList) = _
  simp only [documentBytes, byteLength_append, byteLength_renderHead,
    byteLength_flatMap (byteLength_renderFile date), hprologue, hclosed]
  clear hprologue hclosed
  omega

end Nzb

end RDownloader
