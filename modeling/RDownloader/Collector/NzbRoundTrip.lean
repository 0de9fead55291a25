import RDownloader.Collector.NzbWriting
import RDownloader.Lib.XmlLexer

/-!
# What reads back of an NZB that was written

A group or a message id with an escaped character is cut by the reader, and an empty one is not
delivered at all; a password keeps its escaped characters but not the spaces next to them.
-/

namespace RDownloader

namespace Nzb

open Xml (Piece Event texts joined trim)

namespace Parser

variable (reader : Xml.Reader)

/-- The parser after the events of some pieces. -/
def feed (pieces : List Piece) (parser : Parser) : Except String Parser :=
  events reader ((pieces.flatMap Piece.events).map .ok) parser

variable {reader} {parser : Parser} {name element content value : Text} {pieces : List Piece}

theorem events_append (before after : List (Except String Event)) (parser : Parser) :
    events reader (before ++ after) parser =
      (events reader before parser).bind (events reader after) := by
  induction before generalizing parser with
  | nil => rfl
  | cons event before ih =>
    cases event with
    | error error => rfl
    | ok event =>
      rw [List.cons_append, events, events]
      cases parser.event reader event with
      | error error => rfl
      | ok parser => exact ih parser

theorem feed_blank (content : Text) (pieces : List Piece) (parser : Parser) :
    feed reader (.blank content :: pieces) parser = feed reader pieces parser :=
  rfl

theorem feed_declaration (content : Text) (pieces : List Piece) (parser : Parser) :
    feed reader (.declaration content :: pieces) parser = feed reader pieces parser :=
  rfl

theorem feed_docType (h : validateDoctype content = .ok ()) :
    feed reader (.docType content :: pieces) parser = feed reader pieces parser := by
  change ((validateDoctype content).map fun _ => parser).bind (feed reader pieces) = _
  rw [h]
  rfl

theorem feed_start {attrs : List (Text × Text)}
    (h : parser.start name (attrs.map Piece.readAttribute) = .ok parser') :
    feed reader (.start name attrs :: pieces) parser = feed reader pieces parser' := by
  change (parser.start name (attrs.map Piece.readAttribute)).bind (feed reader pieces) = _
  rw [h]
  rfl

theorem feed_close (h : parser.close name = .ok parser') :
    feed reader (.close name :: pieces) parser = feed reader pieces parser' := by
  change (parser.close name).bind (feed reader pieces) = _
  rw [h]
  rfl

theorem feed_leaf {attrs : List (Text × Text)}
    (hstart : parser.start name (attrs.map Piece.readAttribute) = .ok opened)
    (htext : events reader ((Xml.textEvents content).map .ok) opened = .ok heard) :
    feed reader (.leaf name attrs content :: pieces) parser =
      (heard.close name).bind (feed reader pieces) := by
  have hlist : (Piece.leaf name attrs content :: pieces).flatMap Piece.events =
      Piece.startEvent name attrs :: Xml.textEvents content ++
        (.close name :: pieces.flatMap Piece.events) := by
    rw [List.flatMap_cons, Piece.events, List.append_assoc, List.singleton_append]
  rw [feed, hlist, List.map_append, events_append, List.map_cons, Piece.startEvent, events, event,
    hstart, Except.bind, htext]
  rfl

/-! ## Texts where no password is open -/

theorem push_of_none (h : parser.passwordMeta = none) : parser.push value = parser := by
  unfold push
  rw [h, Option.map_none, ← h]

theorem take_passwordMeta : (parser.take value).passwordMeta = parser.passwordMeta := by
  unfold take
  split
  · rfl
  · split
    · split <;> rfl
    · rfl

theorem unescape_plain (h : ∀ c ∈ value, Xml.isSpecial c = false) :
    reader.unescape value = .ok value := by
  refine reader.unescape_plain value fun hmem => ?_
  have hspecial := h _ hmem
  cases hspecial

theorem plain_trim {run : Text} (h : ∀ c ∈ run, Xml.isSpecial c = false) :
    ∀ c ∈ trim run, Xml.isSpecial c = false :=
  fun c hc => h c ((Xml.trim_sublist run).subset hc)

theorem events_run {run : Text} (hplain : ∀ c ∈ run, Xml.isSpecial c = false)
    (h : parser.passwordMeta = none) :
    events reader ((Xml.runEvents run).map .ok) parser =
      .ok ((([run].map trim).filter (· ≠ [])).foldl take parser) := by
  rw [List.map_singleton]
  by_cases hempty : trim run = []
  · simp [Xml.runEvents, hempty, events]
  · have htext : parser.text reader (trim run) = .ok (parser.take (trim run)) := by
      rw [text, unescape_plain (plain_trim hplain), Except.map, push_of_none h]
    simp [Xml.runEvents, hempty, events, event, htext, Except.bind]

theorem foldl_take_passwordMeta (values : List Text) :
    (values.foldl take parser).passwordMeta = parser.passwordMeta := by
  induction values generalizing parser with
  | nil => rfl
  | cons value values ih => rw [List.foldl_cons, ih, take_passwordMeta]

theorem entityName_of_isSpecial {c : Char} (h : Xml.isSpecial c = true) :
    Xml.entityName c = some ((Xml.entityName c).getD []) := by
  obtain ⟨name, hname⟩ := Option.isSome_iff_exists.mp h
  rw [hname, Option.getD_some]

/-- The events after the first text of a content. -/
def pairEvents (pairs : List (Char × Text)) : List Event :=
  pairs.flatMap fun (c, run) => .generalRef ((Xml.entityName c).getD []) :: Xml.runEvents run

theorem events_pairs {pairs : List (Char × Text)}
    (hplain : ∀ pair ∈ pairs, ∀ c ∈ pair.2, Xml.isSpecial c = false)
    (h : parser.passwordMeta = none) :
    events reader ((pairEvents pairs).map .ok) parser =
      .ok ((((pairs.map (·.2)).map trim).filter (· ≠ [])).foldl take parser) := by
  induction pairs generalizing parser with
  | nil => rfl
  | cons pair pairs ih =>
    rw [List.forall_mem_cons] at hplain
    have href : parser.generalRef reader ((Xml.entityName pair.1).getD []) = .ok parser := by
      rw [generalRef, h]
    rw [pairEvents, List.flatMap_cons, List.map_append, List.map_cons, List.cons_append, events,
      event, href, Except.bind, events_append, events_run hplain.1 h, Except.bind, ← pairEvents,
      ih hplain.2 (by rw [foldl_take_passwordMeta, h]), ← List.foldl_append, ← List.filter_append,
      ← List.map_append]
    rfl

variable (reader) in
theorem events_texts (content : Text) (parser : Parser) (h : parser.passwordMeta = none) :
    events reader ((Xml.textEvents content).map .ok) parser =
      .ok ((texts content).foldl take parser) := by
  have hfirst : ∀ c ∈ (Xml.cut content).1, Xml.isSpecial c = false :=
    Xml.plain_of_mem_runs (List.mem_cons_self ..)
  have hrest : ∀ pair ∈ (Xml.cut content).2, ∀ c ∈ pair.2, Xml.isSpecial c = false :=
    fun pair hpair => Xml.plain_of_mem_runs
      (List.mem_cons_of_mem _ (List.mem_map_of_mem hpair))
  rw [Xml.textEvents, List.map_append, events_append, events_run hfirst h, Except.bind,
    ← pairEvents, events_pairs hrest (by rw [foldl_take_passwordMeta, h]), ← List.foldl_append,
    ← List.filter_append, ← List.map_append]
  rfl

/-! ## Texts of an open password -/

theorem push_nil : parser.push [] = parser := by
  cases parser with
  | mk document currentFile currentSegment currentElement inHead passwordMeta =>
    cases passwordMeta with
    | none => rfl
    | some opened => simp [push]

theorem push_push (first second : Text) :
    (parser.push first).push second = parser.push (first ++ second) := by
  simp [push, Function.comp_def, List.append_assoc]

theorem take_of_meta (h : parser.currentElement = "meta".toList) : parser.take value = parser := by
  rw [take, h, if_neg (by decide), if_neg (by decide)]

theorem foldl_take_of_meta (h : parser.currentElement = "meta".toList) (values : List Text) :
    values.foldl take parser = parser := by
  induction values with
  | nil => rfl
  | cons value values ih => rw [List.foldl_cons, take_of_meta h, ih]

theorem password_run {run : Text} (hplain : ∀ c ∈ run, Xml.isSpecial c = false)
    (h : parser.currentElement = "meta".toList) :
    events reader ((Xml.runEvents run).map .ok) parser = .ok (parser.push (trim run)) := by
  unfold Xml.runEvents
  split
  next hempty =>
    rw [hempty, push_nil]
    rfl
  · have htext : parser.text reader (trim run) = .ok (parser.push (trim run)) := by
      have hmeta : (parser.push (trim run)).currentElement = "meta".toList := h
      rw [text, unescape_plain (plain_trim hplain), Except.map, take_of_meta hmeta]
    rw [List.map_singleton, events, event, htext]
    rfl

theorem password_pairs {pairs : List (Char × Text)}
    (hpairs : ∀ pair ∈ pairs, Xml.isSpecial pair.1 = true ∧ ∀ c ∈ pair.2, Xml.isSpecial c = false)
    (h : parser.currentElement = "meta".toList) (hopen : parser.passwordMeta.isSome) :
    events reader ((pairEvents pairs).map .ok) parser =
      .ok (parser.push (pairs.flatMap fun pair => pair.1 :: trim pair.2)) := by
  induction pairs generalizing parser with
  | nil => exact congrArg Except.ok push_nil.symm
  | cons pair pairs ih =>
    obtain ⟨⟨hspecial, hplain⟩, hrest⟩ := List.forall_mem_cons.mp hpairs
    have hname := entityName_of_isSpecial hspecial
    obtain ⟨opened, hopened⟩ := Option.isSome_iff_exists.mp hopen
    have href : parser.generalRef reader ((Xml.entityName pair.1).getD []) =
        .ok (parser.push [pair.1]) := by
      rw [generalRef, hopened, reader.resolveCharRef_entity _ _ hname]
      dsimp only
      rw [reader.resolveEntity_entity _ _ hname]
    have hmeta : ∀ value, (parser.push value).currentElement = "meta".toList := fun _ => h
    have hpush : ∀ value, (parser.push value).passwordMeta.isSome := fun value => by
      rw [push, Option.isSome_map, hopen]
    rw [pairEvents, List.flatMap_cons, List.map_append, List.map_cons, List.cons_append, events,
      event, href, Except.bind, events_append, password_run hplain (hmeta _), Except.bind,
      ← pairEvents, push_push, ih hrest (hmeta _) (hpush _), push_push]
    rfl

variable (reader) in
theorem password_texts (content : Text) (parser : Parser) (h : parser.currentElement = "meta".toList)
    (hopen : parser.passwordMeta.isSome) :
    events reader ((Xml.textEvents content).map .ok) parser = .ok (parser.push (joined content)) := by
  have hfirst : ∀ c ∈ (Xml.cut content).1, Xml.isSpecial c = false :=
    Xml.plain_of_mem_runs (List.mem_cons_self ..)
  have hrest : ∀ pair ∈ (Xml.cut content).2,
      Xml.isSpecial pair.1 = true ∧ ∀ c ∈ pair.2, Xml.isSpecial c = false := fun pair hpair =>
    ⟨Xml.isSpecial_of_mem_cut hpair,
      Xml.plain_of_mem_runs (List.mem_cons_of_mem _ (List.mem_map_of_mem hpair))⟩
  have hmeta : (parser.push (trim (Xml.cut content).1)).currentElement = "meta".toList := h
  have hpush : (parser.push (trim (Xml.cut content).1)).passwordMeta.isSome := by
    rw [push, Option.isSome_map, hopen]
  rw [Xml.textEvents, List.map_append, events_append, password_run hfirst h, Except.bind,
    ← pairEvents, password_pairs hrest hmeta hpush, push_push]
  rfl

/-! ## Elements -/

theorem start_plain {attributes : List (Except String Xml.Attribute)}
    (h : name ≠ "head".toList ∧ name ≠ "meta".toList ∧ name ≠ "file".toList ∧
      name ≠ "segment".toList) (parser : Parser) :
    parser.start name attributes = .ok { parser with currentElement := name } := by
  rw [start, if_neg h.1, if_neg (fun hmeta => h.2.1 hmeta.1), if_neg h.2.2.1, if_neg h.2.2.2]

theorem close_plain (h : name ≠ "head".toList ∧ name ≠ "meta".toList ∧ name ≠ "file".toList)
    (parser : Parser) : parser.close name = .ok { parser with currentElement := [] } := by
  rw [close, if_neg h.2.1, if_neg h.1, if_neg h.2.2, Except.map]

variable {document : NzbDocument} {file : NzbFile} {left : Option (Nat × Nat)} {inHead : Bool}

theorem take_of_group (h : parser.currentElement = "group".toList) :
    parser.take value = { parser with currentFile := parser.currentFile.map fun file =>
      { file with groups := file.groups ++ [value] } } := by
  rw [take, if_pos h]

theorem foldl_take_group (groups : List Text) :
    groups.foldl take ⟨document, some file, left, "group".toList, inHead, none⟩ =
      ⟨document, some { file with groups := file.groups ++ groups }, left, "group".toList, inHead,
        none⟩ := by
  induction groups generalizing file with
  | nil => rw [List.foldl_nil, List.append_nil]
  | cons group groups ih =>
    rw [List.foldl_cons, take_of_group rfl]
    dsimp only [Option.map_some]
    rw [ih, List.append_assoc]
    rfl

theorem feed_group (group : Text) (element : Text) :
    feed reader (groupPieces group ++ pieces) ⟨document, some file, left, element, inHead, none⟩ =
      feed reader pieces ⟨document, some { file with groups := file.groups ++ texts group }, left,
        [], inHead, none⟩ := by
  have hstart : start ⟨document, some file, left, element, inHead, none⟩ "group".toList
      (([] : List (Text × Text)).map Piece.readAttribute) = _ := start_plain (by decide) _
  have htexts := events_texts reader group
    ⟨document, some file, left, "group".toList, inHead, none⟩ rfl
  rw [foldl_take_group] at htexts
  rw [groupPieces, List.cons_append, feed_blank, List.cons_append, feed_leaf hstart htexts,
    close_plain (by decide), Except.bind]
  rfl

theorem feed_groups (groups : List Text) (element blank : Text) :
    feed reader (groups.flatMap groupPieces ++ .blank blank :: .close "groups".toList :: pieces)
        ⟨document, some file, left, element, inHead, none⟩ =
      feed reader pieces ⟨document,
        some { file with groups := file.groups ++ groups.flatMap texts }, left, [], inHead,
        none⟩ := by
  induction groups generalizing file element with
  | nil =>
    rw [List.flatMap_nil, List.flatMap_nil, List.nil_append, List.append_nil, feed_blank,
      feed_close (close_plain (by decide) _)]
  | cons group groups ih =>
    rw [List.flatMap_cons, List.append_assoc, feed_group, ih, List.flatMap_cons, List.append_assoc]

end Parser

/-! ## Segments -/

/-- The segments that a segment is read back as: none when its id has no text. -/
def readSegment (segment : NzbSegment) : List NzbSegment :=
  ((texts segment.messageId).head?.map fun messageId => { segment with messageId }).toList

/-- What is left open of a segment whose id has no text. -/
def leftBy (segment : NzbSegment) : Option (Nat × Nat) :=
  if texts segment.messageId = [] then some (segment.number, segment.bytes) else none

theorem segmentStart_written {number bytes : Nat} (hnumber : number ≤ u32Max)
    (hbytes : bytes ≤ u64Max) :
    segmentStart ([("bytes".toList, decimal bytes), ("number".toList, decimal number)].map
      Piece.readAttribute) = .ok (number, bytes) := by
  change (((parseWord u64Max (decimal bytes)).bind fun bytes =>
    .ok ((none, some bytes) : Option Nat × Option Nat)).bind fun read =>
      ((parseWord u32Max (decimal number)).bind fun number =>
        .ok ((some number, read.2) : Option Nat × Option Nat)).bind .ok).bind _ = _
  rw [parseWord_decimal hbytes, parseWord_decimal hnumber]
  rfl

theorem dropWhile_bracket {value : Text} (h : ∀ c ∈ value, Xml.isSpecial c = false) :
    value.dropWhile (fun c => c = '<' || c = '>') = value := by
  cases value with
  | nil => rfl
  | cons c value =>
    refine List.dropWhile_cons_of_neg fun hbracket => ?_
    have hplain := h c List.mem_cons_self
    rw [Bool.or_eq_true, decide_eq_true_iff, decide_eq_true_iff] at hbracket
    obtain rfl | rfl := hbracket
    all_goals cases hplain

namespace Parser

variable {reader : Xml.Reader} {parser : Parser} {name element content value : Text}
variable {pieces : List Piece}
variable {document : NzbDocument} {file : NzbFile} {left : Option (Nat × Nat)} {inHead : Bool}

theorem take_of_segment (h : parser.currentElement = "segment".toList)
    (hfile : parser.currentFile = some file) (hsegment : parser.currentSegment = some (number, bytes))
    (hplain : ∀ c ∈ value, Xml.isSpecial c = false) :
    parser.take value = { parser with
      currentSegment := none
      currentFile := some
        { file with segments := file.segments ++ [⟨number, bytes, value⟩] } } := by
  have hgroup : parser.currentElement ≠ "group".toList := by
    rw [h]
    decide
  have hreverse : ∀ c ∈ value.reverse, Xml.isSpecial c = false :=
    fun c hc => hplain c (List.mem_reverse.mp hc)
  rw [take, if_neg hgroup, if_pos h, hfile, hsegment]
  dsimp only
  rw [dropWhile_bracket hplain, dropWhile_bracket hreverse, List.reverse_reverse]

theorem take_of_finished (h : parser.currentElement = "segment".toList)
    (hsegment : parser.currentSegment = none) : parser.take value = parser := by
  have hgroup : parser.currentElement ≠ "group".toList := by
    rw [h]
    decide
  rw [take, if_neg hgroup, if_pos h]
  obtain ⟨document, currentFile, currentSegment, currentElement, inHead, passwordMeta⟩ := parser
  obtain rfl : currentSegment = none := hsegment
  cases currentFile <;> rfl

theorem foldl_take_finished (values : List Text) (h : parser.currentElement = "segment".toList)
    (hsegment : parser.currentSegment = none) : values.foldl take parser = parser := by
  induction values with
  | nil => rfl
  | cons value values ih => rw [List.foldl_cons, take_of_finished h hsegment, ih]

theorem foldl_take_segment (segment : NzbSegment) :
    (texts segment.messageId).foldl take
        ⟨document, some file, some (segment.number, segment.bytes), "segment".toList, inHead,
          none⟩ =
      ⟨document, some { file with segments := file.segments ++ readSegment segment },
        leftBy segment, "segment".toList, inHead, none⟩ := by
  unfold readSegment leftBy
  cases htexts : texts segment.messageId with
  | nil =>
    rw [List.foldl_nil, List.head?_nil, Option.map_none, Option.toList_none, List.append_nil,
      if_pos rfl]
  | cons messageId others =>
    have hplain := (Xml.plain_of_mem_texts (htexts ▸ List.mem_cons_self :
      messageId ∈ texts segment.messageId)).2
    rw [List.foldl_cons, take_of_segment rfl rfl rfl hplain, foldl_take_finished _ rfl rfl]
    rfl

theorem start_segment {segment : NzbSegment} (h : segment.Lawful) (parser : Parser) :
    parser.start "segment".toList ([("bytes".toList, decimal segment.bytes),
      ("number".toList, decimal segment.number)].map Piece.readAttribute) =
      .ok { parser with
        currentElement := "segment".toList
        currentSegment := some (segment.number, segment.bytes) } := by
  rw [start, if_neg (by decide), if_neg (fun hmeta => absurd hmeta.1 (by decide)),
    if_neg (by decide), if_pos rfl, segmentStart_written h.number h.bytes, Except.map]

theorem feed_segment {segment : NzbSegment} (h : segment.Lawful) (element : Text) :
    feed reader (segmentPieces segment ++ pieces)
        ⟨document, some file, left, element, inHead, none⟩ =
      feed reader pieces ⟨document,
        some { file with segments := file.segments ++ readSegment segment }, leftBy segment, [],
        inHead, none⟩ := by
  have htexts := events_texts reader segment.messageId
    ⟨document, some file, some (segment.number, segment.bytes), "segment".toList, inHead, none⟩ rfl
  rw [foldl_take_segment] at htexts
  rw [segmentPieces, List.cons_append, feed_blank, List.cons_append,
    feed_leaf (start_segment h _) htexts, close_plain (by decide), Except.bind]
  rfl

theorem feed_segments {segments : List NzbSegment} (h : ∀ segment ∈ segments, segment.Lawful)
    (element blank : Text) :
    feed reader
        (segments.flatMap segmentPieces ++ .blank blank :: .close "segments".toList :: pieces)
        ⟨document, some file, left, element, inHead, none⟩ =
      feed reader pieces ⟨document,
        some { file with segments := file.segments ++ segments.flatMap readSegment },
        segments.foldl (fun _ => leftBy) left, [], inHead, none⟩ := by
  induction segments generalizing file element left with
  | nil =>
    rw [List.flatMap_nil, List.flatMap_nil, List.nil_append, List.append_nil, feed_blank,
      feed_close (close_plain (by decide) _)]
    rfl
  | cons segment segments ih =>
    rw [List.forall_mem_cons] at h
    rw [List.flatMap_cons, List.append_assoc, feed_segment h.1, ih h.2, List.flatMap_cons,
      List.append_assoc]
    rfl

end Parser

/-! ## Files -/

/-- The file that a file is read back as. -/
def readFile (date : Int) (file : NzbFile) : NzbFile :=
  finishedFile {
    subject := file.subject
    poster := file.poster
    date := some (file.date.getD date)
    groups := file.groups.flatMap texts
    segments := file.segments.flatMap readSegment }

theorem fileStart_written {time : Int} (h : IsI64 time) (poster subject : Text) :
    fileStart ([("poster".toList, poster), ("date".toList, signed time),
      ("subject".toList, subject)].map Piece.readAttribute) =
      .ok { subject, poster, date := some time } := by
  have hread : fileStart ([("poster".toList, poster), ("date".toList, signed time),
      ("subject".toList, subject)].map Piece.readAttribute) =
      .ok { subject, poster, date := parseI64 (Text.trimmed (signed time)) } := rfl
  rw [hread, Text.trimmed_of_tight (tight_signed time), parseI64_signed h]

/-- The password that a password is read back as. -/
def readPassword : Option Text → Except String (Option Text)
  | none => .ok none
  | some password => (rememberPassword {} (joined password)).map (·.password)

theorem isPasswordMeta_written (kind : Text) :
    isPasswordMeta ([("type".toList, kind)].map Piece.readAttribute) =
      .ok (Text.eqIgnoreAsciiCase kind "password".toList) :=
  rfl

namespace Parser

variable {reader : Xml.Reader} {pieces : List Piece}
variable {document : NzbDocument} {left : Option (Nat × Nat)} {inHead : Bool}

theorem start_file {time : Int} (h : IsI64 time) (poster subject : Text) (parser : Parser) :
    parser.start "file".toList ([("poster".toList, poster), ("date".toList, signed time),
      ("subject".toList, subject)].map Piece.readAttribute) =
      .ok { parser with
        currentElement := "file".toList
        currentFile := some { subject, poster, date := some time } } := by
  rw [start, if_neg (by decide), if_neg (fun hmeta => absurd hmeta.1 (by decide)), if_pos rfl,
    fileStart_written h, Except.map]

theorem close_file (file : NzbFile) (element : Text) :
    close ⟨document, some file, left, element, inHead, none⟩ "file".toList =
      .ok ⟨{ document with files := document.files ++ [finishedFile file] }, none, left, [], inHead,
        none⟩ := by
  rw [close, if_neg (by decide), if_neg (by decide), if_pos rfl, Except.map]

theorem feed_file {file : NzbFile} (h : file.Lawful) {date : Int} (hdate : IsI64 date)
    (element : Text) :
    feed reader (filePieces date file ++ pieces) ⟨document, none, left, element, inHead, none⟩ =
      feed reader pieces
        ⟨{ document with files := document.files ++ [readFile date file] }, none,
          file.segments.foldl (fun _ => leftBy) left, [], inHead, none⟩ := by
  have htime : IsI64 (file.date.getD date) := by
    cases hposted : file.date with
    | none => exact hdate
    | some posted => exact h.date posted hposted
  simp only [filePieces, Nzb.element, List.cons_append, List.append_assoc, List.nil_append]
  rw [feed_blank, feed_start (start_file htime _ _ _), feed_blank,
    feed_start (start_plain (by decide) _), feed_blank, feed_groups, feed_blank,
    feed_start (start_plain (by decide) _), feed_blank, feed_segments h.segments, feed_blank,
    feed_close (close_file _ _), feed_blank, List.nil_append, List.nil_append]
  rfl

theorem feed_files {files : List NzbFile} (h : ∀ file ∈ files, file.Lawful) {date : Int}
    (hdate : IsI64 date) (element : Text) :
    ∃ left' element', feed reader (files.flatMap (filePieces date) ++ pieces)
        ⟨document, none, left, element, inHead, none⟩ =
      feed reader pieces
        ⟨{ document with files := document.files ++ files.map (readFile date) }, none, left',
          element', inHead, none⟩ := by
  induction files generalizing document left element with
  | nil => exact ⟨left, element, by rw [List.flatMap_nil, List.map_nil, List.append_nil]; rfl⟩
  | cons file files ih =>
    rw [List.forall_mem_cons] at h
    rw [List.flatMap_cons, List.append_assoc, feed_file h.1 hdate]
    obtain ⟨left', element', hrest⟩ := ih h.2 []
    refine ⟨left', element', hrest.trans ?_⟩
    rw [List.append_assoc]
    rfl

theorem start_meta {kind : Text} (element : Text) :
    start ⟨document, none, left, element, true, none⟩ "meta".toList
        ([("type".toList, kind)].map Piece.readAttribute) =
      .ok ⟨document, none, left, "meta".toList, true,
        if Text.eqIgnoreAsciiCase kind "password".toList then some [] else none⟩ := by
  rw [start, if_neg (by decide), if_pos ⟨rfl, rfl⟩, isPasswordMeta_written, Except.map]

theorem feed_name (value element : Text) :
    feed reader (metaPieces "name".toList value ++ pieces)
        ⟨document, none, left, element, true, none⟩ =
      feed reader pieces ⟨document, none, left, [], true, none⟩ := by
  have htexts := events_texts reader value
    ⟨document, none, left, "meta".toList, true, none⟩ rfl
  rw [foldl_take_of_meta rfl] at htexts
  have hstart : start ⟨document, none, left, element, true, none⟩ "meta".toList
      ([("type".toList, "name".toList)].map Piece.readAttribute) =
        .ok ⟨document, none, left, "meta".toList, true, none⟩ := start_meta element
  rw [metaPieces, List.cons_append, feed_blank, List.cons_append, feed_leaf hstart htexts, close,
    if_pos rfl]
  rfl

theorem feed_password (password element : Text) :
    feed reader (metaPieces "password".toList password ++ pieces)
        ⟨document, none, left, element, true, none⟩ =
      (rememberPassword document (joined password)).bind fun document =>
        feed reader pieces ⟨document, none, left, [], true, none⟩ := by
  have htexts := password_texts reader password
    ⟨document, none, left, "meta".toList, true, some []⟩ rfl rfl
  have hstart : start ⟨document, none, left, element, true, none⟩ "meta".toList
      ([("type".toList, "password".toList)].map Piece.readAttribute) =
        .ok ⟨document, none, left, "meta".toList, true, some []⟩ := start_meta element
  rw [metaPieces, List.cons_append, feed_blank, List.cons_append, feed_leaf hstart htexts, close,
    if_pos rfl]
  dsimp only [push, Option.map_some]
  rw [List.nil_append]
  cases rememberPassword document (joined password) <;> rfl

theorem feed_option_name (name : Option Text) (element : Text) :
    ∃ element', feed reader ((name.map (metaPieces "name".toList)).getD [] ++ pieces)
        ⟨document, none, left, element, true, none⟩ =
      feed reader pieces ⟨document, none, left, element', true, none⟩ := by
  cases name with
  | none => exact ⟨element, rfl⟩
  | some name => exact ⟨[], feed_name name element⟩

/-- Only the password of the head is kept. -/
theorem rememberPassword_empty (value : Text) :
    rememberPassword {} value = ((rememberPassword {} value).map (·.password)).map
      fun password => { password } := by
  unfold rememberPassword
  rw [if_neg (by decide)]
  dsimp only
  split
  · rfl
  · split <;> rfl

theorem feed_option_password (password : Option Text) (element : Text) :
    ∃ element', feed reader ((password.map (metaPieces "password".toList)).getD [] ++ pieces)
        ⟨{}, none, left, element, true, none⟩ =
      (readPassword password).bind fun password =>
        feed reader pieces ⟨{ password }, none, left, element', true, none⟩ := by
  cases password with
  | none => exact ⟨element, rfl⟩
  | some password =>
    refine ⟨[], (feed_password password element).trans ?_⟩
    rw [readPassword, rememberPassword_empty]
    cases rememberPassword {} (joined password) <;> rfl

theorem close_head (element : Text) :
    close ⟨document, none, left, element, true, none⟩ "head".toList =
      .ok ⟨document, none, left, [], false, none⟩ := by
  rw [close, if_neg (by decide), if_pos rfl, Except.map]

theorem feed_head (name password : Option Text) (element : Text) :
    ∃ element', feed reader (headPieces name password ++ pieces)
        ⟨{}, none, left, element, false, none⟩ =
      (readPassword password).bind fun password =>
        feed reader pieces ⟨{ password }, none, left, element', false, none⟩ := by
  unfold headPieces
  split
  · have hstart : start ⟨{}, none, left, element, false, none⟩ "head".toList
        (([] : List (Text × Text)).map Piece.readAttribute) =
          .ok ⟨{}, none, left, "head".toList, true, none⟩ := by
      rw [start, if_pos rfl]
    simp only [Nzb.element, List.cons_append, List.append_assoc, List.nil_append]
    rw [feed_blank, feed_start hstart, feed_blank]
    obtain ⟨named, hname⟩ := feed_option_name name "head".toList
    obtain ⟨passed, hpassword⟩ := feed_option_password password named
    refine ⟨[], hname.trans (hpassword.trans ?_)⟩
    refine congrArg (Except.bind (readPassword password)) (funext fun password => ?_)
    rw [feed_blank, feed_close (close_head _), feed_blank]
  · next hnone =>
    rw [not_or, Option.not_isSome_iff_eq_none, Option.not_isSome_iff_eq_none] at hnone
    rw [hnone.2]
    exact ⟨element, rfl⟩

end Parser

/-- The document of a parser that took every piece. -/
theorem events_renderNzb (reader : Xml.Reader) {document : NzbDocument} (h : document.Lawful)
    (name : Option Text) {date : Int} (hdate : IsI64 date) :
    (Parser.events reader (reader.read (renderNzb document name date)) {}).map (·.document) =
      (readPassword document.password).map fun password =>
        { password, files := document.files.map (readFile date) } := by
  have hdoctype : validateDoctype ("nzb PUBLIC \"-//newzBin//DTD NZB 1.1//EN\" ".toList ++
      "\"http://www.newzbin.com/DTD/nzb/nzb-1.1.dtd\"".toList) = .ok () := by decide +kernel
  rw [read_renderNzb h, ← Parser.feed]
  simp only [pieces, element, List.cons_append, List.append_assoc, List.nil_append]
  rw [Parser.feed_declaration, Parser.feed_blank, Parser.feed_docType hdoctype, Parser.feed_blank,
    Parser.feed_start (Parser.start_plain (by decide) _), Parser.feed_blank]
  obtain ⟨element, hhead⟩ := Parser.feed_head _ document.password "nzb".toList
  rw [hhead]
  cases readPassword document.password with
  | error error => rfl
  | ok password =>
    obtain ⟨left, element', hfiles⟩ := Parser.feed_files h.files hdate element
    rw [Except.bind, hfiles, Parser.feed_close (Parser.close_plain (by decide) _),
      Parser.feed_blank]
    rfl

theorem parseNzb_eq (reader : Xml.Reader) (input : Text) :
    parseNzb reader input =
      if maxNzbBytes < input.byteLength then .error tooLarge
      else ((Parser.events reader (reader.read input) {}).map (·.document)).bind fun document =>
        if document.files = [] then .error noFiles else .ok document := by
  unfold parseNzb
  split
  · rfl
  · cases Parser.events reader (reader.read input) {} <;> rfl

/-- What an NZB that was written reads back as. -/
theorem parseNzb_renderNzb (reader : Xml.Reader) {document : NzbDocument} (h : document.Lawful)
    (name : Option Text) {date : Int} (hdate : IsI64 date) :
    parseNzb reader (renderNzb document name date) =
      if maxNzbBytes < (renderNzb document name date).byteLength then .error tooLarge
      else (readPassword document.password).bind fun password =>
        if document.files = [] then .error noFiles
        else .ok { password, files := document.files.map (readFile date) } := by
  rw [parseNzb_eq, events_renderNzb reader h name hdate]
  cases readPassword document.password with
  | error error => rfl
  | ok password => simp only [Except.map, Except.bind, List.map_eq_nil_iff]

/-! ## What survives -/

/-- A text that is delivered as it is: not empty, and without an escaped character. -/
def Whole (text : Text) : Prop := text ≠ [] ∧ ∀ c ∈ text, Xml.isSpecial c = false

/-- A password that is put together again: no space next to an escaped character. -/
def Rejoined (password : Text) : Prop :=
  password ≠ [] ∧ password.length ≤ 1024 ∧ ∀ run ∈ Xml.runs password, trim run = run

end Nzb

/-- The document with the post date that is written for a file without one. -/
def NzbDocument.dated (document : NzbDocument) (date : Int) : NzbDocument :=
  { document with files := document.files.map fun file =>
      { file with date := some (file.date.getD date) } }

/-- A document that reads back as it was written. -/
structure NzbDocument.Survives (document : NzbDocument) (name : Option Text) (date : Int) :
    Prop where
  files : document.files ≠ []
  size : Nzb.documentBytes document name date ≤ Nzb.maxNzbBytes
  groups : ∀ file ∈ document.files, ∀ group ∈ file.groups, Nzb.Whole group
  messageIds : ∀ file ∈ document.files, ∀ segment ∈ file.segments, Nzb.Whole segment.messageId
  password : ∀ password ∈ document.password, Nzb.Rejoined password

namespace Nzb

open Xml (texts joined trim)

theorem Clean.trim {text : Text} (h : Clean text) : Xml.trim text = text := by
  have hspace : ∀ {c : Char}, isWhiteSpace c = false → Xml.isSpace c = false := by
    intro c hc
    refine Bool.eq_false_iff.mpr fun hspace => ?_
    simp only [Xml.isSpace, Bool.or_eq_true, decide_eq_true_iff] at hspace
    obtain ((rfl | rfl) | rfl) | rfl := hspace
    all_goals cases hc
  exact Xml.trim_of_tight (fun c hc => hspace (h.2.1 c hc)) fun c hc => hspace (h.2.2 c hc)

theorem texts_of_whole {text : Text} (hclean : Clean text) (h : Whole text) :
    texts text = [text] :=
  Xml.texts_of_plain h.2 h.1 hclean.trim

theorem flatMap_texts_eq_iff {groups : List Text} (hclean : ∀ group ∈ groups, Clean group) :
    groups.flatMap texts = groups ↔ ∀ group ∈ groups, Whole group := by
  constructor
  · intro h group hgroup
    rw [← h] at hgroup
    obtain ⟨content, -, hmem⟩ := List.mem_flatMap.mp hgroup
    exact Xml.plain_of_mem_texts hmem
  · intro h
    induction groups with
    | nil => rfl
    | cons group groups ih =>
      rw [List.forall_mem_cons] at h hclean
      rw [List.flatMap_cons, texts_of_whole hclean.1 h.1, ih hclean.2 h.2, List.singleton_append]

theorem readSegment_of_whole {segment : NzbSegment} (hsegment : segment.Lawful)
    (h : Whole segment.messageId) : readSegment segment = [segment] := by
  rw [readSegment, texts_of_whole hsegment.messageId h]
  rfl

theorem flatMap_readSegment_eq_iff {segments : List NzbSegment}
    (hlawful : ∀ segment ∈ segments, segment.Lawful) :
    segments.flatMap readSegment = segments ↔ ∀ segment ∈ segments, Whole segment.messageId := by
  constructor
  · intro h segment hsegment
    rw [← h] at hsegment
    obtain ⟨written, -, hmem⟩ := List.mem_flatMap.mp hsegment
    obtain ⟨messageId, hhead, rfl⟩ := Option.map_eq_some_iff.mp (Option.mem_toList.mp hmem)
    exact Xml.plain_of_mem_texts (List.mem_of_mem_head? hhead)
  · intro h
    induction segments with
    | nil => rfl
    | cons segment segments ih =>
      rw [List.forall_mem_cons] at h hlawful
      rw [List.flatMap_cons, readSegment_of_whole hlawful.1 h.1, ih hlawful.2 h.2,
        List.singleton_append]

theorem numbers_readSegment (segments : List NzbSegment) :
    ((segments.flatMap readSegment).map (·.number)).Sublist (segments.map (·.number)) := by
  induction segments with
  | nil => exact List.Sublist.refl _
  | cons segment segments ih =>
    rw [List.flatMap_cons, List.map_append, List.map_cons]
    unfold readSegment
    cases (texts segment.messageId).head? with
    | none => exact ih.cons _
    | some messageId => exact ih.cons_cons _

theorem dedupByNumber_of_increasing {segments : List NzbSegment}
    (h : segments.Pairwise (·.number < ·.number)) : dedupByNumber segments = segments := by
  fun_induction dedupByNumber segments with
  | case1 first second rest hsame ih =>
    exact absurd hsame (Nat.ne_of_lt ((List.pairwise_cons.mp h).1 second List.mem_cons_self))
  | case2 first second rest hdiffer ih => rw [ih (List.pairwise_cons.mp h).2]
  | case3 segments => rfl

/-- A file whose segments are in order, once each and counted from 1 is left as it is. -/
theorem finishedFile_of_increasing {file : NzbFile}
    (h : (file.segments.map (·.number)).Pairwise (· < ·))
    (hpositive : ∀ number ∈ file.segments.map (·.number), 1 ≤ number) :
    finishedFile file = file := by
  rw [List.pairwise_map] at h
  rw [List.forall_mem_map] at hpositive
  have hsorted : file.segments.insertionSort (·.number ≤ ·.number) = file.segments :=
    (h.imp Nat.le_of_lt).insertionSort_eq
  have hzero : (file.segments.head?.any (·.number = 0)) = false := by
    cases hsegments : file.segments with
    | nil => rfl
    | cons segment segments =>
      have hone := hpositive segment (hsegments ▸ List.mem_cons_self)
      exact decide_eq_false (by omega)
  rw [finishedFile, hsorted, dedupByNumber_of_increasing h, hzero]
  rfl

theorem readFile_eq {file : NzbFile} (h : file.Lawful) (date : Int) :
    readFile date file = { file with
      date := some (file.date.getD date)
      groups := file.groups.flatMap texts
      segments := file.segments.flatMap readSegment } := by
  have hincreasing : (file.segments.map (·.number)).Pairwise (· < ·) :=
    List.pairwise_map.mpr h.increasing
  have hpositive : ∀ number ∈ file.segments.map (·.number), 1 ≤ number :=
    List.forall_mem_map.mpr fun segment hsegment => (h.segments segment hsegment).positive
  exact finishedFile_of_increasing (hincreasing.sublist (numbers_readSegment _))
    fun number hnumber => hpositive number ((numbers_readSegment _).subset hnumber)

theorem readFile_eq_iff {file : NzbFile} (h : file.Lawful) (date : Int) :
    readFile date file = { file with date := some (file.date.getD date) } ↔
      (∀ group ∈ file.groups, Whole group) ∧
        ∀ segment ∈ file.segments, Whole segment.messageId := by
  rw [readFile_eq h, ← flatMap_texts_eq_iff h.groups, ← flatMap_readSegment_eq_iff h.segments,
    NzbFile.mk.injEq]
  exact ⟨fun hsame => hsame.2.2.2, fun hsame => ⟨rfl, rfl, rfl, hsame⟩⟩

theorem trimmed_sublist (text : Text) : (Text.trimmed text).Sublist text := by
  rw [Text.trimmed, ← List.reverse_reverse text, List.reverse_sublist, List.reverse_reverse]
  exact (List.dropWhile_sublist _).trans (List.reverse_sublist.mpr (List.dropWhile_sublist _))

theorem trimmed_joined_eq_iff {password : Text} (h : Clean password) :
    Text.trimmed (joined password) = password ↔ ∀ run ∈ Xml.runs password, trim run = run := by
  rw [← Xml.joined_eq_iff]
  constructor
  · intro htrimmed
    have hlength := congrArg List.length htrimmed
    have hle := Xml.length_joined_le password
    have hsame : Text.trimmed (joined password) = joined password :=
      (trimmed_sublist _).eq_of_length_le (by omega)
    rw [← hsame, htrimmed]
  · intro hjoined
    rw [hjoined, Text.trimmed_of_tight h.2]

theorem readPassword_eq_iff {password : Option Text} (h : ∀ text ∈ password, Clean text) :
    readPassword password = .ok password ↔ ∀ text ∈ password, Rejoined text := by
  cases password with
  | none => exact ⟨fun _ => nofun, fun _ => rfl⟩
  | some text =>
    have hclean := h text rfl
    have hline : '\n' ∉ text ∧ '\r' ∉ text :=
      ⟨fun hmem => absurd (hclean.1 _ hmem) (by decide),
        fun hmem => absurd (hclean.1 _ hmem) (by decide)⟩
    rw [readPassword, rememberPassword, if_neg (by decide)]
    constructor
    · rintro hread _ ⟨⟩
      dsimp only at hread
      split at hread
      · cases hread
      · split at hread
        · cases hread
        next hempty hbounds =>
          have htrimmed : Text.trimmed (joined text) = text :=
            Option.some.inj (Except.ok.inj hread)
          rw [htrimmed] at hempty hbounds
          exact ⟨hempty, Nat.le_of_not_lt fun hlong => hbounds (.inl hlong),
            (trimmed_joined_eq_iff hclean).mp htrimmed⟩
    · intro hrejoined
      obtain ⟨hempty, hlength, hruns⟩ := hrejoined text rfl
      dsimp only
      rw [(trimmed_joined_eq_iff hclean).mpr hruns, if_neg hempty, if_neg]
      · rfl
      · rintro (hlong | hmem | hmem)
        · omega
        · exact hline.1 hmem
        · exact hline.2 hmem

/-- Which documents read back from an NZB as they were written to it. -/
theorem survives_iff (reader : Xml.Reader) {document : NzbDocument} (h : document.Lawful)
    (name : Option Text) {date : Int} (hdate : IsI64 date) :
    parseNzb reader (renderNzb document name date) = .ok (document.dated date) ↔
      document.Survives name date := by
  have hfiles : document.files.map (readFile date) = (document.dated date).files ↔
      (∀ file ∈ document.files, ∀ group ∈ file.groups, Whole group) ∧
        ∀ file ∈ document.files, ∀ segment ∈ file.segments, Whole segment.messageId := by
    rw [NzbDocument.dated, List.map_inj_left]
    constructor
    · exact fun hsame =>
        ⟨fun file hfile => ((readFile_eq_iff (h.files file hfile) date).mp (hsame file hfile)).1,
          fun file hfile => ((readFile_eq_iff (h.files file hfile) date).mp (hsame file hfile)).2⟩
    · exact fun ⟨hgroups, hids⟩ file hfile =>
        (readFile_eq_iff (h.files file hfile) date).mpr ⟨hgroups file hfile, hids file hfile⟩
  rw [parseNzb_renderNzb reader h name hdate, byteLength_renderNzb]
  constructor
  · intro hread
    split at hread
    · cases hread
    next hsize =>
      cases hpassword : readPassword document.password with
      | error error =>
        rw [hpassword] at hread
        cases hread
      | ok password =>
        rw [hpassword, Except.bind] at hread
        split at hread
        · cases hread
        next hnonempty =>
          have hsame := Except.ok.inj hread
          rw [NzbDocument.dated, NzbDocument.mk.injEq] at hsame
          obtain ⟨rfl, hmap⟩ := hsame
          obtain ⟨hgroups, hids⟩ := hfiles.mp hmap
          exact ⟨hnonempty, Nat.le_of_not_lt hsize, hgroups, hids,
            (readPassword_eq_iff h.password).mp hpassword⟩
  · intro hsurvives
    rw [if_neg (Nat.not_lt.mpr hsurvives.size),
      (readPassword_eq_iff h.password).mpr hsurvives.password, Except.bind,
      if_neg hsurvives.files, hfiles.mpr ⟨hsurvives.groups, hsurvives.messageIds⟩]
    rfl

/-- A password with a quote in it, and a file without a group. -/
theorem survives_quoted :
    parseNzb Xml.lexer (renderNzb { password := some "it's".toList, files := [{
      subject := "a <b>".toList
      segments := [{ number := 1, bytes := 10, messageId := "a@b".toList }] }] } none 0) =
    .ok { password := some "it's".toList, files := [{
      subject := "a <b>".toList
      date := some 0
      segments := [{ number := 1, bytes := 10, messageId := "a@b".toList }] }] } :=
  (survives_iff Xml.lexer
    { password := by rintro _ ⟨⟩; exact ⟨Xml.false_of_any (by decide), ⟨by rintro _ ⟨⟩; rfl, by rintro _ ⟨⟩; rfl⟩⟩
      files := List.forall_mem_singleton.mpr
        { subject := ⟨Xml.false_of_any (by decide), ⟨by rintro _ ⟨⟩; rfl, by rintro _ ⟨⟩; rfl⟩⟩
          poster := ⟨nofun, nofun, nofun⟩
          date := nofun
          groups := nofun
          segments := List.forall_mem_singleton.mpr
            ⟨by decide, by decide, by decide,
              ⟨Xml.false_of_any (by decide), ⟨by rintro _ ⟨⟩; rfl, by rintro _ ⟨⟩; rfl⟩⟩⟩
          increasing := List.pairwise_singleton _ _ } } none ⟨by decide, by decide⟩).mpr
    { files := by decide
      size := by decide +kernel
      groups := List.forall_mem_singleton.mpr nofun
      messageIds := List.forall_mem_singleton.mpr
        (List.forall_mem_singleton.mpr ⟨by decide, Xml.false_of_any (by decide)⟩)
      password := by rintro _ ⟨⟩; exact ⟨by decide, by decide, by decide +kernel⟩ }

/-- A message id with an ampersand is read back up to it. -/
theorem messageId_cut :
    parseNzb Xml.lexer (renderNzb { files := [{
      segments := [{ number := 1, bytes := 10, messageId := "a&b@x".toList }] }] } none 0) =
    .ok { files := [{
      date := some 0
      segments := [{ number := 1, bytes := 10, messageId := ['a'] }] }] } := by
  have hfile : NzbFile.Lawful {
      segments := [{ number := 1, bytes := 10, messageId := "a&b@x".toList }] } :=
    { subject := ⟨nofun, nofun, nofun⟩
      poster := ⟨nofun, nofun, nofun⟩
      date := nofun
      groups := nofun
      segments := List.forall_mem_singleton.mpr ⟨by decide, by decide, by decide,
        ⟨Xml.false_of_any (by decide), ⟨by rintro _ ⟨⟩; rfl, by rintro _ ⟨⟩; rfl⟩⟩⟩
      increasing := List.pairwise_singleton _ _ }
  have hdocument : NzbDocument.Lawful { files := [{
      segments := [{ number := 1, bytes := 10, messageId := "a&b@x".toList }] }] } :=
    { password := nofun
      files := List.forall_mem_singleton.mpr hfile }
  rw [parseNzb_renderNzb Xml.lexer hdocument none ⟨by decide, by decide⟩, byteLength_renderNzb, if_neg (by decide +kernel), List.map_singleton,
    readFile_eq hfile]
  rfl

end Nzb

end RDownloader
