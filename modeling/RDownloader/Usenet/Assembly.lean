import Mathlib.Data.List.Sort
import Mathlib.Logic.Function.Basic
import RDownloader.Files.Names
import RDownloader.Lib.Machine
import RDownloader.Usenet.Covered
import RDownloader.Usenet.Par2Names
import RDownloader.Usenet.Yenc

/-!
# Assembling a file from its articles (`rd-usenet/src/worker.rs`, `worker_assembly.rs`)

A file is assembled in attempts. An attempt proves what the part file already holds, writes the
articles in the order they are answered and confirms them in batches; it ends with the file under its
name, or at any moment before that.
-/

namespace RDownloader

open Ranges

/-! ## Rows (`rd-db/src/postprocess_store.rs`) -/

abbrev SegmentId := Nat

inductive NzbSegmentState where
  | queued
  | downloading
  | completed
  | failed
  deriving DecidableEq

/-- The columns that an article's checkpoint writes. -/
structure NzbSegmentRow where
  state : NzbSegmentState := .queued
  crc32 : Option UInt32 := none
  partBegin : Option Nat := none
  partEnd : Option Nat := none
  deriving DecidableEq

structure AssembledSegment where
  segmentId : SegmentId
  /-- `part_begin` and `part_end`, counted from one and inclusive. -/
  part : Range
  crc32 : UInt32
  deriving DecidableEq

structure NzbFileRow where
  assemblyName : Option Text := none
  declaredSize : Option Nat := none
  segments : SegmentId → NzbSegmentRow := fun _ => {}

namespace NzbFileRow

/-- `set_nzb_segment_state` with a state other than `completed`, which clears the checkpoint. -/
def setSegmentState (row : NzbFileRow) (id : SegmentId) (state : NzbSegmentState) : NzbFileRow :=
  { row with segments := Function.update row.segments id { state } }

def completeSegment (rows : SegmentId → NzbSegmentRow) (segment : AssembledSegment) :
    SegmentId → NzbSegmentRow :=
  Function.update rows segment.segmentId {
    state := .completed
    crc32 := some segment.crc32
    partBegin := some segment.part.1
    partEnd := some segment.part.2 }

/-- `write_assembly_segments`, one transaction: nothing is written where a number does not fit its
column. -/
def checkpoint (row : NzbFileRow) (name : Text) (declaredSize : Nat)
    (segments : List AssembledSegment) : Option NzbFileRow :=
  if declaredSize ≤ i64Max ∧ ∀ segment ∈ segments,
      segment.part.1 ≤ i64Max ∧ segment.part.2 ≤ i64Max then
    some {
      assemblyName := some name
      declaredSize := some declaredSize
      segments := segments.foldl completeSegment row.segments }
  else none

end NzbFileRow

/-! ## The part file -/

structure PartFile where
  length : Nat := 0
  byte : Nat → UInt8 := fun _ => 0

namespace PartFile

/-- Writes at a place; what lies between the end of the file and the place reads as zeros. -/
def write (file : PartFile) (place : Nat) (data : Bytes) : PartFile :=
  if data = [] then file
  else {
    length := max file.length (place + data.length)
    byte := fun offset =>
      if place ≤ offset ∧ offset < place + data.length then data.getD (offset - place) 0
      else if offset < file.length then file.byte offset
      else 0 }

def setLen (file : PartFile) (size : Nat) : PartFile where
  length := size
  byte offset := if offset < file.length then file.byte offset else 0

def read (file : PartFile) (place length : Nat) : Bytes :=
  (List.range length).map fun index => file.byte (place + index)

end PartFile

/-! ## What was posted -/

structure PostedSegment where
  id : SegmentId
  number : Nat
  deriving DecidableEq

/-- A file as the NZB lists it, with the article every server that has one gives for a segment. The
checksum of an article is that of its data. -/
structure PostedFile (crc32 : Bytes → UInt32) where
  subject : Text
  totalBytes : Nat
  segments : List PostedSegment
  article : SegmentId → Option DecodedArticle
  totalBytes_le : totalBytes ≤ i64Max
  ids_nodup : (segments.map PostedSegment.id).Nodup
  checked : ∀ id decoded, article id = some decoded → decoded.crc32 = crc32 decoded.data

namespace PostedFile

def singleSegment {crc32 : Bytes → UInt32} (posted : PostedFile crc32) : Bool :=
  posted.segments.length = 1

end PostedFile

/-- `declared_size_limit`. -/
def declaredSizeLimit (listed : Nat) : Nat :=
  saturatingAdd (saturatingAdd listed (listed / 8)) (1024 * 1024)

def checkDeclaredSize (declared listed : Nat) : Except String Unit :=
  if declared ≤ declaredSizeLimit listed then .ok ()
  else .error "The articles announce a file far larger than the NZB lists"

/-! ## Names (`rd-collector/src/nzb.rs`, `rd-usenet/src/segments.rs`) -/

section
variable (alphanumeric : Char → Bool)

/-- `acceptable_file_name`. -/
def acceptableFileName (candidate : Text) : Bool :=
  looksLikeFileName alphanumeric candidate && !candidate.any (fun c => c = '/' || c = '\\') &&
    !"yEnc".toList.isPrefixOf candidate

/-- Every second piece. -/
def everySecond : List Text → List Text
  | [] => []
  | [piece] => [piece]
  | piece :: _ :: pieces => piece :: everySecond pieces

/-- `subject_file_name`: the last quoted group that is a file name, or the whole bare subject. -/
def subjectFileName (subject : Text) : Option Text :=
  let quoted := everySecond ((subject.splitOn '"').drop 1)
  -- an unterminated quote leaves a last piece that is no group
  let quoted := if subject.count '"' % 2 = 1 then quoted.dropLast else quoted
  let groups := (quoted.map Text.trimmed).filter (· ≠ [])
  if groups = [] then
    let bare := Text.trimmed subject
    if bare.any isWhiteSpace then none
    else if acceptableFileName alphanumeric bare then some bare else none
  else groups.reverse.find? (acceptableFileName alphanumeric)

end

/-- The names that disagreed with the first one, and the first of those. -/
structure NameDeviations where
  count : Nat := 0
  first : Option Text := none
  deriving DecidableEq

namespace NameDeviations

def observe (deviations : NameDeviations) (current : Option Text) (candidate : Text) :
    NameDeviations :=
  if current.any (· ≠ candidate) then
    { count := saturatingAdd deviations.count 1, first := deviations.first.or (some candidate) }
  else deviations

def any (deviations : NameDeviations) : Bool := deviations.first.isSome

end NameDeviations

/-- The name of a file whose articles named it so, and were seen to disagree or not. -/
def settledName (nfc : Text → Text) (alphanumeric : Char → Bool) (subject : Text) (deviates : Bool)
    (yencName : Text) : Text :=
  let chosen :=
    if deviates || !looksLikeFileName alphanumeric yencName then
      (subjectFileName alphanumeric subject).getD yencName
    else yencName
  Names.sanitizeFileName nfc chosen

/-! ## One attempt -/

/-- What the assembly of one file has gathered so far. -/
structure Assembly where
  name : Option Text
  declaredSize : Option Nat
  written : Covered
  deviations : NameDeviations := {}
  missing : Nat := 0
  deriving DecidableEq

/-- `decoded_part_range`. -/
def decodedPartRange (decoded : DecodedArticle) (singleSegment : Bool) : Except String Range :=
  match decoded.metadata.partBegin, decoded.metadata.partEnd with
  | some begin_, some end_ => .ok (begin_, end_)
  | none, none =>
    if singleSegment then .ok (1, decoded.data.length)
    else .error "multiple yEnc segments require explicit part ranges"
  | _, _ => .error "incomplete yEnc part range"

namespace Assembly

/-- `validate_metadata`. -/
def validateMetadata (assembly : Assembly) (metadata : YencMetadata) (listed : Nat) :
    Except String Assembly := do
  checkDeclaredSize metadata.declaredSize listed
  if assembly.declaredSize.any (· ≠ metadata.declaredSize) then
    .error "yEnc segments disagree on the declared file size"
  else
    .ok { assembly with
      name := some (assembly.name.getD metadata.name)
      declaredSize := some (assembly.declaredSize.getD metadata.declaredSize) }

/-- `Assembly::write` up to the write itself: the assembly with the article's range booked. -/
def write (assembly : Assembly) (decoded : DecodedArticle) (listed : Nat) (singleSegment : Bool) :
    Except String (Assembly × Range) := do
  let observed := { assembly with
    deviations := assembly.deviations.observe assembly.name decoded.metadata.name }
  let assembly ← observed.validateMetadata decoded.metadata listed
  let part ← decodedPartRange decoded singleSegment
  let written ← assembly.written.claim part decoded.data.length assembly.declaredSize
  .ok ({ assembly with written }, part)

/-- The checks of `finish`: the size of the file and the holes in it. -/
def finish (assembly : Assembly) (listed : Nat) : Except String (Nat × List Range) :=
  match assembly.declaredSize with
  | none =>
    if 0 < assembly.missing then .error "no server has any article of this file"
    else .error "missing yEnc size"
  | some expected => do
    checkDeclaredSize expected listed
    let holes := assembly.written.holes expected
    if assembly.missing = 0 ∧ holes ≠ [] then
      .error ("assembled yEnc size mismatch: " ++
        toString (holes.map fun hole => hole.2 - hole.1 + 1).sum ++ " bytes of " ++
        toString expected ++ " were never written")
    else .ok (expected, holes)

/-- The name `finish` gives the file. -/
def finalName (assembly : Assembly) (nfc : Text → Text) (alphanumeric : Char → Bool)
    (subject : Text) : Except String Text :=
  match assembly.name with
  | none => .error "missing yEnc filename"
  | some yencName =>
    .ok (settledName nfc alphanumeric subject assembly.deviations.any yencName)

end Assembly

/-- `PendingCheckpoints`: the articles written but not confirmed, with the last one's name. -/
structure PendingCheckpoints where
  name : Text := []
  declaredSize : Nat := 0
  segments : List AssembledSegment := []
  deriving DecidableEq

namespace PendingCheckpoints

/-- `CHECKPOINT_BATCH`. -/
def checkpointBatch : Nat := 16

def push (pending : PendingCheckpoints) (metadata : YencMetadata) (segment : AssembledSegment) :
    PendingCheckpoints where
  name := metadata.name
  declaredSize := metadata.declaredSize
  segments := pending.segments ++ [segment]

def isFull (pending : PendingCheckpoints) : Bool := checkpointBatch ≤ pending.segments.length

/-- The row with the batch confirmed. -/
def flush (pending : PendingCheckpoints) (row : NzbFileRow) : Option NzbFileRow :=
  if pending.segments = [] then some row
  else row.checkpoint pending.name pending.declaredSize pending.segments

end PendingCheckpoints

/-! ## What a part file still proves (`rd-usenet/src/assembly_resume.rs`) -/

/-- `checkpoint_range`. -/
def NzbSegmentRow.checkpointRange (row : NzbSegmentRow) : Option (Range × UInt32) :=
  match row.partBegin, row.partEnd, row.crc32 with
  | some begin_, some end_, some crc32 => some ((begin_, end_), crc32)
  | _, _, _ => none

/-- `proven_range`. -/
def provenRange (crc32 : Bytes → UInt32) (disk : PartFile) (row : NzbSegmentRow)
    (declaredSize : Option Nat) : Option Range :=
  match row.checkpointRange with
  | none => none
  | some (part, expected) =>
    if part.1 = 0 ∨ part.2 < part.1 ∨ disk.length < part.2 ∨ declaredSize.any (· < part.2) then none
    else if crc32 (disk.read (part.1 - 1) (part.2 - part.1 + 1)) = expected then some part
    else none

/-! ## Steps -/

inductive AssemblyPhase where
  /-- No attempt is on its way. -/
  | idle
  /-- `prepare`, with the segments it has not come to, the ranges proven and the segments to fetch. -/
  | preparing (unread : List PostedSegment) (proven : List Range) (remaining : List PostedSegment)
  | fetching (remaining : List PostedSegment) (assembly : Assembly) (pending : PendingCheckpoints)
  | filling (assembly : Assembly) (holes : List Range)
  /-- The file lies under its name. -/
  | completed (finalName : Text) (missing : Nat)
  deriving DecidableEq

/-- A file on its way: its row, its part file and where the attempt at it stands. -/
structure FileAssembly where
  row : NzbFileRow
  disk : PartFile
  phase : AssemblyPhase

inductive AssemblyEvent where
  /-- An attempt begins. -/
  | resume
  /-- `prepare` comes to the next segment. -/
  | examine
  /-- `Covered::resumed`. -/
  | gather
  /-- A segment is answered, with an article or because every server lacks it. If the article is
  refused, the ones before it are `confirmed` on the way out or not. -/
  | answer (segment : PostedSegment) (confirmed : Bool)
  /-- A write that fails with this much of the article on the disk. -/
  | writeFails (segment : PostedSegment) (count : Nat) (confirmed : Bool)
  /-- A server fault, which ends the attempt without an answer for the segment. -/
  | serverFault (segment : PostedSegment) (confirmed : Bool)
  | flush
  | finish
  /-- The next hole is filled with zeros. -/
  | fill
  /-- A stop, or a failed write, with this much of the next hole filled. -/
  | stopFilling (count : Nat)
  | commit
  | stop (confirmed : Bool)
  /-- Any failure that ends the attempt where it stands. -/
  | fail
  /-- The process or the machine goes down; the part file holds whatever it holds afterwards. -/
  | crash (disk : PartFile)

namespace FileAssembly

section
variable {crc32 : Bytes → UInt32} (posted : PostedFile crc32) (nfc : Text → Text)
  (alphanumeric : Char → Bool)

/-- The attempt ends; what waits to be confirmed is, or is not. -/
def leave (state : FileAssembly) (pending : PendingCheckpoints) (confirmed : Bool) :
    FileAssembly where
  row := if confirmed then (pending.flush state.row).getD state.row else state.row
  disk := state.disk
  phase := .idle

/-- The attempt ends over a segment. -/
def leaveFailed (state : FileAssembly) (segment : PostedSegment) (pending : PendingCheckpoints)
    (confirmed : Bool) : FileAssembly :=
  leave { state with row := state.row.setSegmentState segment.id .failed } pending confirmed

/-- `prepare` at one segment, of which the attempt knows the row it began with. -/
def examine (crc32 : Bytes → UInt32) (state : FileAssembly) (segment : PostedSegment) (unread : List PostedSegment)
    (proven : List Range) (remaining : List PostedSegment) : FileAssembly :=
  let row := state.row.segments segment.id
  let complete := row.state = .completed
  let metadataComplete := state.row.assemblyName.isSome ∧ state.row.declaredSize.isSome
  let range := if metadataComplete ∧ complete then
    provenRange crc32 state.disk row state.row.declaredSize else none
  match range with
  | some range => { state with phase := .preparing unread (proven ++ [range]) remaining }
  | none => {
      row := if complete then state.row.setSegmentState segment.id .queued else state.row
      disk := state.disk
      phase := .preparing unread proven (remaining ++ [segment]) }

/-- The assembly begins with what was proven; two proven ranges that overlap end the attempt. -/
def gather (state : FileAssembly) (proven : List Range) (remaining : List PostedSegment) :
    FileAssembly :=
  match proven.foldlM Covered.insert {} with
  | .error _ => { state with phase := .idle }
  | .ok written =>
    { state with phase := .fetching remaining {
        name := if proven = [] then none else state.row.assemblyName
        declaredSize := if proven = [] then none else state.row.declaredSize
        written } {} }

/-- `take_in`. -/
def answer (state : FileAssembly) (segment : PostedSegment) (remaining : List PostedSegment)
    (assembly : Assembly) (pending : PendingCheckpoints) (confirmed : Bool) : FileAssembly :=
  match posted.article segment.id with
  | none =>
    if posted.singleSegment then state.leaveFailed segment pending confirmed
    else {
      row := state.row.setSegmentState segment.id .failed
      disk := state.disk
      phase := .fetching (remaining.erase segment)
        { assembly with missing := assembly.missing + 1 } pending }
  | some decoded =>
    match assembly.write decoded posted.totalBytes posted.singleSegment with
    | .error _ => state.leaveFailed segment pending confirmed
    | .ok (assembly, part) => {
        row := state.row
        disk := state.disk.write (part.1 - 1) decoded.data
        phase := .fetching (remaining.erase segment) assembly
          (pending.push decoded.metadata ⟨segment.id, part, decoded.crc32⟩) }

/-- The article is accepted, and only its first bytes reach the disk. -/
def writeFails (state : FileAssembly) (segment : PostedSegment) (count : Nat)
    (assembly : Assembly) (pending : PendingCheckpoints) (confirmed : Bool) :
    Option FileAssembly :=
  match posted.article segment.id with
  | none => none
  | some decoded =>
    match assembly.write decoded posted.totalBytes posted.singleSegment with
    | .error _ => none
    | .ok (_, part) => some
      (leaveFailed { state with disk := state.disk.write (part.1 - 1) (decoded.data.take count) }
        segment pending confirmed)

/-- `finish` up to the holes: the file takes its announced length. -/
def finish (state : FileAssembly) (assembly : Assembly) : FileAssembly :=
  match assembly.finish posted.totalBytes with
  | .error _ => { state with phase := .idle }
  | .ok (size, holes) => { state with
      disk := state.disk.setLen size
      phase := .filling assembly holes }

/-- The name is settled and the file renamed. -/
def commit (state : FileAssembly) (assembly : Assembly) : FileAssembly :=
  match assembly.finalName nfc alphanumeric posted.subject with
  | .error _ => { state with phase := .idle }
  | .ok name => { state with phase := .completed name assembly.missing }

def zeros (count : Nat) : Bytes := List.replicate count 0

/-- One step of an attempt, where it can be taken. A full batch is confirmed before anything else is
taken in. -/
def step (state : FileAssembly) (event : AssemblyEvent) : Option FileAssembly :=
  match state.phase, event with
  | .idle, .resume => some { state with
      phase := .preparing (posted.segments.insertionSort fun a b => a.number ≤ b.number) [] [] }
  | .preparing (segment :: unread) proven remaining, .examine =>
    some (state.examine crc32 segment unread proven remaining)
  | .preparing [] proven remaining, .gather => some (state.gather proven remaining)
  | .fetching remaining assembly pending, .answer segment confirmed =>
    if segment ∈ remaining ∧ !pending.isFull then
      some (state.answer posted segment remaining assembly pending confirmed)
    else none
  | .fetching remaining assembly pending, .writeFails segment count confirmed =>
    if segment ∈ remaining ∧ !pending.isFull then
      state.writeFails posted segment count assembly pending confirmed
    else none
  | .fetching remaining _ pending, .serverFault segment confirmed =>
    if segment ∈ remaining ∧ !pending.isFull then
      some (state.leaveFailed segment pending confirmed)
    else none
  | .fetching remaining assembly pending, .flush =>
    match pending.flush state.row with
    | none => some { state with phase := .idle }
    | some row => some { state with
        row, phase := .fetching remaining assembly { pending with segments := [] } }
  | .fetching [] assembly pending, .finish =>
    if pending.segments = [] then some (state.finish posted assembly) else none
  | .fetching _ _ pending, .stop confirmed => some (state.leave pending confirmed)
  | .filling assembly (hole :: holes), .fill => some { state with
      disk := state.disk.write (hole.1 - 1) (zeros (hole.2 - hole.1 + 1))
      phase := .filling assembly holes }
  | .filling _ (hole :: _), .stopFilling count => some { state with
      disk := state.disk.write (hole.1 - 1) (zeros (min count (hole.2 - hole.1 + 1)))
      phase := .idle }
  | .filling assembly [], .commit =>
    some (state.commit posted nfc alphanumeric assembly)
  | .preparing .., .fail | .fetching .., .fail | .filling .., .fail =>
    some { state with phase := .idle }
  | .preparing .., .crash disk | .fetching .., .crash disk | .filling .., .crash disk
  | .idle, .crash disk => some { state with disk, phase := .idle }
  | _, _ => none

/-- A file none of whose articles is confirmed. -/
structure Unstarted (state : FileAssembly) : Prop where
  phase : state.phase = .idle
  name : state.row.assemblyName = none
  segments : ∀ id, (state.row.segments id).state ≠ .completed

def machine : Machine FileAssembly AssemblyEvent where
  initial := Unstarted
  step := step posted nfc alphanumeric

end
end FileAssembly
end RDownloader
