import RDownloader.Usenet.Assembly

/-!
# What a file is assembled to

Whatever the order of the answers and however often the assembly was stopped, a file that lies under
its name holds its articles' bytes and zeros between them. While an attempt runs, every range it has
booked holds the bytes of an article, and no confirmed segment lies outside the booked ranges.
-/

namespace RDownloader

open Ranges

/-! ## Writing and reading -/

namespace PartFile

variable {file file' : PartFile} {part other : Range} {data bytes : Bytes} {place size : Nat}

/-- The file holds the data at the part, which is counted from one. -/
structure Holds (file : PartFile) (part : Range) (data : Bytes) : Prop where
  inside : part.2 ≤ file.length
  read : file.read (part.1 - 1) (part.2 - part.1 + 1) = data

theorem read_congr {length : Nat}
    (h : ∀ offset, place ≤ offset → offset < place + length → file'.byte offset = file.byte offset) :
    file'.read place length = file.read place length := by
  refine List.map_congr_left fun index hindex => h _ (Nat.le_add_right _ _) ?_
  exact Nat.add_lt_add_left (List.mem_range.mp hindex) _

theorem Holds.congr (h : file.Holds part data) (hpos : 1 ≤ part.1) (hnonempty : part.1 ≤ part.2)
    (hlength : part.2 ≤ file'.length)
    (hbyte : ∀ place, part.1 ≤ place → place ≤ part.2 → file'.byte (place - 1) = file.byte (place - 1)) :
    file'.Holds part data := by
  refine ⟨hlength, (read_congr fun offset hle hlt => ?_).trans h.read⟩
  exact hbyte (offset + 1) (by omega) (by omega)

theorem Holds.byte (h : file.Holds part data) (index : Nat) (hindex : index < data.length) :
    file.byte (part.1 - 1 + index) = data[index] := by
  have hread := h.read
  subst hread
  simp [PartFile.read]

theorem length_le_write : file.length ≤ (file.write place bytes).length := by
  rw [write]
  split
  · exact Nat.le_refl _
  · exact Nat.le_max_left _ _

theorem length_write_of_le (h : place + bytes.length ≤ file.length) :
    (file.write place bytes).length = file.length := by
  rw [write]
  split
  · rfl
  · exact Nat.max_eq_left h

theorem byte_write {offset : Nat} (hlength : offset < file.length)
    (houtside : offset < place ∨ place + bytes.length ≤ offset) :
    (file.write place bytes).byte offset = file.byte offset := by
  rw [write]
  split
  · rfl
  · dsimp only
    rw [if_neg (by omega), if_pos hlength]

/-- What is written at a part stays outside of every part that does not meet it. -/
theorem Holds.write (h : file.Holds part data) (hpos : 1 ≤ part.1) (hnonempty : part.1 ≤ part.2)
    (hapart : ¬ Meets part other) (hother : 1 ≤ other.1)
    (hbytes : bytes.length ≤ other.2 - other.1 + 1) (hle : other.1 ≤ other.2) :
    (file.write (other.1 - 1) bytes).Holds part data := by
  refine h.congr hpos hnonempty (Nat.le_trans h.inside length_le_write) fun place hge hle => ?_
  have hinside := h.inside
  rw [Meets] at hapart
  exact byte_write (by omega) (by omega)

theorem holds_write (hpos : 1 ≤ part.1) (hnonempty : part.1 ≤ part.2)
    (hlength : data.length = part.2 - part.1 + 1) :
    (file.write (part.1 - 1) data).Holds part data := by
  have hdata : data ≠ [] := List.ne_nil_of_length_pos (by omega)
  refine ⟨?_, ?_⟩
  · rw [PartFile.write, if_neg hdata]
    exact Nat.le_trans (by omega) (Nat.le_max_right _ _)
  · rw [PartFile.write, if_neg hdata]
    refine List.ext_getElem (by simp [PartFile.read, hlength]) fun index hindex hindex' => ?_
    simp only [PartFile.read, List.getElem_map, List.getElem_range]
    rw [if_pos ⟨by omega, by omega⟩, Nat.add_sub_cancel_left]
    rw [List.getD_eq_getElem?_getD, List.getElem?_eq_getElem hindex', Option.getD_some]

theorem Holds.setLen (h : file.Holds part data) (hpos : 1 ≤ part.1) (hnonempty : part.1 ≤ part.2)
    (hsize : part.2 ≤ size) : (file.setLen size).Holds part data := by
  refine h.congr hpos hnonempty hsize fun place _ hle => ?_
  have hinside := h.inside
  rw [PartFile.setLen]
  exact if_pos (by omega)

/-- Zeros written at a part. -/
theorem byte_write_zeros {count : Nat} (hpos : 1 ≤ part.1) (hge : part.1 ≤ place)
    (hlt : place < part.1 + count) :
    (file.write (part.1 - 1) (FileAssembly.zeros count)).byte (place - 1) = 0 := by
  have hzeros : FileAssembly.zeros count ≠ [] :=
    List.ne_nil_of_length_pos (by rw [FileAssembly.zeros, List.length_replicate]; omega)
  rw [PartFile.write, if_neg hzeros]
  dsimp only
  rw [if_pos (by rw [FileAssembly.zeros, List.length_replicate]; omega), FileAssembly.zeros,
    List.getD_eq_getElem?_getD, List.getElem?_replicate_of_lt (by omega), Option.getD_some]

end PartFile

/-! ## Articles in their places -/

namespace PostedFile

variable {crc32 : Bytes → UInt32}

/-- The article of a segment, with the part of the file it belongs to. -/
structure Placed (posted : PostedFile crc32) (id : SegmentId) (decoded : DecodedArticle)
    (part : Range) : Prop where
  article : posted.article id = some decoded
  part_eq : decodedPartRange decoded posted.singleSegment = .ok part
  pos : 1 ≤ part.1
  nonempty : part.1 ≤ part.2
  length : decoded.data.length = part.2 - part.1 + 1
  inside : part.2 ≤ decoded.metadata.declaredSize
  size_lt : decoded.metadata.declaredSize < u64Max

/-- A checksum that matches what a part file holds in an article's place shows the article there. -/
def Detects (posted : PostedFile crc32) (disk : PartFile) : Prop :=
  ∀ id decoded part, posted.Placed id decoded part →
    crc32 (disk.read (part.1 - 1) (part.2 - part.1 + 1)) = decoded.crc32 →
      disk.read (part.1 - 1) (part.2 - part.1 + 1) = decoded.data

/-- An article some server has is delivered for the part of the file it names. -/
def Delivered (posted : PostedFile crc32) (decoded : DecodedArticle) (part : Range) : Prop :=
  ∃ segment ∈ posted.segments, posted.article segment.id = some decoded ∧
    decodedPartRange decoded posted.singleSegment = .ok part

/-- A file as its articles say it is, with zeros where they say nothing. -/
structure Assembled (posted : PostedFile crc32) (file : PartFile) (missing : Nat) : Prop where
  announced : ∃ decoded part, posted.Delivered decoded part
  length : ∀ decoded part, posted.Delivered decoded part →
    file.length = decoded.metadata.declaredSize
  bytes : ∀ decoded part, posted.Delivered decoded part → part.2 ≤ file.length ∧
    decoded.data.length = part.2 - part.1 + 1 ∧
    ∀ (index : Nat) (hindex : index < decoded.data.length),
      file.byte (part.1 - 1 + index) = decoded.data[index]
  zeros : ∀ place, 1 ≤ place → place ≤ file.length →
    (∀ decoded part, posted.Delivered decoded part → ¬ (part.1 ≤ place ∧ place ≤ part.2)) →
      file.byte (place - 1) = 0
  covered : missing = 0 → ∀ place, 1 ≤ place → place ≤ file.length →
    ∃ decoded part, posted.Delivered decoded part ∧ part.1 ≤ place ∧ place ≤ part.2

variable {posted : PostedFile crc32} {id : SegmentId} {decoded decoded' : DecodedArticle}
  {part part' : Range}

theorem Placed.unique (h : posted.Placed id decoded part) (h' : posted.Placed id decoded' part') :
    decoded = decoded' ∧ part = part' := by
  obtain rfl := Option.some.inj (h.article.symm.trans h'.article)
  exact ⟨rfl, Except.ok.inj (h.part_eq.symm.trans h'.part_eq)⟩

theorem Placed.delivered {segment : PostedSegment} (h : posted.Placed segment.id decoded part)
    (hsegment : segment ∈ posted.segments) : posted.Delivered decoded part :=
  ⟨segment, hsegment, h.article, h.part_eq⟩

theorem declaredSizeLimit_lt (posted : PostedFile crc32) :
    declaredSizeLimit posted.totalBytes < u64Max := by
  have hle := posted.totalBytes_le
  rw [declaredSizeLimit, saturatingAdd, saturatingAdd]
  rw [i64Max] at hle
  rw [u64Max]
  omega

end PostedFile

/-- What an assembly has after it took an article in. -/
structure Assembly.Takes (assembly : Assembly) (decoded : DecodedArticle) (listed : Nat)
    (singleSegment : Bool) (next : Assembly) (part : Range) : Prop where
  part_eq : decodedPartRange decoded singleSegment = .ok part
  size_le : decoded.metadata.declaredSize ≤ declaredSizeLimit listed
  agrees : ∀ size ∈ assembly.declaredSize, size = decoded.metadata.declaredSize
  declaredSize : next.declaredSize = some decoded.metadata.declaredSize
  name : next.name = some (assembly.name.getD decoded.metadata.name)
  deviations : next.deviations = assembly.deviations.observe assembly.name decoded.metadata.name
  missing : next.missing = assembly.missing
  claim : assembly.written.claim part decoded.data.length (some decoded.metadata.declaredSize) =
    .ok next.written

theorem Assembly.takes_of_write {assembly next : Assembly} {decoded : DecodedArticle}
    {listed : Nat} {singleSegment : Bool} {part : Range}
    (h : assembly.write decoded listed singleSegment = .ok (next, part)) :
    assembly.Takes decoded listed singleSegment next part := by
  rw [write, validateMetadata, checkDeclaredSize] at h
  dsimp only at h
  split at h
  · next hsize =>
    split at h
    · cases h
    · next hagrees =>
      cases hpart : decodedPartRange decoded singleSegment with
      | error error =>
        rw [hpart] at h
        cases h
      | ok part' =>
        rw [hpart] at h
        have hsame : assembly.declaredSize.getD decoded.metadata.declaredSize =
            decoded.metadata.declaredSize := by
          cases hdeclared : assembly.declaredSize with
          | none => rfl
          | some size => simpa [hdeclared] using hagrees
        dsimp only [bind, Except.bind] at h
        rw [hsame] at h
        split at h
        · cases h
        · next written hclaim =>
          cases h
          refine ⟨hpart, hsize, fun size hmem => ?_, rfl, rfl, rfl, rfl, hclaim⟩
          rw [Option.mem_def] at hmem
          simpa [hmem] using hagrees
  · cases h

namespace FileAssembly

/-! ## Rows that say what was written -/

section
variable {crc32 : Bytes → UInt32} {posted : PostedFile crc32} {row row' : NzbFileRow}
  {disk disk' : PartFile} {id : SegmentId} {state : NzbSegmentState}

/-- A segment's row after its article's checkpoint. -/
structure Recorded (posted : PostedFile crc32) (row : NzbFileRow) (id : SegmentId)
    (decoded : DecodedArticle) (part : Range) : Prop where
  placed : posted.Placed id decoded part
  listed : ∃ segment ∈ posted.segments, segment.id = id
  segment : row.segments id = {
    state := .completed
    crc32 := some decoded.crc32
    partBegin := some part.1
    partEnd := some part.2 }
  size : row.declaredSize = some decoded.metadata.declaredSize

/-- Whatever the row calls complete was written by a checkpoint. -/
def Honest (posted : PostedFile crc32) (row : NzbFileRow) : Prop :=
  ∀ id, (row.segments id).state = .completed → ∃ decoded part, Recorded posted row id decoded part

/-- A checksum the row records is matched by the article only. -/
def Trusted (posted : PostedFile crc32) (row : NzbFileRow) (disk : PartFile) : Prop :=
  ∀ id decoded part, (row.segments id).state = .completed → posted.Placed id decoded part →
    crc32 (disk.read (part.1 - 1) (part.2 - part.1 + 1)) = decoded.crc32 →
      disk.read (part.1 - 1) (part.2 - part.1 + 1) = decoded.data

theorem completed_of_set (hstate : state ≠ .completed)
    (h : ((row.setSegmentState id state).segments other).state = .completed) :
    other ≠ id ∧ (row.segments other).state = .completed := by
  rw [NzbFileRow.setSegmentState] at h
  dsimp only at h
  by_cases hid : other = id
  · subst hid
    rw [Function.update_self] at h
    exact absurd h hstate
  · rw [Function.update_of_ne hid] at h
    exact ⟨hid, h⟩

theorem Honest.setSegmentState (h : Honest posted row) (hstate : state ≠ .completed) :
    Honest posted (row.setSegmentState id state) := by
  intro other hcompleted
  obtain ⟨hid, hbefore⟩ := completed_of_set hstate hcompleted
  obtain ⟨decoded, part, hrecorded⟩ := h other hbefore
  exact ⟨decoded, part, hrecorded.placed, hrecorded.listed,
    (Function.update_of_ne hid _ _).trans hrecorded.segment, hrecorded.size⟩

theorem Trusted.setSegmentState (h : Trusted posted row disk) (hstate : state ≠ .completed) :
    Trusted posted (row.setSegmentState id state) disk :=
  fun other decoded part hcompleted => h other decoded part (completed_of_set hstate hcompleted).2

/-- The row of a segment after a batch: what the batch says of it, or what the row said. -/
theorem foldl_completeSegment (segments : List AssembledSegment)
    (rows : SegmentId → NzbSegmentRow) (id : SegmentId) :
    segments.foldl NzbFileRow.completeSegment rows id = rows id ∧
        (∀ segment ∈ segments, segment.segmentId ≠ id) ∨
      ∃ segment ∈ segments, segment.segmentId = id ∧
        segments.foldl NzbFileRow.completeSegment rows id = {
          state := .completed
          crc32 := some segment.crc32
          partBegin := some segment.part.1
          partEnd := some segment.part.2 } := by
  induction segments generalizing rows with
  | nil => exact .inl ⟨rfl, nofun⟩
  | cons first segments ih =>
    obtain ⟨hrest, hnone⟩ | ⟨segment, hmem, hsegment⟩ := ih (NzbFileRow.completeSegment rows first)
    · by_cases hid : first.segmentId = id
      · refine .inr ⟨first, List.mem_cons_self, hid, hrest.trans ?_⟩
        rw [NzbFileRow.completeSegment, hid, Function.update_self]
      · refine .inl ⟨hrest.trans (Function.update_of_ne (Ne.symm hid) _ _), fun segment hmem => ?_⟩
        obtain rfl | hmem := List.mem_cons.mp hmem
        · exact hid
        · exact hnone segment hmem
    · exact .inr ⟨segment, List.mem_cons_of_mem _ hmem, hsegment⟩

/-! ## What an attempt has booked -/

/-- The segment's article lies in the part file, in a range that the assembly has booked. -/
def Taken (posted : PostedFile crc32) (disk : PartFile) (ranges : List Range)
    (declaredSize : Option Nat) (id : SegmentId) (decoded : DecodedArticle) (part : Range) : Prop :=
  posted.Placed id decoded part ∧ part ∈ ranges ∧ disk.Holds part decoded.data ∧
    declaredSize = some decoded.metadata.declaredSize

/-- What the booked ranges hold stays where it is. -/
def Keeps (ranges : List Range) (disk disk' : PartFile) : Prop :=
  ∀ part ∈ ranges, ∀ data, 1 ≤ part.1 → part.1 ≤ part.2 → disk.Holds part data →
    disk'.Holds part data

variable {ranges ranges' : List Range} {declaredSize declaredSize' : Option Nat}
  {decoded : DecodedArticle} {part : Range}

/-- An assembly that books more ranges, keeps what the booked ones hold and the size it knows. -/
structure Grows (disk : PartFile) (ranges : List Range) (declaredSize : Option Nat)
    (disk' : PartFile) (ranges' : List Range) (declaredSize' : Option Nat) : Prop where
  keeps : Keeps ranges disk disk'
  subset : ∀ part ∈ ranges, part ∈ ranges'
  size : ∀ size, declaredSize = some size → declaredSize' = some size

theorem Keeps.grows (h : Keeps ranges disk disk') :
    Grows disk ranges declaredSize disk' ranges declaredSize :=
  ⟨h, fun _ hpart => hpart, fun _ hsize => hsize⟩

theorem Taken.mono (h : Taken posted disk ranges declaredSize id decoded part)
    (hgrows : Grows disk ranges declaredSize disk' ranges' declaredSize') :
    Taken posted disk' ranges' declaredSize' id decoded part := by
  obtain ⟨hplaced, hmem, hholds, hsize⟩ := h
  exact ⟨hplaced, hgrows.subset part hmem,
    hgrows.keeps part hmem _ hplaced.pos hplaced.nonempty hholds, hgrows.size _ hsize⟩

theorem Keeps.refl : Keeps ranges disk disk := fun _ _ _ _ _ h => h

/-- A write in a part that meets none of the booked ranges. -/
theorem keeps_write {bytes : Bytes} (hapart : ∀ r ∈ ranges, ¬ Meets r part) (hpos : 1 ≤ part.1)
    (hnonempty : part.1 ≤ part.2) (hbytes : bytes.length ≤ part.2 - part.1 + 1) :
    Keeps ranges disk (disk.write (part.1 - 1) bytes) :=
  fun r hr _ hrpos hrnonempty hholds =>
    hholds.write hrpos hrnonempty (hapart r hr) hpos hbytes hnonempty

/-- The confirmed segments of a row are among the booked ones. -/
def Booked (posted : PostedFile crc32) (row : NzbFileRow) (disk : PartFile) (ranges : List Range)
    (declaredSize : Option Nat) : Prop :=
  ∀ id, (row.segments id).state = .completed →
    ∃ decoded part, Taken posted disk ranges declaredSize id decoded part

theorem Booked.mono (h : Booked posted row disk ranges declaredSize)
    (hgrows : Grows disk ranges declaredSize disk' ranges' declaredSize') :
    Booked posted row disk' ranges' declaredSize' := by
  intro id hcompleted
  obtain ⟨decoded, part, htaken⟩ := h id hcompleted
  exact ⟨decoded, part, htaken.mono hgrows⟩

theorem Booked.setSegmentState (h : Booked posted row disk ranges declaredSize)
    (hstate : state ≠ .completed) :
    Booked posted (row.setSegmentState id state) disk ranges declaredSize :=
  fun other hcompleted => h other (completed_of_set hstate hcompleted).2

/-- What is booked is no mere coincidence of checksums. -/
theorem Booked.trusted (h : Booked posted row disk ranges declaredSize) :
    Trusted posted row disk := by
  intro id decoded part hcompleted hplaced _
  obtain ⟨decoded', part', hplaced', -, hholds, -⟩ := h id hcompleted
  obtain ⟨rfl, rfl⟩ := hplaced.unique hplaced'
  exact hholds.read

/-- The articles that wait to be confirmed are booked, and all announce the same size. -/
def Waiting (posted : PostedFile crc32) (disk : PartFile) (ranges : List Range)
    (declaredSize : Option Nat) (pending : PendingCheckpoints) : Prop :=
  ∀ segment ∈ pending.segments, (∃ listed ∈ posted.segments, listed.id = segment.segmentId) ∧
    ∃ decoded, Taken posted disk ranges declaredSize segment.segmentId decoded segment.part ∧
      segment.crc32 = decoded.crc32 ∧ pending.declaredSize = decoded.metadata.declaredSize

variable {pending : PendingCheckpoints}

theorem Waiting.mono (h : Waiting posted disk ranges declaredSize pending)
    (hgrows : Grows disk ranges declaredSize disk' ranges' declaredSize') :
    Waiting posted disk' ranges' declaredSize' pending := by
  intro segment hmem
  obtain ⟨hlisted, decoded, htaken, hrest⟩ := h segment hmem
  exact ⟨hlisted, decoded, htaken.mono hgrows, hrest⟩

/-- A batch that is confirmed says what was written. -/
theorem Honest.flush (h : Honest posted row) (hbooked : Booked posted row disk ranges declaredSize)
    (hwaiting : Waiting posted disk ranges declaredSize pending)
    (hflush : pending.flush row = some row') :
    Honest posted row' ∧ Booked posted row' disk ranges declaredSize := by
  rw [PendingCheckpoints.flush] at hflush
  split at hflush
  · cases hflush
    exact ⟨h, hbooked⟩
  · next hsegments =>
    rw [NzbFileRow.checkpoint] at hflush
    split at hflush
    · cases hflush
      obtain ⟨first, hfirst⟩ := List.exists_mem_of_ne_nil _ hsegments
      obtain ⟨-, announced, ⟨-, -, -, hannounced⟩, -, hsize⟩ := hwaiting first hfirst
      refine ⟨fun id hcompleted => ?_, fun id hcompleted => ?_⟩ <;>
        dsimp only at hcompleted <;>
        obtain ⟨hsame, -⟩ | ⟨segment, hmem, rfl, hsegment⟩ :=
          foldl_completeSegment pending.segments row.segments id
      · rw [hsame] at hcompleted
        obtain ⟨decoded, part, hrecorded⟩ := h id hcompleted
        obtain ⟨decoded', part', hplaced, -, -, hdeclared⟩ := hbooked id hcompleted
        obtain ⟨rfl, rfl⟩ := hrecorded.placed.unique hplaced
        refine ⟨decoded, part, hrecorded.placed, hrecorded.listed, hsame.trans hrecorded.segment, ?_⟩
        rw [hsize, ← hdeclared, hannounced]
      · obtain ⟨hlisted, decoded, ⟨hplaced, -⟩, hsum, hdeclared⟩ := hwaiting segment hmem
        exact ⟨decoded, segment.part, hplaced, hlisted, hsum ▸ hsegment, congrArg some hdeclared⟩
      · rw [hsame] at hcompleted
        exact hbooked id hcompleted
      · obtain ⟨-, decoded, htaken, -⟩ := hwaiting segment hmem
        exact ⟨decoded, segment.part, htaken⟩
    · cases hflush

/-! ## The phases of an attempt -/

/-- Between two attempts the checksums of the row are to be relied on. -/
structure Idle (posted : PostedFile crc32) (row : NzbFileRow) (disk : PartFile) : Prop where
  honest : Honest posted row
  trusted : Trusted posted row disk

/-- A segment that an attempt need not fetch. -/
def Settled (posted : PostedFile crc32) (disk : PartFile) (ranges : List Range)
    (declaredSize : Option Nat) (segment : PostedSegment) : Prop :=
  posted.article segment.id = none ∨
    ∃ decoded part, Taken posted disk ranges declaredSize segment.id decoded part

/-- Every booked range is that of a segment. -/
def Accounted (posted : PostedFile crc32) (disk : PartFile) (ranges : List Range)
    (declaredSize : Option Nat) : Prop :=
  ∀ part ∈ ranges, ∃ segment ∈ posted.segments, ∃ decoded,
    Taken posted disk ranges declaredSize segment.id decoded part

structure Preparing (posted : PostedFile crc32) (row : NzbFileRow) (disk : PartFile)
    (unread : List PostedSegment) (proven : List Range) (remaining : List PostedSegment) : Prop
    extends Idle posted row disk where
  accounted : Accounted posted disk proven row.declaredSize
  booked : ∀ id, (row.segments id).state = .completed → (∃ segment ∈ unread, segment.id = id) ∨
    ∃ decoded part, Taken posted disk proven row.declaredSize id decoded part
  settled : ∀ segment ∈ posted.segments, segment ∈ unread ∨ segment ∈ remaining ∨
    Settled posted disk proven row.declaredSize segment
  listed : ∀ segment, segment ∈ unread ∨ segment ∈ remaining → segment ∈ posted.segments

/-- What holds once an attempt has its assembly. -/
structure Assembling (posted : PostedFile crc32) (row : NzbFileRow) (disk : PartFile)
    (assembly : Assembly) : Prop where
  honest : Honest posted row
  booked : Booked posted row disk assembly.written.ranges assembly.declaredSize
  separate : Separate assembly.written.ranges
  accounted : Accounted posted disk assembly.written.ranges assembly.declaredSize
  announced : assembly.declaredSize ≠ none → assembly.written.ranges ≠ []

structure Fetching (posted : PostedFile crc32) (row : NzbFileRow) (disk : PartFile)
    (remaining : List PostedSegment) (assembly : Assembly) (pending : PendingCheckpoints) : Prop
    extends Assembling posted row disk assembly where
  waiting : Waiting posted disk assembly.written.ranges assembly.declaredSize pending
  settled : ∀ segment ∈ posted.segments, segment ∈ remaining ∨
    Settled posted disk assembly.written.ranges assembly.declaredSize segment
  listed : ∀ segment ∈ remaining, segment ∈ posted.segments

/-- A hole that is filled without touching what is booked. -/
structure IsHole (ranges : List Range) (size : Nat) (hole : Range) : Prop where
  pos : 1 ≤ hole.1
  nonempty : hole.1 ≤ hole.2
  inside : hole.2 ≤ size
  apart : ∀ part ∈ ranges, ¬ Meets part hole

structure Filling (posted : PostedFile crc32) (row : NzbFileRow) (disk : PartFile)
    (assembly : Assembly) (holes : List Range) : Prop
    extends Assembling posted row disk assembly where
  settled : ∀ segment ∈ posted.segments,
    Settled posted disk assembly.written.ranges assembly.declaredSize segment
  size : assembly.declaredSize = some disk.length
  apart : ∀ hole ∈ holes, IsHole assembly.written.ranges disk.length hole
  filled : ∀ place, 1 ≤ place → place ≤ disk.length → Covers assembly.written.ranges place ∨
    Covers holes place ∨ disk.byte (place - 1) = 0
  whole : assembly.missing = 0 → ∀ place, 1 ≤ place → place ≤ disk.length →
    Covers assembly.written.ranges place

variable {unread remaining : List PostedSegment} {proven holes : List Range}
  {assembly assembly' : Assembly} {segment : PostedSegment}

theorem Settled.mono (h : Settled posted disk ranges declaredSize segment)
    (hgrows : Grows disk ranges declaredSize disk' ranges' declaredSize') :
    Settled posted disk' ranges' declaredSize' segment := by
  obtain hnone | ⟨decoded, part, htaken⟩ := h
  · exact .inl hnone
  · exact .inr ⟨decoded, part, htaken.mono hgrows⟩

theorem Accounted.mono (h : Accounted posted disk ranges declaredSize)
    (hgrows : Grows disk ranges declaredSize disk' ranges declaredSize') :
    Accounted posted disk' ranges declaredSize' := by
  intro part hpart
  obtain ⟨segment, hsegment, decoded, htaken⟩ := h part hpart
  exact ⟨segment, hsegment, decoded, htaken.mono hgrows⟩

/-- One range more, of a segment that was just taken in. -/
theorem Accounted.push (h : Accounted posted disk ranges declaredSize)
    (hgrows : Grows disk ranges declaredSize disk' ranges' declaredSize')
    (hmem : ∀ r ∈ ranges', r ∈ ranges ∨ r = part) (hsegment : segment ∈ posted.segments)
    (htaken : Taken posted disk' ranges' declaredSize' segment.id decoded part) :
    Accounted posted disk' ranges' declaredSize' := by
  intro r hr
  obtain hr | rfl := hmem r hr
  · obtain ⟨segment, hsegment, decoded, htaken⟩ := h r hr
    exact ⟨segment, hsegment, decoded, htaken.mono hgrows⟩
  · exact ⟨segment, hsegment, decoded, htaken⟩

theorem Idle.setSegmentState (h : Idle posted row disk) (hstate : state ≠ .completed) :
    Idle posted (row.setSegmentState id state) disk :=
  ⟨h.honest.setSegmentState hstate, h.trusted.setSegmentState hstate⟩

theorem Assembling.idle (h : Assembling posted row disk assembly) : Idle posted row disk :=
  ⟨h.honest, h.booked.trusted⟩

/-- A crash leaves what the checksums detect. -/
theorem Idle.crash (h : Idle posted row disk) (hdetects : posted.Detects disk') :
    Idle posted row disk' :=
  ⟨h.honest, fun id decoded part _ hplaced => hdetects id decoded part hplaced⟩

theorem Assembling.setSegmentState (h : Assembling posted row disk assembly)
    (hstate : state ≠ .completed) :
    Assembling posted (row.setSegmentState id state) disk assembly :=
  ⟨h.honest.setSegmentState hstate, h.booked.setSegmentState hstate, h.separate, h.accounted,
    h.announced⟩

theorem Assembling.keeps (h : Assembling posted row disk assembly)
    (hkeeps : Keeps assembly.written.ranges disk disk') :
    Assembling posted row disk' assembly :=
  ⟨h.honest, h.booked.mono hkeeps.grows, h.separate, h.accounted.mono hkeeps.grows, h.announced⟩

/-! ## Steps -/

theorem idle_leave {phase : AssemblyPhase} {confirmed : Bool} (honest : Honest posted row)
    (hbooked : Booked posted row disk ranges declaredSize)
    (hwaiting : Waiting posted disk ranges declaredSize pending) :
    Idle posted (FileAssembly.leave ⟨row, disk, phase⟩ pending confirmed).row disk := by
  rw [FileAssembly.leave]
  split
  · dsimp only
    cases hflush : pending.flush row with
    | none => exact ⟨honest, hbooked.trusted⟩
    | some row' =>
      obtain ⟨honest', hbooked'⟩ := honest.flush hbooked hwaiting hflush
      exact ⟨honest', hbooked'.trusted⟩
  · exact ⟨honest, hbooked.trusted⟩

theorem idle_leaveFailed {phase : AssemblyPhase} {confirmed : Bool} (honest : Honest posted row)
    (hbooked : Booked posted row disk ranges declaredSize)
    (hwaiting : Waiting posted disk ranges declaredSize pending) :
    Idle posted (FileAssembly.leaveFailed ⟨row, disk, phase⟩ segment pending confirmed).row disk :=
  idle_leave (honest.setSegmentState nofun) (hbooked.setSegmentState nofun) hwaiting

/-- What is proven of a confirmed segment lies in the part file. -/
theorem taken_of_proven {range : Range} (proven : List Range) (h : Idle posted row disk)
    (hcompleted : (row.segments id).state = .completed)
    (hproven : provenRange crc32 disk (row.segments id) row.declaredSize = some range) :
    ∃ decoded, (∃ listed ∈ posted.segments, listed.id = id) ∧
      Taken posted disk (proven ++ [range]) row.declaredSize id decoded range := by
  obtain ⟨decoded, part, hrecorded⟩ := h.honest id hcompleted
  have hchecked : (row.segments id).checkpointRange = some (part, decoded.crc32) := by
    rw [hrecorded.segment]
    rfl
  rw [provenRange, hchecked] at hproven
  dsimp only at hproven
  split at hproven
  · cases hproven
  · next hinside =>
    split at hproven
    · next hsum =>
      cases hproven
      have hread := h.trusted id decoded range hcompleted hrecorded.placed hsum
      exact ⟨decoded, hrecorded.listed, hrecorded.placed, List.mem_append_right _ (by simp),
        ⟨by omega, hread⟩, hrecorded.size⟩
    · cases hproven

theorem grows_append (disk : PartFile) (ranges more : List Range) (declaredSize : Option Nat) :
    Grows disk ranges declaredSize disk (ranges ++ more) declaredSize :=
  ⟨.refl, fun _ hpart => List.mem_append_left _ hpart, fun _ h => h⟩

theorem Preparing.start (h : Idle posted row disk) :
    Preparing posted row disk (posted.segments.insertionSort fun a b => a.number ≤ b.number) [] [] where
  toIdle := h
  accounted := nofun
  booked id hcompleted := by
    obtain ⟨_, _, hrecorded⟩ := h.honest id hcompleted
    obtain ⟨segment, hmem, hid⟩ := hrecorded.listed
    exact .inl ⟨segment, (List.mem_insertionSort _).mpr hmem, hid⟩
  settled _ hsegment := .inl ((List.mem_insertionSort _).mpr hsegment)
  listed _ hsegment := (List.mem_insertionSort _).mp (hsegment.resolve_right List.not_mem_nil)

/-- A segment that is proven. -/
theorem Preparing.prove {range : Range}
    (h : Preparing posted row disk (segment :: unread) proven remaining)
    (hcompleted : (row.segments segment.id).state = .completed)
    (hproven : provenRange crc32 disk (row.segments segment.id) row.declaredSize = some range) :
    Preparing posted row disk unread (proven ++ [range]) remaining := by
  obtain ⟨decoded, -, htaken⟩ := taken_of_proven proven h.toIdle hcompleted hproven
  have hgrows := grows_append disk proven [range] row.declaredSize
  refine ⟨h.toIdle, ?_, fun id hid => ?_, fun other hother => ?_, fun other hother => ?_⟩
  · refine h.accounted.push hgrows (fun r hr => ?_) (h.listed segment (.inl List.mem_cons_self))
      htaken
    exact (List.mem_append.mp hr).imp_right List.mem_singleton.mp
  · obtain ⟨other, hmem, rfl⟩ | ⟨decoded, part, hbooked⟩ := h.booked id hid
    · obtain rfl | hmem := List.mem_cons.mp hmem
      · exact .inr ⟨decoded, range, htaken⟩
      · exact .inl ⟨other, hmem, rfl⟩
    · exact .inr ⟨decoded, part, hbooked.mono hgrows⟩
  · obtain hmem | hmem | hsettled := h.settled other hother
    · obtain rfl | hmem := List.mem_cons.mp hmem
      · exact .inr (.inr (.inr ⟨decoded, range, htaken⟩))
      · exact .inl hmem
    · exact .inr (.inl hmem)
    · exact .inr (.inr (hsettled.mono hgrows))
  · exact h.listed other (hother.imp_left (List.mem_cons_of_mem _))

/-- A segment that is to be fetched, and is not confirmed any more. -/
theorem Preparing.queue (h : Preparing posted row disk (segment :: unread) proven remaining)
    (hidle : Idle posted row' disk) (hsize : row'.declaredSize = row.declaredSize)
    (hrow : ∀ id, (row'.segments id).state = .completed →
      id ≠ segment.id ∧ (row.segments id).state = .completed) :
    Preparing posted row' disk unread proven (remaining ++ [segment]) := by
  refine ⟨hidle, hsize ▸ h.accounted, fun id hid => ?_, fun other hother => ?_,
    fun other hother => ?_⟩
  · obtain ⟨hne, hbefore⟩ := hrow id hid
    rw [hsize]
    obtain ⟨other, hmem, rfl⟩ | hbooked := h.booked id hbefore
    · obtain rfl | hmem := List.mem_cons.mp hmem
      · exact absurd rfl hne
      · exact .inl ⟨other, hmem, rfl⟩
    · exact .inr hbooked
  · rw [hsize]
    obtain hmem | hmem | hsettled := h.settled other hother
    · obtain rfl | hmem := List.mem_cons.mp hmem
      · exact .inr (.inl (List.mem_append_right _ (List.mem_singleton_self _)))
      · exact .inl hmem
    · exact .inr (.inl (List.mem_append_left _ hmem))
    · exact .inr (.inr hsettled)
  · apply h.listed other
    obtain hmem | hmem := hother
    · exact .inl (List.mem_cons_of_mem _ hmem)
    · obtain hmem | hmem := List.mem_append.mp hmem
      · exact .inr hmem
      · exact .inl (List.mem_singleton.mp hmem ▸ List.mem_cons_self)

/-- Two booked ranges are the same or do not meet. -/
theorem Preparing.gather (h : Preparing posted row disk [] proven remaining) {written : Covered}
    (hwritten : proven.foldlM Covered.insert {} = .ok written) :
    Fetching posted row disk remaining {
      name := if proven = [] then none else row.assemblyName
      declaredSize := if proven = [] then none else row.declaredSize
      written } {} := by
  have hranges : ∀ part ∈ proven, part.1 ≤ part.2 := by
    intro part hpart
    obtain ⟨_, _, _, hplaced, -⟩ := h.accounted part hpart
    exact hplaced.nonempty
  have hholds : Covered.Holds written proven :=
    Covered.Holds.foldlM ⟨separate_nil, fun _ => .rfl⟩ hranges hwritten
  have hgrows : Grows disk proven row.declaredSize disk written.ranges
      (if proven = [] then none else row.declaredSize) ∨ proven = [] := by
    by_cases hnil : proven = []
    · exact .inr hnil
    · rw [if_neg hnil]
      exact .inl ⟨.refl, fun part hpart => (hholds.mem_iff part).mpr hpart, fun _ hsize => hsize⟩
  have htaken : ∀ id decoded part, Taken posted disk proven row.declaredSize id decoded part →
      Taken posted disk written.ranges (if proven = [] then none else row.declaredSize) id decoded
        part := by
    intro id decoded part htaken
    obtain hgrows | rfl := hgrows
    · exact htaken.mono hgrows
    · cases htaken.2.1
  refine ⟨⟨h.honest, fun id hid => ?_, hholds.separate, fun part hpart => ?_, fun hsize => ?_⟩,
    nofun, fun segment hsegment => ?_, fun segment hsegment => h.listed segment (.inr hsegment)⟩
  · obtain ⟨_, hmem, -⟩ | ⟨decoded, part, hbooked⟩ := h.booked id hid
    · cases hmem
    · exact ⟨decoded, part, htaken id decoded part hbooked⟩
  · obtain ⟨segment, hsegment, decoded, haccounted⟩ :=
      h.accounted part ((hholds.mem_iff part).mp hpart)
    exact ⟨segment, hsegment, decoded, htaken _ _ _ haccounted⟩
  · obtain ⟨part, hpart⟩ := List.exists_mem_of_ne_nil proven fun hnil => hsize (if_pos hnil)
    exact List.ne_nil_of_mem ((hholds.mem_iff part).mpr hpart)
  · obtain hmem | hmem | hnone | ⟨decoded, part, hsettled⟩ := h.settled segment hsegment
    · cases hmem
    · exact .inl hmem
    · exact .inr (.inl hnone)
    · exact .inr (.inr ⟨decoded, part, htaken _ _ _ hsettled⟩)

/-- An article that is accepted fits where nothing was booked. -/
theorem Assembling.accept (h : Assembling posted row disk assembly) {next : Assembly}
    (harticle : posted.article id = some decoded)
    (htakes : assembly.Takes decoded posted.totalBytes posted.singleSegment next part) :
    posted.Placed id decoded part ∧ (∀ r ∈ assembly.written.ranges, ¬ Meets r part) ∧
      Separate next.written.ranges ∧
      ∀ r, r ∈ next.written.ranges ↔ r ∈ assembly.written.ranges ∨ r = part := by
  obtain ⟨⟨hpos, hnonempty, hlength, hinside⟩, hinsert⟩ := Covered.claim_ok htakes.claim
  have hholds : Covered.Holds assembly.written assembly.written.ranges :=
    ⟨h.separate, fun _ => .rfl⟩
  obtain ⟨hapart, hnext⟩ := hholds.insert_ok hnonempty hinsert
  refine ⟨⟨harticle, htakes.part_eq, hpos, hnonempty, hlength, hinside _ rfl,
    Nat.lt_of_le_of_lt htakes.size_le posted.declaredSizeLimit_lt⟩, hapart, hnext.separate,
    fun r => ?_⟩
  rw [hnext.mem_iff, List.mem_append, List.mem_singleton]

theorem Fetching.grow (h : Fetching posted row disk remaining assembly pending) {next : Assembly}
    (harticle : posted.article segment.id = some decoded)
    (htakes : assembly.Takes decoded posted.totalBytes posted.singleSegment next part) :
    Grows disk assembly.written.ranges assembly.declaredSize
      (disk.write (part.1 - 1) decoded.data) next.written.ranges next.declaredSize ∧
    Taken posted (disk.write (part.1 - 1) decoded.data) next.written.ranges next.declaredSize
      segment.id decoded part := by
  obtain ⟨hplaced, hapart, -, hmem⟩ := h.accept harticle htakes
  refine ⟨⟨?_, fun r hr => (hmem r).mpr (.inl hr), fun size hsize => ?_⟩, hplaced,
    (hmem part).mpr (.inr rfl), PartFile.holds_write hplaced.pos hplaced.nonempty hplaced.length,
    htakes.declaredSize⟩
  · exact keeps_write hapart hplaced.pos hplaced.nonempty (Nat.le_of_eq hplaced.length)
  · rw [htakes.declaredSize, htakes.agrees size hsize]

theorem Fetching.accept (h : Fetching posted row disk remaining assembly pending) {next : Assembly}
    (hsegment : segment ∈ remaining) (harticle : posted.article segment.id = some decoded)
    (htakes : assembly.Takes decoded posted.totalBytes posted.singleSegment next part) :
    Fetching posted row (disk.write (part.1 - 1) decoded.data) (remaining.erase segment) next
      (pending.push decoded.metadata ⟨segment.id, part, decoded.crc32⟩) := by
  obtain ⟨hgrows, htaken⟩ := h.grow harticle htakes
  obtain ⟨-, -, hseparate, hmem⟩ := h.toAssembling.accept harticle htakes
  have hlisted := h.listed segment hsegment
  refine ⟨⟨h.honest, h.booked.mono hgrows, hseparate,
    h.accounted.push hgrows (fun r hr => (hmem r).mp hr) hlisted htaken,
    fun _ => List.ne_nil_of_mem ((hmem part).mpr (.inr rfl))⟩, fun waiting hwaiting => ?_,
    fun other hother => ?_, fun other hother => h.listed other (List.mem_of_mem_erase hother)⟩
  · obtain hwaiting | hwaiting := List.mem_append.mp hwaiting
    · obtain ⟨hin, before, htaken', hsum, -⟩ := h.waiting waiting hwaiting
      have hsame := htakes.agrees _ htaken'.2.2.2
      exact ⟨hin, before, htaken'.mono hgrows, hsum, hsame.symm⟩
    · obtain rfl := List.mem_singleton.mp hwaiting
      exact ⟨⟨segment, hlisted, rfl⟩, decoded, htaken, rfl, rfl⟩
  · obtain hother | hsettled := h.settled other hother
    · by_cases hsame : other = segment
      · exact .inr (.inr ⟨decoded, part, hsame ▸ htaken⟩)
      · exact .inl ((List.mem_erase_of_ne hsame).mpr hother)
    · exact .inr (hsettled.mono hgrows)

/-- A segment that no server has. -/
theorem Fetching.miss (h : Fetching posted row disk remaining assembly pending)
    (harticle : posted.article segment.id = none) :
    Fetching posted (row.setSegmentState segment.id .failed) disk (remaining.erase segment)
      { assembly with missing := assembly.missing + 1 } pending := by
  have hfailed : Assembling posted (row.setSegmentState segment.id .failed) disk assembly :=
    h.toAssembling.setSegmentState nofun
  refine ⟨⟨hfailed.honest, hfailed.booked, h.separate, h.accounted, h.announced⟩, h.waiting,
    fun other hother => ?_, fun other hother => h.listed other (List.mem_of_mem_erase hother)⟩
  obtain hother | hsettled := h.settled other hother
  · by_cases hsame : other = segment
    · exact .inr (.inl (hsame ▸ harticle))
    · exact .inl ((List.mem_erase_of_ne hsame).mpr hother)
  · exact .inr hsettled

theorem Fetching.flush (h : Fetching posted row disk remaining assembly pending)
    (hflush : pending.flush row = some row') :
    Fetching posted row' disk remaining assembly { pending with segments := [] } := by
  obtain ⟨honest, hbooked⟩ := h.honest.flush h.booked h.waiting hflush
  exact ⟨⟨honest, hbooked, h.separate, h.accounted, h.announced⟩, nofun, h.settled, h.listed⟩

theorem isHole_of_gap {size : Nat} (hnonempty : ∀ part ∈ ranges, part.1 ≤ part.2) {hole : Range}
    (hgap : IsGap 1 ranges size hole) : IsHole ranges size hole := by
  refine ⟨hgap.low_le, hgap.nonempty, hgap.le_size, fun part hpart hmeets => ?_⟩
  have hpart' := hnonempty part hpart
  have hhole := hgap.nonempty
  rw [Meets] at hmeets
  exact hgap.free (max part.1 hole.1) (by omega) (by omega) ⟨part, hpart, by omega, by omega⟩

/-- The file takes its announced length, and its holes are what no article covers. -/
theorem Fetching.finish {size : Nat} (h : Fetching posted row disk [] assembly pending)
    (hfinish : assembly.finish posted.totalBytes = .ok (size, holes)) :
    Filling posted row (disk.setLen size) assembly holes := by
  rw [Assembly.finish] at hfinish
  cases hdeclared : assembly.declaredSize with
  | none =>
    rw [hdeclared] at hfinish
    dsimp only at hfinish
    split at hfinish <;> cases hfinish
  | some expected =>
    rw [hdeclared] at hfinish
    dsimp only at hfinish
    rw [checkDeclaredSize] at hfinish
    split at hfinish
    · dsimp only [bind, Except.bind] at hfinish
      split at hfinish
      · cases hfinish
      · next hmissing =>
        cases hfinish
        have hplaced : ∀ part ∈ assembly.written.ranges,
            1 ≤ part.1 ∧ part.1 ≤ part.2 ∧ part.2 ≤ size ∧ part.2 < u64Max := by
          intro part hpart
          obtain ⟨_, _, decoded, hplaced, -, -, hsize⟩ := h.accounted part hpart
          obtain rfl := Option.some.inj (hdeclared.symm.trans hsize)
          exact ⟨hplaced.pos, hplaced.nonempty, hplaced.inside,
            Nat.lt_of_le_of_lt hplaced.inside hplaced.size_lt⟩
        have hholes : assembly.written.holes size = gapsFrom 1 assembly.written.ranges size :=
          Covered.holesFrom_eq fun r hr => (hplaced r hr).2.2.2
        have hkeeps : Keeps assembly.written.ranges disk (disk.setLen size) :=
          fun part hpart data hpos hnonempty hholds =>
            hholds.setLen hpos hnonempty (hplaced part hpart).2.2.1
        refine ⟨h.toAssembling.keeps hkeeps, fun segment hsegment => ?_, hdeclared,
          fun hole hhole => ?_, fun place hpos hle => ?_, fun hnone place hpos hle => ?_⟩
        · obtain hmem | hsettled := h.settled segment hsegment
          · cases hmem
          · exact hsettled.mono hkeeps.grows
        · refine isHole_of_gap (fun r hr => (hplaced r hr).2.1) ?_
          rw [hholes] at hhole
          exact (mem_gapsFrom h.separate (fun r hr => (hplaced r hr).1)
            fun r hr => (hplaced r hr).2.2.1).mp hhole
        · rw [hholes]
          exact (covers_or_gap hpos hle).imp_right .inl
        · have hcovered : Covers assembly.written.ranges place ∨
              Covers (gapsFrom 1 assembly.written.ranges size) place := covers_or_gap hpos hle
          obtain hcovers | ⟨gap, hgap, -⟩ := hcovered
          · exact hcovers
          · rw [← hholes] at hgap
            exact absurd ⟨hnone, List.ne_nil_of_mem hgap⟩ hmissing
    · cases hfinish

theorem length_zeros (count : Nat) : (FileAssembly.zeros count).length = count :=
  List.length_replicate

/-- A hole that is filled, as far as it is. -/
theorem Filling.keeps {hole : Range} {count : Nat}
    (h : Filling posted row disk assembly (hole :: holes)) (hcount : count ≤ hole.2 - hole.1 + 1) :
    Keeps assembly.written.ranges disk
      (disk.write (hole.1 - 1) (FileAssembly.zeros count)) := by
  obtain ⟨hpos, hnonempty, -, hapart⟩ := h.apart hole List.mem_cons_self
  exact keeps_write hapart hpos hnonempty ((length_zeros count).symm ▸ hcount)

theorem Filling.fill {hole : Range} (h : Filling posted row disk assembly (hole :: holes)) :
    Filling posted row (disk.write (hole.1 - 1) (FileAssembly.zeros (hole.2 - hole.1 + 1)))
      assembly holes := by
  obtain ⟨hpos, hnonempty, hinside, -⟩ := h.apart hole List.mem_cons_self
  have hkeeps := h.keeps (Nat.le_refl (hole.2 - hole.1 + 1))
  have hlength : (disk.write (hole.1 - 1)
      (FileAssembly.zeros (hole.2 - hole.1 + 1))).length = disk.length :=
    PartFile.length_write_of_le (by rw [length_zeros]; omega)
  refine ⟨h.toAssembling.keeps hkeeps, fun segment hsegment => ?_, ?_, fun other hother => ?_,
    fun place hge hle => ?_, fun hnone place hge hle => ?_⟩
  · exact (h.settled segment hsegment).mono hkeeps.grows
  · rw [hlength]
    exact h.size
  · rw [hlength]
    exact h.apart other (List.mem_cons_of_mem _ hother)
  · rw [hlength] at hle
    by_cases hin : hole.1 ≤ place ∧ place ≤ hole.2
    · exact .inr (.inr (PartFile.byte_write_zeros hpos hin.1 (by omega)))
    · refine (h.filled place hge hle).imp_right fun hrest => hrest.imp (fun hcovers => ?_) fun hzero => ?_
      · exact (covers_cons.mp hcovers).resolve_left hin
      · rw [← hzero]
        exact PartFile.byte_write (by omega) (by rw [length_zeros]; omega)
  · rw [hlength] at hle
    exact h.whole hnone place hge hle

/-- A file without a hole left to fill is what its articles say. -/
theorem Filling.assembled (h : Filling posted row disk assembly []) :
    posted.Assembled disk assembly.missing := by
  have hdelivered : ∀ decoded part, posted.Delivered decoded part →
      ∃ segment, Taken posted disk assembly.written.ranges assembly.declaredSize segment decoded
        part := by
    rintro decoded part ⟨segment, hsegment, harticle, hpart⟩
    obtain hnone | ⟨decoded', part', htaken⟩ := h.settled segment hsegment
    · cases hnone.symm.trans harticle
    · obtain rfl := Option.some.inj (harticle.symm.trans htaken.1.article)
      obtain rfl := Except.ok.inj (hpart.symm.trans htaken.1.part_eq)
      exact ⟨segment.id, htaken⟩
  have hcovered : ∀ place, Covers assembly.written.ranges place →
      ∃ decoded part, posted.Delivered decoded part ∧ part.1 ≤ place ∧ place ≤ part.2 := by
    rintro place ⟨part, hpart, hin⟩
    obtain ⟨segment, hsegment, decoded, hplaced, -⟩ := h.accounted part hpart
    exact ⟨decoded, part, hplaced.delivered hsegment, hin⟩
  refine ⟨?_, fun decoded part hdecoded => ?_, fun decoded part hdecoded => ?_,
    fun place hpos hle hfree => ?_, fun hnone place hpos hle => ?_⟩
  · have hdeclared : assembly.declaredSize ≠ none := by
      rw [h.size]
      nofun
    obtain ⟨part, hpart⟩ := List.exists_mem_of_ne_nil _ (h.announced hdeclared)
    obtain ⟨segment, hsegment, decoded, hplaced, -⟩ := h.accounted part hpart
    exact ⟨decoded, part, hplaced.delivered hsegment⟩
  · obtain ⟨segment, -, -, -, hsize⟩ := hdelivered decoded part hdecoded
    exact Option.some.inj (h.size.symm.trans hsize)
  · obtain ⟨segment, hplaced, -, hholds, -⟩ := hdelivered decoded part hdecoded
    exact ⟨hholds.inside, hplaced.length, hholds.byte⟩
  · obtain hcovers | ⟨_, hnil, -⟩ | hzero := h.filled place hpos hle
    · obtain ⟨decoded, part, hdecoded, hin⟩ := hcovered place hcovers
      exact absurd hin (hfree decoded part hdecoded)
    · cases hnil
    · exact hzero
  · exact hcovered place (h.whole hnone place hpos hle)

/-- What holds of a file on its way, whatever has happened to it. -/
def Inv (posted : PostedFile crc32) (state : FileAssembly) : Prop :=
  match state.phase with
  | .idle => Idle posted state.row state.disk
  | .preparing unread proven remaining =>
    Preparing posted state.row state.disk unread proven remaining
  | .fetching remaining assembly pending =>
    Fetching posted state.row state.disk remaining assembly pending
  | .filling assembly holes => Filling posted state.row state.disk assembly holes
  | .completed _ missing => posted.Assembled state.disk missing

/-- What lies on the disk after a crash differs from an article only where the checksum shows it. -/
def Detected (posted : PostedFile crc32) (_ : FileAssembly) : AssemblyEvent → Prop
  | .crash disk => posted.Detects disk
  | _ => True

variable {nfc : Text → Text} {alphanumeric : Char → Bool} {phase : AssemblyPhase} {confirmed : Bool}
  {count : Nat}

theorem inv_examine (h : Preparing posted row disk (segment :: unread) proven remaining) :
    Inv posted (examine crc32 ⟨row, disk, phase⟩ segment unread proven remaining) := by
  unfold examine
  dsimp only
  split
  · next range hrange =>
    split at hrange
    · next hcomplete => exact h.prove hcomplete.2 hrange
    · cases hrange
  · dsimp only [Inv]
    split
    · next hcompleted =>
      exact h.queue (h.toIdle.setSegmentState nofun) rfl fun id => completed_of_set nofun
    · next hcompleted =>
      refine h.queue h.toIdle rfl fun id hid => ⟨?_, hid⟩
      rintro rfl
      exact hcompleted hid

theorem inv_gather (h : Preparing posted row disk [] proven remaining) :
    Inv posted (gather ⟨row, disk, phase⟩ proven remaining) := by
  unfold gather
  split
  · exact h.toIdle
  · next written hwritten => exact h.gather hwritten

theorem inv_answer (h : Fetching posted row disk remaining assembly pending)
    (hsegment : segment ∈ remaining) :
    Inv posted (answer posted ⟨row, disk, phase⟩ segment remaining assembly pending confirmed) := by
  unfold answer
  split
  · next harticle =>
    split
    · exact idle_leaveFailed h.honest h.booked h.waiting
    · exact h.miss harticle
  · next decoded harticle =>
    split
    · exact idle_leaveFailed h.honest h.booked h.waiting
    · next next part hwrite =>
      exact h.accept hsegment harticle (Assembly.takes_of_write hwrite)

theorem inv_writeFails {next : FileAssembly}
    (h : Fetching posted row disk remaining assembly pending)
    (hstep : writeFails posted ⟨row, disk, phase⟩ segment count assembly pending confirmed =
      some next) : Inv posted next := by
  unfold writeFails at hstep
  split at hstep
  · cases hstep
  · next decoded harticle =>
    split at hstep
    · cases hstep
    · next part hwrite =>
      cases hstep
      obtain ⟨hplaced, hapart, -⟩ :=
        h.toAssembling.accept harticle (Assembly.takes_of_write hwrite)
      have hkeeps : Keeps assembly.written.ranges disk
          (disk.write (part.1 - 1) (decoded.data.take count)) := by
        refine keeps_write hapart hplaced.pos hplaced.nonempty ?_
        rw [← hplaced.length]
        exact List.length_take_le' _ _
      exact idle_leaveFailed h.honest (h.booked.mono hkeeps.grows) (h.waiting.mono hkeeps.grows)

theorem inv_finish (h : Fetching posted row disk [] assembly pending) :
    Inv posted (finish posted ⟨row, disk, phase⟩ assembly) := by
  unfold finish
  split
  · exact h.toAssembling.idle
  · next size holes hfinish => exact h.finish hfinish

theorem inv_commit (h : Filling posted row disk assembly []) :
    Inv posted (commit posted nfc alphanumeric ⟨row, disk, phase⟩ assembly) := by
  unfold commit
  split
  · exact h.toAssembling.idle
  · exact h.assembled

/-- One case for each step of an attempt. -/
theorem inv_step {state next : FileAssembly} {event : AssemblyEvent} (h : Inv posted state)
    (hdetected : Detected posted state event)
    (hstep : step posted nfc alphanumeric state event = some next) : Inv posted next := by
  obtain ⟨row, disk, phase⟩ := state
  unfold step at hstep
  split at hstep
  case h_1 hphase =>
    cases hphase
    cases hstep
    exact .start h
  case h_2 hphase =>
    cases hphase
    cases hstep
    exact inv_examine h
  case h_3 hphase =>
    cases hphase
    cases hstep
    exact inv_gather h
  case h_4 hphase =>
    cases hphase
    split at hstep
    · next hin =>
      cases hstep
      exact inv_answer h hin.1
    · cases hstep
  case h_5 hphase =>
    cases hphase
    split at hstep
    · exact inv_writeFails h hstep
    · cases hstep
  case h_6 hphase =>
    cases hphase
    split at hstep
    · cases hstep
      exact idle_leaveFailed h.honest h.booked h.waiting
    · cases hstep
  case h_7 hphase =>
    cases hphase
    split at hstep
    · cases hstep
      exact h.toAssembling.idle
    · next row' hflush =>
      cases hstep
      exact h.flush hflush
  case h_8 hphase =>
    cases hphase
    split at hstep
    · cases hstep
      exact inv_finish h
    · cases hstep
  case h_9 hphase =>
    cases hphase
    cases hstep
    exact idle_leave h.honest h.booked h.waiting
  case h_10 hphase =>
    cases hphase
    cases hstep
    exact h.fill
  case h_11 hphase =>
    cases hphase
    cases hstep
    exact (h.toAssembling.keeps (h.keeps (Nat.min_le_right _ _))).idle
  case h_12 hphase =>
    cases hphase
    cases hstep
    exact inv_commit h
  case h_13 hphase =>
    cases hphase
    cases hstep
    exact h.toIdle
  case h_14 hphase =>
    cases hphase
    cases hstep
    exact h.toAssembling.idle
  case h_15 hphase =>
    cases hphase
    cases hstep
    exact h.toAssembling.idle
  case h_16 hphase =>
    cases hphase
    cases hstep
    exact h.toIdle.crash hdetected
  case h_17 hphase =>
    cases hphase
    cases hstep
    exact h.toAssembling.idle.crash hdetected
  case h_18 hphase =>
    cases hphase
    cases hstep
    exact h.toAssembling.idle.crash hdetected
  case h_19 hphase =>
    cases hphase
    cases hstep
    exact h.crash hdetected
  case h_20 => cases hstep

theorem inv_of_unstarted {state : FileAssembly} (h : Unstarted state) : Inv posted state := by
  rw [Inv, h.phase]
  exact ⟨fun id hid => absurd hid (h.segments id), fun id _ _ hid => absurd hid (h.segments id)⟩

/-- Whatever a file has been through, it is what its articles say once it lies under its name. -/
theorem assembled_of_completed {state : FileAssembly} {finalName : Text} {missing : Nat}
    (h : (machine posted nfc alphanumeric).Reaches (Detected posted) state)
    (hphase : state.phase = .completed finalName missing) :
    posted.Assembled state.disk missing := by
  have hinv : Inv posted state := h.invariant (Inv posted) (fun _ => inv_of_unstarted)
    fun _ _ _ hinv hdetected hstep => inv_step hinv hdetected hstep
  rwa [Inv, hphase] at hinv

end

/-- The checksum of an article, bit by bit. -/
def bitwiseCrc32 (data : Bytes) : UInt32 :=
  ~~~ data.foldl (fun sum byte => (List.range 8).foldl
    (fun sum _ => if sum &&& 1 = 1 then sum >>> 1 ^^^ 0xedb88320 else sum >>> 1)
    (sum ^^^ byte.toUInt32)) 0xffffffff

def shortPart (name : String) (part : Range) (data : Bytes) : DecodedArticle where
  metadata := {
    name := name.toList
    declaredSize := 3
    partBegin := some part.1
    partEnd := some part.2
    expectedCrc32 := none }
  data
  crc32 := bitwiseCrc32 data

/-- A file of three bytes in two articles. -/
def twoParts (first second : String) : PostedFile bitwiseCrc32 where
  subject := "\"holiday.mkv\" yEnc (1/2)".toList
  totalBytes := 3
  segments := [⟨0, 1⟩, ⟨1, 2⟩]
  article
    | 0 => some (shortPart first (1, 2) [97, 98])
    | 1 => some (shortPart second (3, 3) [99])
    | _ => none
  totalBytes_le := by decide
  ids_nodup := by decide
  checked id decoded h := by
    rcases id with _ | _ | id <;> cases h <;> rfl

/-- Two articles that name the file differently. -/
def obfuscated : PostedFile bitwiseCrc32 := twoParts "k3j2.bin" "p9q1.bin"

/-- An empty file is not taken for an article of three bytes. -/
theorem obfuscated_detects : obfuscated.Detects {} := by
  intro id decoded part hplaced hsum
  rcases id with _ | _ | id
  · cases (hplaced.article : some _ = some decoded)
    cases (hplaced.part_eq : Except.ok _ = Except.ok part)
    exact absurd hsum (by decide +kernel)
  · cases (hplaced.article : some _ = some decoded)
    cases (hplaced.part_eq : Except.ok _ = Except.ok part)
    exact absurd hsum (by decide +kernel)
  · cases hplaced.article

def fresh : FileAssembly := ⟨{}, {}, .idle⟩

theorem fresh_unstarted : Unstarted fresh := ⟨rfl, rfl, nofun⟩

/-- One article is confirmed, its bytes are lost, and both are fetched by the next attempt. -/
def lostAndFetched : List AssemblyEvent :=
  [.resume, .examine, .examine, .gather, .answer ⟨0, 1⟩ true, .flush, .crash {}, .resume, .examine,
    .examine, .gather, .answer ⟨1, 2⟩ true, .answer ⟨0, 1⟩ true, .flush, .finish, .commit]

theorem obfuscated_assembled : ∃ state : FileAssembly,
    (machine obfuscated id Char.isAlphanum).Reaches (Detected obfuscated) state ∧
      state.phase = .completed "holiday.mkv".toList 0 ∧ obfuscated.Assembled state.disk 0 := by
  obtain ⟨state, hrun⟩ : ∃ state,
      (machine obfuscated id Char.isAlphanum).run fresh lostAndFetched = some state :=
    Option.isSome_iff_exists.mp (by decide +kernel)
  have hreaches : (machine obfuscated id Char.isAlphanum).Reaches (Detected obfuscated) state := by
    refine .within (.initial fresh_unstarted) (.of_forall ?_ fresh) hrun
    simp [lostAndFetched, Detected, obfuscated_detects]
  have hphase : state.phase = .completed "holiday.mkv".toList 0 := by
    have hlast : ((machine obfuscated id Char.isAlphanum).run fresh lostAndFetched).map phase =
        some (.completed "holiday.mkv".toList 0) := by decide +kernel
    rw [hrun] at hlast
    exact Option.some.inj hlast
  exact ⟨state, hreaches, hphase, assembled_of_completed hreaches hphase⟩

end FileAssembly
end RDownloader
