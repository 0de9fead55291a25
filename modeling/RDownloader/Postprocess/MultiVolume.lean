import RDownloader.Core.Words
import RDownloader.Lib.Offsets

/-!
# Volumes read as one stream (`rd-postprocess/src/multipart.rs`)

`MultiVolumeReader` keeps where each volume starts, the file it read from last, and a position that
a seek may put anywhere. What it answers is compared with a cursor over the volumes put together.
-/

namespace RDownloader

/-- A file that is open. -/
structure OpenFile where
  bytes : List UInt8
  position : Nat
  deriving DecidableEq, Repr

namespace OpenFile

def seekStart (file : OpenFile) (position : Nat) : OpenFile := { file with position }

/-- A read of at most `wanted` bytes, of which the system hands out `granted`: one at least, where
there is one. -/
def read (file : OpenFile) (wanted granted : Nat) : List UInt8 × OpenFile :=
  let bytes := (file.bytes.drop file.position).take (min wanted (max 1 granted))
  (bytes, { file with position := file.position + bytes.length })

end OpenFile

/-- `SeekFrom`. -/
inductive SeekFrom
  | start (offset : UInt64)
  | fromEnd (offset : Int64)
  | current (offset : Int64)
  deriving DecidableEq

/-- Where a seek leads, before it is put back into a `u64`. -/
def SeekFrom.place (total position : Nat) : SeekFrom → Int
  | start offset => offset.toNat
  | fromEnd offset => total + offset.toInt
  | current offset => position + offset.toInt

/-- Why volumes cannot be read as one stream. -/
inductive OpenVolumesError (Path : Type)
  /-- `stat archive volume`. -/
  | stat (path : Path)
  /-- `archive volume size overflow`. -/
  | sizeOverflow
  deriving DecidableEq

inductive StreamError
  | other
  | notFound
  /-- `seek before start of archive set`. -/
  | invalidInput
  deriving DecidableEq, Repr

/-- Ordered volume files as one contiguous, seekable stream. -/
structure MultiVolumeReader (Path : Type) where
  volumes : List (Path × Nat)
  offsets : List Nat
  total : Nat
  position : Nat
  opened : Option (Nat × OpenFile)

namespace MultiVolumeReader

variable {Path : Type} (disk : Path → Option (List UInt8))

/-- The loop of `open`, with the total so far. -/
def sized : Nat → List Path → Except (OpenVolumesError Path) (List (Path × Nat) × List Nat × Nat)
  | total, [] => .ok ([], [], total)
  | total, path :: paths =>
    match disk path with
    | none => .error (.stat path)
    | some bytes =>
      if total + bytes.length ≤ u64Max then
        (sized (total + bytes.length) paths).map fun (volumes, offsets, sum) =>
          ((path, bytes.length) :: volumes, total :: offsets, sum)
      else .error .sizeOverflow

/-- `MultiVolumeReader::open`. -/
def openVolumes (paths : List Path) : Except (OpenVolumesError Path) (MultiVolumeReader Path) :=
  (sized disk 0 paths).map fun (volumes, offsets, total) =>
    { volumes, offsets, total, position := 0, opened := none }

variable (reader : MultiVolumeReader Path)

/-- The volume a position is in. -/
def locate (position : Nat) : Option Nat :=
  if reader.total ≤ position then none
  else
    let index := (reader.offsets.takeWhile (· ≤ position)).length
    if index = 0 then none else some (index - 1)

/-- The file of a volume, opened unless it is the one that is open. -/
def volumeFile (index : Nat) : Except StreamError OpenFile :=
  let fresh : Except StreamError OpenFile :=
    match reader.volumes[index]?.bind fun volume => disk volume.1 with
    | some bytes => .ok ⟨bytes, 0⟩
    | none => .error .notFound
  match reader.opened with
  | some (last, file) => if last = index then .ok file else fresh
  | none => fresh

/-- `Read::read` into a buffer of `size` bytes. -/
def read (size granted : Nat) : Except StreamError (List UInt8 × MultiVolumeReader Path) :=
  match reader.locate reader.position with
  | none => .ok ([], reader)
  | some index =>
    (reader.volumeFile disk index).bind fun file =>
      match reader.volumes[index]?, reader.offsets[index]? with
      | some (_, length), some offset =>
        let place := reader.position - offset
        let remaining := length - place
        let (bytes, file) := (file.seekStart place).read (min remaining size) granted
        .ok (bytes, { reader with
          position := reader.position + bytes.length
          opened := some (index, file) })
      | _, _ => .error .other

/-- `Seek::seek`. -/
def seek (target : SeekFrom) : Except StreamError (Nat × MultiVolumeReader Path) :=
  let next := target.place reader.total reader.position
  if next < 0 then .error .invalidInput
  else
    let position := if next ≤ u64Max then next.toNat else u64Max
    .ok (position, { reader with position })

end MultiVolumeReader

/-! ## Runs -/

/-- What a stream is asked for. A read says what the system hands out. -/
inductive StreamAccess
  | read (size granted : Nat)
  | seek (target : SeekFrom)
  deriving DecidableEq

inductive StreamAnswer
  | bytes (bytes : List UInt8)
  | position (position : Nat)
  | error (error : StreamError)
  deriving DecidableEq, Repr

namespace MultiVolumeReader

variable {Path : Type} (disk : Path → Option (List UInt8))

/-- What one access is answered, and the reader behind it. -/
def access (reader : MultiVolumeReader Path) : StreamAccess → StreamAnswer × MultiVolumeReader Path
  | .read size granted =>
    match reader.read disk size granted with
    | .ok (bytes, reader) => (.bytes bytes, reader)
    | .error error => (.error error, reader)
  | .seek target =>
    match reader.seek target with
    | .ok (position, reader) => (.position position, reader)
    | .error error => (.error error, reader)

def answers : MultiVolumeReader Path → List StreamAccess → List StreamAnswer
  | _, [] => []
  | reader, access :: accesses =>
    (reader.access disk access).1 :: answers (reader.access disk access).2 accesses

end MultiVolumeReader

/-! ## The cursor -/

namespace Cursor

/-- `Cursor::seek`, which refuses what is no `u64`. -/
def seek (target : SeekFrom) (total position : Nat) : Option Nat :=
  let next := target.place total position
  if 0 ≤ next ∧ next ≤ u64Max then some next.toNat else none

/-- A seek that stops at the last `u64`. -/
def clampedSeek (target : SeekFrom) (total position : Nat) : Option Nat :=
  let next := target.place total position
  if 0 ≤ next then some (min next.toNat u64Max) else none

/-- What a cursor at a position of some bytes may answer to a read: what follows, as much as was
asked for at most, and nothing only where nothing is left. -/
structure Reads (bytes : List UInt8) (position size : Nat) (found : List UInt8) : Prop where
  follows : found <+: bytes.drop position
  fits : found.length ≤ size
  ends : found = [] → size = 0 ∨ bytes.length ≤ position

/-- What a cursor that seeks by `seek` may answer from a position on. -/
inductive Answers (seek : SeekFrom → Nat → Nat → Option Nat) (bytes : List UInt8) :
    Nat → List StreamAccess → List StreamAnswer → Prop
  | nil {position} : Answers seek bytes position [] []
  | read {position size granted found accesses answers} (hfound : Reads bytes position size found)
      (hrest : Answers seek bytes (position + found.length) accesses answers) :
      Answers seek bytes position (.read size granted :: accesses) (.bytes found :: answers)
  | seek {position target next accesses answers}
      (hnext : seek target bytes.length position = some next)
      (hrest : Answers seek bytes next accesses answers) :
      Answers seek bytes position (.seek target :: accesses) (.position next :: answers)
  | refused {position target accesses answers} (hnext : seek target bytes.length position = none)
      (hrest : Answers seek bytes position accesses answers) :
      Answers seek bytes position (.seek target :: accesses)
        (.error .invalidInput :: answers)

end Cursor

/-! ## The reader as a cursor -/

namespace MultiVolumeReader

open Concatenation

variable {Path : Type} {disk : Path → Option (List UInt8)} {reader next : MultiVolumeReader Path}
  {paths : List Path} {pieces : List (List UInt8)} {found : List UInt8}
  {index position size granted : Nat}

/-- The volumes are the files on the disk, and the file that is open is one of them. -/
structure Presents (disk : Path → Option (List UInt8)) (reader : MultiVolumeReader Path)
    (pieces : List (List UInt8)) : Prop where
  volumes : reader.volumes.map (fun volume => (disk volume.1, volume.2)) =
    pieces.map fun piece => (some piece, piece.length)
  offsets : reader.offsets = starts 0 pieces
  total : reader.total = pieces.flatten.length
  opened : ∀ index file, reader.opened = some (index, file) →
    pieces[index]? = some file.bytes

theorem sized_eq {total sum : Nat} {volumes : List (Path × Nat)} {offsets : List Nat}
    (hsized : sized disk total paths = .ok (volumes, offsets, sum)) :
    ∃ pieces, paths.map disk = pieces.map some ∧
      volumes.map (fun volume => (disk volume.1, volume.2)) =
        pieces.map (fun piece => (some piece, piece.length)) ∧
      offsets = starts total pieces ∧ sum = total + pieces.flatten.length := by
  induction paths generalizing total volumes offsets sum with
  | nil =>
    cases hsized
    exact ⟨[], rfl, rfl, rfl, rfl⟩
  | cons path paths ih =>
    rw [sized] at hsized
    cases hpath : disk path with
    | none =>
      rw [hpath] at hsized
      cases hsized
    | some bytes =>
      rw [hpath] at hsized
      dsimp only at hsized
      split at hsized
      · cases hrest : sized disk (total + bytes.length) paths with
        | error error =>
          rw [hrest] at hsized
          cases hsized
        | ok rest =>
          obtain ⟨volumes, offsets, sum⟩ := rest
          rw [hrest] at hsized
          cases hsized
          obtain ⟨pieces, hpaths, hvolumes, rfl, rfl⟩ := ih hrest
          refine ⟨bytes :: pieces, ?_, ?_, rfl, ?_⟩
          · rw [List.map_cons, hpath, hpaths, List.map_cons]
          · rw [List.map_cons, hpath, hvolumes, List.map_cons]
          · rw [List.flatten_cons, List.length_append, Nat.add_assoc]
      · cases hsized

/-- A reader that was opened presents the volumes from the start. -/
theorem presents_of_open (h : openVolumes disk paths = .ok reader) :
    ∃ pieces, paths.map disk = pieces.map some ∧ reader.Presents disk pieces ∧
      reader.position = 0 := by
  rw [openVolumes] at h
  cases hsized : sized disk 0 paths with
  | error error =>
    rw [hsized] at h
    cases h
  | ok result =>
    obtain ⟨volumes, offsets, total⟩ := result
    rw [hsized] at h
    cases h
    obtain ⟨pieces, hpaths, hvolumes, rfl, rfl⟩ := sized_eq hsized
    exact ⟨pieces, hpaths, ⟨hvolumes, rfl, Nat.zero_add _, fun _ _ h => nomatch h⟩, rfl⟩

theorem Presents.moved (h : reader.Presents disk pieces) (position : Nat) :
    ({ reader with position } : MultiVolumeReader Path).Presents disk pieces :=
  ⟨h.volumes, h.offsets, h.total, h.opened⟩

/-- The file a volume is read from holds the volume, wherever it was opened. -/
theorem Presents.volumeFile (h : reader.Presents disk pieces) (hpiece : pieces[index]? = some piece) :
    ∃ file, reader.volumeFile disk index = .ok file ∧ file.bytes = piece ∧
      ∃ path, reader.volumes[index]? = some (path, piece.length) := by
  have hvolume := congrArg (·[index]?) h.volumes
  simp only [List.getElem?_map, hpiece, Option.map_some] at hvolume
  obtain ⟨⟨path, length⟩, hget, heq⟩ := Option.map_eq_some_iff.mp hvolume
  simp only [Prod.mk.injEq] at heq
  obtain ⟨hdisk, rfl⟩ := heq
  have hfresh : reader.volumes[index]?.bind (fun volume => disk volume.1) = some piece := by
    rw [hget]
    exact hdisk
  rw [MultiVolumeReader.volumeFile, hfresh]
  cases hopened : reader.opened with
  | none => exact ⟨⟨piece, 0⟩, rfl, rfl, path, hget⟩
  | some last =>
    obtain ⟨last, file⟩ := last
    dsimp only
    split
    next hlast =>
      have hbytes := h.opened last file hopened
      rw [hlast, hpiece] at hbytes
      exact ⟨file, rfl, (Option.some.inj hbytes).symm, path, hget⟩
    · exact ⟨⟨piece, 0⟩, rfl, rfl, path, hget⟩

/-- At or past the end there is nothing to read. -/
theorem Presents.read_end (h : reader.Presents disk pieces)
    (hend : pieces.flatten.length ≤ reader.position) :
    reader.read disk size granted = .ok ([], reader) := by
  rw [read, locate, h.total, if_pos hend]

theorem Presents.locate (h : reader.Presents disk pieces)
    (hposition : reader.position < pieces.flatten.length) :
    ∃ front piece back, pieces = front ++ piece :: back ∧
      reader.locate reader.position = some front.length ∧
      front.flatten.length ≤ reader.position ∧
      reader.position < front.flatten.length + piece.length := by
  obtain ⟨front, piece, back, hpieces, hlength, hstart, hend⟩ :=
    exists_piece (Nat.zero_le reader.position) (by rwa [Nat.zero_add])
  rw [Nat.zero_add] at hstart hend
  refine ⟨front, piece, back, hpieces, ?_, hstart, hend⟩
  rw [MultiVolumeReader.locate, h.total, h.offsets, hlength, if_neg (by omega),
    if_neg (Nat.succ_ne_zero _), Nat.add_sub_cancel]

/-- A read is one of the cursor, and moves as far as it read. -/
theorem Presents.read (h : reader.Presents disk pieces) (size granted : Nat) :
    ∃ found next, reader.read disk size granted = .ok (found, next) ∧
      Cursor.Reads pieces.flatten reader.position size found ∧
      next.Presents disk pieces ∧ next.position = reader.position + found.length := by
  rcases Nat.lt_or_ge reader.position pieces.flatten.length with hposition | hend
  · obtain ⟨front, piece, back, hpieces, hlocate, hstart, hend⟩ := h.locate hposition
    have hpiece : pieces[front.length]? = some piece := by
      rw [hpieces, List.getElem?_append_right (Nat.le_refl _), Nat.sub_self]
      rfl
    have hoffset : reader.offsets[front.length]? = some front.flatten.length := by
      rw [h.offsets, hpieces, getElem?_starts, Nat.zero_add]
    obtain ⟨file, hfile, hbytes, path, hvolume⟩ := h.volumeFile hpiece
    rw [MultiVolumeReader.read, hlocate]
    dsimp only
    rw [hfile, Except.bind, hvolume, hoffset]
    dsimp only
    have hfound : ((file.seekStart (reader.position - front.flatten.length)).read
        (min (piece.length - (reader.position - front.flatten.length)) size) granted).1 =
        (pieces.flatten.drop reader.position).take
          (min (min (piece.length - (reader.position - front.flatten.length)) size)
            (max 1 granted)) := by
      obtain ⟨place, hplace⟩ := Nat.exists_eq_add_of_le hstart
      rw [OpenFile.read, OpenFile.seekStart, hbytes, hpieces, hplace, Nat.add_sub_cancel_left,
        take_drop front piece back (by omega)]
    have hlength := congrArg List.length hfound
    rw [List.length_take, List.length_drop] at hlength
    refine ⟨_, _, rfl, ⟨?_, ?_, ?_⟩, ⟨h.volumes, h.offsets, h.total, ?_⟩, rfl⟩
    · rw [hfound]
      exact List.take_prefix ..
    · omega
    · intro hnone
      rw [hnone, List.length_nil] at hlength
      omega
    · rintro index opened hopened
      cases hopened
      rw [hpiece, ← hbytes]
      rfl
  · refine ⟨[], reader, h.read_end hend, ⟨List.nil_prefix, Nat.zero_le _, fun _ => .inr hend⟩, h, rfl⟩

/-- A seek is one of the cursor, but that it stops at the last `u64`. -/
theorem Presents.seek (h : reader.Presents disk pieces) (target : SeekFrom) :
    reader.seek target =
      match Cursor.clampedSeek target pieces.flatten.length reader.position with
      | some position => .ok (position, { reader with position })
      | none => .error .invalidInput := by
  rw [MultiVolumeReader.seek, Cursor.clampedSeek, ← h.total]
  dsimp only
  by_cases hnext : target.place reader.total reader.position < 0
  · rw [if_pos hnext, if_neg (by omega)]
  · have hstart : 0 ≤ target.place reader.total reader.position := by omega
    rw [if_neg hnext, if_pos hstart]
    by_cases hlast : target.place reader.total reader.position ≤ u64Max
    · rw [if_pos hlast, Nat.min_eq_left (by omega)]
    · rw [if_neg hlast, Nat.min_eq_right (by omega)]

theorem Presents.answers (h : reader.Presents disk pieces) (accesses : List StreamAccess) :
    Cursor.Answers Cursor.clampedSeek pieces.flatten reader.position accesses
      (reader.answers disk accesses) := by
  induction accesses generalizing reader with
  | nil => exact .nil
  | cons access accesses ih =>
    rw [MultiVolumeReader.answers]
    cases access with
    | read size granted =>
      obtain ⟨found, next, hread, hfound, hnext, hposition⟩ := h.read size granted
      rw [MultiVolumeReader.access, hread]
      exact .read hfound (hposition ▸ ih hnext)
    | seek target =>
      rw [MultiVolumeReader.access, h.seek]
      cases hseek : Cursor.clampedSeek target pieces.flatten.length reader.position with
      | some position => exact .seek hseek (ih (h.moved position))
      | none => exact .refused hseek (ih h)

end MultiVolumeReader

/-- Volumes are read as their concatenation: from any reader that was opened, every access is
answered as by a cursor over all their bytes that stops at the last `u64`. -/
theorem MultiVolumeReader.answers_as_cursor {Path : Type} {disk : Path → Option (List UInt8)}
    {paths : List Path} {reader : MultiVolumeReader Path}
    (h : MultiVolumeReader.openVolumes disk paths = .ok reader) (accesses : List StreamAccess) :
    Cursor.Answers Cursor.clampedSeek (paths.flatMap fun path => (disk path).getD []) 0 accesses
      (reader.answers disk accesses) := by
  obtain ⟨pieces, hpaths, hpresents, hposition⟩ := presents_of_open h
  have hbytes : (paths.flatMap fun path => (disk path).getD []) = pieces.flatten := by
    have hmap := congrArg (List.map (·.getD [])) hpaths
    rw [List.map_map, List.map_map] at hmap
    rw [List.flatMap_def]
    exact (congrArg List.flatten hmap).trans (congrArg List.flatten (List.map_id _))
  rw [hbytes, ← hposition]
  exact hpresents.answers accesses

/-- Three volumes, the second of them empty. -/
def threeVolumes (index : Nat) : Option (List UInt8) :=
  ([[1, 2], [], [3]] : List (List UInt8))[index]?

theorem MultiVolumeReader.answers_three_volumes :
    ∃ reader, MultiVolumeReader.openVolumes threeVolumes [0, 1, 2] = .ok reader ∧
      Cursor.Answers Cursor.clampedSeek [1, 2, 3] 0
        [.read 8 8, .read 8 8, .seek (.fromEnd (-2)), .read 1 1, .seek (.current (-9))]
        (reader.answers threeVolumes
          [.read 8 8, .read 8 8, .seek (.fromEnd (-2)), .read 1 1, .seek (.current (-9))]) := by
  refine ⟨⟨[(0, 2), (1, 0), (2, 1)], [0, 2, 2], 3, 0, none⟩, rfl, ?_⟩
  exact @MultiVolumeReader.answers_as_cursor Nat threeVolumes [0, 1, 2] _ rfl _

/-- A seek from the last `u64` on stays there, where a cursor refuses it. -/
theorem MultiVolumeReader.seek_past_last :
    ∃ reader, MultiVolumeReader.openVolumes (fun _ : Nat => some []) [] = .ok reader ∧
      ¬ Cursor.Answers Cursor.seek [] 0
        [.seek (.start 0xFFFFFFFFFFFFFFFF), .seek (.current 1)]
        (reader.answers (fun _ : Nat => some [])
          [.seek (.start 0xFFFFFFFFFFFFFFFF), .seek (.current 1)]) := by
  refine ⟨_, rfl, fun h => ?_⟩
  have hanswers : MultiVolumeReader.answers (fun _ : Nat => some [])
      { volumes := [], offsets := [], total := 0, position := 0, opened := none }
      [.seek (.start 0xFFFFFFFFFFFFFFFF), .seek (.current 1)] =
        [.position u64Max, .position u64Max] := by
    decide +kernel
  rw [hanswers] at h
  cases h with
  | seek hnext hrest =>
    cases hrest with
    | seek hnext' _ =>
      have hrefused : Cursor.seek (.current 1) 0 u64Max = none := by decide +kernel
      cases hrefused.symm.trans hnext'

end RDownloader
