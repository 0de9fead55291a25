import RDownloader.Backup.Header

/-!
# An archive opens to what was sealed, and to nothing else

What the writer has made is cut into full chunks that others follow, and what it still holds is no
longer than a chunk (`Seals`). So what it finishes is a sealed stream whose last chunk is the only
one that nothing follows, which is what the reader takes for the last.
-/

namespace RDownloader

namespace Backup

open SealedStream

/-- The archives sealed under one key: the nonce prefix, the writes, and whether it is finished. -/
structure Archive where
  noncePrefix : List.Vector UInt8 noncePrefixLen
  writes : List (List UInt8)
  isFinished : Bool

namespace Archive

def header (salt : List.Vector UInt8 saltLen) (archive : Archive) : Header :=
  .fresh salt archive.noncePrefix

/-- The writer after the writes, and after it is finished if it is. -/
def sealing (cipher : ChunkCipher) (salt : List.Vector UInt8 saltLen) (archive : Archive) :
    SealingWriter × Except String Unit :=
  match (SealingWriter.new (archive.header salt)).writes cipher archive.writes with
  | (writer, .ok ()) => if archive.isFinished then writer.finish cipher else (writer, .ok ())
  | (writer, .error error) => (writer, .error error)

/-- The archive was finished, and what was written of it. -/
def Streams (cipher : ChunkCipher) (salt : List.Vector UInt8 saltLen) (archive : Archive)
    (bytes : List UInt8) : Prop :=
  archive.isFinished = true ∧ (archive.sealing cipher salt).2 = .ok () ∧
    (archive.sealing cipher salt).1.inner = bytes

end Archive

variable {cipher : ChunkCipher} {header : Header} {text data : List UInt8}
  {chunks : List (List UInt8)} {writer next : SealingWriter}

/-- The encryptions of chunks of an archive that others follow. -/
abbrev Header.unfinished (header : Header) (chunks : List (List UInt8)) : List ChunkEncryption :=
  SealedStream.unfinished (nonce header.noncePrefix) header.encode chunks

abbrev Header.finished (header : Header) (chunks : List (List UInt8)) (last : List UInt8) :
    List ChunkEncryption :=
  SealedStream.finished (nonce header.noncePrefix) header.encode chunks last

/-- The bytes of an archive with these encryptions. -/
def Header.stream (cipher : ChunkCipher) (header : Header) (made : List ChunkEncryption) : List UInt8 :=
  header.encode ++ made.flatMap (·.sealed cipher)

/-- The bytes of a stream with one encryption more. -/
theorem Header.stream_concat (header : Header) (encryptions : List ChunkEncryption)
    (encryption : ChunkEncryption) : header.stream cipher (encryptions ++ [encryption]) =
      header.stream cipher encryptions ++ encryption.sealed cipher := by
  rw [Header.stream, Header.stream, List.flatMap_append, List.flatMap_singleton, List.append_assoc]

/-- A writer has sealed full chunks of the text, and holds the rest. -/
structure Seals (cipher : ChunkCipher) (header : Header) (text : List UInt8)
    (chunks : List (List UInt8)) (writer : SealingWriter) : Prop where
  header_eq : writer.header = header
  text_eq : chunks.flatten ++ writer.buffer = text
  full : ∀ chunk ∈ chunks, chunk.length = chunkLen
  counter_eq : writer.counter = chunks.length
  counter_le : chunks.length ≤ u32Max
  made_eq : writer.made = header.unfinished chunks
  inner_eq : writer.inner = header.stream cipher writer.made

namespace Seals

theorem new : Seals cipher header [] [] (.new header) where
  header_eq := rfl
  text_eq := rfl
  full := List.forall_mem_nil _
  counter_eq := rfl
  counter_le := Nat.zero_le _
  made_eq := rfl
  inner_eq := (List.append_nil _).symm

theorem append (h : Seals cipher header text chunks writer) (data : List UInt8) :
    Seals cipher header (text ++ data) chunks { writer with buffer := writer.buffer ++ data } :=
  { h with text_eq := by rw [← List.append_assoc, h.text_eq] }

/-- The encryption and the bytes a chunk adds, whether or not the counter goes on. -/
theorem sealChunk_made (h : Seals cipher header text chunks writer) (length : Nat) (last : Bool) :
    (writer.sealChunk cipher length last).1.made = header.unfinished chunks ++
        [⟨nonce header.noncePrefix chunks.length last, header.encode, writer.buffer.take length⟩] ∧
      (writer.sealChunk cipher length last).1.inner =
        header.stream cipher (writer.sealChunk cipher length last).1.made ∧
      ((writer.sealChunk cipher length last).2 = .ok () ↔ chunks.length + 1 ≤ u32Max) := by
  unfold SealingWriter.sealChunk
  rw [h.header_eq, h.counter_eq, h.made_eq, h.inner_eq, h.made_eq]
  by_cases hcount : chunks.length + 1 ≤ u32Max
  · rw [if_pos hcount]
    exact ⟨rfl, (Header.stream_concat ..).symm, iff_of_true rfl hcount⟩
  · rw [if_neg hcount]
    exact ⟨rfl, (Header.stream_concat ..).symm, iff_of_false (fun h => nomatch h) hcount⟩

theorem sealChunk (h : Seals cipher header text chunks writer)
    (hfull : chunkLen ≤ writer.buffer.length)
    (hok : (writer.sealChunk cipher chunkLen false).2 = .ok ()) :
    Seals cipher header text (chunks ++ [writer.buffer.take chunkLen])
      (writer.sealChunk cipher chunkLen false).1 := by
  obtain ⟨hmade, hinner, hcount⟩ := h.sealChunk_made chunkLen false
  have hlength : (chunks ++ [writer.buffer.take chunkLen]).length = chunks.length + 1 :=
    List.length_append
  refine ⟨?_, ?_, ?_, ?_, hlength ▸ hcount.mp hok, ?_, hinner⟩
  · unfold SealingWriter.sealChunk
    dsimp only
    split <;> exact h.header_eq
  · rw [SealingWriter.buffer_sealChunk, List.flatten_append, List.flatten_singleton,
      List.append_assoc, List.take_append_drop, h.text_eq]
  · refine List.forall_mem_append.mpr ⟨h.full, List.forall_mem_singleton.mpr ?_⟩
    rw [List.length_take, Nat.min_eq_left hfull]
  · rw [hlength, ← h.counter_eq]
    unfold SealingWriter.sealChunk
    rw [h.counter_eq, if_pos (hcount.mp hok), ← h.counter_eq]
  · exact hmade.trans unfinished_concat.symm

end Seals

/-- What writes lead to: the text in full chunks and a rest, or a stream without a last chunk. -/
def Written (cipher : ChunkCipher) (header : Header) (text : List UInt8)
    (result : SealingWriter × Except String Unit) : Prop :=
  match result.2 with
  | .ok () => ∃ chunks, Seals cipher header text chunks result.1 ∧ result.1.buffer.length ≤ chunkLen
  | .error _ => ∃ chunks, chunks.length ≤ 2 ^ 32 ∧ result.1.made = header.unfinished chunks

theorem written_sealFull (h : Seals cipher header text chunks writer) :
    Written cipher header text (writer.sealFull cipher) := by
  induction writer using SealingWriter.sealFull.induct cipher generalizing chunks with
  | case1 writer hfull hok ih =>
    rw [SealingWriter.sealFull, if_pos hfull]
    simp only [hok]
    exact ih (h.sealChunk (Nat.le_of_lt hfull) hok)
  | case2 writer hfull error herror =>
    obtain ⟨hmade, -, -⟩ := h.sealChunk_made chunkLen false
    rw [SealingWriter.sealFull, if_pos hfull]
    simp only [herror]
    refine ⟨chunks ++ [writer.buffer.take chunkLen], ?_, ?_⟩
    · rw [List.length_append, List.length_singleton]
      exact Nat.succ_le_succ h.counter_le
    · exact hmade.trans unfinished_concat.symm
  | case3 writer hfits =>
    rw [SealingWriter.sealFull, if_neg hfits]
    exact ⟨chunks, h, Nat.le_of_not_lt hfits⟩

theorem written_writes (h : Seals cipher header text chunks writer)
    (hfits : writer.buffer.length ≤ chunkLen) (writes : List (List UInt8)) :
    Written cipher header (text ++ writes.flatten) (writer.writes cipher writes) := by
  induction writes generalizing writer chunks text with
  | nil =>
    rw [List.flatten_nil, List.append_nil]
    exact ⟨chunks, h, hfits⟩
  | cons data rest ih =>
    have hwritten := written_sealFull (h.append data)
    rw [SealingWriter.writes]
    change Written _ _ _ (writer.write cipher data) at hwritten
    generalize writer.write cipher data = result at hwritten ⊢
    obtain ⟨next, outcome⟩ := result
    cases outcome with
    | ok =>
      obtain ⟨chunks', hseals, hfits'⟩ := hwritten
      rw [List.flatten_cons, ← List.append_assoc]
      exact ih hseals hfits'
    | error => exact hwritten

namespace Archive

variable {salt : List.Vector UInt8 saltLen} {archive : Archive}

/-- What was encrypted for an archive: a finished stream of its text, or one without a last chunk. -/
inductive Made (cipher : ChunkCipher) (salt : List.Vector UInt8 saltLen) (archive : Archive) : Prop
  | finished (chunks : List (List UInt8)) (last : List UInt8)
      (htext : chunks.flatten ++ last = archive.writes.flatten)
      (hfull : ∀ chunk ∈ chunks, chunk.length = chunkLen) (hlast : last.length ≤ chunkLen)
      (hlength : chunks.length ≤ u32Max)
      (hmade : (archive.sealing cipher salt).1.made = (archive.header salt).finished chunks last)
      (hstreams : ∀ bytes, archive.Streams cipher salt bytes ↔ chunks.length + 1 ≤ u32Max ∧
        (archive.header salt).stream cipher ((archive.header salt).finished chunks last) = bytes)
  | unfinished (chunks : List (List UInt8)) (hlength : chunks.length ≤ 2 ^ 32)
      (hmade : (archive.sealing cipher salt).1.made = (archive.header salt).unfinished chunks)
      (hstreams : ∀ bytes, ¬archive.Streams cipher salt bytes)

theorem made (cipher : ChunkCipher) (salt : List.Vector UInt8 saltLen) (archive : Archive) :
    archive.Made cipher salt := by
  have hwritten := written_writes (@Seals.new cipher (archive.header salt)) (Nat.zero_le _)
    archive.writes
  rw [List.nil_append] at hwritten
  obtain ⟨⟨writer, outcome⟩, hresult⟩ : ∃ result,
      (SealingWriter.new (archive.header salt)).writes cipher archive.writes = result := ⟨_, rfl⟩
  rw [hresult] at hwritten
  cases outcome with
  | error message =>
    obtain ⟨chunks, hlength, hmade⟩ := hwritten
    have hsealing : archive.sealing cipher salt = (writer, .error message) := by
      rw [sealing, hresult]
    refine .unfinished chunks hlength (hsealing ▸ hmade) fun bytes hstreams => ?_
    have herror := hstreams.2.1
    rw [hsealing] at herror
    cases herror
  | ok =>
    obtain ⟨chunks, hseals, hfits⟩ := hwritten
    dsimp only at hseals hfits
    have hsealing : archive.sealing cipher salt =
        if archive.isFinished then writer.finish cipher else (writer, .ok ()) := by
      rw [sealing, hresult]
    cases hfinished : archive.isFinished with
    | false =>
      rw [hfinished, if_neg Bool.false_ne_true] at hsealing
      exact .unfinished chunks (Nat.le_succ_of_le hseals.counter_le)
        (hsealing ▸ hseals.made_eq) fun bytes hstreams =>
          Bool.false_ne_true (hfinished.symm.trans hstreams.1)
    | true =>
      rw [hfinished, if_pos rfl] at hsealing
      obtain ⟨hmade, hinner, hcount⟩ := hseals.sealChunk_made writer.buffer.length true
      rw [List.take_length] at hmade
      refine .finished chunks writer.buffer hseals.text_eq hseals.full hfits hseals.counter_le
        (hsealing ▸ hmade) fun bytes => ?_
      have hbytes := hinner.trans (congrArg (Header.stream cipher (archive.header salt)) hmade)
      rw [Streams, hsealing]
      exact ⟨fun h => ⟨hcount.mp h.2.1, hbytes.symm.trans h.2.2⟩,
        fun h => ⟨hfinished, hcount.mpr h.1, hbytes.trans h.2⟩⟩

/-- Everything encrypted for an archive is bound to its header. -/
theorem associated_eq {encryption : ChunkEncryption}
    (hmem : encryption ∈ (archive.sealing cipher salt).1.made) :
    encryption.associated = (archive.header salt).encode := by
  have hunfinished {chunks : List (List UInt8)}
      (hmem : encryption ∈ (archive.header salt).unfinished chunks) :
      encryption.associated = (archive.header salt).encode := by
    obtain ⟨_, _, rfl⟩ := mem_unfinished.mp hmem
    rfl
  cases archive.made cipher salt with
  | finished chunks last _ _ _ _ hmade =>
    rw [hmade] at hmem
    rcases List.mem_append.mp hmem with hmem | hmem
    · exact hunfinished hmem
    · rw [List.mem_singleton.mp hmem]
  | unfinished chunks _ hmade => exact hunfinished (hmade ▸ hmem)

end Archive

end Backup

end RDownloader
