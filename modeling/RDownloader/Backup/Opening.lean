import RDownloader.Backup.Archive

/-!
# Reading an archive

The reader of a finished stream opens its chunks in turn, and takes the one that nothing follows for
the last (`Opens`). What a reader has opened of any bytes are encryptions that were made, under the
nonces of the stream they are read as (`Opened`).
-/

namespace RDownloader

namespace Backup

open SealedStream

variable {cipher : ChunkCipher} {made : ChunkEncryption → Prop} {header : Header}
  {chunks : List (List UInt8)} {last text out bytes : List UInt8} {reader next : OpeningReader}

/-- The text of the finished stream that a reader has not handed out. -/
def Opens (cipher : ChunkCipher) (header : Header) (chunks : List (List UInt8)) (last : List UInt8)
    (reader : OpeningReader) (text : List UInt8) : Prop :=
  reader.header = header ∧ reader.position ≤ reader.plain.length ∧
    if reader.finished then text = reader.plain.drop reader.position
    else reader.counter ≤ chunks.length ∧
      reader.inner = ((header.finished chunks last).drop reader.counter).flatMap (·.sealed cipher) ∧
      text = reader.plain.drop reader.position ++ ((chunks.drop reader.counter).flatten ++ last)

/-- A stream as the writer finishes it, under a cipher that opens it. -/
structure Readable (cipher : ChunkCipher) (header : Header) (chunks : List (List UInt8))
    (last : List UInt8) : Prop where
  length_encrypt : ∀ nonce associated plain,
    (cipher.encrypt nonce associated plain).length = plain.length + tagLen
  decrypt : ∀ encryption ∈ header.finished chunks last, cipher.decrypt encryption.nonce
    encryption.associated (encryption.sealed cipher) = some encryption.plain
  full : ∀ chunk ∈ chunks, chunk.length = header.chunkLen
  last_le : last.length ≤ header.chunkLen
  length_le : chunks.length + 1 ≤ u32Max

/-- A read into a buffer that is not empty handed out nothing. -/
def ReadToEnd (lengths : List Nat) (pieces : List (List UInt8)) : Prop :=
  ∃ read ∈ lengths.zip pieces, 0 < read.1 ∧ read.2 = []

namespace Opens

theorem drop_finished {i : Nat} (hi : i < chunks.length) :
    (header.finished chunks last).drop i =
      ⟨nonce header.noncePrefix i false, header.encode, chunks[i]⟩ ::
        (header.finished chunks last).drop (i + 1) := by
  have hlength : i < (header.finished chunks last).length := by
    simp [Header.finished, finished, unfinished]
    omega
  rw [List.drop_eq_getElem_cons hlength]
  congr 1
  simp only [Header.finished, finished, unfinished]
  rw [List.getElem_append_left (by simpa using hi), List.getElem_mapIdx]

theorem drop_finished_length : (header.finished chunks last).drop chunks.length =
    [⟨nonce header.noncePrefix chunks.length true, header.encode, last⟩] := by
  have hlength : (header.unfinished chunks).length = chunks.length := List.length_mapIdx
  rw [Header.finished, finished, ← hlength]
  exact List.drop_left

/-- What decrypts under the nonce the reader takes, it opens. -/
theorem openNext_eq {plain sealed inner : List UInt8} {flag : Bool} (hflag : inner.isEmpty = flag)
    (hinner : reader.inner = sealed ++ inner)
    (hsealed : sealed.length = reader.header.chunkLen + tagLen ∨
      inner = [] ∧ sealed.length ≤ reader.header.chunkLen + tagLen) (htag : tagLen ≤ sealed.length)
    (hplain : cipher.decrypt (nonce reader.header.noncePrefix reader.counter flag)
      reader.header.encode sealed = some plain) (hcounter : reader.counter + 1 ≤ u32Max) :
    reader.openNext cipher = .ok { reader with
      inner, plain, position := 0, finished := flag, counter := reader.counter + 1 } := by
  subst hflag
  have htake : reader.inner.take (reader.header.chunkLen + tagLen) = sealed ∧
      reader.inner.drop (reader.header.chunkLen + tagLen) = inner := by
    rw [hinner]
    rcases hsealed with hlength | ⟨rfl, hle⟩
    · exact ⟨List.take_left' hlength, List.drop_left' hlength⟩
    · rw [List.append_nil]
      exact ⟨List.take_of_length_le hle, List.drop_of_length_le hle⟩
  rw [OpeningReader.openNext, htake.1, htake.2, if_neg (Nat.not_lt_of_le htag), hplain]
  exact if_pos hcounter

theorem length_sealed (hreadable : Readable cipher header chunks last)
    (encryption : ChunkEncryption) :
    (encryption.sealed cipher).length = encryption.plain.length + tagLen :=
  hreadable.length_encrypt ..

/-- A chunk of a finished stream that is not the last is followed by something. -/
theorem isEmpty_drop_finished (hreadable : Readable cipher header chunks last) {i : Nat}
    (hi : i < chunks.length) :
    (((header.finished chunks last).drop (i + 1)).flatMap (·.sealed cipher)).isEmpty = false := by
  have hlength : i + 1 ≤ (header.unfinished chunks).length := by
    rwa [Header.unfinished, unfinished, List.length_mapIdx]
  rw [List.isEmpty_eq_false_iff, Header.finished, finished, List.drop_append_of_le_length hlength,
    List.flatMap_append, List.flatMap_singleton]
  intro hnil
  have hsealed := congrArg List.length (List.append_eq_nil_iff.mp hnil).2
  rw [length_sealed hreadable] at hsealed
  exact absurd hsealed (Nat.ne_of_gt (Nat.add_pos_right _ (by decide)))

/-- The next chunk of a finished stream opens. -/
theorem openNext (hreadable : Readable cipher header chunks last)
    (h : Opens cipher header chunks last reader text) (hempty : reader.position = reader.plain.length)
    (hmore : reader.finished = false) :
    ∃ next, reader.openNext cipher = .ok next ∧ Opens cipher header chunks last next text := by
  obtain ⟨rfl, -, hrest⟩ := h
  rw [hmore, if_neg Bool.false_ne_true, hempty, List.drop_length, List.nil_append] at hrest
  obtain ⟨hcounter, hinner, htext⟩ := hrest
  have hfew : reader.counter + 1 ≤ u32Max := Nat.le_trans (Nat.succ_le_succ hcounter) hreadable.length_le
  rcases Nat.lt_or_eq_of_le hcounter with hlt | heq
  · let encryption : ChunkEncryption := ⟨nonce reader.header.noncePrefix reader.counter false,
      reader.header.encode, chunks[reader.counter]⟩
    have hmem : encryption ∈ reader.header.finished chunks last :=
      List.mem_append_left _ (mem_unfinished.mpr ⟨_, hlt, rfl⟩)
    have hlength := length_sealed hreadable encryption
    rw [hreadable.full _ (List.getElem_mem hlt)] at hlength
    rw [drop_finished hlt, List.flatMap_cons] at hinner
    refine ⟨_, openNext_eq (isEmpty_drop_finished hreadable hlt) hinner (.inl hlength)
      (hlength ▸ Nat.le_add_left ..) (hreadable.decrypt _ hmem) hfew, rfl, Nat.zero_le _, hlt, rfl, ?_⟩
    rw [htext, List.drop_eq_getElem_cons hlt, List.flatten_cons, List.append_assoc]
    rfl
  · let encryption : ChunkEncryption := ⟨nonce reader.header.noncePrefix reader.counter true,
      reader.header.encode, last⟩
    have hmem : encryption ∈ reader.header.finished chunks last :=
      List.mem_append_right _ (List.mem_singleton.mpr (heq ▸ rfl))
    have hlength := length_sealed hreadable encryption
    rw [heq, drop_finished_length, List.flatMap_singleton, ← heq] at hinner
    refine ⟨_, openNext_eq rfl (hinner.trans (List.append_nil _).symm)
      (.inr ⟨rfl, hlength ▸ Nat.add_le_add_right hreadable.last_le _⟩)
      (hlength ▸ Nat.le_add_left ..) (hreadable.decrypt _ hmem) hfew, rfl, Nat.zero_le _, ?_⟩
    rw [htext, heq, List.drop_length]
    rfl

theorem fill (hreadable : Readable cipher header chunks last)
    (h : Opens cipher header chunks last reader text) :
    ∃ next, reader.fill cipher = .ok next ∧ Opens cipher header chunks last next text ∧
      (next.position = next.plain.length → text = []) := by
  induction reader using OpeningReader.fill.induct cipher with
  | case1 reader hempty next hnext ih =>
    obtain ⟨next', hnext', hopens⟩ := h.openNext hreadable hempty.1 hempty.2
    obtain rfl := Except.ok.inj (hnext.symm.trans hnext')
    obtain ⟨filled, hfill, hfilled⟩ := ih hopens
    refine ⟨filled, ?_, hfilled⟩
    rw [OpeningReader.fill, if_pos hempty]
    split
    case h_1 next' hnext' => exact Except.ok.inj (hnext'.symm.trans hnext) ▸ hfill
    case h_2 error herror => cases herror.symm.trans hnext
  | case2 reader hempty error herror =>
    obtain ⟨next', hnext', -⟩ := h.openNext hreadable hempty.1 hempty.2
    cases herror.symm.trans hnext'
  | case3 reader hfilled =>
    refine ⟨reader, by rw [OpeningReader.fill, if_neg hfilled], h, fun hposition => ?_⟩
    obtain ⟨-, -, hrest⟩ := h
    have hfinished : reader.finished = true := by
      by_contra hmore
      exact hfilled ⟨hposition, Bool.eq_false_of_not_eq_true hmore⟩
    rw [hfinished, if_pos rfl, hposition, List.drop_length] at hrest
    exact hrest

theorem read (hreadable : Readable cipher header chunks last)
    (h : Opens cipher header chunks last reader text) (length : Nat) :
    ∃ next piece rest, reader.read cipher length = .ok (next, piece) ∧ text = piece ++ rest ∧
      Opens cipher header chunks last next rest ∧ (0 < length → piece = [] → text = []) := by
  obtain ⟨filled, hfill, ⟨hheader, hposition, hrest⟩, hend⟩ := h.fill hreadable
  let count := min length (filled.plain.length - filled.position)
  have hcount : count ≤ (filled.plain.drop filled.position).length :=
    List.length_drop ▸ Nat.min_le_right ..
  have hread : reader.read cipher length = .ok ({ filled with position := filled.position + count },
      (filled.plain.drop filled.position).take count) := by
    rw [OpeningReader.read, hfill]
    rfl
  have hnext : filled.position + count ≤ filled.plain.length := by omega
  refine ⟨_, _, text.drop count, hread, ?_, ⟨hheader, hnext, ?_⟩, fun hlength hpiece => hend ?_⟩
  · have htake : text.take count = (filled.plain.drop filled.position).take count := by
      split at hrest
      · rw [hrest]
      · rw [hrest.2.2, List.take_append_of_le_length hcount]
    rw [← htake, List.take_append_drop]
  · dsimp only
    split at hrest
    case isTrue hfinished => rw [if_pos hfinished, hrest, List.drop_drop]
    case isFalse hmore =>
      rw [if_neg hmore]
      refine ⟨hrest.1, hrest.2.1, ?_⟩
      rw [hrest.2.2, List.drop_append_of_le_length hcount, List.drop_drop]
  · have hzero := congrArg List.length hpiece
    rw [List.length_take, List.length_nil, Nat.min_eq_left hcount] at hzero
    omega

/-- What reads hand out is the text from its start on. -/
theorem reads (hreadable : Readable cipher header chunks last)
    (h : Opens cipher header chunks last reader text) (lengths : List Nat) :
    ∃ next pieces, reader.reads cipher lengths = .ok (next, pieces) ∧ pieces.flatten <+: text ∧
      (ReadToEnd lengths pieces → pieces.flatten = text) ∧
      (text.length < lengths.countP (0 < ·) → ReadToEnd lengths pieces) := by
  induction lengths generalizing reader text with
  | nil => exact ⟨reader, [], rfl, List.nil_prefix, fun hread => (nomatch hread), fun h => (nomatch h)⟩
  | cons length lengths ih =>
    obtain ⟨next, piece, rest, hread, rfl, hopens, hend⟩ := h.read hreadable length
    obtain ⟨after, pieces, hreads, hsofar, htoEnd, hmany⟩ := ih hopens
    have hmem {length' : Nat} {piece' : List UInt8} (h : (length', piece') ∈ lengths.zip pieces) :
        (length', piece') ∈ (length :: lengths).zip (piece :: pieces) := List.mem_cons_of_mem _ h
    have hhead : (length, piece) ∈ (length :: lengths).zip (piece :: pieces) := List.mem_cons_self ..
    refine ⟨after, piece :: pieces, ?_, ?_, ?_, ?_⟩
    · rw [OpeningReader.reads, hread]
      simp only [bind, Except.bind, hreads]
      rfl
    · exact (List.prefix_append_right_inj piece).mpr hsofar
    · rintro ⟨⟨length', piece'⟩, hread', hpos, hnil⟩
      rcases List.mem_cons.mp hread' with heq | htail
      · obtain ⟨rfl, rfl⟩ := Prod.mk.inj heq
        have hempty := hend hpos hnil
        exact (List.prefix_nil.mp (hempty ▸ (List.prefix_append_right_inj piece').mpr hsofar)).trans
          hempty.symm
      · exact congrArg (piece ++ ·) (htoEnd ⟨_, htail, hpos, hnil⟩)
    · intro hlong
      rw [List.length_append, List.countP_cons] at hlong
      by_cases hdone : 0 < length ∧ piece = []
      · exact ⟨_, hhead, hdone⟩
      · obtain ⟨⟨length', piece'⟩, hread', hnil⟩ := hmany (by
          by_cases hpos : 0 < length
          · have hpiece : 0 < piece.length := List.length_pos_iff.mpr fun hnil => hdone ⟨hpos, hnil⟩
            rw [if_pos (decide_eq_true hpos)] at hlong
            omega
          · rw [if_neg (by simpa using hpos)] at hlong
            omega)
        exact ⟨_, hmem hread', hnil⟩

/-- A reader of a finished stream that was just opened. -/
theorem new {salt : List.Vector UInt8 saltLen} (hsalt : header.salt = salt)
    (hpos : header.chunkLen.val ≠ 0) (hmax : header.chunkLen.val ≤ maxChunkLen) :
    ∃ reader, OpeningReader.new salt (header.stream cipher (header.finished chunks last)) = .ok reader ∧
      Opens cipher header chunks last reader (chunks.flatten ++ last) := by
  refine ⟨{ inner := (header.finished chunks last).flatMap (·.sealed cipher), header }, ?_, rfl,
    Nat.le_refl _, Nat.zero_le _, rfl, rfl⟩
  rw [OpeningReader.new, Header.stream, Header.read_encode header _ hpos hmax]
  simp only [bind, Except.bind]
  rw [if_neg (not_not.mpr hsalt)]
  rfl

end Opens

/-- What a reader has opened of the bytes, and handed out. -/
inductive Opened (made : ChunkEncryption → Prop) (cipher : ChunkCipher) (bytes out : List UInt8)
    (reader : OpeningReader) : Prop
  | more (opened : List (List UInt8)) (hposition : reader.position ≤ reader.plain.length)
      (hmore : reader.finished = false)
      (hcounter : reader.counter = opened.length) (hlength : opened.length ≤ u32Max)
      (hbytes : bytes = reader.header.stream cipher (reader.header.unfinished opened) ++ reader.inner)
      (hmade : ∀ encryption ∈ reader.header.unfinished opened, made encryption)
      (hout : out ++ reader.plain.drop reader.position = opened.flatten)
  | all (opened : List (List UInt8)) (last : List UInt8)
      (hposition : reader.position ≤ reader.plain.length) (hfinished : reader.finished = true)
      (hlength : opened.length + 1 ≤ u32Max)
      (hbytes : bytes = reader.header.stream cipher (reader.header.finished opened last))
      (hmade : ∀ encryption ∈ reader.header.finished opened last, made encryption)
      (hout : out ++ reader.plain.drop reader.position = opened.flatten ++ last)

namespace Opened

/-- What opens was encrypted as the chunk it is opened as. -/
theorem made_of_openNext (hideal : cipher.Ideal made) (hnext : reader.openNext cipher = .ok next) :
    ∃ plain inner, reader.counter + 1 ≤ u32Max ∧
      next = { reader with
        inner, plain, position := 0, finished := inner.isEmpty, counter := reader.counter + 1 } ∧
      made ⟨nonce reader.header.noncePrefix reader.counter inner.isEmpty, reader.header.encode, plain⟩ ∧
      reader.inner = cipher.encrypt (nonce reader.header.noncePrefix reader.counter inner.isEmpty)
        reader.header.encode plain ++ inner := by
  unfold OpeningReader.openNext at hnext
  dsimp only at hnext
  split at hnext
  · cases hnext
  · split at hnext
    · cases hnext
    case h_2 plain hplain =>
      split at hnext
      case isFalse => cases hnext
      case isTrue hcounter =>
        obtain ⟨hmade, hsealed⟩ := (hideal _ _ _ _).mp hplain
        refine ⟨plain, _, hcounter, (Except.ok.inj hnext).symm, hmade, ?_⟩
        rw [← hsealed, List.take_append_drop]

theorem openNext (hideal : cipher.Ideal made) (h : Opened made cipher bytes out reader)
    (hempty : reader.position = reader.plain.length) (hmore : reader.finished = false)
    (hnext : reader.openNext cipher = .ok next) : Opened made cipher bytes out next := by
  obtain ⟨plain, inner, hcounter', rfl, hplain, hinner⟩ := made_of_openNext hideal hnext
  cases h with
  | all opened last _ hfinished => cases hfinished.symm.trans hmore
  | more opened _ _ hcounter hlength hbytes hmade hout =>
    rw [hempty, List.drop_length, List.append_nil] at hout
    rw [hinner] at hbytes
    rw [hcounter] at hcounter' hplain hbytes
    cases inner with
    | cons byte inner =>
      have hchunks : reader.header.unfinished (opened ++ [plain]) = reader.header.unfinished opened ++
          [⟨nonce reader.header.noncePrefix opened.length false, reader.header.encode, plain⟩] :=
        unfinished_concat
      refine .more (opened ++ [plain]) (Nat.zero_le _) rfl ?_ ?_ ?_ ?_ ?_
      · rw [List.length_append, ← hcounter]
        rfl
      · rwa [List.length_append]
      · rw [hbytes, hchunks, Header.stream_concat, List.append_assoc]
        rfl
      · rw [hchunks]
        exact List.forall_mem_append.mpr ⟨hmade, List.forall_mem_singleton.mpr hplain⟩
      · rw [hout, List.flatten_append, List.flatten_singleton]
        rfl
    | nil =>
      rw [List.append_nil] at hbytes
      refine .all opened plain (Nat.zero_le _) rfl hcounter' ?_ ?_ ?_
      · rw [hbytes]
        exact (Header.stream_concat _ _ ⟨nonce reader.header.noncePrefix opened.length true,
          reader.header.encode, plain⟩).symm
      · exact List.forall_mem_append.mpr ⟨hmade, List.forall_mem_singleton.mpr hplain⟩
      · rw [hout]
        rfl

theorem fill (hideal : cipher.Ideal made) (h : Opened made cipher bytes out reader)
    (hfill : reader.fill cipher = .ok next) : Opened made cipher bytes out next ∧
      (next.position = next.plain.length → next.finished = true) := by
  induction reader using OpeningReader.fill.induct cipher with
  | case1 reader hempty opened hopened ih =>
    rw [OpeningReader.fill, if_pos hempty] at hfill
    split at hfill
    case h_1 opened' hopened' =>
      obtain rfl := Except.ok.inj (hopened.symm.trans hopened')
      exact ih (h.openNext hideal hempty.1 hempty.2 hopened) hfill
    case h_2 => cases hfill
  | case2 reader hempty error herror =>
    rw [OpeningReader.fill, if_pos hempty] at hfill
    split at hfill
    case h_1 opened hopened => cases herror.symm.trans hopened
    case h_2 => cases hfill
  | case3 reader hfilled =>
    rw [OpeningReader.fill, if_neg hfilled] at hfill
    obtain rfl := Except.ok.inj hfill
    refine ⟨h, fun hposition => ?_⟩
    by_contra hmore
    exact hfilled ⟨hposition, Bool.eq_false_of_not_eq_true hmore⟩

theorem position_le (h : Opened made cipher bytes out reader) :
    reader.position ≤ reader.plain.length := by
  cases h with
  | more _ hposition => exact hposition
  | all _ _ hposition => exact hposition

/-- The text that was handed out goes on with what is at hand. -/
theorem advance (h : Opened made cipher bytes out reader) {count : Nat}
    (hcount : reader.position + count ≤ reader.plain.length) :
    Opened made cipher bytes (out ++ (reader.plain.drop reader.position).take count)
      { reader with position := reader.position + count } := by
  have hsplit : out ++ (reader.plain.drop reader.position).take count ++
      reader.plain.drop (reader.position + count) = out ++ reader.plain.drop reader.position := by
    rw [List.append_assoc, ← List.drop_drop, List.take_append_drop]
  cases h with
  | more opened _ hmore hcounter hlength hbytes hmade hout =>
    exact .more opened hcount hmore hcounter hlength hbytes hmade (hsplit.trans hout)
  | all opened last _ hfinished hlength hbytes hmade hout =>
    exact .all opened last hcount hfinished hlength hbytes hmade (hsplit.trans hout)

/-- Everything was opened and handed out. -/
def AtEnd (reader : OpeningReader) : Prop :=
  reader.finished = true ∧ reader.position = reader.plain.length

theorem read (hideal : cipher.Ideal made) (h : Opened made cipher bytes out reader) {length : Nat}
    {piece : List UInt8} (hread : reader.read cipher length = .ok (next, piece)) :
    Opened made cipher bytes (out ++ piece) next ∧ (0 < length → piece = [] → AtEnd next) := by
  rw [OpeningReader.read] at hread
  cases hfill : reader.fill cipher with
  | error error =>
    rw [hfill] at hread
    cases hread
  | ok filled =>
    obtain ⟨hopened, hend⟩ := h.fill hideal hfill
    have hposition := hopened.position_le
    rw [hfill] at hread
    obtain ⟨rfl, rfl⟩ := Prod.mk.inj (Except.ok.inj hread)
    refine ⟨hopened.advance (by omega), fun hlength hpiece => ?_⟩
    have hzero := congrArg List.length hpiece
    rw [List.length_take, List.length_drop, List.length_nil] at hzero
    have hlast : filled.position = filled.plain.length := by omega
    exact ⟨hend hlast, by dsimp only; omega⟩

theorem read_atEnd (h : AtEnd reader) (length : Nat) :
    reader.read cipher length = .ok (reader, []) := by
  have hfill : reader.fill cipher = .ok reader := by
    rw [OpeningReader.fill, if_neg fun hempty => Bool.false_ne_true (hempty.2.symm.trans h.1)]
  rw [OpeningReader.read, hfill]
  simp only [bind, Except.bind]
  rw [h.2, Nat.sub_self, Nat.min_zero, List.take_zero, ← h.2]
  rfl

theorem reads (hideal : cipher.Ideal made) {lengths : List Nat} {pieces : List (List UInt8)}
    (h : Opened made cipher bytes out reader)
    (hreads : reader.reads cipher lengths = .ok (next, pieces)) :
    Opened made cipher bytes (out ++ pieces.flatten) next ∧
      (AtEnd reader ∨ ReadToEnd lengths pieces → AtEnd next) := by
  induction lengths generalizing reader out pieces with
  | nil =>
    obtain ⟨rfl, rfl⟩ := Prod.mk.inj (Except.ok.inj hreads)
    exact ⟨(List.append_nil out).symm ▸ h, fun hend => hend.resolve_right fun hread => (nomatch hread)⟩
  | cons length lengths ih =>
    rw [OpeningReader.reads] at hreads
    cases hread : reader.read cipher length with
    | error error =>
      rw [hread] at hreads
      cases hreads
    | ok result =>
      obtain ⟨middle, piece⟩ := result
      rw [hread] at hreads
      cases hrest : middle.reads cipher lengths with
      | error error =>
        simp only [bind, Except.bind, hrest] at hreads
        cases hreads
      | ok result =>
        obtain ⟨last, rest⟩ := result
        simp only [bind, Except.bind, hrest] at hreads
        obtain ⟨rfl, rfl⟩ := Prod.mk.inj (Except.ok.inj hreads)
        obtain ⟨hopened, hend⟩ := h.read hideal hread
        obtain ⟨hafter, hlast⟩ := ih hopened hrest
        refine ⟨by rwa [List.flatten_cons, ← List.append_assoc], fun hdone => hlast ?_⟩
        rcases hdone with hdone | ⟨⟨length', piece'⟩, hmem, hpos, hnil⟩
        · obtain ⟨rfl, -⟩ := Prod.mk.inj (Except.ok.inj ((read_atEnd hdone length).symm.trans hread))
          exact .inl hdone
        · rcases List.mem_cons.mp hmem with heq | htail
          · obtain ⟨rfl, rfl⟩ := Prod.mk.inj heq
            exact .inl (hend hpos hnil)
          · exact .inr ⟨_, htail, hpos, hnil⟩

/-- A reader that was just opened has opened nothing. -/
theorem new {salt : List.Vector UInt8 saltLen} (hnew : OpeningReader.new salt bytes = .ok reader) :
    Opened made cipher bytes [] reader := by
  rw [OpeningReader.new] at hnew
  cases hread : Header.read bytes with
  | error error =>
    rw [hread] at hnew
    cases hnew
  | ok result =>
    obtain ⟨header, inner⟩ := result
    rw [hread] at hnew
    simp only [bind, Except.bind] at hnew
    split at hnew
    · cases hnew
    · obtain rfl := Except.ok.inj hnew
      refine .more [] (Nat.le_refl _) rfl rfl (Nat.zero_le _) ?_ (List.forall_mem_nil _) rfl
      rw [Header.eq_encode hread]
      exact congrArg (· ++ inner) (List.append_nil _).symm

end Opened

section

variable {salt : List.Vector UInt8 saltLen} {archive : Archive} {archives : List Archive}

/-- What was encrypted under the key. -/
def MadeFor (cipher : ChunkCipher) (salt : List.Vector UInt8 saltLen) (archives : List Archive)
    (encryption : ChunkEncryption) : Prop :=
  ∃ archive ∈ archives, encryption ∈ (archive.sealing cipher salt).1.made

/-- Nonce prefixes that differ tell archives apart. -/
theorem eq_of_header (hprefixes : (archives.map (·.noncePrefix)).Nodup) {archive' : Archive}
    (hmem : archive ∈ archives) (hmem' : archive' ∈ archives)
    (hheader : archive'.header salt = archive.header salt) : archive' = archive :=
  List.inj_on_of_nodup_map hprefixes hmem' hmem (congrArg Header.noncePrefix hheader)

/-- Encryptions of a whole stream that were all made under the key are those of one archive. -/
theorem exists_archive (hprefixes : (archives.map (·.noncePrefix)).Nodup)
    {opened : List (List UInt8)} (hlength : opened.length + 1 ≤ u32Max)
    (hmade : ∀ encryption ∈ header.finished opened last, MadeFor cipher salt archives encryption) :
    ∃ archive ∈ archives, opened.flatten ++ last = archive.writes.flatten ∧
      archive.Streams cipher salt (header.stream cipher (header.finished opened last)) := by
  obtain ⟨archive, hmem, hlast⟩ :=
    hmade _ (List.mem_append_right _ (List.mem_singleton_self _))
  obtain rfl := Header.encode_injective (Archive.associated_eq hlast)
  have hdistinct := distinct_nonce (archive.header salt).noncePrefix
  have hopened : opened.length < 2 ^ 32 := Nat.lt_succ_of_lt hlength
  have hsubset : (archive.header salt).finished opened last ⊆ (archive.sealing cipher salt).1.made := by
    intro encryption hencryption
    obtain ⟨archive', hmem', hmade'⟩ := hmade encryption hencryption
    have hassociated : encryption.associated = (archive.header salt).encode := by
      rcases List.mem_append.mp hencryption with hencryption | hencryption
      · obtain ⟨_, _, rfl⟩ := mem_unfinished.mp hencryption
        rfl
      · rw [List.mem_singleton.mp hencryption]
    have hheader := Header.encode_injective ((Archive.associated_eq hmade').symm.trans hassociated)
    rwa [eq_of_header hprefixes hmem hmem' hheader] at hmade'
  cases archive.made cipher salt with
  | unfinished chunks hchunks hmade' =>
    rw [hmade'] at hlast
    exact absurd hlast (last_notMem_unfinished hdistinct hopened hchunks)
  | finished chunks ended htext _ _ hchunks hmade' hiff =>
    rw [hmade'] at hsubset
    obtain ⟨rfl, rfl⟩ := eq_of_subset hdistinct hopened (Nat.lt_succ_of_le hchunks) hsubset
    exact ⟨archive, hmem, htext, (hiff _).mpr ⟨hlength, rfl⟩⟩

/-- A finished stream opens to what was sealed, in reads of any lengths; and whatever can be read to
its end is one finished stream, and reads as what was written to that. -/
theorem opens_what_was_sealed
    (hlength : ∀ nonce associated plain,
      (cipher.encrypt nonce associated plain).length = plain.length + tagLen)
    (hideal : cipher.Ideal (MadeFor cipher salt archives))
    (hprefixes : (archives.map (·.noncePrefix)).Nodup) :
    (∀ archive ∈ archives, ∀ bytes, archive.Streams cipher salt bytes →
      ∃ reader, OpeningReader.new salt bytes = .ok reader ∧ ∀ lengths, ∃ next pieces,
        reader.reads cipher lengths = .ok (next, pieces) ∧
        pieces.flatten <+: archive.writes.flatten ∧
        (ReadToEnd lengths pieces → pieces.flatten = archive.writes.flatten) ∧
        (archive.writes.flatten.length < lengths.countP (0 < ·) → ReadToEnd lengths pieces)) ∧
    ∀ bytes reader lengths next pieces, OpeningReader.new salt bytes = .ok reader →
      reader.reads cipher lengths = .ok (next, pieces) → ReadToEnd lengths pieces →
      ∃ archive ∈ archives, archive.Streams cipher salt bytes ∧
        pieces.flatten = archive.writes.flatten := by
  constructor
  · intro archive hmem bytes hstreams
    cases archive.made cipher salt with
    | unfinished _ _ _ hnone => exact absurd hstreams (hnone bytes)
    | finished chunks last htext hfull hlast _ hmade hiff =>
      obtain ⟨hfew, rfl⟩ := (hiff bytes).mp hstreams
      have hreadable : Readable cipher (archive.header salt) chunks last := by
        refine ⟨hlength, fun encryption hencryption => ?_, hfull, hlast, hfew⟩
        exact (hideal _ _ _ _).mpr ⟨⟨archive, hmem, hmade ▸ hencryption⟩, rfl⟩
      obtain ⟨reader, hnew, hopens⟩ := @Opens.new cipher (archive.header salt) chunks last salt rfl
        (by decide : chunkLen ≠ 0) (by decide : chunkLen ≤ maxChunkLen)
      exact ⟨reader, hnew, fun lengths => htext ▸ hopens.reads hreadable lengths⟩
  · intro bytes reader lengths next pieces hnew hreads hend
    obtain ⟨hopened, hatEnd⟩ := (Opened.new hnew).reads hideal hreads
    obtain ⟨hfinished, hposition⟩ := hatEnd (.inr hend)
    cases hopened with
    | more _ _ hmore => cases hmore.symm.trans hfinished
    | all opened last _ _ hfew hbytes hmade hout =>
      rw [hposition, List.drop_length, List.append_nil, List.nil_append] at hout
      obtain ⟨archive, hmem, htext, hstreams⟩ := exists_archive hprefixes hfew hmade
      exact ⟨archive, hmem, hbytes ▸ hstreams, hout.trans htext⟩

end

/-- The text is what this encryption gives. -/
def gives (nonce : XNonce) (associated text : List UInt8) (encryption : ChunkEncryption) : Bool :=
  encryption.nonce = nonce ∧ encryption.associated = associated ∧
    text = encryption.plain ++ List.replicate tagLen 0

theorem gives_iff {nonce : XNonce} {associated text : List UInt8} {encryption : ChunkEncryption} :
    gives nonce associated text encryption = true ↔
      encryption.nonce = nonce ∧ encryption.associated = associated ∧
        text = encryption.plain ++ List.replicate tagLen 0 :=
  decide_eq_true_iff

/-- A cipher that opens these encryptions, and nothing else. -/
def opening (made : List ChunkEncryption) : ChunkCipher where
  encrypt _ _ plain := plain ++ List.replicate tagLen 0
  decrypt nonce associated text := (made.find? (gives nonce associated text)).map (·.plain)

theorem opening_ideal (made : List ChunkEncryption) : (opening made).Ideal (· ∈ made) := by
  intro nonce associated text plain
  constructor
  · intro h
    obtain ⟨⟨_, _, plain⟩, hfound, rfl⟩ := Option.map_eq_some_iff.mp h
    obtain ⟨rfl, rfl, rfl⟩ := gives_iff.mp (List.find?_some hfound)
    exact ⟨List.mem_of_find?_eq_some hfound, rfl⟩
  · rintro ⟨hmem, rfl⟩
    have hgives : gives nonce associated (plain ++ List.replicate tagLen 0)
        ⟨nonce, associated, plain⟩ = true := gives_iff.mpr ⟨rfl, rfl, rfl⟩
    obtain ⟨found, hfound⟩ :=
      Option.isSome_iff_exists.mp (List.find?_isSome.mpr ⟨_, hmem, hgives⟩)
    obtain ⟨-, -, htext⟩ := gives_iff.mp (List.find?_some hfound)
    exact Option.map_eq_some_iff.mpr ⟨found, hfound, (List.append_cancel_right htext).symm⟩

/-- An archive of four bytes, written in two pieces. -/
theorem opens_what_was_sealed_four :
    let salt : List.Vector UInt8 saltLen := .replicate saltLen 7
    let archive : Archive := ⟨.replicate noncePrefixLen 9, [[1, 2, 3], [4]], true⟩
    let cipher := opening ((archive.header salt).finished [] [1, 2, 3, 4])
    ∀ bytes, archive.Streams cipher salt bytes →
      ∃ reader, OpeningReader.new salt bytes = .ok reader ∧ ∀ lengths, ∃ next pieces,
        reader.reads cipher lengths = .ok (next, pieces) ∧
        (ReadToEnd lengths pieces → pieces.flatten = [1, 2, 3, 4]) := by
  intro salt archive cipher bytes hstreams
  have hmade : (archive.sealing cipher salt).1.made = (archive.header salt).finished [] [1, 2, 3, 4] := by
    have hfits : ∀ writer : SealingWriter, writer.buffer.length ≤ chunkLen →
        writer.sealFull cipher = (writer, .ok ()) := fun writer h => by
      rw [SealingWriter.sealFull, if_neg (Nat.not_lt_of_le h)]
    simp only [Archive.sealing, archive, SealingWriter.writes, SealingWriter.write]
    rw [hfits _ (by decide)]
    dsimp only
    rw [hfits _ (by decide)]
    rfl
  have hideal : cipher.Ideal (MadeFor cipher salt [archive]) := by
    have hsame : MadeFor cipher salt [archive] =
        (· ∈ (archive.header salt).finished [] [1, 2, 3, 4]) := by
      funext encryption
      rw [MadeFor, ← hmade]
      refine propext ⟨?_, fun h => ⟨archive, List.mem_singleton_self _, h⟩⟩
      rintro ⟨_, hmem, h⟩
      exact List.mem_singleton.mp hmem ▸ h
    rw [hsame]
    exact opening_ideal _
  have hopens := opens_what_was_sealed (fun _ _ plain => by simp [cipher, opening]) hideal
    (List.nodup_singleton _)
  obtain ⟨reader, hnew, hreads⟩ := hopens.1 archive (List.mem_singleton_self _) bytes hstreams
  refine ⟨reader, hnew, fun lengths => ?_⟩
  obtain ⟨next, pieces, hread, -, hend, -⟩ := hreads lengths
  exact ⟨next, pieces, hread, hend⟩

end Backup

end RDownloader
