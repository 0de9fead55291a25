import RDownloader.Core.Text
import RDownloader.Core.Failure
import RDownloader.Http.Plan
import Mathlib.Data.List.MinMax

/-!
# What a multi-source run keeps track of (`rd-http/src/multisource_state.rs`)

Which sources are free, busy or out, and how a refused piece or a failed source is judged.
-/

namespace RDownloader

/-- One address of the file. `via` tells an FTP or SFTP mirror. -/
structure SourceEndpoint where
  position : Nat
  via : Bool := false
  deriving DecidableEq, Repr

/-- Which sources are free, busy or out for the rest of a run. -/
structure Pool where
  sources : List SourceEndpoint
  parallel : Nat
  /-- Chunks in flight, by source. -/
  busy : Nat → Nat := fun _ => 0
  out : List Nat := []
  /-- Whether a hash proves the bytes. -/
  hashBasis : Bool

namespace Pool

/-- Whether `source` may serve a chunk from `offset`. -/
def mayServe (pool : Pool) (source : SourceEndpoint) (offset : Nat) : Bool :=
  pool.hashBasis || offset = 0 || !source.via

/-- The sources still in that may serve a chunk from `offset`. -/
def usable (pool : Pool) (offset : Nat) : List SourceEndpoint :=
  (pool.sources.filter (·.position ∉ pool.out)).filter (pool.mayServe · offset)

/-- The first `parallel` of them. -/
def selection (pool : Pool) (offset : Nat) : List SourceEndpoint :=
  (pool.usable offset).take pool.parallel

/-- The source for a chunk read from `offset`: the one selected with the fewest chunks in flight,
earlier ones first on a tie. -/
def pick (pool : Pool) (offset : Nat) : Option (SourceEndpoint × Pool) :=
  ((pool.selection offset).argmin fun source => pool.busy source.position).map fun chosen =>
    (chosen, { pool with
      busy := fun position =>
        if position = chosen.position then pool.busy position + 1 else pool.busy position })

/-- Whether a source is still in that only `mayServe` keeps from a chunk. -/
def heldBack (pool : Pool) : Bool :=
  !pool.hashBasis && pool.sources.any (·.position ∉ pool.out)

def release (pool : Pool) (position : Nat) : Pool :=
  { pool with
    busy := fun other => if other = position then pool.busy other - 1 else pool.busy other }

/-- Takes a source out of this run; `false` when it already was. -/
def exclude (pool : Pool) (position : Nat) : Bool × Pool :=
  if position ∈ pool.out then (false, pool)
  else (true, { pool with out := position :: pool.out })

end Pool

/-! ## Pieces -/

/-- Hashes of consecutive, equally long pieces of the file. `digest` is the algorithm they are
made with. -/
structure PieceHashes where
  digest : List UInt8 → Text
  length : Nat
  hashes : List Text

/-- The bytes of a file from `start` to `stop`. -/
def readRange (file : Nat → UInt8) (start stop : Nat) : List UInt8 :=
  (List.range' start (stop - start)).map file

namespace PieceHashes

/-- The byte range piece `index` covers in a file of `total` bytes. -/
def range (pieces : PieceHashes) (index total : Nat) : Nat × Nat :=
  let start := saturatingMul index pieces.length
  (min start total, min (saturatingAdd start pieces.length) total)

/-- Whether the bytes of piece `index` match its hash. -/
def matchesHash (pieces : PieceHashes) (file : Nat → UInt8) (total index : Nat) : Bool :=
  let (start, stop) := pieces.range index total
  (pieces.digest (readRange file start stop)).eqIgnoreAsciiCase (pieces.hashes.getD index [])

/-- The loop over the pieces with the given indices. -/
def firstBadOf (pieces : PieceHashes) (file : Nat → UInt8) (stop total : Nat) :
    List Nat → Option Nat
  | [] => none
  | index :: indices =>
    let (pieceStart, pieceStop) := pieces.range index total
    if stop < pieceStop ∨ pieceStop ≤ pieceStart then none
    else if pieces.matchesHash file total index then firstBadOf pieces file stop total indices
    else some pieceStart

/-- The start of the first piece inside `chunk` whose bytes do not match. -/
def firstBadPiece (pieces : PieceHashes) (file : Nat → UInt8) (chunk : ChunkSpec) (total : Nat) :
    Option Nat :=
  let first := divCeil chunk.start (max pieces.length 1)
  pieces.firstBadOf file (chunk.stop.getD total) total
    (List.range' first (pieces.hashes.length - first))

end PieceHashes

/-! ## What the pool picks -/

namespace Pool

variable {pool next : Pool}

/-- A picked source is one of the selection with the fewest chunks in flight. -/
theorem pick_some (h : pool.pick offset = some (source, next)) :
    source ∈ pool.selection offset ∧
      (∀ other ∈ pool.selection offset, pool.busy source.position ≤ pool.busy other.position) ∧
      next = { pool with
        busy := fun position =>
          if position = source.position then pool.busy position + 1 else pool.busy position } := by
  unfold pick at h
  obtain ⟨chosen, hchosen, heq⟩ := Option.map_eq_some_iff.mp h
  obtain ⟨rfl, rfl⟩ := Prod.mk.inj heq
  refine ⟨List.argmin_mem hchosen, fun other hmem => ?_, rfl⟩
  exact List.le_of_mem_argmin (f := fun source => pool.busy source.position) hmem hchosen

theorem mem_usable_of_selection (h : source ∈ pool.selection offset) :
    source ∈ pool.usable offset :=
  List.mem_of_mem_take h

theorem mem_usable {source : SourceEndpoint} :
    source ∈ pool.usable offset ↔
      source ∈ pool.sources ∧ source.position ∉ pool.out ∧ pool.mayServe source offset := by
  simp only [usable, List.mem_filter, decide_eq_true_eq, and_assoc]

/-- Nothing is picked only when no source may serve the offset any more. -/
theorem pick_none (hparallel : 0 < pool.parallel) (h : pool.pick offset = none) :
    pool.usable offset = [] := by
  rw [pick, Option.map_eq_none_iff, List.argmin_eq_none, selection, List.take_eq_nil_iff] at h
  exact h.resolve_left (Nat.pos_iff_ne_zero.mp hparallel)

/-- An exclusion changes nothing but who is out. -/
theorem exclude_eq (pool : Pool) (position : Nat) :
    (pool.exclude position).2 = { pool with out := (pool.exclude position).2.out } := by
  unfold exclude
  split <;> rfl

theorem mem_exclude_out (pool : Pool) (position other : Nat) :
    other ∈ (pool.exclude position).2.out ↔ other = position ∨ other ∈ pool.out := by
  unfold exclude
  split
  · next h => exact ⟨.inr, fun hor => hor.elim (fun heq => heq ▸ h) id⟩
  · exact List.mem_cons

end Pool

/-! ## What the check of a chunk's pieces says -/

theorem readRange_congr {file file' : Nat → UInt8}
    (h : ∀ offset, start ≤ offset → offset < stop → file offset = file' offset) :
    readRange file start stop = readRange file' start stop := by
  apply List.map_congr_left
  intro offset hmem
  obtain ⟨hlo, hhi⟩ := List.mem_range'_1.mp hmem
  exact h offset hlo (by omega)

namespace PieceHashes

variable {pieces : PieceHashes}

/-- Piece `index` is not empty and lies wholly inside the chunk. -/
structure Inside (pieces : PieceHashes) (chunk : ChunkSpec) (total index : Nat) : Prop where
  listed : index < pieces.hashes.length
  start_le : chunk.start ≤ (pieces.range index total).1
  nonempty : (pieces.range index total).1 < (pieces.range index total).2
  le_stop : (pieces.range index total).2 ≤ chunk.stop.getD total

/-- A piece that is not empty starts where its index says. -/
theorem range_fst_of_nonempty
    (h : (pieces.range index total).1 < (pieces.range index total).2) :
    0 < pieces.length ∧ (pieces.range index total).1 = index * pieces.length := by
  simp only [range, saturatingMul, saturatingAdd] at h ⊢
  omega

theorem range_mono (pieces : PieceHashes) (total : Nat) (h : i ≤ j) :
    (pieces.range i total).1 ≤ (pieces.range j total).1 ∧
      (pieces.range i total).2 ≤ (pieces.range j total).2 := by
  have hmul : i * pieces.length ≤ j * pieces.length := Nat.mul_le_mul_right _ h
  simp only [range, saturatingMul, saturatingAdd]
  omega

/-- Once a piece is empty, all later ones are. -/
theorem nonempty_of_le (pieces : PieceHashes) (total : Nat) (h : i ≤ j)
    (hj : (pieces.range j total).1 < (pieces.range j total).2) :
    (pieces.range i total).1 < (pieces.range i total).2 := by
  have hmul : i * pieces.length ≤ j * pieces.length := Nat.mul_le_mul_right _ h
  simp only [range, saturatingMul, saturatingAdd] at hj ⊢
  omega

theorem matchesHash_congr {file file' : Nat → UInt8}
    (h : ∀ offset, (pieces.range index total).1 ≤ offset →
      offset < (pieces.range index total).2 → file offset = file' offset) :
    pieces.matchesHash file total index = pieces.matchesHash file' total index := by
  simp only [matchesHash, readRange_congr h]

theorem firstBadOf_none {first n : Nat}
    (h : pieces.firstBadOf file stop total (List.range' first n) = none) :
    ∀ index, first ≤ index → index < first + n →
      (pieces.range index total).1 < (pieces.range index total).2 →
      (pieces.range index total).2 ≤ stop → pieces.matchesHash file total index := by
  intro index hlo hhi hnonempty hstop
  induction n generalizing first with
  | zero => exact absurd hlo (Nat.not_le.mpr hhi)
  | succ n ih =>
    rw [List.range'_succ, firstBadOf] at h
    dsimp only at h
    split at h
    · next hbreak =>
      rcases hbreak with hpast | hempty
      · have := (pieces.range_mono total hlo).2
        omega
      · exact absurd (pieces.nonempty_of_le total hlo hnonempty) (Nat.not_lt.mpr hempty)
    · split at h
      · next hmatch =>
        rcases Nat.eq_or_lt_of_le hlo with rfl | hlt
        · exact hmatch
        · exact ih h hlt (by omega)
      · cases h

theorem firstBadOf_some {first n : Nat}
    (h : pieces.firstBadOf file stop total (List.range' first n) = some bad) :
    ∃ index, first ≤ index ∧ index < first + n ∧ bad = (pieces.range index total).1 ∧
      (pieces.range index total).1 < (pieces.range index total).2 ∧
      (pieces.range index total).2 ≤ stop ∧ pieces.matchesHash file total index = false ∧
      ∀ i, first ≤ i → i < index → pieces.matchesHash file total i := by
  induction n generalizing first with
  | zero => cases h
  | succ n ih =>
    rw [List.range'_succ, firstBadOf] at h
    dsimp only at h
    split at h
    · cases h
    next hgo =>
    rw [not_or, Nat.not_lt, Nat.not_le] at hgo
    split at h
    · next hmatch =>
      obtain ⟨index, hlo, hhi, hbad, hnonempty, hstop, hmismatch, hearlier⟩ := ih h
      refine ⟨index, by omega, by omega, hbad, hnonempty, hstop, hmismatch, fun i hi hlt => ?_⟩
      rcases Nat.eq_or_lt_of_le hi with rfl | hi
      · exact hmatch
      · exact hearlier i hi hlt
    · next hmismatch =>
      exact ⟨first, Nat.le_refl _, by omega, (Option.some.inj h).symm, hgo.2, hgo.1,
        by simpa using hmismatch, fun i hlo hhi => by omega⟩

/-- The check starts no later than with the first piece inside the chunk. -/
theorem Inside.first_le (h : pieces.Inside chunk total index) :
    divCeil chunk.start (max pieces.length 1) ≤ index := by
  obtain ⟨hpos, hstart⟩ := range_fst_of_nonempty h.nonempty
  rw [Nat.max_eq_left hpos, divCeil_le_iff hpos, ← hstart]
  exact h.start_le

/-- No refused piece: every piece inside the chunk matches. -/
theorem firstBadPiece_none (h : pieces.firstBadPiece file chunk total = none)
    (hinside : pieces.Inside chunk total index) : pieces.matchesHash file total index := by
  have hfirst := hinside.first_le
  have hlisted := hinside.listed
  exact firstBadOf_none h index hfirst (by omega) hinside.nonempty hinside.le_stop

/-- A refused piece is inside the chunk, does not match, and is the first that does not. -/
theorem firstBadPiece_some (h : pieces.firstBadPiece file chunk total = some bad) :
    ∃ index, pieces.Inside chunk total index ∧ bad = (pieces.range index total).1 ∧
      pieces.matchesHash file total index = false ∧
      ∀ i, pieces.Inside chunk total i → i < index → pieces.matchesHash file total i := by
  obtain ⟨index, hlo, hhi, hbad, hnonempty, hstop, hmismatch, hearlier⟩ := firstBadOf_some h
  have hlisted : index < pieces.hashes.length := by omega
  obtain ⟨hpos, hstart⟩ := range_fst_of_nonempty hnonempty
  rw [Nat.max_eq_left hpos, divCeil_le_iff hpos, ← hstart] at hlo
  exact ⟨index, ⟨hlisted, hlo, hnonempty, hstop⟩, hbad, hmismatch, fun i hi hlt =>
    hearlier i hi.first_le hlt⟩

end PieceHashes

/-! ## Failures -/

def codePieceMismatch : String := "mirror.piece_hash_mismatch"
def codeNoUsableSource : String := "mirror.no_usable_source"
def codeInternalAddress : String := "mirror.internal_address"

/-- The stable code behind a source's failure. -/
def failureCode : HttpDownloadError → String
  | .rangeIgnored => "download.range_ignored"
  | .remoteChanged => "download.remote_changed"
  | .failure failure => failure.code.getD "download.failed"
  | .internal _ | .local _ => "download.failed"

def pieceMismatch (offset : Nat) : HttpDownloadError :=
  .failure ((Failure.coded (.transient none) codePieceMismatch
    s!"a mirror delivered a piece at byte {offset} that does not match its hash").withParam
      "offset" (toString offset))

/-- Only mirrors that cannot prove where their bytes begin are left for a chunk inside the file. -/
def mirrorOffsetUnverified : HttpDownloadError :=
  .failure (.coded (.transient none) "mirror.offset_unverified"
    "without a checksum, the FTP and SFTP mirrors of this file can only serve it from its first byte, and no other source is ready to continue it")

def noUsableSource : HttpDownloadError :=
  .failure (.coded (.transient none) codeNoUsableSource
    "no source of this file can be used right now")

end RDownloader
