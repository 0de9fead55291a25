import RDownloader.Core.Words

/-!
# Chunks of a file (`rd-http/src/plan.rs`)
-/

namespace RDownloader

abbrev ChunkId := Nat

/-- One planned chunk: where it starts, where it ends when that is known, and the offset up to
which its bytes are recorded. -/
structure ChunkSpec where
  id : ChunkId
  start : Nat
  stop : Option Nat
  committed : Nat
  deriving DecidableEq, Repr

namespace ChunkSpec

/-- Whether every byte of a bounded chunk has been committed. -/
def isComplete (chunk : ChunkSpec) : Bool :=
  chunk.stop.any (· ≤ chunk.committed)

/-- The offsets of a chunk in order. -/
structure WellFormed (chunk : ChunkSpec) : Prop where
  start_le : chunk.start ≤ chunk.committed
  committed_le : ∀ stop, chunk.stop = some stop → chunk.committed ≤ stop

end ChunkSpec

/-- The chunks follow one another from `start` to `total`. -/
def Consecutive (start total : Nat) : List ChunkSpec → Prop
  | [] => start = total
  | chunk :: chunks => chunk.start = start ∧ chunk.WellFormed ∧
      ∃ stop, chunk.stop = some stop ∧ Consecutive stop total chunks

/-- The chunks cut `[0, total)` into pieces, in whatever order they are listed. -/
def Partitions (total : Nat) (chunks : List ChunkSpec) : Prop :=
  ∃ sorted, chunks.Perm sorted ∧ Consecutive 0 total sorted

theorem Consecutive.le {chunks : List ChunkSpec} (h : Consecutive start total chunks) :
    start ≤ total := by
  induction chunks generalizing start with
  | nil => exact Nat.le_of_eq h
  | cons chunk chunks ih =>
    obtain ⟨rfl, hchunk, stop, hstop, hrest⟩ := h
    exact Nat.le_trans hchunk.start_le (Nat.le_trans (hchunk.committed_le stop hstop) (ih hrest))

theorem Consecutive.of_mem {chunks : List ChunkSpec} (h : Consecutive start total chunks)
    (hmem : chunk ∈ chunks) :
    chunk.WellFormed ∧ ∃ stop, chunk.stop = some stop ∧ stop ≤ total := by
  induction chunks generalizing start with
  | nil => cases hmem
  | cons head chunks ih =>
    obtain ⟨-, hhead, stop, hstop, hrest⟩ := h
    rcases List.mem_cons.mp hmem with rfl | hmem
    · exact ⟨hhead, stop, hstop, hrest.le⟩
    · exact ih hrest hmem

/-! ## Aligned plans -/

def minChunkSize : Nat := 4 * 1024 * 1024

/-- The loop of `plan_aligned_chunks`. Every pass plans at least one byte, so `fuel` is the bytes
left. Identifiers are given out in order. -/
def chunksFrom (size total : Nat) : Nat → ChunkId → Nat → List ChunkSpec
  | 0, _, _ => []
  | fuel + 1, id, start =>
    if start < total then
      let stop := min (saturatingAdd start size) total
      { id, start, stop := some stop, committed := start } ::
        chunksFrom size total fuel (id + 1) stop
    else []

/-- `plan_aligned_chunks`: a file of known size in chunks whose boundaries fall on multiples of
`align`. -/
def planAlignedChunks (freshId : ChunkId) (total maxChunks align : Nat) : List ChunkSpec :=
  let align := max align 1
  if total = 0 then [{ id := freshId, start := 0, stop := some 0, committed := 0 }] else
  let possible := divCeil total (max minChunkSize align)
  let count := min (max maxChunks 1) (max possible 1)
  let size := max (saturatingMul (divCeil (divCeil total count) align) align) align
  chunksFrom size total total freshId 0

/-- Whether every boundary of `chunks` falls on a multiple of `align` or on the end of the file. -/
def chunksAligned (chunks : List ChunkSpec) (align total : Nat) : Bool :=
  let align := max align 1
  chunks.all fun chunk =>
    chunk.start % align = 0 && chunk.stop.any fun stop => stop % align = 0 || stop = total

/-- What a planned chunk is: bounded, in order, with nothing committed. -/
structure ChunkSpec.Fresh (chunk : ChunkSpec) : Prop where
  committed_eq : chunk.committed = chunk.start
  bounded : ∃ stop, chunk.stop = some stop ∧ chunk.start ≤ stop

/-- One chunk ends where the other starts, or before. -/
def ChunkSpec.Before (a b : ChunkSpec) : Prop :=
  ∃ stop, a.stop = some stop ∧ stop ≤ b.start

theorem Consecutive.start_le_of_mem {chunks : List ChunkSpec} (h : Consecutive start total chunks)
    (hmem : chunk ∈ chunks) : start ≤ chunk.start := by
  induction chunks generalizing start with
  | nil => cases hmem
  | cons head chunks ih =>
    obtain ⟨rfl, hhead, stop, hstop, hrest⟩ := h
    rcases List.mem_cons.mp hmem with rfl | hmem
    · exact Nat.le_refl _
    · exact Nat.le_trans hhead.start_le (Nat.le_trans (hhead.committed_le stop hstop) (ih hrest hmem))

theorem Consecutive.before {chunks : List ChunkSpec} (h : Consecutive start total chunks) :
    chunks.Pairwise ChunkSpec.Before := by
  induction chunks generalizing start with
  | nil => exact .nil
  | cons head chunks ih =>
    obtain ⟨-, -, stop, hstop, hrest⟩ := h
    exact .cons (fun chunk hmem => ⟨stop, hstop, hrest.start_le_of_mem hmem⟩) (ih hrest)

theorem chunksFrom_spec (hsize : 0 < size) (htotal : total ≤ u64Max) (fuel : Nat) (id : ChunkId)
    (hfuel : total ≤ start + fuel) (hstart : start ≤ total) :
    let chunks := chunksFrom size total fuel id start
    Consecutive start total chunks ∧ chunks.Pairwise (·.id < ·.id) ∧
      ∀ chunk ∈ chunks, id ≤ chunk.id ∧ chunk.Fresh := by
  induction fuel generalizing id start with
  | zero => exact ⟨Nat.le_antisymm hstart hfuel, .nil, fun _ hmem => by cases hmem⟩
  | succ fuel ih =>
    unfold chunksFrom
    split
    · next hlt =>
      generalize hstop : min (saturatingAdd start size) total = stop
      have hnext : start < stop ∧ stop ≤ total := by
        rw [saturatingAdd] at hstop
        omega
      obtain ⟨hrest, hids, hall⟩ := ih (id + 1) (by omega) hnext.2
      refine ⟨⟨rfl, ⟨Nat.le_refl _, ?_⟩, stop, rfl, hrest⟩, .cons ?_ hids, ?_⟩
      · rintro _ ⟨⟩
        exact Nat.le_of_lt hnext.1
      · intro chunk hmem
        exact (hall chunk hmem).1
      · intro chunk hmem
        rcases List.mem_cons.mp hmem with rfl | hmem
        · exact ⟨Nat.le_refl _, rfl, stop, rfl, Nat.le_of_lt hnext.1⟩
        · exact ⟨Nat.le_of_succ_le (hall chunk hmem).1, (hall chunk hmem).2⟩
    · next hge =>
      exact ⟨Nat.le_antisymm hstart (Nat.le_of_not_lt hge), .nil, fun _ hmem => by cases hmem⟩

/-- A plan cuts the file into chunks of which nothing is committed. -/
theorem planAlignedChunks_spec (freshId : ChunkId) (htotal : total ≤ u64Max)
    (maxChunks align : Nat) :
    let chunks := planAlignedChunks freshId total maxChunks align
    Consecutive 0 total chunks ∧ (chunks.map (·.id)).Nodup ∧ ∀ chunk ∈ chunks, chunk.Fresh := by
  unfold planAlignedChunks
  dsimp only
  split
  · next hzero =>
    subst hzero
    refine ⟨⟨rfl, ⟨Nat.le_refl _, fun _ _ => Nat.zero_le _⟩, 0, rfl, rfl⟩,
      List.pairwise_singleton _ _, fun chunk hmem => ?_⟩
    obtain rfl := List.mem_singleton.mp hmem
    exact ⟨rfl, 0, rfl, Nat.le_refl _⟩
  · have hpos : 0 < max align 1 := Nat.lt_of_lt_of_le Nat.one_pos (Nat.le_max_right ..)
    obtain ⟨hconsecutive, hids, hall⟩ := chunksFrom_spec
      (Nat.lt_of_lt_of_le hpos (Nat.le_max_right (saturatingMul (divCeil (divCeil total
        (min (max maxChunks 1) (max (divCeil total (max minChunkSize (max align 1))) 1)))
        (max align 1)) (max align 1)) _))
      htotal total freshId (Nat.le_add_left ..) (Nat.zero_le total)
    exact ⟨hconsecutive, List.pairwise_map.mpr (hids.imp fun hlt => Nat.ne_of_lt hlt),
      fun chunk hmem => (hall chunk hmem).2⟩

end RDownloader
