import RDownloader.Http.Plan
import Mathlib.Data.List.Nodup
import Mathlib.Tactic.Linarith

/-!
# Balanced chunk plans (`plan_chunks`, `rd-http/src/plan.rs`)

A chunk is as long as the file divided by the number of chunks, rounded up. Rounding up eats into
the last chunks, so a file cut into more chunks than the smallest chunk has bytes can be used up
before the last of them.
-/

namespace RDownloader

/-- `plan_chunks`: a file of known size in balanced chunks when range requests are supported. -/
def planChunks (freshId : ChunkId) (total : Option Nat) (acceptsRanges : Bool) (maxChunks : Nat) :
    List ChunkSpec :=
  match total with
  | none => [{ id := freshId, start := 0, stop := none, committed := 0 }]
  | some 0 => [{ id := freshId, start := 0, stop := some 0, committed := 0 }]
  | some total =>
    let possible := divCeil total minChunkSize
    let count := if acceptsRanges then min (max maxChunks 1) (max possible 1) else 1
    let chunkSize := divCeil total count
    (List.range count).map fun index =>
      let start := index * chunkSize
      { id := freshId + index, start, stop := some (min ((index + 1) * chunkSize) total),
        committed := start }

/-- What a planned chunk is: nothing of it is committed, and it does not end before its start. -/
structure ChunkSpec.Unstarted (chunk : ChunkSpec) : Prop where
  committed_eq : chunk.committed = chunk.start
  start_le : ∀ stop, chunk.stop = some stop → chunk.start ≤ stop

theorem ChunkSpec.Unstarted.wellFormed {chunk : ChunkSpec} (h : chunk.Unstarted) :
    chunk.WellFormed where
  start_le := Nat.le_of_eq h.committed_eq.symm
  committed_le stop hstop := h.committed_eq ▸ h.start_le stop hstop

/-- A file of 32 TiB and a byte in 8388608 chunks: the last of them starts past its end. -/
theorem planChunks_past_end :
    ∃ chunk ∈ planChunks 0 (some (2 ^ 45 + 1)) true (2 ^ 23),
      ∃ stop, chunk.stop = some stop ∧ stop < chunk.start := by
  refine ⟨_, List.mem_map.mpr ⟨2 ^ 23 - 1, List.mem_range.mpr (by decide), rfl⟩, _, rfl, ?_⟩
  decide

/-! ## Plans in machine words -/

/-- `u64` multiplication, which must not overflow. -/
def checkedMul (a b : Nat) : Option Nat := if a * b ≤ u64Max then some (a * b) else none

/-- How many chunks `plan_chunks` divides a file into. -/
def plannedCount (total : Nat) (acceptsRanges : Bool) (maxChunks : Nat) : Nat :=
  let possible := divCeil total minChunkSize
  if acceptsRanges then min (max maxChunks 1) (max possible 1) else 1

/-- The chunks `plan_chunks` maps a number of indices to, from one on. -/
def plannedChunks (freshId : ChunkId) (total size : Nat) : Nat → Nat → Option (List ChunkSpec)
  | 0, _ => some []
  | n + 1, index => do
    let start ← checkedMul index size
    let stop ← checkedMul (index + 1) size
    let chunks ← plannedChunks freshId total size n (index + 1)
    return { id := freshId + index, start, stop := some (min stop total), committed := start } ::
      chunks

/-- `plan_chunks` as it computes in `u64`: nothing when a product overflows. -/
def checkedPlanChunks (freshId : ChunkId) (total : Option Nat) (acceptsRanges : Bool) (maxChunks : Nat) :
    Option (List ChunkSpec) :=
  match total with
  | none => some [{ id := freshId, start := 0, stop := none, committed := 0 }]
  | some total =>
    if total = 0 then some [{ id := freshId, start := 0, stop := some 0, committed := 0 }]
    else
      let count := plannedCount total acceptsRanges maxChunks
      plannedChunks freshId total (divCeil total count) count 0

/-- The chunk of an index. -/
def chunkAt (freshId : ChunkId) (total size index : Nat) : ChunkSpec :=
  { id := freshId + index, start := index * size, stop := some (min ((index + 1) * size) total)
    committed := index * size }

/-- Every product is one of the last, which is the largest. -/
theorem plannedChunks_eq_some_iff (freshId : ChunkId) (total size n index : Nat)
    (chunks : List ChunkSpec) :
    plannedChunks freshId total size n index = some chunks ↔
      (n ≠ 0 → (index + n) * size ≤ u64Max) ∧
        chunks = (List.range' index n).map (chunkAt freshId total size) := by
  induction n generalizing index chunks with
  | zero =>
    rw [plannedChunks, Option.some_inj, eq_comm]
    exact (and_iff_right fun h => absurd rfl h).symm
  | succ n ih =>
    have hlast : (index + 1) * size ≤ (index + (n + 1)) * size :=
      Nat.mul_le_mul_right size (by omega)
    have hfirst : index * size ≤ (index + 1) * size := Nat.mul_le_mul_right size (Nat.le_succ _)
    have hnext : index + 1 + n = index + (n + 1) := by omega
    rw [plannedChunks, List.range'_succ, List.map_cons]
    simp only [checkedMul, bind, Option.bind_eq_some_iff, pure, Option.some_inj,
      Option.ite_none_right_eq_some, ih, hnext]
    constructor
    · rintro ⟨_, ⟨-, rfl⟩, _, ⟨hstop, rfl⟩, _, ⟨hrest, rfl⟩, rfl⟩
      refine ⟨fun _ => ?_, rfl⟩
      rcases Nat.eq_zero_or_pos n with rfl | hpos
      · exact hstop
      · exact hrest (Nat.ne_of_gt hpos)
    · rintro ⟨hfits, rfl⟩
      have hfits := hfits (Nat.succ_ne_zero n)
      exact ⟨_, ⟨Nat.le_trans hfirst (Nat.le_trans hlast hfits), rfl⟩, _,
        ⟨Nat.le_trans hlast hfits, rfl⟩, _, ⟨fun _ => hfits, rfl⟩, rfl⟩

/-- What is planned without an overflow is the plan. -/
theorem checkedPlanChunks_eq {freshId : ChunkId} {total : Option Nat} {acceptsRanges : Bool}
    {maxChunks : Nat} {chunks : List ChunkSpec}
    (h : checkedPlanChunks freshId total acceptsRanges maxChunks = some chunks) :
    planChunks freshId total acceptsRanges maxChunks = chunks := by
  match total with
  | none => exact Option.some.inj h
  | some 0 => exact Option.some.inj h
  | some (total + 1) =>
    rw [checkedPlanChunks, if_neg (Nat.succ_ne_zero total)] at h
    obtain ⟨-, rfl⟩ := (plannedChunks_eq_some_iff ..).mp h
    have hplan : planChunks freshId (some (total + 1)) acceptsRanges maxChunks =
        (List.range (plannedCount (total + 1) acceptsRanges maxChunks)).map
          (chunkAt freshId (total + 1)
            (divCeil (total + 1) (plannedCount (total + 1) acceptsRanges maxChunks))) := rfl
    rw [hplan, List.range_eq_range']

/-- Chunks of one size up to the end of the file, the last of which begins before it. -/
theorem consecutive_chunkAt (freshId : ChunkId) {total size : Nat} (n index : Nat)
    (hlast : (index + n) * size < total) (hend : total ≤ (index + n + 1) * size) :
    Consecutive (index * size) total
      ((List.range' index (n + 1)).map (chunkAt freshId total size)) := by
  induction n generalizing index with
  | zero =>
    have hstop : min ((index + 1) * size) total = total := Nat.min_eq_right hend
    refine ⟨rfl, ⟨Nat.le_refl _, ?_⟩, _, rfl, hstop⟩
    rintro _ ⟨⟩
    exact hstop.symm ▸ Nat.le_of_lt hlast
  | succ n ih =>
    have hinner : (index + 1) * size ≤ (index + (n + 1)) * size :=
      Nat.mul_le_mul_right size (by omega)
    have hstop : min ((index + 1) * size) total = (index + 1) * size :=
      Nat.min_eq_left (Nat.le_of_lt (Nat.lt_of_le_of_lt hinner hlast))
    have hnext : index + 1 + n = index + (n + 1) := by omega
    refine ⟨rfl, ⟨Nat.le_refl _, ?_⟩, _, rfl, ?_⟩
    · rintro _ ⟨⟩
      exact hstop.symm ▸ Nat.mul_le_mul_right size (Nat.le_succ _)
    · rw [hstop]
      exact ih (index + 1) (hnext ▸ hlast) (hnext ▸ hend)

/-- What a plan of a file is to be: at most so many chunks that cut it, none of them empty. -/
structure PartitionPlan (total maxChunks : Nat) (chunks : List ChunkSpec) : Prop where
  count : chunks.length ≤ max 1 maxChunks
  covers : Consecutive 0 total chunks
  committed : ∀ chunk ∈ chunks, chunk.committed = chunk.start
  nonempty : 0 < total → ∀ chunk ∈ chunks, ∃ stop, chunk.stop = some stop ∧ chunk.start < stop

/-- The chunks but the last do not reach the end, and all of them together stay within the word. -/
def PlanFits (total : Nat) (acceptsRanges : Bool) (maxChunks : Nat) : Prop :=
  let count := plannedCount total acceptsRanges maxChunks
  (count - 1) * divCeil total count < total ∧ count * divCeil total count ≤ u64Max

theorem plannedCount_pos (total : Nat) (acceptsRanges : Bool) (maxChunks : Nat) :
    0 < plannedCount total acceptsRanges maxChunks := by
  unfold plannedCount
  dsimp only
  split <;> omega

theorem plannedCount_le (total : Nat) (acceptsRanges : Bool) (maxChunks : Nat) :
    plannedCount total acceptsRanges maxChunks ≤ max 1 maxChunks := by
  unfold plannedCount
  dsimp only
  split <;> omega

/-- Every file is planned as a partition of it. -/
def AlwaysPartitions : Prop :=
  ∀ (freshId : ChunkId) (total : Nat) (acceptsRanges : Bool) (maxChunks : Nat), total ≤ u64Max →
    ∃ chunks, checkedPlanChunks freshId (some total) acceptsRanges maxChunks = some chunks ∧
      PartitionPlan total maxChunks chunks

theorem largest_file_overflows : ¬AlwaysPartitions := by
  intro h
  obtain ⟨chunks, hplan, -⟩ := h 0 u64Max true 2 (Nat.le_refl _)
  cases hplan

/-- A plain plan is a partition exactly when the file is empty or the rounded chunks fit it. -/
theorem checkedPlanChunks_partitions_iff (freshId : ChunkId) (total : Nat) (acceptsRanges : Bool)
    (maxChunks : Nat) :
    (∃ chunks, checkedPlanChunks freshId (some total) acceptsRanges maxChunks = some chunks ∧
      PartitionPlan total maxChunks chunks) ↔
    total = 0 ∨ PlanFits total acceptsRanges maxChunks := by
  unfold checkedPlanChunks
  dsimp only
  split
  next hzero =>
    subst hzero
    refine iff_of_true ⟨_, rfl, Nat.le_max_left .., ?_, ?_, fun h => absurd h (Nat.lt_irrefl _)⟩
      (.inl rfl)
    · exact ⟨rfl, ⟨Nat.le_refl _, fun _ _ => Nat.zero_le _⟩, 0, rfl, rfl⟩
    · intro chunk hmem
      rw [List.mem_singleton.mp hmem]
  next hne =>
    rw [or_iff_right hne, PlanFits]
    have hpos := plannedCount_pos total acceptsRanges maxChunks
    have hle := plannedCount_le total acceptsRanges maxChunks
    generalize plannedCount total acceptsRanges maxChunks = count at hpos hle ⊢
    obtain ⟨n, rfl⟩ := Nat.exists_eq_add_of_lt hpos
    rw [Nat.zero_add] at *
    have hend : total ≤ (0 + n + 1) * divCeil total (n + 1) := by
      rw [Nat.zero_add, Nat.mul_comm]
      exact (divCeil_le_iff (Nat.succ_pos n)).mp (Nat.le_refl _)
    generalize divCeil total (n + 1) = size at hend ⊢
    simp only [plannedChunks_eq_some_iff, Nat.zero_add, Nat.add_sub_cancel]
    constructor
    · rintro ⟨_, ⟨hfits, rfl⟩, hplan⟩
      refine ⟨?_, hfits (Nat.succ_ne_zero n)⟩
      obtain ⟨_, ⟨⟩, hlt⟩ := hplan.nonempty (Nat.pos_of_ne_zero hne) (chunkAt freshId total size n)
        (List.mem_map_of_mem (List.mem_range'_1.mpr (by omega)))
      exact Nat.lt_of_lt_of_le hlt (Nat.min_le_right ..)
    · rintro ⟨hlast, hfits⟩
      refine ⟨_, ⟨fun _ => hfits, rfl⟩, ?_, ?_, fun chunk hmem => ?_, fun _ chunk hmem => ?_⟩
      · rw [List.length_map, List.length_range']
        exact hle
      · have hcovers := consecutive_chunkAt freshId n 0 ((Nat.zero_add n).symm ▸ hlast) hend
        rwa [Nat.zero_mul] at hcovers
      · obtain ⟨index, -, rfl⟩ := List.mem_map.mp hmem
        rfl
      · obtain ⟨index, hindex, rfl⟩ := List.mem_map.mp hmem
        have hindex : index ≤ n := by
          have := List.mem_range'_1.mp hindex
          omega
        have hstart : index * size < total :=
          Nat.lt_of_le_of_lt (Nat.mul_le_mul_right size hindex) hlast
        have hsize : 0 < size := Nat.pos_of_ne_zero fun hzero => by
          rw [hzero, Nat.mul_zero] at hend
          exact hne (Nat.le_zero.mp hend)
        exact ⟨_, rfl, Nat.lt_min.mpr
          ⟨Nat.mul_lt_mul_of_pos_right (Nat.lt_succ_self index) hsize, hstart⟩⟩

end RDownloader
