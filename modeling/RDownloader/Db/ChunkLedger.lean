import RDownloader.Core.Words
import RDownloader.Http.Plan
import Mathlib.Data.List.Sort

/-!
# The chunk ledger (`rd-db/src/writer/download_rows_progress.rs`)

The persisted chunk rows, and the one write that moves a committed offset. It refuses any offset
below the stored one or outside the stored bounds.
-/

namespace RDownloader

abbrev DownloadId := Nat

/-- One row of `chunks`. Offsets are signed 64-bit columns. -/
structure ChunkRow where
  spec : ChunkSpec
  downloadId : DownloadId
  fits : spec.committed ≤ i64Max
  /-- The source that delivered the chunk's most recent bytes, when one is known. -/
  sourcePosition : Option Nat := none
  /-- Whether the chunk's pieces were checked against their hashes. -/
  verified : Bool := false

/-- The row with `committed_offset` set. -/
def ChunkRow.setCommitted (row : ChunkRow) (offset : Nat) (fits : offset ≤ i64Max) : ChunkRow :=
  { row with spec := { row.spec with committed := offset }, fits }

/-- The chunk rows and, for every download, the sum stored beside it. -/
structure ChunkStore where
  chunks : List ChunkRow
  committedBytes : DownloadId → Nat := fun _ => 0

namespace ChunkStore

def row? (store : ChunkStore) (id : ChunkId) : Option ChunkRow :=
  store.chunks.find? (·.spec.id = id)

/-- `UPDATE chunks … WHERE id = ?`. -/
def updateRow (store : ChunkStore) (id : ChunkId) (f : ChunkRow → ChunkRow) : ChunkStore :=
  { store with chunks := store.chunks.map fun row => if row.spec.id = id then f row else row }

/-- The download's sum, computed again from its rows. -/
def sumCommitted (store : ChunkStore) (download : DownloadId) : ChunkStore :=
  let sum := ((store.chunks.filter (·.downloadId = download)).map fun row =>
    row.spec.committed - row.spec.start).sum
  { store with
    committedBytes := fun id => if id = download then sum else store.committedBytes id }

/-- `checkpoint_chunk`: the update and the download's new sum, in one transaction. -/
def checkpointChunk (store : ChunkStore) (id : ChunkId) (committedOffset : Nat) :
    Except String ChunkStore :=
  if fits : committedOffset ≤ i64Max then
    match store.row? id with
    | none => .error "chunk not found"
    | some row =>
      if committedOffset < row.spec.committed ∨ committedOffset < row.spec.start ∨
          row.spec.stop.any (· < committedOffset) then
        .error "invalid chunk checkpoint"
      else
        .ok ((store.updateRow id (·.setCommitted committedOffset fits)).sumCommitted row.downloadId)
  else .error "chunk offset exceeds SQLite range"

/-- Checkpoints one after another; the first refusal ends them. -/
def checkpointAll (store : ChunkStore) : List (ChunkId × Nat) → Except String ChunkStore
  | [] => .ok store
  | (id, offset) :: rest => do (← store.checkpointChunk id offset).checkpointAll rest

/-- The chunks of one download as a transfer loads them, `ORDER BY start_offset`. -/
def loadTransfer (store : ChunkStore) (download : DownloadId) : List ChunkSpec :=
  ((store.chunks.filter (·.downloadId = download)).map (·.spec)).insertionSort
    (fun a b => a.start ≤ b.start)

/-! ## What a checkpoint needs and does -/

/-- An offset a row takes. -/
structure Admits (row : ChunkRow) (offset : Nat) : Prop where
  committed_le : row.spec.committed ≤ offset
  start_le : row.spec.start ≤ offset
  le_stop : ∀ stop, row.spec.stop = some stop → offset ≤ stop
  fits : offset ≤ i64Max

theorem row?_id {id : ChunkId} (store : ChunkStore) (h : store.row? id = some row) :
    row.spec.id = id := by
  simpa using List.find?_some h

theorem mem_of_row? {id : ChunkId} (store : ChunkStore) (h : store.row? id = some row) :
    row ∈ store.chunks :=
  List.mem_of_find?_eq_some h

/-- An update that leaves the key alone is seen in the one row. -/
theorem row?_updateRow {id : ChunkId} (store : ChunkStore) {f : ChunkRow → ChunkRow}
    (hkey : ∀ row, (f row).spec.id = row.spec.id) (id' : ChunkId) :
    (store.updateRow id f).row? id' =
      (store.row? id').map fun row => if id' = id then f row else row := by
  have hid : ((fun row : ChunkRow => decide (row.spec.id = id')) ∘ fun row =>
      if row.spec.id = id then f row else row) = fun row => decide (row.spec.id = id') := by
    funext row
    by_cases h : row.spec.id = id <;> simp [h, hkey]
  rw [row?, updateRow, List.find?_map, hid, ← row?]
  cases h : store.row? id' with
  | none => rfl
  | some row => rw [Option.map_some, Option.map_some, store.row?_id h]

theorem checkpointChunk_ok {id : ChunkId} (store : ChunkStore) (hrow : store.row? id = some row)
    (hadmits : Admits row offset) :
    ∃ store', store.checkpointChunk id offset = .ok store' ∧
      ∀ id', store'.row? id' = (store.row? id').map fun row =>
        if id' = id then row.setCommitted offset hadmits.fits else row := by
  have hrefuse : ¬ (offset < row.spec.committed ∨ offset < row.spec.start ∨
      row.spec.stop.any (· < offset)) := by
    rintro (h | h | h)
    · exact absurd hadmits.committed_le (Nat.not_le.mpr h)
    · exact absurd hadmits.start_le (Nat.not_le.mpr h)
    · cases hstop : row.spec.stop with
      | none => simp [hstop] at h
      | some stop =>
        have hlt : stop < offset := by simpa [hstop] using h
        exact absurd (hadmits.le_stop stop hstop) (Nat.not_le.mpr hlt)
  refine ⟨_, by rw [checkpointChunk, dif_pos hadmits.fits, hrow]; exact if_neg hrefuse, ?_⟩
  exact store.row?_updateRow (f := (·.setCommitted offset hadmits.fits)) fun _ => rfl

theorem checkpointChunk_error {id : ChunkId} (store : ChunkStore)
    (hrow : store.row? id = some row) (hbad : ¬ Admits row offset) (store' : ChunkStore) :
    store.checkpointChunk id offset ≠ .ok store' := by
  intro h
  apply hbad
  unfold checkpointChunk at h
  split at h
  · next fits =>
    rw [hrow] at h
    dsimp only at h
    split at h
    · cases h
    · next hrefuse =>
      rw [not_or, not_or, Nat.not_lt, Nat.not_lt] at hrefuse
      refine ⟨hrefuse.1, hrefuse.2.1, ?_, fits⟩
      intro stop hstop
      simpa [hstop] using hrefuse.2.2
  · cases h

/-- A run of checkpoints is taken when every offset is one its row takes and each row's offsets
ascend. -/
theorem checkpointAll_ok (store : ChunkStore) (run : List (ChunkId × Nat))
    (hadmits : ∀ entry ∈ run, ∃ row, store.row? entry.1 = some row ∧ Admits row entry.2)
    (hascending : run.Pairwise fun a b => a.1 = b.1 → a.2 ≤ b.2) :
    ∃ store', store.checkpointAll run = .ok store' := by
  induction run generalizing store with
  | nil => exact ⟨store, rfl⟩
  | cons entry run ih =>
    obtain ⟨row, hrow, hentry⟩ := hadmits entry (List.mem_cons_self ..)
    obtain ⟨hfirst, hrest⟩ := List.pairwise_cons.mp hascending
    obtain ⟨next, hnext, hrows⟩ := store.checkpointChunk_ok hrow hentry
    have hlater : ∀ later ∈ run, ∃ row, next.row? later.1 = some row ∧ Admits row later.2 := by
      intro later hmem
      obtain ⟨laterRow, hlater, hadmitted⟩ := hadmits later (List.mem_cons_of_mem _ hmem)
      rw [hrows, hlater]
      refine ⟨_, rfl, ?_⟩
      split
      · next heq =>
        -- a later offset of the row that has just moved
        exact ⟨hfirst later hmem heq.symm, hadmitted.start_le, hadmitted.le_stop,
          hadmitted.fits⟩
      · exact hadmitted
    obtain ⟨last, hlast⟩ := ih next hlater hrest
    exact ⟨last, by rw [checkpointAll, hnext, ← hlast]; rfl⟩

theorem checkpointAll_error {id : ChunkId} (store : ChunkStore)
    (hrow : store.row? id = some row) (hbad : ¬ Admits row offset) :
    ¬ ∃ store', store.checkpointAll ((id, offset) :: rest) = .ok store' := by
  rintro ⟨last, hlast⟩
  rw [checkpointAll] at hlast
  cases hfirst : store.checkpointChunk id offset with
  | error => rw [hfirst] at hlast; cases hlast
  | ok next => exact store.checkpointChunk_error hrow hbad next hfirst

/-! ## The chunks of one download -/

theorem mem_loadTransfer (store : ChunkStore) {download : DownloadId} :
    chunk ∈ store.loadTransfer download ↔
      ∃ row ∈ store.chunks, row.downloadId = download ∧ row.spec = chunk := by
  simp [loadTransfer, and_assoc]

/-- Row identifiers are the primary key. -/
def Keyed (store : ChunkStore) : Prop :=
  (store.chunks.map (·.spec.id)).Nodup

theorem Keyed.row? (h : Keyed store) (hmem : row ∈ store.chunks) :
    store.row? row.spec.id = some row := by
  unfold Keyed at h
  unfold ChunkStore.row?
  generalize store.chunks = rows at h hmem
  induction rows with
  | nil => cases hmem
  | cons head rows ih =>
    obtain ⟨hfresh, hrows⟩ := List.nodup_cons.mp h
    rcases List.mem_cons.mp hmem with rfl | hmem
    · simp
    · have hne : head.spec.id ≠ row.spec.id := by
        intro heq
        exact hfresh (List.mem_map.mpr ⟨row, hmem, heq.symm⟩)
      rw [List.find?_cons_of_neg (by simpa using hne)]
      exact ih hrows hmem

theorem Keyed.loadTransfer (h : Keyed store) (download : DownloadId) :
    ((store.loadTransfer download).map (·.id)).Nodup := by
  have hperm := List.perm_insertionSort (fun a b : ChunkSpec => a.start ≤ b.start)
    ((store.chunks.filter (·.downloadId = download)).map (·.spec))
  have hsub : ((store.chunks.filter (·.downloadId = download)).map (·.spec.id)).Nodup :=
    h.sublist (List.filter_sublist.map _)
  refine (hperm.map _).nodup_iff.mpr ?_
  rw [List.map_map]
  exact hsub

end ChunkStore
end RDownloader
