import RDownloader.Db.TransferRows

/-!
# The invariant of the chunk rows

`TransferStore.Sound` is what every write keeps, `TransferStore.Totalled` what every write of chunk
rows restores and a completion breaks where the rows do not add up to the stored size.
-/

namespace RDownloader

namespace ChunkStore

theorem committedSum_congr {store store' : ChunkStore}
    (h : store'.rowsOf download = store.rowsOf download) :
    store'.committedSum download = store.committedSum download := by
  rw [committedSum, committedSum, h]

@[simp] theorem sumCommitted_chunks (store : ChunkStore) (download : DownloadId) :
    (store.sumCommitted download).chunks = store.chunks := rfl

theorem sumCommitted_self (store : ChunkStore) (download : DownloadId) :
    (store.sumCommitted download).committedBytes download = store.committedSum download := by
  simp [sumCommitted, committedSum, rowsOf]

theorem sumCommitted_other {id : DownloadId} (store : ChunkStore) (hne : id ≠ download) :
    (store.sumCommitted download).committedBytes id = store.committedBytes id := by
  simp [sumCommitted, hne]

theorem setCommittedBytes_self (store : ChunkStore) (download : DownloadId) (bytes : Nat) :
    (store.setCommittedBytes download bytes).committedBytes download = bytes := by
  simp [setCommittedBytes]

@[simp] theorem setCommittedBytes_rowsOf (store : ChunkStore) (download : DownloadId)
    (bytes : Nat) : (store.setCommittedBytes download bytes).rowsOf = store.rowsOf := rfl

@[simp] theorem deleteChunks_committedBytes (store : ChunkStore) (download : DownloadId) :
    (store.deleteChunks download).committedBytes = store.committedBytes := rfl

/-- One row's committed offset became `offset`, and its download's sum was computed again. -/
structure Moved (store next : ChunkStore) (row : ChunkRow) (offset : Nat) : Prop where
  found : store.row? row.spec.id = some row
  start_le : row.spec.start ≤ offset
  le_stop : ∀ stop, row.spec.stop = some stop → offset ≤ stop
  written : ∃ f : ChunkRow → ChunkRow,
    (∀ row, (f row).spec = { row.spec with committed := offset } ∧
      (f row).downloadId = row.downloadId) ∧
    next = (store.updateRow row.spec.id f).sumCommitted row.downloadId

namespace Moved

variable {store next : ChunkStore}

/-- A row of after is one of before, moved or left alone. -/
theorem mem (h : Moved store next row offset) (hkeyed : store.Keyed) (hmem : row' ∈ next.chunks) :
    row' ∈ store.chunks ∧ row'.spec.id ≠ row.spec.id ∨
      row'.spec = { row.spec with committed := offset } ∧ row'.downloadId = row.downloadId := by
  obtain ⟨f, hf, rfl⟩ := h.written
  obtain ⟨old, hold, rfl⟩ := List.mem_map.mp hmem
  split
  · next hid =>
    have hsame : some old = some row := (hkeyed.row? hold).symm.trans (hid ▸ h.found)
    obtain rfl := Option.some.inj hsame
    exact .inr (hf old)
  · next hid => exact .inl ⟨hold, hid⟩

theorem ids (h : Moved store next row offset) :
    next.chunks.map (·.spec.id) = store.chunks.map (·.spec.id) := by
  obtain ⟨f, hf, rfl⟩ := h.written
  rw [sumCommitted_chunks, updateRow, List.map_map]
  apply List.map_congr_left
  intro old _
  dsimp only [Function.comp_apply]
  split
  · rw [(hf old).1]
  · rfl

theorem other (h : Moved store next row offset) (hkeyed : store.Keyed)
    (hne : download ≠ row.downloadId) :
    next.rowsOf download = store.rowsOf download ∧
      next.committedBytes download = store.committedBytes download := by
  obtain ⟨f, hf, rfl⟩ := h.written
  refine ⟨?_, sumCommitted_other _ hne⟩
  have howner : ∀ old ∈ store.chunks, old.spec.id = row.spec.id → old.downloadId ≠ download := by
    intro old hold hid
    have hsame : some old = some row := (hkeyed.row? hold).symm.trans (hid ▸ h.found)
    rw [Option.some.inj hsame]
    exact hne.symm
  rw [rowsOf, rowsOf, sumCommitted_chunks, updateRow]
  generalize store.chunks = rows at howner
  induction rows with
  | nil => rfl
  | cons old rows ih =>
    have hrest := ih fun old hold => howner old (List.mem_cons_of_mem _ hold)
    rw [List.map_cons, List.filter_cons, List.filter_cons, hrest]
    by_cases hid : old.spec.id = row.spec.id
    · have hold := howner old (List.mem_cons_self ..) hid
      simp [hid, hold, (hf old).2]
    · simp [hid]

theorem total (h : Moved store next row offset) :
    next.committedBytes row.downloadId = next.committedSum row.downloadId := by
  obtain ⟨f, -, rfl⟩ := h.written
  exact sumCommitted_self ..

end Moved

/-! ## A plan that was stored -/

end ChunkStore

/-! ## Plans -/

/-- The plan cuts its file into so few chunks that each of them starts inside it. -/
def TransferPlan.Few : TransferPlan → Prop
  | balanced _ _ maxChunks => maxChunks ≤ minChunkSize
  | aligned .. | unchunked _ => True

namespace TransferStore

/-! ## What a write does to one download -/

/-- The bytes of the download are those its rows add up to. -/
def Totalled (store : TransferStore) (download : DownloadId) : Prop :=
  store.ledger.committedBytes download = store.ledger.committedSum download

/-- A completion has put the stored size in place of what the rows add up to. -/
def Raised (store : TransferStore) (download : DownloadId) : Prop :=
  store.ledger.committedSum download < store.ledger.committedBytes download ∧
    (store.downloads download).map (·.totalBytes) =
      some (some (store.ledger.committedBytes download))

/-- A write to something else. -/
structure Leaves (store next : TransferStore) (download : DownloadId) : Prop where
  rows : next.ledger.rowsOf download = store.ledger.rowsOf download
  bytes : next.ledger.committedBytes download = store.ledger.committedBytes download
  totalBytes : (next.downloads download).map (·.totalBytes) =
    (store.downloads download).map (·.totalBytes)

variable {store next : TransferStore}

theorem Leaves.totalled (h : Leaves store next download) :
    next.Totalled download ↔ store.Totalled download := by
  rw [Totalled, Totalled, h.bytes, ChunkStore.committedSum_congr h.rows]

theorem Leaves.raised (h : Leaves store next download) :
    next.Raised download ↔ store.Raised download := by
  rw [Raised, Raised, h.bytes, h.totalBytes, ChunkStore.committedSum_congr h.rows]

/-- What every write keeps. -/
structure Sound (store : TransferStore) : Prop where
  keyed : store.ledger.Keyed
  wellFormed : ∀ row ∈ store.ledger.chunks, row.spec.WellFormed
  fresh : ∀ row ∈ store.ledger.chunks, row.spec.id < store.nextChunkId

/-- Whether a write is one its callers make: a plan of few chunks, and whole-file progress only
where there are no chunk rows. -/
def Permitted (store : TransferStore) : TransferWrite → Prop
  | .prepareTransfer _ plan _ _ => plan.Few
  | .setDownloadProgress download _ _ => store.ledger.rowsOf download = []
  | _ => True

/-- What a write leaves behind. -/
structure Effect (store next : TransferStore) (write : TransferWrite) : Prop where
  sound : next.Sound
  download : ∀ id, Leaves store next id ∨ next.ledger.rowsOf id = [] ∨ next.Totalled id ∨
    write = .completeDownload id
  offset : ∀ row ∈ store.ledger.chunks, ∀ row' ∈ next.ledger.chunks,
    row'.spec.id = row.spec.id → row'.spec.committed < row.spec.committed →
      ∃ committed, write = .rewindChunk row.spec.id committed

/-- A row is the only one of its identifier. -/
theorem Sound.eq_of_id (h : store.Sound) (hrow : row ∈ store.ledger.chunks)
    (hrow' : row' ∈ store.ledger.chunks) (hid : row'.spec.id = row.spec.id) : row' = row :=
  Option.some.inj ((h.keyed.row? hrow').symm.trans (hid ▸ h.keyed.row? hrow))

/-- Taking rows away is no change to the others. -/
theorem Sound.sublist (h : store.Sound) (hrows : next.ledger.chunks.Sublist store.ledger.chunks)
    (hnext : next.nextChunkId = store.nextChunkId) : next.Sound where
  keyed := h.keyed.sublist (hrows.map _)
  wellFormed row hmem := h.wellFormed row (hrows.subset hmem)
  fresh row hmem := hnext ▸ h.fresh row (hrows.subset hmem)

theorem completeDownload_spec (h : store.completeDownload download = .ok next) :
    ∃ row, store.downloads download = some row ∧ row.state.canTransitionTo .completed ∧
      next = store.setCompleted download
        (max (row.totalBytes.getD 0) (store.ledger.committedBytes download)) := by
  unfold completeDownload at h
  split at h
  · cases h
  · next row hrow =>
    split at h
    · next hready => exact ⟨row, hrow, hready, (Except.ok.inj h).symm⟩
    · cases h

/-- A completion keeps the sum where the rows add up to the stored size, and raises the bytes to
that size where they do not. -/
theorem completeDownload_raises (h : store.completeDownload download = .ok next)
    (hbefore : store.Totalled download ∨ store.Raised download) :
    next.Totalled download ∨ next.Raised download := by
  obtain ⟨row, hrow, -, rfl⟩ := completeDownload_spec h
  have hle : store.ledger.committedSum download ≤ store.ledger.committedBytes download := by
    rcases hbefore with htotal | hraised
    · exact Nat.le_of_eq htotal.symm
    · exact Nat.le_of_lt hraised.1
  generalize hbytes : max (row.totalBytes.getD 0) (store.ledger.committedBytes download) = bytes
  have hsum : (store.setCompleted download bytes).ledger.committedSum download =
      store.ledger.committedSum download := rfl
  have hself : (store.setCompleted download bytes).ledger.committedBytes download = bytes :=
    store.ledger.setCommittedBytes_self download bytes
  rw [Totalled, Raised, hsum, hself]
  rcases Nat.lt_or_eq_of_le (show store.ledger.committedSum download ≤ bytes by omega) with
    hlt | heq
  · exact .inr ⟨hlt, by simp [setCompleted, updateColumns, hrow]⟩
  · exact .inl heq.symm

/-- The bytes of a download with chunk rows: what the rows add up to, or a completion's figure. -/
def Settled (store : TransferStore) : Prop :=
  ∀ download, store.ledger.rowsOf download ≠ [] → store.Totalled download ∨ store.Raised download

theorem Effect.settled {write : TransferWrite} (heffect : Effect store next write)
    (hsettled : store.Settled) (h : store.write write = .ok next) : next.Settled := by
  intro download hrows
  rcases heffect.download download with hleaves | hnone | htotal | rfl
  · rw [hleaves.totalled, hleaves.raised]
    exact hsettled download (hleaves.rows ▸ hrows)
  · exact absurd hnone hrows
  · exact .inl htotal
  · obtain ⟨row, -, -, hnext⟩ := completeDownload_spec h
    have hsame : next.ledger.rowsOf download = store.ledger.rowsOf download := by rw [hnext]; rfl
    exact completeDownload_raises h (hsettled download (hsame ▸ hrows))

end TransferStore

open TransferStore

end RDownloader
