import RDownloader.Core.DownloadState
import RDownloader.Db.SourceLedger
import RDownloader.Http.BalancedPlan
import RDownloader.Lib.Machine

/-!
# The writes of a transfer (`rd-db/src/writer/download_rows_progress.rs`)

Chunk rows and the bytes stored beside them, under every write that touches either: a new chunk
plan, a checkpoint, a rewind, the progress of a runner without chunks, a completion and a reset.
A write that is refused is rolled back.
-/

namespace RDownloader

/-- The columns of `downloads` that these writes read and set, `committed_bytes` apart. -/
structure TransferColumns where
  state : DownloadState
  totalBytes : Option Nat := none
  etag : Option String := none
  lastModified : Option String := none
  deriving DecidableEq, Repr

structure TransferStore where
  ledger : ChunkStore
  downloads : DownloadId → Option TransferColumns
  /-- The next identifier `ChunkId::new` gives out; none is given out twice. -/
  nextChunkId : ChunkId

/-- What a caller of `prepare_transfer` has planned. -/
inductive TransferPlan where
  /-- A worker that probed one source. -/
  | balanced (total : Option Nat) (acceptsRanges : Bool) (maxChunks : Nat)
  /-- A worker with several sources. -/
  | aligned (total maxChunks align : Nat)
  /-- A runner that keeps no chunk rows. -/
  | unchunked (total : Option Nat)
  deriving DecidableEq, Repr

namespace TransferPlan

def total : TransferPlan → Option Nat
  | balanced total _ _ | unchunked total => total
  | aligned total _ _ => some total

def chunks (freshId : ChunkId) : TransferPlan → List ChunkSpec
  | balanced total acceptsRanges maxChunks => planChunks freshId total acceptsRanges maxChunks
  | aligned total maxChunks align => planAlignedChunks freshId total maxChunks align
  | unchunked _ => []

end TransferPlan

namespace ChunkStore

/-- The rows of one download. -/
def rowsOf (store : ChunkStore) (download : DownloadId) : List ChunkRow :=
  store.chunks.filter (·.downloadId = download)

/-- `SUM(committed_offset - start_offset)` over the rows of one download. -/
def committedSum (store : ChunkStore) (download : DownloadId) : Nat :=
  ((store.rowsOf download).map fun row => row.spec.committed - row.spec.start).sum

/-- `INSERT INTO chunks`, under the constraints of the table. -/
def insertChunk (store : ChunkStore) (download : DownloadId) (chunk : ChunkSpec) :
    Except String ChunkStore :=
  if fits : chunk.committed ≤ i64Max then
    if i64Max < chunk.start ∨ chunk.stop.any (i64Max < ·) then
      .error "out of range integral type conversion attempted"
    else if chunk.committed < chunk.start then
      .error "CHECK constraint failed: committed_offset >= start_offset"
    else if store.chunks.any (·.spec.id = chunk.id) then
      .error "UNIQUE constraint failed: chunks.id"
    else if (store.rowsOf download).any (·.spec.start = chunk.start) then
      .error "UNIQUE constraint failed: chunks.download_id, chunks.start_offset"
    else
      .ok { store with
        chunks := store.chunks ++ [{ spec := chunk, downloadId := download, fits }] }
  else .error "out of range integral type conversion attempted"

def insertChunks (store : ChunkStore) (download : DownloadId) :
    List ChunkSpec → Except String ChunkStore
  | [] => .ok store
  | chunk :: chunks => do (← store.insertChunk download chunk).insertChunks download chunks

/-- `DELETE FROM chunks WHERE download_id = ?`. -/
def deleteChunks (store : ChunkStore) (download : DownloadId) : ChunkStore :=
  { store with chunks := store.chunks.filter (·.downloadId ≠ download) }

/-- `UPDATE downloads SET committed_bytes = ? WHERE id = ?`. -/
def setCommittedBytes (store : ChunkStore) (download : DownloadId) (bytes : Nat) : ChunkStore :=
  { store with
    committedBytes := fun id => if id = download then bytes else store.committedBytes id }

end ChunkStore

namespace TransferStore

def updateColumns (store : TransferStore) (download : DownloadId)
    (f : TransferColumns → TransferColumns) : TransferStore :=
  { store with
    downloads := fun id => if id = download then (store.downloads id).map f else store.downloads id }

/-- `prepare_transfer`. -/
def prepareTransfer (store : TransferStore) (download : DownloadId) (total : Option Nat)
    (etag lastModified : Option String) (chunks : List ChunkSpec) :
    Except String TransferStore :=
  if total.any (i64Max < ·) then .error "file size exceeds SQLite range"
  else if (store.downloads download).isNone then .error "download not found"
  else if store.ledger.committedBytes download ≠ 0 then
    .error "cannot replace chunk plan after committed progress"
  else
    ((store.ledger.deleteChunks download).insertChunks download chunks).map fun ledger =>
      { store with ledger }.updateColumns download fun row =>
        { row with totalBytes := total, etag, lastModified }

/-- `checkpoint_chunk`. -/
def checkpointChunk (store : TransferStore) (id : ChunkId) (committedOffset : Nat) :
    Except String TransferStore :=
  (store.ledger.checkpointChunk id committedOffset).map ({ store with ledger := · })

/-- `rewind_chunk`. -/
def rewindChunk (store : TransferStore) (id : ChunkId) (committed : Nat) :
    Except String TransferStore :=
  (store.ledger.rewindChunk id committed).map ({ store with ledger := · })

/-- The row of a finished download that says it moved `bytes`. -/
def setCompleted (store : TransferStore) (download : DownloadId) (bytes : Nat) : TransferStore :=
  { store with ledger := store.ledger.setCommittedBytes download bytes }.updateColumns download
    fun row => { row with state := .completed, totalBytes := some bytes }

/-- `complete_download`: a finished download is complete by definition, so both figures become the
larger of the two. -/
def completeDownload (store : TransferStore) (download : DownloadId) :
    Except String TransferStore :=
  match store.downloads download with
  | none => .error "download not found"
  | some row =>
    if row.state.canTransitionTo .completed then
      .ok (store.setCompleted download
        (max (row.totalBytes.getD 0) (store.ledger.committedBytes download)))
    else .error "download is not ready to complete"

/-- `transition_download`. -/
def transitionDownload (store : TransferStore) (download : DownloadId) (next : DownloadState) :
    Except String TransferStore :=
  match store.downloads download with
  | none => .error "download not found"
  | some row =>
    if row.state.canTransitionTo next then
      .ok (store.updateColumns download fun row => { row with state := next })
    else .error "invalid download transition"

/-- `set_download_progress`: progress written by runners that do not use chunk rows. -/
def setDownloadProgress (store : TransferStore) (download : DownloadId) (committed : Nat)
    (total : Option Nat) : Except String TransferStore :=
  if i64Max < committed then .error "progress exceeds SQLite range"
  else if total.any (i64Max < ·) then .error "total exceeds SQLite range"
  else
    .ok ({ store with ledger := store.ledger.setCommittedBytes download committed }.updateColumns
      download fun row => { row with totalBytes := total.or row.totalBytes })

/-- `reset_transfer`: the partial state is given up. -/
def resetTransfer (store : TransferStore) (download : DownloadId) : TransferStore :=
  { store with
    ledger := (store.ledger.deleteChunks download).setCommittedBytes download 0 }.updateColumns
      download fun row => { row with totalBytes := none, etag := none, lastModified := none }

end TransferStore

/-- One write, as the writer takes them one at a time. -/
inductive TransferWrite where
  | prepareTransfer (download : DownloadId) (plan : TransferPlan)
      (etag lastModified : Option String)
  | checkpointChunk (id : ChunkId) (committedOffset : Nat)
  | rewindChunk (id : ChunkId) (committed : Nat)
  | completeDownload (download : DownloadId)
  | transitionDownload (download : DownloadId) (next : DownloadState)
  | setDownloadProgress (download : DownloadId) (committed : Nat) (total : Option Nat)
  | resetTransfer (download : DownloadId)
  deriving DecidableEq, Repr

namespace TransferStore

/-- The identifiers of planned chunks are used up. -/
def giveOut (store : TransferStore) (chunks : List ChunkSpec) : TransferStore :=
  { store with
    nextChunkId := chunks.foldr (fun chunk next => max (chunk.id + 1) next) store.nextChunkId }

def write (store : TransferStore) : TransferWrite → Except String TransferStore
  | .prepareTransfer download plan etag lastModified =>
    let chunks := plan.chunks store.nextChunkId
    (store.giveOut chunks).prepareTransfer download plan.total etag lastModified chunks
  | .checkpointChunk id committedOffset => store.checkpointChunk id committedOffset
  | .rewindChunk id committed => store.rewindChunk id committed
  | .completeDownload download => store.completeDownload download
  | .transitionDownload download next => store.transitionDownload download next
  | .setDownloadProgress download committed total =>
    store.setDownloadProgress download committed total
  | .resetTransfer download => .ok (store.resetTransfer download)

/-- The rows after a write: those of before where it is refused. -/
def apply (store : TransferStore) (write : TransferWrite) : TransferStore :=
  match store.write write with
  | .ok next => next
  | .error _ => store

end TransferStore

end RDownloader
