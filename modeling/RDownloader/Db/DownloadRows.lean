import RDownloader.Core.DownloadState
import RDownloader.Core.Failure
import RDownloader.Core.Text
import RDownloader.Db.ChunkLedger

/-!
# The rows of `downloads` (`rd-db/src/writer/download_rows.rs`)

State transitions, the batches of them, and the held-back PAR2 verdict that every write of a
package may decide.
-/

namespace RDownloader

abbrev PackageId := Nat

/-- One row of `downloads`. Times are in seconds. -/
structure DownloadRow where
  id : DownloadId
  packageId : PackageId
  source : String := ""
  state : DownloadState
  totalBytes : Option Nat := none
  committedBytes : Nat := 0
  retryCount : Nat := 0
  limitWaits : Nat := 0
  autoRetryRounds : Nat := 0
  nextRetryAt : Option Nat := none
  lastError : Option Failure := none
  blockReason : Option String := none
  accountId : Option Nat := none
  mirrorGroup : Option String := none
  position : Int := 0
  recovery : Bool := false
  createdAt : Nat := 0
  deriving DecidableEq, Repr

/-- The table. Identifiers are its primary key. -/
structure DownloadTable where
  rows : List DownloadRow
  keyed : (rows.map (·.id)).Nodup

/-- Why a write is refused. -/
inductive Refusal where
  | notFound (message : String)
  | wrongState (message : String)
  /-- Another link to the file is already downloading. -/
  | mirrorTaken (source : String)
  deriving DecidableEq, Repr

/-- What the error says. -/
def Refusal.message : Refusal → String
  | notFound message | wrongState message => message
  | mirrorTaken source => "another link to this file is already downloading: " ++ source

/-- The state as its column holds it. -/
def DownloadState.text : DownloadState → String
  | queued => "queued"
  | resolving => "resolving"
  | downloading => "downloading"
  | paused => "paused"
  | retryWait => "retry_wait"
  | verifying => "verifying"
  | repairing => "repairing"
  | extracting => "extracting"
  | seeding => "seeding"
  | skipped => "skipped"
  | blocked => "blocked"
  | failed => "failed"
  | cancelled => "cancelled"
  | completed => "completed"

namespace DownloadTable

def row? (table : DownloadTable) (id : DownloadId) : Option DownloadRow :=
  table.rows.find? (·.id = id)

/-- `UPDATE downloads SET …` for every row, none of which changes its key. -/
def updateAll (table : DownloadTable) (f : DownloadRow → DownloadRow)
    (hf : ∀ row, (f row).id = row.id) : DownloadTable where
  rows := table.rows.map f
  keyed := by
    rw [List.map_map, show (fun row : DownloadRow => row.id) ∘ f = (·.id) from funext hf]
    exact table.keyed

/-- `UPDATE downloads SET … WHERE id = ?`. -/
def update (table : DownloadTable) (id : DownloadId) (f : DownloadRow → DownloadRow)
    (hf : ∀ row, (f row).id = row.id) : DownloadTable :=
  table.updateAll (fun row => if row.id = id then f row else row) fun row => by
    split
    · exact hf row
    · rfl

end DownloadTable

/-! ## The held-back PAR2 verdict (`nzb_queue_verdict.rs`) -/

/-- The code a finished Usenet row carries while its verdict is still open. -/
def awaitingPar2 : String := "usenet.segments_missing_awaiting_par2"

/-- `awaiting_missing` of a row that is being verified. -/
def DownloadRow.awaiting (row : DownloadRow) : Option Nat :=
  if row.state = .verifying then
    (row.lastError.filter (·.code = some awaitingPar2)).map fun failure =>
      (((failure.params.lookup "missing").map (·.toList)).bind Text.parseU64).getD 0
  else none

/-- States that still say something of the package is on its way. -/
def onTheWay : DownloadState → Bool
  | .queued | .resolving | .downloading | .retryWait | .verifying | .repairing => true
  | _ => false

def segmentsMissingNoPar2 (missing : Nat) : Failure :=
  (Failure.coded .permanent "usenet.segments_missing_no_par2"
    (toString missing ++ " segment(s) were unavailable on every server and the NZB contains no " ++
      "PAR2 repair data")).withParam "missing" (toString missing)

/-- The row once its verdict is decided. -/
def DownloadRow.decide (row : DownloadRow) (missing : Nat) (hasPar2 : Bool) : DownloadRow :=
  if hasPar2 then
    { row with
      state := .completed, lastError := none, nextRetryAt := none
      totalBytes := some (max (row.totalBytes.getD 0) row.committedBytes)
      committedBytes := max (row.totalBytes.getD 0) row.committedBytes }
  else
    { row with
      state := .failed, lastError := some (segmentsMissingNoPar2 missing), nextRetryAt := none }

namespace DownloadTable

def inPackage (table : DownloadTable) (package : PackageId) : List DownloadRow :=
  table.rows.filter (·.packageId = package)

/-- Whether the set of a package has settled, so that its held-back verdicts are due. -/
def settled (table : DownloadTable) (package : PackageId) : Bool :=
  !(table.inPackage package).any fun row => row.awaiting.isNone && onTheWay row.state

/-- What `settle_par2_verdicts` makes of a row of a settled package. -/
def verdict (table : DownloadTable) (announced : PackageId → Bool) (row : DownloadRow) :
    DownloadRow :=
  match row.awaiting with
  | none => row
  | some missing =>
    row.decide missing (announced row.packageId ||
      (table.inPackage row.packageId).any fun other => other.id ≠ row.id && other.recovery)

theorem verdict_id (table : DownloadTable) (announced : PackageId → Bool) (row : DownloadRow) :
    (table.verdict announced row).id = row.id := by
  unfold verdict
  split
  · rfl
  · unfold DownloadRow.decide
    split <;> rfl

/-- `settle_par2_verdicts`: decides every held-back verdict of a package whose set has settled.
`announced` tells whether a subject of the package's NZB names a PAR2 file. -/
def settlePar2Verdicts (table : DownloadTable) (announced : PackageId → Bool)
    (package : PackageId) : DownloadTable :=
  if table.settled package then
    table.updateAll
      (fun row => if row.packageId = package then table.verdict announced row else row)
      fun row => by
        split
        · exact table.verdict_id announced row
        · rfl
  else table

/-! ## Single writes -/

/-- The columns a transition sets. -/
def setState (next : DownloadState) (reason : Option String) (row : DownloadRow) : DownloadRow :=
  { row with
    state := next
    lastError := if next = .queued then none else row.lastError
    blockReason := reason }

/-- `transition_download_with_reason`. -/
def transitionWithReason (table : DownloadTable) (announced : PackageId → Bool) (id : DownloadId)
    (next : DownloadState) (reason : Option String) : Except Refusal DownloadTable :=
  match table.row? id with
  | none => .error (.notFound "download not found")
  | some row =>
    if row.state.canTransitionTo next then
      .ok ((table.update id (setState next reason) fun _ => rfl).settlePar2Verdicts announced
        row.packageId)
    else .error (.wrongState
      ("invalid download transition " ++ row.state.text ++ " -> " ++ next.text))

/-- `transition_download`. -/
def transition (table : DownloadTable) (announced : PackageId → Bool) (id : DownloadId)
    (next : DownloadState) : Except Refusal DownloadTable :=
  table.transitionWithReason announced id next none

/-- The columns of a failed row that is queued again with a fresh retry budget. -/
def requeue (row : DownloadRow) : DownloadRow :=
  { row with
    state := .queued, retryCount := 0, limitWaits := 0, nextRetryAt := none, lastError := none
    blockReason := none }

/-- `requeue_failed`: nothing is written where the row is not failed. -/
def requeueFailed (table : DownloadTable) (announced : PackageId → Bool) (id : DownloadId)
    (autoRetry : Bool) : Option DownloadTable :=
  match table.row? id with
  | none => none
  | some row =>
    if row.state = .failed then
      some ((table.update id (fun row =>
        { requeue row with autoRetryRounds := row.autoRetryRounds + autoRetry.toNat })
          fun _ => rfl).settlePar2Verdicts announced row.packageId)
    else none

/-- `retry_failed_download`: a person's resume is no round of the automatic retry. -/
def retryFailed (table : DownloadTable) (announced : PackageId → Bool) (id : DownloadId) :
    Option DownloadTable :=
  table.requeueFailed announced id false

end DownloadTable

/-! ## How an attempt ends (`writer_jobs.rs`) -/

/-- The state a recorded failure leaves. -/
def failureState (failure : Failure) (retryAt : Option Nat) : DownloadState :=
  if retryAt.isSome then .retryWait
  else match failure.category with
    | .authRequired | .accountInvalid | .needsCaptcha | .unsupported => .blocked
    | _ => .failed

/-- The columns `record_failure` sets. Waiting out a limit is no attempt. -/
def setFailure (failure : Failure) (retryAt : Option Nat) (row : DownloadRow) : DownloadRow :=
  let limitWait := retryAt.isSome && failure.category.isLimit
  { row with
    state := failureState failure retryAt
    retryCount := row.retryCount + (!limitWait).toNat
    limitWaits := if limitWait then row.limitWaits + 1 else 0
    nextRetryAt := retryAt
    lastError := some failure }

/-- A finished download is 100 % by definition. -/
def setCompleted (row : DownloadRow) : DownloadRow :=
  { row with
    state := .completed, nextRetryAt := none
    totalBytes := some (max (row.totalBytes.getD 0) row.committedBytes)
    committedBytes := max (row.totalBytes.getD 0) row.committedBytes }

namespace DownloadTable

/-- `record_failure`, whatever state the row is in. -/
def recordFailure (table : DownloadTable) (announced : PackageId → Bool)
    (redact : String → String) (id : DownloadId) (failure : Failure) (retryAt : Option Nat) :
    Except Refusal DownloadTable :=
  match table.row? id with
  | none => .error (.notFound "download not found")
  | some row =>
    .ok ((table.update id (setFailure (failure.redacted redact) retryAt)
      fun _ => rfl).settlePar2Verdicts announced row.packageId)

/-- `complete_download`. -/
def completeDownload (table : DownloadTable) (announced : PackageId → Bool) (id : DownloadId) :
    Except Refusal DownloadTable :=
  match table.row? id with
  | none => .error (.notFound "download not found")
  | some row =>
    if row.state.canTransitionTo .completed then
      .ok ((table.update id setCompleted fun _ => rfl).settlePar2Verdicts announced row.packageId)
    else .error (.wrongState "download is not ready to complete")

/-- `block_download`. -/
def blockDownload (table : DownloadTable) (announced : PackageId → Bool) (id : DownloadId)
    (reason : String) : Except Refusal DownloadTable :=
  table.transitionWithReason announced id .blocked (some reason)

end DownloadTable

/-! ## Batches (`writer_jobs_state_batch.rs`) -/

/-- What a batch does to a row. -/
inductive Move where
  /-- A waiting row to `paused`; any other row stays as it is. -/
  | pause
  /-- Back to `queued`, a failed row with a fresh retry budget. -/
  | resume
  deriving DecidableEq, Repr

def Move.next : Move → DownloadState
  | pause => .paused
  | resume => .queued

/-- A row that waits for its turn. -/
def DownloadRow.waits (row : DownloadRow) : Bool :=
  row.state = .queued || row.state = .retryWait

/-- A mirror that is standing by. -/
def DownloadRow.standsBy (row : DownloadRow) : Bool :=
  row.state = .skipped && row.mirrorGroup.isSome

namespace DownloadTable

/-- One row of a batch: the answer, and the table where it moved. -/
def moveRow (table : DownloadTable) (change : Move) (id : DownloadId) :
    Except Refusal Bool × DownloadTable :=
  match table.row? id with
  | none => (.error (.notFound "download not found"), table)
  | some row =>
    if change = .pause ∧ !row.waits then (.ok false, table)
    else if change = .resume ∧ row.standsBy then (.ok false, table)
    else if change = .resume ∧ row.state = .failed then
      (.ok true, table.update id requeue fun _ => rfl)
    else if !row.state.canTransitionTo change.next then
      (.error (.wrongState
        ("invalid download transition " ++ row.state.text ++ " -> " ++ change.next.text)), table)
    else (.ok true, table.update id (setState change.next none) fun _ => rfl)

/-- The rows of a batch in order, inside its transaction: the answers, the packages of the rows
that moved, and the table. -/
def moveRows (table : DownloadTable) (change : Move) :
    List DownloadId → List (Except Refusal Bool) × List PackageId × DownloadTable
  | [] => ([], [], table)
  | id :: ids =>
    let (answer, next) := table.moveRow change id
    let (answers, packages, last) := next.moveRows change ids
    let moved := if answer matches .ok true then (table.row? id).map (·.packageId) else none
    (answer :: answers, moved.toList ++ packages, last)

/-- `move_downloads`: the rows are written in one transaction, and each package that had one of
them moved is settled once afterwards. -/
def moveDownloads (table : DownloadTable) (announced : PackageId → Bool) (change : Move)
    (ids : List DownloadId) : List (Except Refusal Bool) × DownloadTable :=
  let (answers, packages, last) := table.moveRows change ids
  (answers, packages.eraseDups.foldl (fun table package =>
    table.settlePar2Verdicts announced package) last)

end DownloadTable
end RDownloader
