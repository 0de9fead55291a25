import RDownloader.Scheduler.Mirrors

/-!
# Pause and resume (`rd-scheduler/src/control.rs`, `control_batches.rs`)

The control operations of the queue, for one file and for many. A running file is stopped through
its token; the row of any other file is written at once.
-/

namespace RDownloader

/-- Why a worker is being stopped. -/
inductive StopReason where
  | paused
  | cancelled
  /-- Stopped by a policy, with the cause that has to survive the process. -/
  | blocked (reason : String)
  deriving DecidableEq, Repr

/-- What the scheduler keeps of the files in its hands. -/
structure ActiveState where
  /-- The tokens of the running files, and whether they are cancelled. -/
  tokens : DownloadId → Option Bool
  reasons : DownloadId → Option StopReason
  /-- How many resets and removals are working on a file. -/
  held : DownloadId → Nat

namespace ActiveState

def insertReason (active : ActiveState) (id : DownloadId) (reason : StopReason) : ActiveState :=
  { active with reasons := fun other => if other = id then some reason else active.reasons other }

/-- Takes the reason out of a file that no worker runs. -/
def releaseStopGuard (active : ActiveState) (id : DownloadId) : ActiveState :=
  { active with
    reasons := fun other =>
      if other = id ∧ (active.tokens id).isNone then none else active.reasons other }

def cancelToken (active : ActiveState) (id : DownloadId) : ActiveState :=
  { active with
    tokens := fun other => if other = id then (active.tokens id).map fun _ => true
      else active.tokens other }

def isHeld (active : ActiveState) (id : DownloadId) : Bool :=
  0 < active.held id

end ActiveState

structure Scheduler where
  table : DownloadTable
  active : ActiveState

/-- Rows and their answer: what a refused operation has written already stays. -/
abbrev Written := Except Refusal Unit × DownloadTable

def beingReset : Refusal :=
  .wrongState "the download is being reset or removed right now"

section
variable (announced : PackageId → Bool)

namespace DownloadTable

/-- The row of a waiting file moves to `paused`, any other stays as it is. -/
def pause (table : DownloadTable) (id : DownloadId) : Written :=
  match table.row? id with
  | none => (.error (.notFound "download not found"), table)
  | some row =>
    if row.waits then
      match table.transition announced id .paused with
      | .error refusal => (.error refusal, table)
      | .ok table => (.ok (), table)
    else (.ok (), table)

/-- The loop of `stand_down_siblings_of`; the first refusal ends it. -/
def standDown (table : DownloadTable) : List DownloadRow → Written
  | [] => (.ok (), table)
  | sibling :: siblings =>
    if isContending sibling.state then
      match table.transition announced sibling.id .skipped with
      | .error refusal => (.error refusal, table)
      | .ok table => table.standDown siblings
    else table.standDown siblings

/-- `stand_down_siblings_of`: the other members of a waiting mirror's group give up the turn. -/
def standDownSiblingsOf (table : DownloadTable) (id : DownloadId) : Written :=
  match table.row? id with
  | none => (.ok (), table)
  | some file =>
    if file.mirrorGroup.isNone ∨ file.state ≠ .skipped then (.ok (), table)
    else
      let siblings := siblings file (table.inPackage file.packageId)
      match siblings.find? (hasTakenTheTurn ·.state) with
      | some taken => (.error (.mirrorTaken taken.source), table)
      | none => table.standDown announced siblings

/-- The rows of `resume`, for a file no reset or removal holds. -/
def resume (table : DownloadTable) (id : DownloadId) : Written :=
  match table.standDownSiblingsOf announced id with
  | (.error refusal, table) => (.error refusal, table)
  | (.ok (), table) =>
    let failed := (table.row? id).any (·.state = .failed)
    match if failed then table.retryFailed announced id else none with
    | some table => (.ok (), table)
    | none =>
      match table.transition announced id .queued with
      | .error refusal => (.error refusal, table)
      | .ok table => (.ok (), table)

end DownloadTable

namespace Scheduler

/-- `pause`. -/
def pause (scheduler : Scheduler) (id : DownloadId) : Except Refusal Unit × Scheduler :=
  let active := scheduler.active.insertReason id .paused
  match active.tokens id with
  | some _ => (.ok (), { scheduler with active := active.cancelToken id })
  | none =>
    let (answer, table) := scheduler.table.pause announced id
    (answer, { table, active := active.releaseStopGuard id })

/-- `resume`. -/
def resume (scheduler : Scheduler) (id : DownloadId) : Except Refusal Unit × Scheduler :=
  if scheduler.active.isHeld id then (.error beingReset, scheduler)
  else
    let (answer, table) := scheduler.table.resume announced id
    (answer, { table, active := scheduler.active.releaseStopGuard id })

/-- One operation for each file in turn, and the answers. -/
def each (operation : Scheduler → DownloadId → Except Refusal Unit × Scheduler)
    (scheduler : Scheduler) : List DownloadId → List (Except Refusal Unit) × Scheduler
  | [] => ([], scheduler)
  | id :: ids =>
    let (answer, next) := operation scheduler id
    let (answers, last) := each operation next ids
    (answer :: answers, last)

/-- The outcomes of a batch: a file with an answer of its own keeps it, the others have the answers
of the batch in order. -/
def place (own : DownloadId → Option (Except Refusal Unit)) : List DownloadId →
    List (Except Refusal Unit) → List (Except Refusal Unit)
  | [], _ => []
  | id :: ids, answers =>
    match own id, answers with
    | some answer, answers => answer :: place own ids answers
    | none, [] => .ok () :: place own ids []
    | none, answer :: answers => answer :: place own ids answers

/-- `pause_many`: the reasons go in under one lock, the running files are stopped together and the
rest are paused in one transaction. -/
def pauseMany (scheduler : Scheduler) (ids : List DownloadId) :
    List (Except Refusal Unit) × Scheduler :=
  let reasons := ids.foldl (fun active id => active.insertReason id .paused) scheduler.active
  let running := ids.filter fun id => (reasons.tokens id).isSome
  let idle := ids.filter fun id => (reasons.tokens id).isNone
  let stopped := running.foldl (fun active id => active.cancelToken id) reasons
  let (answers, table) := scheduler.table.moveDownloads announced .pause idle
  let active := idle.foldl (fun active id => active.releaseStopGuard id) stopped
  (place (fun id => (reasons.tokens id).map fun _ => .ok ()) ids
    (answers.map (·.map fun _ => ())), { table, active })

/-- The waiting mirrors of a batch go the single resume afterwards, file by file. -/
def answerBatch (scheduler : Scheduler) :
    List DownloadId → List (Except Refusal Bool) → List (Except Refusal Unit) × Scheduler
  | id :: ids, answer :: answers =>
    let (outcome, next) : Except Refusal Unit × Scheduler := match answer with
      | .ok true => (.ok (), scheduler)
      | .ok false => scheduler.resume announced id
      | .error refusal => (.error refusal, scheduler)
    let (outcomes, last) := next.answerBatch ids answers
    (outcome :: outcomes, last)
  | _, _ => ([], scheduler)

/-- `resume_many`. -/
def resumeMany (scheduler : Scheduler) (ids : List DownloadId) :
    List (Except Refusal Unit) × Scheduler :=
  let batch := ids.filter fun id => !scheduler.active.isHeld id
  let active := batch.foldl (fun active id => active.releaseStopGuard id) scheduler.active
  let (answers, table) := scheduler.table.moveDownloads announced .resume batch
  let (outcomes, last) := answerBatch announced { table, active } batch answers
  (place (fun id => if scheduler.active.isHeld id then some (.error beingReset) else none) ids
    outcomes, last)

end Scheduler
end
end RDownloader
