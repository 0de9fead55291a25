import RDownloader.Lib.Machine
import RDownloader.Scheduler.Control
import RDownloader.Scheduler.Failures

/-!
# Attempts and what interrupts them (`rd-scheduler/src/dispatch.rs`, `worker.rs`, `runner.rs`)

The queue as its parties change it: the attempts that run, the control operations that stop them,
and everybody else who writes rows. Every lock section and every write of a row is a step of its
own.
-/

namespace RDownloader

/-- How far an attempt has come. -/
inductive AttemptPhase where
  /-- It holds its slot and has written nothing yet. -/
  | claimed
  /-- Its row waited for a retry and is queued again. -/
  | requeued
  | resolving
  | downloading
  | verifying
  /-- It has noticed the stop and read why. -/
  | stopping (reason : StopReason)
  /-- It has met a failure; `file` is the row `record_error` is given. -/
  | failing (failure : Failure) (file : DownloadRow)
  /-- What to record is decided. -/
  | recording (verdict : Verdict)
  /-- The failure is recorded and the turn goes to another mirror. -/
  | promoting (next : DownloadId)
  /-- It has answered with an error. -/
  | erred (failure : Failure) (panicked : Bool)
  /-- Nothing is left but to give the slot back. -/
  | finished

structure FileAttempt where
  /-- The row as the dispatch pass read it. -/
  file : DownloadRow
  phase : AttemptPhase
  /-- The attempt has ended, and `run_file` records what it answered. -/
  ended : Bool := false

/-- What an attempt does or meets next. -/
inductive AttemptEvent where
  | requeue
  | resolve
  | download
  | verify
  | complete
  /-- A runner answers that its engine keeps working. -/
  | detach (state : DownloadState)
  /-- The attempt parks its file, with a cause of its own. -/
  | block (reason : String)
  /-- It looks at its token and finds it cancelled. -/
  | notice
  | stop
  | meet (failure : Failure)
  /-- The one refresh of a refused account: a retry at once. -/
  | refresh (due : Nat)
  | decide (maxRetries due : Nat)
  | record
  | promote
  /-- A write, a read or a call fails, or the attempt panics. -/
  | err (failure : Failure) (panicked : Bool)
  /-- `run_file` looks at the row an error has left. -/
  | look
  | leave

structure Queue extends Scheduler where
  attempts : DownloadId → Option FileAttempt
  shutdown : Bool
  /-- The stop each running file was last asked for and has not been resumed from. -/
  wanted : DownloadId → Option StopReason

/-- What happens to the queue next. -/
inductive QueueEvent where
  /-- `claim_slot`, for a file the dispatch pass has read. -/
  | claim (file : DownloadRow)
  | attempt (id : DownloadId) (event : AttemptEvent)
  /-- The lock section of `pause`, `cancel` and `block`. -/
  | request (id : DownloadId) (reason : StopReason)
  | release (id : DownloadId)
  | hold (id : DownloadId)
  | letGo (id : DownloadId)
  /-- A transition by anybody but the file's attempt. -/
  | write (id : DownloadId) (next : DownloadState) (reason : Option String)
  /-- `auto_retry_download` or `retry_failed_download`. -/
  | retry (id : DownloadId) (autoRetry : Bool)
  /-- The row of a resume, after its siblings have stood down. -/
  | resume (id : DownloadId)
  | shutDown

namespace DownloadTable

/-- The last part of `resume`: a failed file starts again with a fresh budget. -/
def queueAgain (table : DownloadTable) (announced : PackageId → Bool) (id : DownloadId) :
    Written :=
  let failed := (table.row? id).any (·.state = .failed)
  match if failed then table.retryFailed announced id else none with
  | some table => (.ok (), table)
  | none =>
    match table.transition announced id .queued with
    | .error refusal => (.error refusal, table)
    | .ok table => (.ok (), table)

theorem resume_eq (table : DownloadTable) (announced : PackageId → Bool) (id : DownloadId) :
    table.resume announced id =
      match table.standDownSiblingsOf announced id with
      | (.error refusal, table) => (.error refusal, table)
      | (.ok (), table) => table.queueAgain announced id := rfl

end DownloadTable

namespace ActiveState

/-- Whether a dispatch pass has to leave the file alone. -/
def untouchable (active : ActiveState) (id : DownloadId) : Bool :=
  (active.tokens id).isSome || (active.reasons id).isSome || active.isHeld id

def startToken (active : ActiveState) (id : DownloadId) : ActiveState :=
  { active with tokens := fun other => if other = id then some false else active.tokens other }

/-- The end of `run_file`. -/
def giveBack (active : ActiveState) (id : DownloadId) : ActiveState :=
  { active with
    tokens := fun other => if other = id then none else active.tokens other
    reasons := fun other => if other = id then none else active.reasons other }

def takeHold (active : ActiveState) (id : DownloadId) : ActiveState :=
  { active with held := fun other => active.held other + (other = id : Bool).toNat }

def releaseHold (active : ActiveState) (id : DownloadId) : ActiveState :=
  { active with held := fun other => active.held other - (other = id : Bool).toNat }

def cancelAll (active : ActiveState) : ActiveState :=
  { active with tokens := fun id => (active.tokens id).map fun _ => true }

end ActiveState

/-- An error that is no failure of its own. -/
def transientFailure (message : String) : Failure :=
  .new (.transient none) message

namespace Queue

def setAttempt (queue : Queue) (id : DownloadId) (attempt : Option FileAttempt) : Queue :=
  { queue with attempts := fun other => if other = id then attempt else queue.attempts other }

def setWanted (queue : Queue) (id : DownloadId) (wanted : Option StopReason) : Queue :=
  { queue with wanted := fun other => if other = id then wanted else queue.wanted other }

def enter (queue : Queue) (id : DownloadId) (attempt : FileAttempt) (phase : AttemptPhase) :
    Queue :=
  queue.setAttempt id (some { attempt with phase })

/-- The attempt ends with an error; what goes wrong after its end is only logged. -/
def fault (queue : Queue) (id : DownloadId) (attempt : FileAttempt) (failure : Failure)
    (panicked : Bool) : Queue :=
  queue.enter id attempt (if attempt.ended then .finished else .erred failure panicked)

/-- A write of the attempt: it goes on where the write is accepted. -/
def written (queue : Queue) (id : DownloadId) (attempt : FileAttempt)
    (answer : Except Refusal DownloadTable) (phase : AttemptPhase) : Queue :=
  match answer with
  | .ok table => { queue with table }.enter id attempt phase
  | .error refusal => queue.fault id attempt (transientFailure refusal.message) false

section
variable (announced : PackageId → Bool) (redact : String → String)
  (host : String → Option String)

/-- The row a stop leaves. -/
def writeStop (table : DownloadTable) (id : DownloadId) :
    StopReason → Except Refusal DownloadTable
  | .paused => table.transition announced id .paused
  | .cancelled => table.transition announced id .cancelled
  | .blocked reason => table.blockDownload announced id reason

/-- `transition_stopped`, up to its write: without a reason the service is stopping and the row
stays as it is, or the stop is a pause. -/
def noticed (queue : Queue) (id : DownloadId) : AttemptPhase :=
  match queue.active.reasons id with
  | some reason => .stopping reason
  | none => if queue.shutdown then .finished else .stopping .paused

/-- A transition of the attempt's own row. -/
def moves (queue : Queue) (id : DownloadId) (attempt : FileAttempt) (state : DownloadState)
    (phase : AttemptPhase) : Queue :=
  queue.written id attempt (queue.table.transition announced id state) phase

/-- One step of an attempt. -/
def attemptStep (queue : Queue) (id : DownloadId) (attempt : FileAttempt) :
    AttemptEvent → Option Queue
  | .requeue =>
    match attempt.phase with
    | .claimed =>
      if attempt.file.state = .retryWait then
        some (queue.moves announced id attempt .queued .requeued)
      else none
    | _ => none
  | .resolve =>
    match attempt.phase with
    | .claimed =>
      if attempt.file.state = .retryWait then none
      else some (queue.moves announced id attempt .resolving .resolving)
    | .requeued =>
      some (queue.moves announced id attempt .resolving .resolving)
    | _ => none
  | .download =>
    match attempt.phase with
    | .resolving =>
      some (queue.moves announced id attempt .downloading .downloading)
    | _ => none
  | .verify =>
    match attempt.phase with
    | .downloading =>
      some (queue.moves announced id attempt .verifying .verifying)
    | _ => none
  | .complete =>
    match attempt.phase with
    | .verifying =>
      some (queue.written id attempt (queue.table.completeDownload announced id) .finished)
    | _ => none
  | .detach state =>
    match attempt.phase with
    | .downloading =>
      some (queue.moves announced id attempt state .finished)
    | _ => none
  | .block reason =>
    match attempt.phase with
    | .resolving | .downloading | .verifying =>
      some (queue.written id attempt (queue.table.blockDownload announced id reason) .finished)
    | _ => none
  | .notice =>
    match attempt.phase with
    | .resolving | .downloading =>
      if queue.active.tokens id = some true then
        some (queue.enter id attempt (queue.noticed id))
      else none
    | _ => none
  | .stop =>
    match attempt.phase with
    | .stopping reason =>
      some (queue.written id attempt (writeStop announced queue.table id reason) .finished)
    | _ => none
  | .meet failure =>
    match attempt.phase with
    | .resolving | .downloading | .verifying =>
      some (queue.enter id attempt (.failing failure attempt.file))
    | _ => none
  | .refresh due =>
    match attempt.phase with
    | .failing failure _ =>
      if attempt.ended ∨
          ¬ (failure.category = .authRequired ∨ failure.category = .accountInvalid) then none
      else some (queue.enter id attempt
        (.recording { failure, retryAt := some due, next := none }))
    | _ => none
  | .decide maxRetries due =>
    match attempt.phase with
    | .failing failure file =>
      some (queue.enter id attempt
        (.recording (recordError host queue.table file failure maxRetries due)))
    | _ => none
  | .record =>
    match attempt.phase with
    | .recording verdict =>
      some (queue.written id attempt
        (queue.table.recordFailure announced redact id verdict.failure verdict.retryAt)
        (match verdict.next with
          | some next => .promoting next.id
          | none => .finished))
    | _ => none
  | .promote =>
    match attempt.phase with
    | .promoting next =>
      some (queue.written id attempt (queue.table.transition announced next .queued) .finished)
    | _ => none
  | .err failure panicked =>
    match attempt.phase with
    | .erred _ _ | .finished => none
    | _ => some (queue.fault id attempt failure panicked)
  | .look =>
    match attempt.phase with
    | .erred failure panicked =>
      let attempt := { attempt with ended := true }
      match queue.table.row? id with
      | none => some (queue.enter id attempt .finished)
      | some current =>
        if current.state.isWorking ∨
            panicked ∧ (current.state = .queued ∨ current.state = .retryWait) then
          some (queue.enter id attempt (.failing failure current))
        else some (queue.enter id attempt .finished)
    | _ => none
  | .leave =>
    match attempt.phase with
    | .finished =>
      let queue := { queue with active := queue.active.giveBack id }
      some ((queue.setAttempt id none).setWanted id none)
    | _ => none

def step (queue : Queue) : QueueEvent → Option Queue
  | .claim file =>
    if queue.shutdown ∨ queue.active.untouchable file.id ∨
        ¬ (file.state = .queued ∨ file.state = .retryWait) then none
    else some ({ queue with active := queue.active.startToken file.id }.setAttempt file.id
      (some { file, phase := .claimed }))
  | .attempt id event =>
    match queue.attempts id with
    | some attempt => queue.attemptStep announced redact host id attempt event
    | none => none
  | .request id reason =>
    let active := (queue.active.insertReason id reason).cancelToken id
    if (queue.active.tokens id).isSome then
      some ({ queue with active }.setWanted id (some reason))
    else some { queue with active }
  | .release id => some { queue with active := queue.active.releaseStopGuard id }
  | .hold id =>
    if (queue.active.tokens id).isSome then none
    else some { queue with active := queue.active.takeHold id }
  | .letGo id => some { queue with active := queue.active.releaseHold id }
  | .write id next reason =>
    match queue.table.transitionWithReason announced id next reason with
    | .ok table => some { queue with table }
    | .error _ => some queue
  | .retry id autoRetry =>
    match queue.table.requeueFailed announced id autoRetry with
    | some table => some { queue with table }
    | none => some queue
  | .resume id =>
    match queue.table.queueAgain announced id with
    | (.ok (), table) => some ({ queue with table }.setWanted id none)
    | (.error _, table) => some { queue with table }
  | .shutDown => some { queue with active := queue.active.cancelAll, shutdown := true }

/-- The queue at a start: any rows, nobody running. -/
structure Idle (queue : Queue) : Prop where
  tokens : ∀ id, queue.active.tokens id = none
  attempts : ∀ id, queue.attempts id = none
  wanted : ∀ id, queue.wanted id = none

def machine : Machine Queue QueueEvent where
  initial := Idle
  step := step announced redact host

/-! ## Control operations are runs -/

variable {announced redact host} {queue : Queue} {id : DownloadId}

/-- The operation happens as a run of the queue. -/
def Performs (announced : PackageId → Bool) (redact : String → String)
    (host : String → Option String) (queue : Queue) (done : Scheduler) : Prop :=
  ∃ events next, (machine announced redact host).run queue events = some next ∧
    next.toScheduler = done

theorem Performs.step (event : QueueEvent) {next : Queue} {done : Scheduler}
    (hstep : queue.step announced redact host event = some next)
    (h : next.Performs announced redact host done) : queue.Performs announced redact host done := by
  obtain ⟨events, last, hrun, hdone⟩ := h
  refine ⟨event :: events, last, ?_, hdone⟩
  rw [Machine.run, show (machine announced redact host).step queue event = some next from hstep]
  exact hrun

theorem Performs.done {done : Scheduler} (h : queue.toScheduler = done) :
    queue.Performs announced redact host done :=
  ⟨[], queue, rfl, h⟩

theorem cancelToken_of_idle {active : ActiveState} (hidle : active.tokens id = none) :
    active.cancelToken id = active := by
  rw [ActiveState.cancelToken]
  congr 1
  funext other
  by_cases hid : other = id <;> simp [hid, hidle]

/-- `pause`, as the queue sees it. -/
theorem performs_pause (queue : Queue) (id : DownloadId) :
    queue.Performs announced redact host (queue.toScheduler.pause announced id).2 := by
  rw [Scheduler.pause]
  cases htoken : queue.active.tokens id with
  | some token =>
    have hasked : queue.step announced redact host (.request id .paused) =
        some (Queue.setWanted
          { queue with active := (queue.active.insertReason id .paused).cancelToken id } id
          (some .paused)) := if_pos (by rw [htoken]; rfl)
    have htoken : (queue.active.insertReason id .paused).tokens id = some token := htoken
    simp only [htoken]
    exact .step _ hasked (.done rfl)
  | none =>
    have hasked : queue.step announced redact host (.request id .paused) =
        some { queue with active := queue.active.insertReason id .paused } := by
      have hidle : (queue.active.insertReason id .paused).tokens id = none := htoken
      refine (if_neg (by rw [htoken]; nofun)).trans ?_
      rw [cancelToken_of_idle hidle]
    have htoken : (queue.active.insertReason id .paused).tokens id = none := htoken
    simp only [htoken]
    refine .step _ hasked ?_
    have hreleased : ∀ table, Performs announced redact host
        { queue with table, active := queue.active.insertReason id .paused }
        { table, active := (queue.active.insertReason id .paused).releaseStopGuard id } :=
      fun table => .step (.release id) rfl (.done rfl)
    rw [DownloadTable.pause]
    cases hrow : queue.table.row? id with
    | none => exact hreleased queue.table
    | some row =>
      dsimp only
      split
      · split
        · exact hreleased queue.table
        · next table hmoved =>
          refine .step (.write id .paused none) ?_ (hreleased table)
          have hmoved : queue.table.transitionWithReason announced id .paused none = .ok table :=
            hmoved
          rw [step]
          dsimp only
          rw [hmoved]
      · exact hreleased queue.table

/-- The stand-downs of a resume are writes of their rows. -/
theorem performs_standDown (rows : List DownloadRow) (table : DownloadTable) {done : Scheduler}
    (h : Performs announced redact host { queue with table := (table.standDown announced rows).2 }
      done) :
    Performs announced redact host { queue with table } done := by
  induction rows generalizing table with
  | nil => exact h
  | cons sibling rows ih =>
    rw [DownloadTable.standDown] at h
    split at h
    · split at h
      · exact h
      · next next hmoved =>
        refine .step (.write sibling.id .skipped none) ?_ (ih next h)
        have hmoved : table.transitionWithReason announced sibling.id .skipped none = .ok next :=
          hmoved
        rw [step]
        dsimp only
        rw [hmoved]
    · exact ih table h

theorem performs_standDownSiblingsOf (table : DownloadTable) (id : DownloadId) {done : Scheduler}
    (h : Performs announced redact host
      { queue with table := (table.standDownSiblingsOf announced id).2 } done) :
    Performs announced redact host { queue with table } done := by
  rw [DownloadTable.standDownSiblingsOf] at h
  split at h
  · exact h
  · next file hfile =>
    split at h
    · exact h
    · dsimp only at h
      split at h
      · exact h
      · exact performs_standDown _ table h

theorem performs_queueAgain (queue : Queue) (id : DownloadId) :
    queue.Performs announced redact host
      { queue.toScheduler with table := (queue.table.queueAgain announced id).2 } := by
  cases hqueued : queue.table.queueAgain announced id with
  | mk answer table =>
    have hstep : queue.step announced redact host (.resume id) =
        match (answer, table) with
        | (.ok (), table) => some ({ queue with table }.setWanted id none)
        | (.error _, table) => some { queue with table } := by
      rw [← hqueued]
      rfl
    cases answer <;> exact .step (.resume id) hstep (.done rfl)

/-- `resume`, as the queue sees it. -/
theorem performs_resume (queue : Queue) (id : DownloadId) :
    queue.Performs announced redact host (queue.toScheduler.resume announced id).2 := by
  rw [Scheduler.resume]
  split
  · exact .done rfl
  · refine .step (.release id) rfl ?_
    have hagain : ∀ table, Performs announced redact host
        { queue with table, active := queue.active.releaseStopGuard id }
        { table := (table.queueAgain announced id).2
          active := queue.active.releaseStopGuard id } :=
      fun table => performs_queueAgain _ id
    refine @performs_standDownSiblingsOf announced redact host
      { queue with active := queue.active.releaseStopGuard id } queue.table id _ ?_
    rw [DownloadTable.resume_eq]
    cases queue.table.standDownSiblingsOf announced id with
    | mk answer table =>
      cases answer with
      | error refusal => exact .done rfl
      | ok => exact hagain table

end
end Queue
end RDownloader
