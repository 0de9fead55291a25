import RDownloader.Db.Recovery
import RDownloader.Scheduler.StopRequests

/-!
# The download window (`rd-scheduler/src/download_window.rs`)

The supervisor records the files a closed window is about to pause, pauses them one by one, resumes
the recorded ones that are still paused once their package may download again, and forgets those.
Everybody else goes on between any two of its steps, and the process may stop there.
-/

namespace RDownloader

/-- Who has paused a file. -/
inductive Pauser where
  | window
  | other
  deriving DecidableEq, Repr

/-- What one supervision step has found out so far. -/
structure WindowStep where
  /-- The hold as it was stored. -/
  stored : List DownloadId
  running : List DownloadId
  /-- The packages that may not download now. -/
  closed : PackageId → Bool
  kept : List DownloadId := []
  released : List DownloadId := []
  stopping : List DownloadId := []

inductive WindowPhase where
  | idle
  /-- The recorded files that are still to be looked at. -/
  | look (step : WindowStep) (unseen : List DownloadId)
  /-- The row of a recorded file is read; its stop reason is next. -/
  | lookReason (step : WindowStep) (file : DownloadRow) (unseen : List DownloadId)
  /-- The running files that are still to be looked at. -/
  | choose (step : WindowStep) (unseen : List DownloadId)
  | chooseReason (step : WindowStep) (file : DownloadRow) (unseen : List DownloadId)
  | recordHold (step : WindowStep)
  | pause (step : WindowStep) (rest : List DownloadId)
  | resume (step : WindowStep) (rest : List DownloadId)
  | forget (step : WindowStep)

/-- One resume by the supervisor: whose pause it met, and the row before and after. -/
structure Lift where
  pauser : Option Pauser
  before : Option DownloadRow
  after : Option DownloadRow

/-- The file left the state it was in. -/
def Lift.Moves (lift : Lift) : Prop :=
  lift.before.map (·.state) ≠ lift.after.map (·.state)

structure WindowRun where
  queue : Queue
  /-- The stored `ScheduleHold`. -/
  record : List DownloadId
  phase : WindowPhase
  /-- Who has paused a paused file, or has first asked a running one to pause. -/
  pauser : DownloadId → Option Pauser
  lifts : List Lift := []

inductive WindowEvent where
  /-- The dispatcher, an attempt or a person does something. -/
  | queue (event : QueueEvent)
  /-- The process stops, and the next one starts over the same rows. -/
  | crash
  /-- A supervision step begins and reads the hold, the running files and the gate. -/
  | begin (running : List DownloadId) (closed : PackageId → Bool)
  | proceed
  /-- The request of the present phase fails. -/
  | fails

namespace Queue

def working (queue : Queue) (id : DownloadId) : Bool :=
  (queue.table.row? id).any (·.state.isWorking)

/-- The attempt has read that it is to pause. -/
def noticesPause (queue : Queue) (id : DownloadId) : Bool :=
  (queue.attempts id).any fun attempt => attempt.phase matches .stopping .paused

/-- The queue of the next process. -/
def restart (queue : Queue) (announced : PackageId → Bool) : Queue where
  table := queue.table.recoverInterrupted announced
  active := { tokens := fun _ => none, reasons := fun _ => none, held := fun _ => 0 }
  attempts _ := none
  shutdown := false
  wanted _ := none

/-- `pause`, called by the supervisor. -/
def windowPause (queue : Queue) (announced : PackageId → Bool) (id : DownloadId) : Queue :=
  { queue with
    toScheduler := (queue.toScheduler.pause announced id).2
    wanted := fun other =>
      if other = id ∧ (queue.active.tokens id).isSome then some .paused else queue.wanted other }

/-- `resume`, called by the supervisor. -/
def windowResume (queue : Queue) (announced : PackageId → Bool) (id : DownloadId) : Queue :=
  { queue with toScheduler := (queue.toScheduler.resume announced id).2 }

end Queue

namespace WindowRun

section
variable (announced : PackageId → Bool) (redact : String → String)
  (host : String → Option String)
  -- the column `kind`, which nothing changes, and what is known of the hosts
  (kindOf : DownloadId → DownloadKind) (ignoresRanges : String → Bool)

/-- `DownloadGate::holds`: a live stream does not wait for a window. -/
def holds (closed : PackageId → Bool) (file : DownloadRow) : Bool :=
  kindOf file.id ≠ .record && closed file.packageId

/-- Whether a running transfer can be paused now and pick up where it stopped later. -/
def canResume (file : DownloadRow) : Bool :=
  match file.state with
  | .resolving => kindOf file.id ≠ .record
  | .downloading =>
    match kindOf file.id with
    | .http => file.totalBytes.isSome && !ignoresRanges file.source
    | .usenet | .torrent | .ftp | .sftp | .objectStorage => true
    | .media | .gallery | .record | .plugin => false
  | _ => false

/-- Whose pause a file is in after a step: a pause ends where the row leaves it, and a request to
pause with the attempt it was made to. -/
def settlePauser (before after : Queue) (asked : DownloadId → Option Pauser) (id : DownloadId) :
    Option Pauser :=
  if after.table.paused id then
    if before.table.paused id then asked id else (asked id).or (some .other)
  else if before.table.paused id then none
  else if after.working id && (after.attempts id).isSome then asked id
  else none

/-- Who has asked for a pause once `event` has happened. An attempt that has read its reason pauses
its file whatever is asked afterwards. -/
def askedBy (run : WindowRun) : QueueEvent → DownloadId → Option Pauser
  | .request target reason => fun id =>
    if id = target ∧ (run.queue.active.tokens id).isSome ∧ ¬ run.queue.table.paused id then
      if reason = .paused then (run.pauser id).or (some .other)
      else if run.queue.noticesPause id then run.pauser id
      else none
    else run.pauser id
  | _ => run.pauser

/-- The supervisor asks for a pause. -/
def askedByWindow (run : WindowRun) (target id : DownloadId) : Option Pauser :=
  if id = target ∧ ¬ run.queue.table.paused id then (run.pauser id).or (some .window)
  else run.pauser id

def advance (run : WindowRun) (queue : Queue) (asked : DownloadId → Option Pauser)
    (phase : WindowPhase) : WindowRun :=
  { run with queue, phase, pauser := settlePauser run.queue queue asked }

/-- What the classification makes of a recorded file. -/
def classify (step : WindowStep) (file : DownloadRow) (stopping : Bool) : WindowStep :=
  match file.state with
  | .paused =>
    if holds kindOf step.closed file then { step with kept := step.kept ++ [file.id] }
    else { step with released := step.released ++ [file.id] }
  -- asked to pause and not there yet; the next step finds it paused
  | state =>
    if state.isWorking && stopping then { step with kept := step.kept ++ [file.id] } else step

/-- The next request of a supervision step. -/
def proceed (run : WindowRun) : Option WindowRun :=
  match run.phase with
  | .idle => none
  | .look step [] => some { run with phase := .choose step step.running }
  | .look step (id :: unseen) =>
    match run.queue.table.row? id with
    | none => some { run with phase := .look step unseen }
    | some file => some { run with phase := .lookReason step file unseen }
  | .lookReason step file unseen =>
    let stopping : Bool := run.queue.active.reasons file.id = some .paused
    some { run with phase := .look (classify kindOf step file stopping) unseen }
  | .choose step [] => some { run with phase := .recordHold step }
  | .choose step (id :: unseen) =>
    match run.queue.table.row? id with
    | none => some { run with phase := .choose step unseen }
    | some file =>
      if !holds kindOf step.closed file || !canResume kindOf ignoresRanges file ||
          id ∈ step.kept then
        some { run with phase := .choose step unseen }
      else some { run with phase := .chooseReason step file unseen }
  | .chooseReason step file unseen =>
    -- a stop already asked for is its asker's
    if (run.queue.active.reasons file.id).isSome then
      some { run with phase := .choose step unseen }
    else
      let step := { step with stopping := step.stopping ++ [file.id] }
      some { run with phase := .choose step unseen }
  | .recordHold step =>
    -- recorded before any file is touched
    let record := if step.stopping = [] then run.record else step.stored ++ step.stopping
    some { run with record, phase := .pause step step.stopping }
  | .pause step [] => some { run with phase := .resume step step.released }
  | .pause step (id :: rest) =>
    some (run.advance (run.queue.windowPause announced id) (run.askedByWindow id)
      (.pause step rest))
  | .resume step [] => some { run with phase := .forget step }
  | .resume step (id :: rest) =>
    let queue := run.queue.windowResume announced id
    let lift := ⟨run.pauser id, run.queue.table.row? id, queue.table.row? id⟩
    some { run.advance queue run.pauser (.resume step rest) with lifts := lift :: run.lifts }
  | .forget step =>
    -- forgotten after the resumes
    let kept := step.kept ++ step.stopping
    some { run with record := if kept = step.stored then run.record else kept, phase := .idle }

/-- A request fails: reading or storing ends the step, a pause or resume is only logged. -/
def fail (run : WindowRun) : Option WindowRun :=
  match run.phase with
  | .look _ (_ :: _) | .choose _ (_ :: _) => some { run with phase := .idle }
  | .recordHold step => if step.stopping = [] then none else some { run with phase := .idle }
  | .pause step (_ :: rest) => some { run with phase := .pause step rest }
  | .resume step (id :: rest) =>
    let row := run.queue.table.row? id
    let lift := ⟨run.pauser id, row, row⟩
    some { run with phase := .resume step rest, lifts := lift :: run.lifts }
  | .forget step =>
    if step.kept ++ step.stopping = step.stored then none else some { run with phase := .idle }
  | _ => none

def step (run : WindowRun) : WindowEvent → Option WindowRun
  | .queue event =>
    (run.queue.step announced redact host event).map fun queue =>
      run.advance queue (run.askedBy event) run.phase
  | .crash => some (run.advance (run.queue.restart announced) run.pauser .idle)
  | .begin running closed =>
    if run.phase matches .idle ∧ running.all fun id => (run.queue.active.tokens id).isSome then
      if run.record = [] ∧ running = [] then some run
      else some { run with phase := .look { stored := run.record, running, closed } run.record }
    else none
  | .proceed => run.proceed announced kindOf ignoresRanges
  | .fails => run.fail

/-- A start with no hold on record: whatever is paused has been paused by somebody else. -/
structure Fresh (run : WindowRun) : Prop where
  idle : run.queue.Idle
  record : run.record = []
  phase : run.phase = .idle
  pauser : ∀ id, run.pauser id = if run.queue.table.paused id then some .other else none
  lifts : run.lifts = []

def machine : Machine WindowRun WindowEvent where
  initial := Fresh
  step := step announced redact host kindOf ignoresRanges

end

/-! ## What the window promises -/

/-- The files the present step is about to resume, or finds it may resume. -/
def letting (run : WindowRun) : List DownloadId :=
  match run.phase with
  | .idle | .forget _ => []
  | .look step _ | .choose step _ | .chooseReason step .. | .recordHold step | .pause step _ =>
    step.released
  | .lookReason step file _ =>
    if file.state = .paused then file.id :: step.released else step.released
  | .resume _ rest => rest

/-- The files it keeps on record. -/
def firm (run : WindowRun) : List DownloadId :=
  match run.phase with
  | .idle => run.record
  | .look step unseen => unseen ++ step.kept
  | .lookReason step file unseen =>
    if file.state = .paused then unseen ++ step.kept else file.id :: (unseen ++ step.kept)
  | .choose step _ | .chooseReason step .. | .recordHold step => step.kept
  | .pause step _ | .resume step _ | .forget step => step.kept ++ step.stopping

/-- The files in the hands of the window: those on record, and those it is about to put there. -/
def hands (run : WindowRun) : List DownloadId :=
  match run.phase with
  | .look step _ | .lookReason step .. | .choose step _ | .chooseReason step .. | .recordHold step =>
    run.record ++ step.stopping
  | _ => run.record

/-- The window resumes what it has paused, and all of it. -/
structure Promised (run : WindowRun) : Prop where
  /-- It moves no file it has not paused. -/
  own : ∀ lift ∈ run.lifts, lift.Moves → lift.pauser = some .window
  /-- What it resumes is no longer paused. -/
  lifted : ∀ lift ∈ run.lifts, ∀ row, lift.after = some row → row.state ≠ .paused
  /-- A file in its pause is on record, where its next step finds it. -/
  recorded : ∀ id, run.queue.table.paused id → run.pauser id = some .window → id ∈ run.record
  /-- At the end of a step that leaves only the files it has found closed or stopped itself. -/
  passed : ∀ step, run.phase = .forget step → ∀ id, run.queue.table.paused id →
    run.pauser id = some .window → id ∈ step.kept ++ step.stopping

end WindowRun

/-- Somebody or something has stopped the file, other than by a pause. -/
def DownloadState.isStopped : DownloadState → Bool
  | .retryWait | .skipped | .blocked | .failed | .cancelled => true
  | _ => false

/-- Nothing stands in the way of the row's resume, and no verdict on it is open. -/
structure DownloadRow.Calm (row : DownloadRow) : Prop where
  state : row.state.isStopped = false
  decided : row.awaiting = none

namespace WindowRun

/-- Another stop is asked of an attempt that has already noticed the window's. -/
def supersedes (run : WindowRun) : QueueEvent → Bool
  | .request id reason =>
    reason ≠ .paused && run.pauser id = some .window && run.queue.noticesPause id
  | _ => false

/-- The steps that keep the promise.
- Nobody else pauses a file in the hands of the window; nobody stops one that the present step is
  about to resume, and it gets no further than its transfer; and nobody asks an attempt for
  another stop that has already noticed the window's.
- An attempt does not pause its file between the supervisor's look at the row and at the reason.
- No reset or removal holds a paused file the supervisor resumes, and the store takes the resume. -/
def Undisturbed (announced : PackageId → Bool) (redact : String → String)
    (host : String → Option String) (run : WindowRun) : WindowEvent → Prop
  | .queue event =>
    (∀ next, run.queue.step announced redact host event = some next →
      (∀ id ∈ run.hands, next.table.paused id → ¬ run.queue.table.paused id →
        run.pauser id = some .window) ∧
      ∀ id ∈ run.letting, ∀ row, next.table.row? id = some row → row.Calm) ∧
    run.supersedes event = false
  | .crash | .begin .. => True
  | .proceed =>
    match run.phase with
    | .lookReason _ file _ =>
      file.state.isWorking → run.queue.active.reasons file.id ≠ some .paused →
        ¬ run.queue.table.paused file.id
    | .chooseReason _ file _ =>
      run.queue.active.reasons file.id = none → ¬ run.queue.table.paused file.id
    | .resume _ (id :: _) => run.queue.table.paused id → run.queue.active.isHeld id = false
    | _ => True
  | .fails =>
    match run.phase with
    | .resume _ (id :: _) => ¬ run.queue.table.paused id
    | _ => True

section
variable (announced : PackageId → Bool) (redact : String → String)
  (host : String → Option String)

instance (row : DownloadRow) : Decidable row.Calm :=
  decidable_of_iff (row.state.isStopped = false ∧ row.awaiting = none)
    ⟨fun h => ⟨h.1, h.2⟩, fun h => ⟨h.state, h.decided⟩⟩

instance decidableUndisturbed (run : WindowRun) (event : WindowEvent) :
    Decidable (run.Undisturbed announced redact host event) :=
  match run, event with
  | run, .queue event => inferInstanceAs (Decidable
    ((∀ next ∈ run.queue.step announced redact host event,
      (∀ id ∈ run.hands, next.table.paused id → ¬ run.queue.table.paused id →
        run.pauser id = some .window) ∧
      ∀ id ∈ run.letting, ∀ row ∈ next.table.row? id, row.Calm) ∧
    run.supersedes event = false))
  | _, .crash | _, .begin .. => .isTrue trivial
  | ⟨queue, _, .lookReason _ file _, _, _⟩, .proceed => inferInstanceAs (Decidable
    (file.state.isWorking → queue.active.reasons file.id ≠ some .paused →
      ¬ queue.table.paused file.id))
  | ⟨queue, _, .chooseReason _ file _, _, _⟩, .proceed => inferInstanceAs (Decidable
    (queue.active.reasons file.id = none → ¬ queue.table.paused file.id))
  | ⟨queue, _, .resume _ (id :: _), _, _⟩, .proceed => inferInstanceAs (Decidable
    (queue.table.paused id → queue.active.isHeld id = false))
  | ⟨_, _, .resume _ [], _, _⟩, .proceed | ⟨_, _, .idle, _, _⟩, .proceed
  | ⟨_, _, .look .., _, _⟩, .proceed | ⟨_, _, .choose .., _, _⟩, .proceed
  | ⟨_, _, .recordHold _, _, _⟩, .proceed | ⟨_, _, .pause .., _, _⟩, .proceed
  | ⟨_, _, .forget _, _, _⟩, .proceed => .isTrue trivial
  | ⟨queue, _, .resume _ (id :: _), _, _⟩, .fails => inferInstanceAs (Decidable
    (¬ queue.table.paused id))
  | ⟨_, _, .resume _ [], _, _⟩, .fails | ⟨_, _, .idle, _, _⟩, .fails
  | ⟨_, _, .look .., _, _⟩, .fails | ⟨_, _, .lookReason .., _, _⟩, .fails
  | ⟨_, _, .choose .., _, _⟩, .fails | ⟨_, _, .chooseReason .., _, _⟩, .fails
  | ⟨_, _, .recordHold _, _, _⟩, .fails | ⟨_, _, .pause .., _, _⟩, .fails
  | ⟨_, _, .forget _, _, _⟩, .fails => .isTrue trivial

end
end WindowRun
end RDownloader
