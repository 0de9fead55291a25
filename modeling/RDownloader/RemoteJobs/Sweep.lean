import RDownloader.Lib.Machine
import RDownloader.RemoteJobs.Store

/-!
# The sweep over the remote jobs, and the requests beside it

The sweep reads the due rows once and then drives them one after another, each by the row it read.
Whatever a plugin answers ends in one write, and the process can stop before each of them. Requests
to discard, to choose and to forget come at any time.
-/

namespace RDownloader

open RemoteJobStore

structure JobRefusal where
  code : String
  message : String
  retryable : Bool
  retryAfterSeconds : Option Nat
  deriving DecidableEq, Repr

structure RemoteJobHandle where
  remoteId : String
  accountId : JobAccountId
  jobState : Option String
  deriving DecidableEq, Repr

structure RemoteJobRefused where
  code : String
  message : String
  deriving DecidableEq, Repr

/-- Where a job stands, as one poll described it. The addresses of a finished job go to the
LinkGrabber, and the row keeps the package they went to. -/
inductive PollOutcome
  | preparing (retryAfterSeconds : Option Nat)
  | awaitingChoice (entries : List RemoteJobFile)
  | working (progressPermille : Option Nat)
  | ready
  | refused (refusal : JobRefusal)
  deriving DecidableEq, Repr

def handleOf (job : RemoteJob) : Option RemoteJobHandle :=
  job.remoteId.map fun remoteId => ⟨remoteId, job.accountId, job.jobState⟩

/-- `seconds`. -/
def waitOf (value : Nat) : Instant := 1000 * min value maxPollSeconds

def dueAt (now : Instant) (state : RemoteJobState) (hint : Option Nat) : Instant :=
  now + waitOf ((state.pollDelaySeconds hint).getD maxPollSeconds)

/-- Twice the wait of a row that already waits after a refusal. -/
def backoff (job : RemoteJob) : Nat :=
  let default := (job.state.pollDelaySeconds none).getD maxPollSeconds
  let previous := match job.code, job.nextPollAt with
    | some _, some due =>
      let rounded := Int.tdiv (due - job.updatedAt + 500) 1000
      max (if rounded < 0 then default else rounded.toNat) default
    | _, _ => default
  min (previous * 2) maxPollSeconds

def maxMessage : Nat := 500

def clip (message : String) : String := String.ofList (message.toList.take maxMessage)

/-! ## What the sweep writes -/

def failWrite (code message : String) : AdvanceRemoteJob where
  state := some .failed
  code := some (some code)
  message := some (some (clip message))
  nextPollAt := some none

/-- `refuse`. The wait of a refusal that names none begins at the clock of the write. -/
def refuseWrite (job : RemoteJob) (refusal : JobRefusal) (now clock : Instant) : AdvanceRemoteJob :=
  if !refusal.retryable then failWrite refusal.code refusal.message
  else
    { code := some (some refusal.code)
      message := some (some (clip refusal.message))
      nextPollAt := some (some (match refusal.retryAfterSeconds with
        | some hint => dueAt now job.state (some hint)
        | none => clock + waitOf (backoff job))) }

/-- `named`. -/
def namedWrite (handle : RemoteJobHandle) (adopted : Bool) (now : Instant) : AdvanceRemoteJob where
  remoteId := some handle.remoteId
  jobState := some handle.jobState
  adoptionChecked := adopted
  state := some .preparing
  code := some none
  message := some none
  nextPollAt := some (some (dueAt now .preparing none))

def submittedWrite (job : RemoteJob) (answer : Except JobRefusal RemoteJobHandle)
    (now clock : Instant) : AdvanceRemoteJob :=
  match answer with
  | .ok handle => namedWrite handle false now
  | .error refusal => refuseWrite job refusal now clock

def adoptedWrite (job : RemoteJob) (answer : Except JobRefusal (Option RemoteJobHandle))
    (now clock : Instant) : AdvanceRemoteJob :=
  match answer with
  | .ok (some handle) => namedWrite handle true now
  | .ok none => { adoptionChecked := true }
  | .error refusal => refuseWrite job refusal now clock

/-- `settle`, but for a finished job. -/
def settleWrite (job : RemoteJob) (outcome : PollOutcome) (now clock : Instant) :
    Option AdvanceRemoteJob :=
  match outcome with
  | .preparing retryAfterSeconds => some
    { state := some .preparing, code := some none, message := some none,
      nextPollAt := some (some (dueAt now .preparing retryAfterSeconds)) }
  | .awaitingChoice entries => some
    { state := some .awaitingChoice, entries := some entries, code := some none,
      message := some none, nextPollAt := some none }
  | .working progressPermille => some
    { state := some .working, progressPermille := some progressPermille, code := some none,
      message := some none, nextPollAt := some (some (dueAt now .working none)) }
  | .ready => none
  | .refused refusal => some (refuseWrite job refusal now clock)

/-- The last write of `hand_over`. -/
def readyWrite (packageId : Option CollectorPackageId) : AdvanceRemoteJob where
  state := some .ready
  packageId := packageId
  progressPermille := some (some 1000)
  code := some none
  message := some none
  nextPollAt := some none

/-- A question that is asked again after it was answered ends the job, as `poll_answered` has it. -/
def pollAnswered (job : RemoteJob) (pluginName : String) (outcome : PollOutcome) : PollOutcome :=
  match job.chosen, outcome with
  | _ :: _, .awaitingChoice _ => .refused
    { code := "remote_job.choice_not_kept"
      message := s!"{pluginName} asked for a choice again after it was answered"
      retryable := false
      retryAfterSeconds := none }
  | _, outcome => outcome

/-! ## The requests -/

/-- A request that waits for the provider, and writes the row when it answers. -/
inductive JobRequest
  | choose (id : RemoteJobId) (chosen : List Nat)
  | discard (id : RemoteJobId)
  deriving DecidableEq, Repr

namespace JobRequest

def job : JobRequest → RemoteJobId
  | choose id _ => id
  | discard id => id

/-- What a request writes once the provider took it. -/
def write (now : Instant) : JobRequest → AdvanceRemoteJob
  | choose _ chosen =>
    { state := some .working, chosen := some chosen, code := some none, message := some none,
      nextPollAt := some (some now) }
  | discard _ =>
    { state := some .discarded, code := some (some "remote_job.discarded"),
      message := some (some (clip "removed at the provider on a confirmed request")),
      nextPollAt := some none }

end JobRequest

/-- What `choose` checks before it asks the provider. -/
def chooseRequest (rows : List RemoteJob) (id : RemoteJobId) (requested : List Nat) :
    Except RemoteJobRefused JobRequest :=
  match fetch rows id with
  | none => .error ⟨"remote_job.not_found", "there is no such remote job"⟩
  | some job =>
    if job.state ≠ .awaitingChoice then
      .error ⟨"remote_job.not_awaiting_choice", "this remote job is not waiting for a choice"⟩
    else
      let chosen := job.acceptChoice requested
      if chosen = [] then
        .error ⟨"remote_job.empty_choice",
          "a selection has to name at least one entry the job offered"⟩
      else if (handleOf job).isNone then
        .error ⟨"remote_job.missing_remote_id", "this remote job names no job at the provider"⟩
      else .ok (.choose id chosen)

/-- What `discard` checks before it asks the provider. -/
def discardRequest (rows : List RemoteJob) (id : RemoteJobId) (confirmed : Bool) :
    Except RemoteJobRefused JobRequest :=
  if !confirmed then
    .error ⟨"remote_job.not_confirmed",
      "deleting a job at the provider has to be confirmed explicitly"⟩
  else match fetch rows id with
  | none => .error ⟨"remote_job.not_found", "there is no such remote job"⟩
  | some job =>
    if job.state = .discarded then
      .error ⟨"remote_job.already_discarded",
        "this remote job has already been removed at the provider"⟩
    else if (handleOf job).isNone then
      .error ⟨"remote_job.missing_remote_id", "this remote job names no job at the provider"⟩
    else .ok (.discard id)

/-! ## The sweep -/

/-- How far the sweep is with the job it drives. -/
inductive Driving
  | reading (job : RemoteJob)
  | counting (job : RemoteJob)
  | submitting (job : RemoteJob)
  | submitted (job : RemoteJob)
  | adopting (job : RemoteJob)
  | adopted (job : RemoteJob)
  | polling (job : RemoteJob) (handle : RemoteJobHandle)
  | polled (job : RemoteJob)
  | handingOver (job : RemoteJob)
  | writing (job : RemoteJob) (input : AdvanceRemoteJob)
  deriving DecidableEq, Repr

namespace Driving

def job : Driving → RemoteJob
  | reading job | counting job | submitting job | submitted job | adopting job | adopted job
  | polling job _ | polled job | handingOver job | writing job _ => job

/-- The first step of `drive`. -/
def start (job : RemoteJob) : Driving :=
  match job.submitStep with
  | .submit => reading job
  | .adopt => adopting job
  | .giveUp => writing job (failWrite "remote_job.submit_unconfirmed"
    "two attempts produced no job this installation could name; nothing more is sent")
  | .poll => match handleOf job with
    | none => writing job (failWrite "remote_job.missing_remote_id"
      "the row names no job at the provider")
    | some handle => polling job handle

end Driving

/-- Where the sweep loop stands. -/
inductive JobSweep
  | waiting
  /-- The due rows have been read. -/
  | due (now : Instant) (queue : List RemoteJob)
  /-- Between two rows. -/
  | between (now : Instant) (accounts : List JobAccountId) (queue : List RemoteJob)
  | driving (now : Instant) (accounts : List JobAccountId) (queue : List RemoteJob) (at_ : Driving)
  deriving DecidableEq, Repr

/-- What has been asked of a plugin, and that it held nothing. A submit says which job the row named
when it was called. -/
inductive PluginCall
  | submit (id : RemoteJobId) (named : Option String)
  | adopt (id : RemoteJobId)
  | nothingHeld (id : RemoteJobId)
  deriving DecidableEq, Repr

/-- The rows and the accounts, the sweep, the requests that wait for a provider, the identifiers
rows have been claimed under, and what has been asked of the plugins, the latest first. -/
structure RemoteJobs where
  rows : List RemoteJob := []
  accounts : List JobAccountId := []
  sweep : JobSweep := .waiting
  requests : List JobRequest := []
  claimed : List RemoteJobId := []
  calls : List PluginCall := []
  deriving DecidableEq, Repr

inductive RemoteJobEvent
  | accountAdded (id : JobAccountId)
  | accountDeleted (id : JobAccountId)
  | claims (input : ClaimRemoteJob) (now : Instant)
  | choose (id : RemoteJobId) (requested : List Nat)
  | discard (id : RemoteJobId) (confirmed : Bool)
  /-- The provider took what the request asked for. -/
  | taken (request : JobRequest) (now : Instant)
  | refused (request : JobRequest)
  | forget (id : RemoteJobId)
  | tick (now : Instant) (due : List RemoteJob)
  | accountsRead
  | next
  | sourceRead
  | attemptCounted (clock : Instant)
  /-- The host refused the call before the plugin was asked. -/
  | notSent (refusal : JobRefusal) (clock : Instant)
  | called
  | submitAnswered (answer : Except JobRefusal RemoteJobHandle) (clock : Instant)
  | adoptAnswered (answer : Except JobRefusal (Option RemoteJobHandle)) (clock : Instant)
  | pollAnswered (outcome : PollOutcome) (pluginName : String) (clock : Instant)
  | handedOver (packageId : Option CollectorPackageId)
  | written (clock : Instant)
  /-- What the sweep was about to do failed. -/
  | failed
  /-- The process ends, and starts again. -/
  | stopped

namespace RemoteJobs

/-- One row is done. -/
def rowDone (jobs : RemoteJobs) (now : Instant) (accounts : List JobAccountId)
    (queue : List RemoteJob) : RemoteJobs :=
  { jobs with sweep := .between now accounts queue }

/-- A step of the sweep while it drives a row. -/
def drive (jobs : RemoteJobs) (now : Instant) (accounts : List JobAccountId)
    (queue : List RemoteJob) : Driving → RemoteJobEvent → Option RemoteJobs
  | .reading job, .sourceRead =>
    if (fetch jobs.rows job.id).isSome then
      some { jobs with sweep := .driving now accounts queue (.counting job) }
    else some (jobs.rowDone now accounts queue)
  | .counting job, .attemptCounted clock =>
    match advance jobs.rows job.id { countSubmitAttempt := true } clock with
    | .ok rows => some { jobs with rows, sweep := .driving now accounts queue (.submitting job) }
    | .error _ => some (jobs.rowDone now accounts queue)
  | .submitting job, .notSent refusal clock
  | .adopting job, .notSent refusal clock
  | .polling job _, .notSent refusal clock =>
    some { jobs with
      sweep := .driving now accounts queue (.writing job (refuseWrite job refusal now clock)) }
  | .submitting job, .called =>
    some { jobs with
      sweep := .driving now accounts queue (.submitted job)
      calls := .submit job.id ((fetch jobs.rows job.id).bind (·.remoteId)) :: jobs.calls }
  | .submitted job, .submitAnswered answer clock =>
    some { jobs with
      sweep := .driving now accounts queue (.writing job (submittedWrite job answer now clock)) }
  | .adopting job, .called =>
    some { jobs with
      sweep := .driving now accounts queue (.adopted job)
      calls := .adopt job.id :: jobs.calls }
  | .adopted job, .adoptAnswered answer clock =>
    some { jobs with
      sweep := .driving now accounts queue (.writing job (adoptedWrite job answer now clock))
      calls := match answer with
        | .ok none => .nothingHeld job.id :: jobs.calls
        | _ => jobs.calls }
  | .polling job _, .called =>
    some { jobs with sweep := .driving now accounts queue (.polled job) }
  | .polled job, .pollAnswered outcome pluginName clock =>
    match settleWrite job (RDownloader.pollAnswered job pluginName outcome) now clock with
    | some input => some { jobs with sweep := .driving now accounts queue (.writing job input) }
    | none => some { jobs with sweep := .driving now accounts queue (.handingOver job) }
  | .handingOver job, .handedOver packageId =>
    match fetch jobs.rows job.id with
    | none => some (jobs.rowDone now accounts queue)
    | some current =>
      if current.state.mayAdvanceTo .ready then
        some { jobs with sweep := .driving now accounts queue (.writing job (readyWrite packageId)) }
      else some (jobs.rowDone now accounts queue)
  | .writing job input, .written clock =>
    some { jobs with
      rows := afterAdvance jobs.rows job.id input clock
      sweep := .between now accounts queue }
  | _, .failed => some (jobs.rowDone now accounts queue)
  | _, _ => none

/-- A step of `sweep_loop` and of `sweep_once`. -/
def sweepStep (jobs : RemoteJobs) (event : RemoteJobEvent) : Option RemoteJobs :=
  match jobs.sweep, event with
  | .waiting, .tick now due =>
    if due.Perm (dueJobs jobs.rows now) ∧ due.Pairwise (·.createdAt ≤ ·.createdAt) then
      some { jobs with sweep := .due now due }
    else none
  | .due now queue, .accountsRead => some { jobs with sweep := .between now jobs.accounts queue }
  | .due .., .failed => some { jobs with sweep := .waiting }
  | .between _ _ [], .next => some { jobs with sweep := .waiting }
  | .between now accounts (job :: queue), .next =>
    if !job.state.isPolled then some (jobs.rowDone now accounts queue)
    else if job.accountId ∈ accounts then
      some { jobs with sweep := .driving now accounts queue (.start job) }
    else
      some { jobs with sweep := .driving now accounts queue (.writing job
        (failWrite "remote_job.no_account" "the account this job runs on no longer exists")) }
  | .driving now accounts queue at_, event => jobs.drive now accounts queue at_ event
  | _, _ => none

def step (jobs : RemoteJobs) : RemoteJobEvent → Option RemoteJobs
  | .accountAdded id => some { jobs with accounts := id :: jobs.accounts }
  | .accountDeleted id => some { jobs with
      accounts := jobs.accounts.filter (· ≠ id)
      rows := jobs.rows.filter (·.accountId ≠ id) }
  | .claims input now =>
    -- `RemoteJobId::new` answers an identifier of its own each time.
    if input.id ∈ jobs.claimed then none
    else match claim jobs.accounts jobs.rows input now with
      | .ok rows => some { jobs with rows, claimed := input.id :: jobs.claimed }
      | .error _ => some { jobs with claimed := input.id :: jobs.claimed }
  | .choose id requested =>
    match chooseRequest jobs.rows id requested with
    | .ok request => some { jobs with requests := request :: jobs.requests }
    | .error _ => some jobs
  | .discard id confirmed =>
    match discardRequest jobs.rows id confirmed with
    | .ok request => some { jobs with requests := request :: jobs.requests }
    | .error _ => some jobs
  | .taken request now =>
    if request ∈ jobs.requests then
      some { jobs with
        rows := afterAdvance jobs.rows request.job (request.write now) now
        requests := jobs.requests.erase request }
    else none
  | .refused request =>
    if request ∈ jobs.requests then some { jobs with requests := jobs.requests.erase request }
    else none
  | .forget id => some { jobs with rows := remove jobs.rows id }
  | .stopped => some { jobs with sweep := .waiting, requests := [] }
  | event => jobs.sweepStep event

/-- An installation without remote jobs, and every way on from it. -/
def machine : Machine RemoteJobs RemoteJobEvent where
  initial := (· = {})
  step := step

end RemoteJobs

end RDownloader
