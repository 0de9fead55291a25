import RDownloader.Http.MultiSource
import RDownloader.Lib.Machine

/-!
# Attempts at a download with sources (`rd-scheduler/src/worker_sources.rs`)

`planTransfer` takes the recorded chunk plan up again or writes a fresh one. `sourceMachine` is a
download over all its attempts: the part file, the rows, and the run in progress, if one is. Fetches
take one step at a time in any order; between two of their steps the loop of the run queues,
dispatches, joins or leaves; a ledger write can fail, and the process can stop at any moment.
-/

namespace RDownloader

/-- What an attempt starts from: the size the probes agreed on, the agreeing sources in their
order, and what the plan needs. -/
structure Attempt where
  total : Nat
  endpoints : List SourceEndpoint
  parallel : Nat
  wholeFileHash : Bool := false
  maxChunks : Nat := 1
  freshId : ChunkId := 0

namespace SourceLedger

/-- One row of a chunk plan. -/
def insertRow (download : DownloadId) (chunk : ChunkSpec) : Except String ChunkRow :=
  if fits : chunk.committed ≤ i64Max then .ok { spec := chunk, downloadId := download, fits }
  else .error "chunk offset exceeds SQLite range"

/-- `prepare_transfer`: replaces the chunk plan of a download with nothing committed. -/
def prepareTransfer (ledger : SourceLedger) (total : Nat) (planned : List ChunkSpec) :
    Except String SourceLedger := do
  if i64Max < total then throw "file size exceeds SQLite range"
  if ledger.chunks.committedBytes ledger.download ≠ 0 then
    throw "cannot replace chunk plan after committed progress"
  let rows ← planned.mapM (insertRow ledger.download)
  return { ledger with
    chunks := { ledger.chunks with
      chunks := ledger.rows.filter (·.downloadId ≠ ledger.download) ++ rows }
    totalBytes := some total }

/-- `load_transfer`: the recorded chunks. -/
def loadTransfer (ledger : SourceLedger) : List ChunkSpec :=
  ledger.chunks.loadTransfer ledger.download

/-- `chunk_marks`, without the chunks that were checked. -/
def unverifiedMarks (ledger : SourceLedger) : List (ChunkId × Option Nat) :=
  (ledger.rows.filter fun row => row.downloadId = ledger.download ∧ !row.verified).map fun row =>
    (row.spec.id, row.sourcePosition)

/-- The sources an attempt may probe. -/
def ready (ledger : SourceLedger) : List Nat :=
  (ledger.sources.filter (·.isolatedCode.isNone)).map (·.position)

/-- `plan_transfer`: the chunks of an attempt, and the rows once they are written down. `none`
where the download is blocked or the plan is refused. -/
def planTransfer (ledger : SourceLedger) (pieces : Option PieceHashes) (attempt : Attempt) :
    Option (List ChunkSpec × SourceLedger) :=
  let recorded := ledger.loadTransfer
  let committed := recorded.any fun chunk => chunk.start < chunk.committed
  if committed ∧ ledger.totalBytes.any (· ≠ attempt.total) then none
  else if recorded = [] ∨ !committed then
    let planned := planAlignedChunks attempt.freshId attempt.total attempt.maxChunks
      ((pieces.map (·.length)).getD 1)
    ((ledger.prepareTransfer attempt.total planned).toOption).map fun ledger => (planned, ledger)
  else some (recorded, ledger)

end SourceLedger

/-- The run an attempt starts. A plan that does not fall on piece boundaries is not checked. -/
def Attempt.run (attempt : Attempt) (pieces : Option PieceHashes) (chunks : List ChunkSpec)
    (ledger : SourceLedger) : SourceRun :=
  let pieces := pieces.filter fun pieces => chunksAligned chunks pieces.length attempt.total
  { total := attempt.total
    singleChunk := chunks.length = 1
    pieces
    unverified := ledger.unverifiedMarks
    pool := {
      sources := attempt.endpoints, parallel := max attempt.parallel 1
      hashBasis := pieces.isSome || attempt.wholeFileHash }
    phase := .queueing chunks }

/-- Bytes a source has sent. -/
structure Delivery where
  position : Nat
  start : Nat
  length : Nat
  deriving DecidableEq, Repr

/-- A download with sources: the part file, the rows and the run in progress. What was delivered
and who was blamed is remembered for the sake of what is said about runs. -/
structure SourceTransfer where
  file : Nat → UInt8
  ledger : SourceLedger
  pieceHashes : Option PieceHashes
  run : Option SourceRun := none
  deliveries : List Delivery := []
  blames : List Blame := []

/-- What fails while one part of the loop is done. -/
structure Fault where
  unreadable : Bool := false
  write : Option Nat := none
  deriving DecidableEq, Repr

inductive SourceEvent where
  | start (attempt : Attempt)
  | queue (fault : Fault)
  | dispatch (answer : Answer) (fault : Option Nat)
  | join (task : Nat) (fault : Fault)
  | finish (synced : Bool)
  /-- A fetch does the next thing of its script. -/
  | advance (task : Nat)
  /-- A write to the file or a checkpoint fails, or the fetch breaks down. -/
  | interrupt (task : Nat) (failure : HttpDownloadError)
  | stop

namespace SourceTransfer

/-- Writes a booking down and goes on with the run after it. A failed write ends the run. -/
def book (transfer : SourceTransfer) (booking : Booking) (fault : Option Nat) : SourceTransfer :=
  let written := transfer.ledger.writeAll fault booking.writes
  { transfer with
    ledger := written.1
    blames := transfer.blames ++ booking.blame.toList
    run := some (if written.2 then booking.next
      else booking.base.endWith (.error (.internal "ledger"))) }

/-- The bytes written at `position` of the file. -/
def writeAt (file : Nat → UInt8) (position : Nat) (bytes : List UInt8) : Nat → UInt8 :=
  fun offset =>
    if position ≤ offset ∧ offset < position + bytes.length then bytes.getD (offset - position) 0
    else file offset

/-- The next effect of task `index`. A checkpoint is confirmed once the ledger has taken it. -/
def advance (transfer : SourceTransfer) (run : SourceRun) (index : Nat) (task : Fetch) :
    Option SourceTransfer :=
  match task.effects with
  | [] => none
  | .write position bytes :: effects => some { transfer with
      file := writeAt transfer.file position bytes
      deliveries := transfer.deliveries ++ [⟨task.position, position, bytes.length⟩]
      run := some { run with
        tasks := run.tasks.set index { task with
          written := task.written + bytes.length, effects } } }
  | .mac _ _ :: effects => some { transfer with
      run := some { run with tasks := run.tasks.set index { task with effects } } }
  | .commit id offset :: effects =>
    match transfer.ledger.chunks.checkpointChunk id offset with
    | .error message => some { transfer with
        run := some { run with
          tasks := run.tasks.set index { task with
            effects := [], result := .error (.internal message) } } }
    | .ok chunks => some { transfer with
        ledger := { transfer.ledger with chunks }
        run := some { run with
          confirmed := fun other => if other = id then some offset else run.confirmed other
          tasks := run.tasks.set index { task with effects } } }

/-- A failure on this machine: of the disk, or of the service itself. -/
def isOwnFailure : HttpDownloadError → Bool
  | .local _ | .internal _ => true
  | _ => false

def step (transfer : SourceTransfer) (event : SourceEvent) : Option SourceTransfer :=
  match event, transfer.run with
  | .start attempt, none =>
    if (attempt.endpoints.map (·.position)).Sublist transfer.ledger.ready then
      (transfer.ledger.planTransfer transfer.pieceHashes attempt).map fun (chunks, ledger) =>
        { transfer with
          ledger, run := some (attempt.run transfer.pieceHashes chunks ledger) }
    else none
  | .stop, some _ => some { transfer with run := none }
  | .queue fault, some run =>
    match run.phase with
    | .queueing [] => some { transfer with run := some { run with phase := .dispatching [] } }
    | .queueing (chunk :: rest) =>
      some (transfer.book (run.queueChunk transfer.file fault.unreadable chunk rest) fault.write)
    | _ => none
  | .dispatch answer fault, some run =>
    match run.phase, run.pending with
    | .dispatching waiting, [] => some { transfer with
        run := some { run with pending := waiting, phase := .joining } }
    | .dispatching waiting, chunk :: rest =>
      some (transfer.book (run.dispatchChunk answer chunk rest waiting) fault)
    | _, _ => none
  | .join index fault, some run =>
    match run.phase, run.tasks[index]? with
    | .joining, some task =>
      if task.effects = [] then
        some (transfer.book ((run.joined index task).settle transfer.file fault.unreadable task)
          fault.write)
      else none
    | _, _ => none
  | .finish synced, some run =>
    match run.phase with
    | .joining =>
      if run.tasks.isEmpty then some { transfer with run := some (run.finish synced) } else none
    | _ => none
  | .advance index, some run => (run.tasks[index]?).bind (transfer.advance run index)
  | .interrupt index failure, some run =>
    (run.tasks[index]?).bind fun task =>
      if isOwnFailure failure then some { transfer with
        run := some { run with
          tasks := run.tasks.set index { task with effects := [], result := .error failure } } }
      else none
  | _, _ => none

end SourceTransfer

/-! ## What a step can do -/

namespace SourceTransfer

/-- The steps of a transfer, with what each of them needs. -/
inductive Stepped (transfer : SourceTransfer) : SourceEvent → SourceTransfer → Prop
  | start {attempt chunks ledger} (idle : transfer.run = none)
      (probed : (attempt.endpoints.map (·.position)).Sublist transfer.ledger.ready)
      (planned : transfer.ledger.planTransfer transfer.pieceHashes attempt =
        some (chunks, ledger)) :
      Stepped transfer (.start attempt) { transfer with
        ledger, run := some (attempt.run transfer.pieceHashes chunks ledger) }
  | stop {run} (running : transfer.run = some run) :
      Stepped transfer .stop { transfer with run := none }
  | queued {run fault} (running : transfer.run = some run) (phase : run.phase = .queueing []) :
      Stepped transfer (.queue fault)
        { transfer with run := some { run with phase := .dispatching [] } }
  | queue {run fault chunk rest} (running : transfer.run = some run)
      (phase : run.phase = .queueing (chunk :: rest)) :
      Stepped transfer (.queue fault)
        (transfer.book (run.queueChunk transfer.file fault.unreadable chunk rest) fault.write)
  | dispatched {run answer fault waiting} (running : transfer.run = some run)
      (phase : run.phase = .dispatching waiting) (pending : run.pending = []) :
      Stepped transfer (.dispatch answer fault)
        { transfer with run := some { run with pending := waiting, phase := .joining } }
  | dispatch {run answer fault waiting chunk rest} (running : transfer.run = some run)
      (phase : run.phase = .dispatching waiting) (pending : run.pending = chunk :: rest) :
      Stepped transfer (.dispatch answer fault)
        (transfer.book (run.dispatchChunk answer chunk rest waiting) fault)
  | join {run index fault task} (running : transfer.run = some run) (phase : run.phase = .joining)
      (task_eq : run.tasks[index]? = some task) (done : task.effects = []) :
      Stepped transfer (.join index fault)
        (transfer.book ((run.joined index task).settle transfer.file fault.unreadable task)
          fault.write)
  | finish {run synced} (running : transfer.run = some run) (phase : run.phase = .joining)
      (none_left : run.tasks = []) :
      Stepped transfer (.finish synced) { transfer with run := some (run.finish synced) }
  | advance {run index task next} (running : transfer.run = some run)
      (task_eq : run.tasks[index]? = some task)
      (advanced : transfer.advance run index task = some next) :
      Stepped transfer (.advance index) next
  | interrupt {run index task failure} (running : transfer.run = some run)
      (task_eq : run.tasks[index]? = some task) (own : isOwnFailure failure) :
      Stepped transfer (.interrupt index failure) { transfer with
        run := some { run with
          tasks := run.tasks.set index { task with effects := [], result := .error failure } } }

theorem stepped {transfer next : SourceTransfer} {event : SourceEvent}
    (h : transfer.step event = some next) : transfer.Stepped event next := by
  unfold step at h
  split at h
  · next idle =>
    split at h
    · next probed =>
      obtain ⟨⟨chunks, ledger⟩, planned, rfl⟩ := Option.map_eq_some_iff.mp h
      exact .start idle probed planned
    · cases h
  · next running =>
    obtain rfl := Option.some.inj h
    exact .stop running
  · next running =>
    split at h
    · next phase =>
      obtain rfl := Option.some.inj h
      exact .queued running phase
    · next phase =>
      obtain rfl := Option.some.inj h
      exact .queue running phase
    · cases h
  · next running =>
    split at h
    · next phase pending =>
      obtain rfl := Option.some.inj h
      exact .dispatched running phase pending
    · next phase pending =>
      obtain rfl := Option.some.inj h
      exact .dispatch running phase pending
    · cases h
  · next running =>
    split at h
    · next phase task_eq =>
      split at h
      · next done =>
        obtain rfl := Option.some.inj h
        exact .join running phase task_eq done
      · cases h
    · cases h
  · next running =>
    split at h
    · next phase =>
      split at h
      · next none_left =>
        obtain rfl := Option.some.inj h
        exact .finish running phase (List.isEmpty_iff.mp none_left)
      · cases h
    · cases h
  · next running =>
    obtain ⟨task, task_eq, advanced⟩ := Option.bind_eq_some_iff.mp h
    exact .advance running task_eq advanced
  · next running =>
    obtain ⟨task, task_eq, hrest⟩ := Option.bind_eq_some_iff.mp h
    split at hrest
    · next own =>
      obtain rfl := Option.some.inj hrest
      exact .interrupt running task_eq own
    · cases hrest
  · cases h

/-- Booking what writes nothing only goes on with the run. -/
theorem book_silent (transfer : SourceTransfer) (next : SourceRun) (fault : Option Nat) :
    transfer.book (.silent next) fault = { transfer with run := some next } := by
  simp [book, Booking.silent, SourceLedger.writeAll]

end SourceTransfer

/-! ## The rows a download starts with -/

/-- Rows in order: one download's, each in itself, one before the other; a bounded one belongs to
the recorded size. -/
structure SourceLedger.Laid (ledger : SourceLedger) : Prop where
  keyed : ledger.chunks.Keyed
  owned : ∀ row ∈ ledger.rows, row.downloadId = ledger.download
  wellFormed : ∀ row ∈ ledger.rows, row.spec.WellFormed
  before : (ledger.rows.map (·.spec)).Pairwise ChunkSpec.Before
  total : ∀ row ∈ ledger.rows, row.spec.stop ≠ none → ledger.totalBytes.isSome

/-- A download no multi-source attempt has touched: no plan, or one of an attempt at its own
address, however far that came; nothing is checked and no source named. -/
structure SourceTransfer.Untouched (transfer : SourceTransfer) : Prop where
  laid : transfer.ledger.Laid
  unmarked : ∀ row ∈ transfer.ledger.rows, row.verified = false ∧ row.sourcePosition = none
  idle : transfer.run = none
  deliveries : transfer.deliveries = []
  blames : transfer.blames = []

/-- A download with sources over all its attempts. -/
def sourceMachine : Machine SourceTransfer SourceEvent where
  initial := SourceTransfer.Untouched
  step := SourceTransfer.step

end RDownloader
