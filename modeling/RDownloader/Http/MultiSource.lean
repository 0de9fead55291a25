import RDownloader.Db.SourceLedger
import RDownloader.Http.MultiSourceState
import RDownloader.Http.RangeSource

/-!
# One file from several sources at once (`rd-http/src/multisource.rs`)

The parts of `download_from_sources` that run without waiting for a fetch: queueing a chunk of the
request, handing one pending chunk a source, booking one finished fetch, and leaving the loop. Each
is a `Booking`: what is written to the ledger, and the run after it.
-/

namespace RDownloader

/-- What the network does for one fetch. -/
structure Answer where
  response : Response := { status := 206 }
  opening : Opening := .opened
  events : List BodyEvent := []
  deriving DecidableEq, Repr

/-- A fetch that was started and not yet booked: how far it has written, what it still does, and
how it will end. -/
structure Fetch where
  chunk : ChunkSpec
  position : Nat
  startedAt : Nat
  written : Nat
  effects : List WriteEffect
  result : Except HttpDownloadError DownloadOutcome

/-- Where the loop of a run stands. -/
inductive Phase where
  /-- The chunks of the request not looked at yet. -/
  | queueing (chunks : List ChunkSpec)
  /-- The chunks no free source may serve. -/
  | dispatching (waiting : List ChunkSpec)
  | joining
  | ended (outcome : Except HttpDownloadError DownloadOutcome)

/-- One multi-source download in progress. -/
structure SourceRun where
  total : Nat
  singleChunk : Bool
  pieces : Option PieceHashes
  unverified : List (ChunkId × Option Nat)
  pool : Pool
  pending : List ChunkSpec := []
  tasks : List Fetch := []
  /-- The last offset of every chunk confirmed in this run. -/
  confirmed : ChunkId → Option Nat := fun _ => none
  lastError : Option HttpDownloadError := none
  phase : Phase
  /-- Every fetch started so far, chunk and source. -/
  fetches : List (ChunkId × Nat) := []

/-- A source held to account for the piece from `start` to `stop`. -/
structure Blame where
  position : Nat
  start : Nat
  stop : Nat
  deriving DecidableEq, Repr

/-- What one part of the loop writes, the run when all of it was written and the run when a write
failed, which ends it. -/
structure Booking where
  writes : List LedgerWrite := []
  next : SourceRun
  base : SourceRun
  blame : Option Blame := none

/-- The booking of something that writes nothing. -/
def Booking.silent (next : SourceRun) : Booking := { next, base := next }

namespace SourceRun

def endWith (run : SourceRun) (outcome : Except HttpDownloadError DownloadOutcome) : SourceRun :=
  { run with phase := .ended outcome }

/-- Where piece `bad` of the run ends. -/
def pieceEnd (run : SourceRun) (bad : Nat) : Nat :=
  min (bad + (run.pieces.map (·.length)).getD 0) run.total

/-- One chunk of the request: pending when it is incomplete; checked when it is complete and no
earlier run has checked it. -/
def queueChunk (run : SourceRun) (file : Nat → UInt8) (unreadable : Bool) (chunk : ChunkSpec)
    (rest : List ChunkSpec) : Booking :=
  let base := { run with phase := .queueing rest }
  if !chunk.isComplete then .silent { base with pending := base.pending ++ [chunk] } else
  match base.pieces, base.unverified.lookup chunk.id with
  | some pieces, some deliveredBy =>
    if unreadable then .silent (base.endWith (.error (.local "read back"))) else
    match pieces.firstBadPiece file chunk base.total with
    | none => { writes := [.chunkMarked chunk.id deliveredBy true], next := base, base }
    | some bad =>
      let (isolated, pool) := match deliveredBy with
        | some position => base.pool.exclude position
        | none => (false, base.pool)
      let blamed := if isolated then deliveredBy else none
      { writes := blamed.toList.map (.sourceIsolated · codePieceMismatch) ++
          [.chunkRewound chunk.id bad]
        next := { base with
          pool, pending := base.pending ++ [{ chunk with committed := bad }] }
        base
        blame := blamed.map fun position => ⟨position, bad, base.pieceEnd bad⟩ }
  | _, _ => .silent base

/-- `spawn_fetch`. -/
def spawnFetch (run : SourceRun) (chunk : ChunkSpec) (source : SourceEndpoint) (answer : Answer) :
    Fetch :=
  let script :=
    if source.via then fetchVia chunk answer.opening answer.events
    else Worker.run {
      coversWholeFile := run.singleChunk ∧ chunk.start = 0 ∧ chunk.stop = some run.total
      totalBytes := some run.total
      requireRange := true } chunk answer.response answer.events
  { chunk, position := source.position, startedAt := chunk.committed, written := chunk.committed
    effects := script.1, result := script.2 }

/-- One pending chunk: it gets a source, named in the ledger before a byte arrives, or waits. -/
def dispatchChunk (run : SourceRun) (answer : Answer) (chunk : ChunkSpec)
    (rest waiting : List ChunkSpec) : Booking :=
  match run.pool.pick chunk.committed with
  | none => .silent { run with pending := rest, phase := .dispatching (waiting ++ [chunk]) }
  | some (source, pool) =>
    { writes := [.chunkMarked chunk.id (some source.position) false]
      next := { run with
        pool, pending := rest
        tasks := run.tasks ++ [run.spawnFetch chunk source answer]
        fetches := run.fetches ++ [(chunk.id, source.position)] }
      base := run }

/-- A chunk every byte of which arrived: checked against its pieces, then booked to its source, or
rewound to the refused piece with the source isolated. -/
def settleComplete (run : SourceRun) (file : Nat → UInt8) (unreadable : Bool)
    (fetched : Fetch) : Booking :=
  let stop := fetched.chunk.stop.getD run.total
  let chunk := { fetched.chunk with committed := stop }
  if run.pieces.isSome ∧ unreadable then .silent (run.endWith (.error (.local "read back"))) else
  match run.pieces.bind (·.firstBadPiece file chunk run.total) with
  | none =>
    { writes := [.chunkMarked chunk.id (some fetched.position) run.pieces.isSome,
        .sourceDelivered fetched.position (stop - fetched.startedAt)]
      next := run, base := run }
  | some bad =>
    let (isolated, pool) := run.pool.exclude fetched.position
    let blamed := if isolated then some fetched.position else none
    { writes := blamed.toList.map (.sourceIsolated · codePieceMismatch) ++
        [.chunkRewound chunk.id bad]
      next := { run with
        pool
        confirmed := fun id => if id = chunk.id then some bad else run.confirmed id
        pending := run.pending ++ [{ chunk with committed := bad }]
        lastError := some (pieceMismatch bad) }
      base := run
      blame := blamed.map fun position => ⟨position, bad, run.pieceEnd bad⟩ }

/-- A source that failed: what it confirmed stays confirmed, and the chunk goes on from there. -/
def settleFailure (run : SourceRun) (fetched : Fetch) (error : HttpDownloadError) : Booking :=
  let chunk := fetched.chunk
  let confirmed := max ((run.confirmed chunk.id).getD chunk.committed) chunk.committed
  let code := failureCode error
  { writes :=
      (if fetched.startedAt < confirmed then
        [.sourceDelivered fetched.position (confirmed - fetched.startedAt)] else []) ++
      [if code = codeInternalAddress then .sourceIsolated fetched.position code
        else .sourceFailed fetched.position code]
    next := { run with
      pool := (run.pool.exclude fetched.position).2
      pending := run.pending ++ [{ chunk with committed := confirmed }]
      lastError := some error }
    base := run }

/-- Books one finished fetch, released from the pool and taken off the tasks. -/
def settle (run : SourceRun) (file : Nat → UInt8) (unreadable : Bool) (fetched : Fetch) : Booking :=
  match fetched.result with
  | .ok .complete => run.settleComplete file unreadable fetched
  | .ok .paused => .silent (run.endWith (.ok .paused))
  | .error (.local message) => .silent (run.endWith (.error (.local message)))
  | .error (.internal message) => .silent (run.endWith (.error (.internal message)))
  | .error error => run.settleFailure fetched error

/-- The run with task `index` joined: the next round of the loop dispatches again. -/
def joined (run : SourceRun) (index : Nat) (fetched : Fetch) : SourceRun :=
  { run with
    pool := run.pool.release fetched.position
    tasks := run.tasks.eraseIdx index
    phase := .dispatching [] }

/-- The way out of the loop, when no fetch is left. -/
def finish (run : SourceRun) (synced : Bool) : SourceRun :=
  if run.pending = [] then
    run.endWith (if synced then .ok .complete else .error (.local "sync partial file"))
  else if run.pool.heldBack then run.endWith (.error mirrorOffsetUnverified)
  else run.endWith (.error (run.lastError.getD noUsableSource))

end SourceRun

/-! ## What the parts of the loop leave alone -/

/-- The run goes on with the same request and the same fetches; at most sources went out. -/
structure SourceRun.Keeps (run next : SourceRun) : Prop where
  total : next.total = run.total
  pieces : next.pieces = run.pieces
  unverified : next.unverified = run.unverified
  tasks : next.tasks = run.tasks
  fetches : next.fetches = run.fetches
  pool : next.pool = { run.pool with out := next.pool.out }
  out : ∀ position ∈ run.pool.out, position ∈ next.pool.out

namespace SourceRun

theorem Keeps.refl (run : SourceRun) : run.Keeps run :=
  ⟨rfl, rfl, rfl, rfl, rfl, rfl, fun _ => id⟩

theorem keeps_exclude (run : SourceRun) (position : Nat) :
    run.Keeps { run with pool := (run.pool.exclude position).2 } :=
  ⟨rfl, rfl, rfl, rfl, rfl, run.pool.exclude_eq position,
    fun _ hmem => (run.pool.mem_exclude_out position _).mpr (.inr hmem)⟩

/-- Where the loop stands and what is pending is not what a run keeps. -/
theorem Keeps.with {run next : SourceRun} (h : run.Keeps next) (pending : List ChunkSpec)
    (confirmed : ChunkId → Option Nat) (lastError : Option HttpDownloadError) (phase : Phase) :
    run.Keeps { next with pending, confirmed, lastError, phase } :=
  { h with }

theorem queueChunk_keeps (run : SourceRun) (file : Nat → UInt8) (unreadable : Bool)
    (chunk : ChunkSpec) (rest : List ChunkSpec) :
    run.Keeps (run.queueChunk file unreadable chunk rest).next ∧
      run.Keeps (run.queueChunk file unreadable chunk rest).base := by
  have hrest := (Keeps.refl run).with run.pending run.confirmed run.lastError (.queueing rest)
  unfold queueChunk
  dsimp only
  split
  · exact ⟨hrest.with .., hrest.with ..⟩
  split
  · next deliveredBy _ _ =>
    split
    · exact ⟨hrest.with .., hrest.with ..⟩
    · split
      · exact ⟨hrest, hrest⟩
      · cases deliveredBy with
        | none => exact ⟨hrest.with .., hrest⟩
        | some position => exact ⟨(run.keeps_exclude position).with .., hrest⟩
  · exact ⟨hrest, hrest⟩

theorem finish_keeps (run : SourceRun) (synced : Bool) : run.Keeps (run.finish synced) := by
  have hended (outcome) : run.Keeps (run.endWith outcome) := (Keeps.refl run).with ..
  unfold finish
  split
  · exact hended _
  · split <;> exact hended _

theorem settle_keeps (run : SourceRun) (file : Nat → UInt8) (unreadable : Bool) (fetched : Fetch) :
    run.Keeps (run.settle file unreadable fetched).next ∧
      run.Keeps (run.settle file unreadable fetched).base := by
  have hended (outcome) : run.Keeps (run.endWith outcome) := (Keeps.refl run).with ..
  unfold settle
  split
  · unfold settleComplete
    dsimp only
    split
    · exact ⟨hended _, hended _⟩
    · split
      · exact ⟨.refl run, .refl run⟩
      · exact ⟨(run.keeps_exclude fetched.position).with .., .refl run⟩
  · exact ⟨hended _, hended _⟩
  · exact ⟨hended _, hended _⟩
  · exact ⟨hended _, hended _⟩
  · exact ⟨(run.keeps_exclude fetched.position).with .., .refl run⟩

end SourceRun
end RDownloader
