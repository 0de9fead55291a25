import RDownloader.Http.TransformResume
import RDownloader.Http.Write

/-!
# The connections of a transfer (`rd-http/src/engine.rs`)

`connections` is what `download` starts: one connection for every chunk that is not complete, once
the transform has had its say on the layout. What a connection may write is settled by the response
it gets and by its chunk (`connection_placement`).
-/

namespace RDownloader

inductive ReplayMethod where
  | get | post
  deriving DecidableEq, Repr

/-- A validated transform and the state a continuation may build on. -/
structure TransformPlan where
  transform : StreamTransform
  checkpoint : TransformCheckpoint

structure DownloadRequest where
  totalBytes : Option Nat
  etag : Option String := none
  lastModified : Option String := none
  useRanges : Bool := false
  chunks : List ChunkSpec
  method : ReplayMethod := .get
  approvedOrigins : List String := []
  transform : Option TransformPlan := none

namespace DownloadRequest

/-- The layout a transfer runs. -/
def plannedChunks (request : DownloadRequest) (freshId : ChunkId) : List ChunkSpec :=
  match request.transform with
  | none => request.chunks
  | some plan =>
    (planResume plan.transform freshId request.chunks plan.checkpoint request.totalBytes).chunks

/-- What one connection of the layout is given. -/
def workerFor (request : DownloadRequest) (singleChunk : Bool) (chunk : ChunkSpec) : Worker where
  coversWholeFile := singleChunk ∧ chunk.start = 0 ∧
    (chunk.stop.isNone ∨ chunk.stop = request.totalBytes)
  validator := request.etag.or request.lastModified
  totalBytes := request.totalBytes
  requireRange := request.useRanges
  approvedOrigins := request.approvedOrigins
  transform := request.transform.map (·.transform)

/-- `download` up to its workers: the refusals, then a connection for every incomplete chunk. -/
def connections (request : DownloadRequest) (freshId : ChunkId) :
    Except HttpDownloadError (List (Worker × ChunkSpec)) :=
  let chunks := request.plannedChunks freshId
  if chunks.length > 1 ∧ !request.useRanges then .error .rangeIgnored
  else if !request.useRanges ∧ chunks.any (·.committed > 0) then .error .rangeIgnored
  else if request.method = .post ∧ chunks.length > 1 then .error .rangeIgnored
  else .ok ((chunks.filter (!·.isComplete)).map fun chunk =>
    (request.workerFor (chunks.length = 1) chunk, chunk))

/-! ## What is started -/

variable {request : DownloadRequest}

theorem connections_ok (h : request.connections freshId = .ok started) :
    let chunks := request.plannedChunks freshId
    started = (chunks.filter (!·.isComplete)).map (fun chunk =>
      (request.workerFor (chunks.length = 1) chunk, chunk)) ∧
    (request.useRanges = false → chunks.length ≤ 1 ∧ ∀ chunk ∈ chunks, chunk.committed = 0) := by
  intro chunks
  unfold connections at h
  dsimp only at h
  split at h
  · cases h
  next hmany =>
  split at h
  · cases h
  next hcommitted =>
  split at h
  · cases h
  · refine ⟨(Except.ok.inj h).symm, fun hranges => ?_⟩
    simp only [hranges, Bool.not_false, and_true, true_and, Nat.not_lt, List.any_eq_true,
      decide_eq_true_eq, not_exists, not_and] at hmany hcommitted
    exact ⟨hmany, fun chunk hmem => Nat.le_zero.mp (hcommitted chunk hmem)⟩

/-- The layout a transfer runs is in order when the stored one is. -/
theorem plannedChunks_wellFormed (hchunks : ∀ chunk ∈ request.chunks, chunk.WellFormed)
    (freshId : ChunkId) : ∀ chunk ∈ request.plannedChunks freshId, chunk.WellFormed := by
  intro chunk hmem
  unfold plannedChunks at hmem
  split at hmem
  · exact hchunks chunk hmem
  · next plan _ =>
    cases hint : plan.transform.integrity with
    | none =>
      simp only [planResume, hint] at hmem
      exact hchunks chunk hmem
    | some integrity =>
      rcases StreamTransform.planResume_cases hint hchunks freshId plan.checkpoint
        request.totalBytes with ⟨id, hsingle, -⟩ | ⟨hall, -⟩
      · rw [hsingle, List.mem_singleton] at hmem
        rw [hmem]
        exact ⟨Nat.le_refl 0, fun stop _ => Nat.zero_le stop⟩
      · obtain ⟨stored, hstored, hrewound⟩ := IntegritySpec.exists_rewound hall hmem
        exact hrewound.wellFormed (hchunks stored hstored)

/-! ## Where a response is placed -/

/-- What an accepted response is to a connection of a transfer. -/
inductive Placed (request : DownloadRequest) (freshId : ChunkId) (worker : Worker)
    (chunk : ChunkSpec) (response : Response) : Prop
  /-- The part that was asked for, of an entity that is not of another length. -/
  | range (range : Text) (header : response.contentRange = some range)
    (describes : worker.DescribesRange chunk range)
  /-- The whole file, for the only chunk of the transfer, which is the whole file. -/
  | wholeFile (ranges : request.useRanges = true) (only : request.plannedChunks freshId = [chunk])
    (start : chunk.start = 0) (stop : chunk.stop = none ∨ chunk.stop = request.totalBytes)
    (committed : chunk.committed = 0)
  /-- The answer to a request without a range, for the only chunk of the transfer. -/
  | unranged (ranges : request.useRanges = false) (only : request.plannedChunks freshId = [chunk])
    (committed : chunk.committed = 0)

end DownloadRequest
end RDownloader
