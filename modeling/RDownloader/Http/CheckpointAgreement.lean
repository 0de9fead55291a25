import RDownloader.Http.Engine
import RDownloader.Http.MacCompleteness
import RDownloader.Db.ChunkLedger

/-!
# Engine and ledger on one offset

`planResume` moves a committed offset back in memory, and the ledger takes no offset below the
stored one. `recordsProgress_iff` says for which stored layouts the two agree.
-/

namespace RDownloader

/-- The checkpoints that have reached the ledger at some moment: of every connection an initial
part of those it makes, in any order between connections. `arrivals` is what each body does. -/
structure Interleaves (started : List (Worker × ChunkSpec)) (arrivals : ChunkId → List BodyEvent)
    (run : List (ChunkId × Nat)) : Prop where
  owned : ∀ entry ∈ run, ∃ worker chunk, (worker, chunk) ∈ started ∧ chunk.id = entry.1
  ordered : ∀ worker chunk, (worker, chunk) ∈ started →
    (run.filter (·.1 = chunk.id)).map (·.2) <+:
      WriteEffect.commits (worker.writeBody chunk chunk.committed (arrivals chunk.id)).1

namespace DownloadRequest

/-- Every offset a transfer commits is accepted, however its bodies arrive. -/
def RecordsProgress (request : DownloadRequest) (store : ChunkStore) (freshId : ChunkId) : Prop :=
  ∀ started, request.connections freshId = .ok started →
    ∀ arrivals run, Interleaves started arrivals run →
      ∃ store', store.checkpointAll run = .ok store'

/-- Where the single connection of a layout that was given up ends. -/
def collapsedStop (request : DownloadRequest) (integrity : IntegritySpec) : Option Nat :=
  request.totalBytes.or integrity.boundaries.getLast?

/-- Nothing that is stored has to be taken back. -/
structure Resumable (request : DownloadRequest) (plan : TransformPlan)
    (integrity : IntegritySpec) : Prop where
  aligned : (∀ chunk ∈ request.chunks, integrity.isBoundary chunk.start) →
    ∀ chunk ∈ request.chunks, integrity.Kept (plan.transform.adopt plan.checkpoint) chunk
  unaligned : ∀ first rest, request.chunks = first :: rest →
    (∃ chunk ∈ request.chunks, ¬ integrity.isBoundary chunk.start) →
    request.collapsedStop integrity ≠ some 0 →
    first.committed = 0 ∧ ∀ stop, first.stop = some stop →
      min ((request.collapsedStop integrity).getD i64Max) i64Max ≤ stop

variable {request : DownloadRequest} {plan : TransformPlan} {integrity : IntegritySpec}

/-! ## What is started -/

theorem mem_connections (h : request.connections freshId = .ok started) :
    (∃ worker, (worker, chunk) ∈ started) ↔
      chunk ∈ request.plannedChunks freshId ∧ chunk.isComplete = false := by
  obtain ⟨rfl, -⟩ := connections_ok h
  simp

theorem plannedChunks_aligned (hplan : request.transform = some plan)
    (hint : plan.transform.integrity = some integrity)
    (hchunks : ∀ chunk ∈ request.chunks, chunk.WellFormed)
    (haligned : ∀ chunk ∈ request.chunks, integrity.isBoundary chunk.start) (freshId : ChunkId) :
    List.Forall₂ (integrity.RewoundTo (plan.transform.adopt plan.checkpoint)) request.chunks
      (request.plannedChunks freshId) := by
  rw [plannedChunks, hplan]
  exact (StreamTransform.planResume_aligned hint hchunks haligned freshId plan.checkpoint
    request.totalBytes).1

theorem plannedChunks_unaligned (hplan : request.transform = some plan)
    (hint : plan.transform.integrity = some integrity)
    (hfirst : request.chunks = first :: rest)
    (hunaligned : ∃ chunk ∈ request.chunks, ¬ integrity.isBoundary chunk.start)
    (freshId : ChunkId) :
    request.plannedChunks freshId = [{
      id := first.id, start := 0, stop := request.collapsedStop integrity, committed := 0 }] := by
  rw [plannedChunks, hplan]
  rw [hfirst] at hunaligned
  dsimp only
  rw [hfirst]
  exact (StreamTransform.planResume_unaligned hint hunaligned freshId plan.checkpoint
    request.totalBytes).1

theorem plannedChunks_ids {stored planned : List ChunkSpec}
    (h : List.Forall₂ (integrity.RewoundTo adopted) stored planned) :
    planned.map (·.id) = stored.map (·.id) := by
  induction h with
  | nil => rfl
  | cons hhead _ ih => rw [List.map_cons, List.map_cons, ih, hhead.eq]

end DownloadRequest

/-! ## What reaches the ledger -/

namespace Interleaves

variable {started : List (Worker × ChunkSpec)} {arrivals : ChunkId → List BodyEvent}

/-- Every checkpoint is an offset its connection has come to. -/
theorem within (h : Interleaves started arrivals run)
    (hwf : ∀ worker chunk, (worker, chunk) ∈ started → chunk.WellFormed) {id : ChunkId}
    (hmem : (id, offset) ∈ run) :
    ∃ worker chunk, (worker, chunk) ∈ started ∧ chunk.id = id ∧ chunk.committed ≤ offset ∧
      (∀ stop, chunk.stop = some stop → offset ≤ stop) ∧ offset ≤ max chunk.committed i64Max := by
  obtain ⟨worker, chunk, hstarted, rfl⟩ := h.owned _ hmem
  obtain ⟨hordered, hstop, hlast⟩ := worker.writeLoop_ordered chunk
    (worker.transform.bind (·.macWalker chunk.committed)) chunk.committed chunk.committed
    (arrivals chunk.id) (hwf worker chunk hstarted).committed_le
  have hcommit := (h.ordered worker chunk hstarted).subset (List.mem_map_of_mem
    (List.mem_filter.mpr ⟨hmem, decide_eq_true rfl⟩))
  obtain ⟨hlo, hhi⟩ := hordered.commits.2 offset hcommit
  exact ⟨worker, chunk, hstarted, rfl, hlo,
    fun stop heq => Nat.le_trans hhi (hstop stop heq), Nat.le_trans hhi hlast⟩

/-- The checkpoints of one connection ascend. -/
theorem ascending (h : Interleaves started arrivals run)
    (hwf : ∀ worker chunk, (worker, chunk) ∈ started → chunk.WellFormed) :
    run.Pairwise fun a b => a.1 = b.1 → a.2 ≤ b.2 := by
  apply List.pairwise_iff_forall_sublist.mpr
  intro a b hsub heq
  obtain ⟨worker, chunk, hstarted, hid⟩ := h.owned a (hsub.subset (List.mem_cons_self ..))
  obtain ⟨hordered, -, -⟩ := worker.writeLoop_ordered chunk
    (worker.transform.bind (·.macWalker chunk.committed)) chunk.committed chunk.committed
    (arrivals chunk.id) (hwf worker chunk hstarted).committed_le
  have hpair : [a.2, b.2].Sublist ((run.filter (·.1 = chunk.id)).map (·.2)) := by
    have hfiltered := (hsub.filter (·.1 = chunk.id)).map (·.2)
    simpa [hid, ← heq] using hfiltered
  have hcommits := hpair.trans (h.ordered worker chunk hstarted).sublist
  simpa using hordered.commits.1.sublist hcommits

/-- One connection's first checkpoint alone. -/
theorem single {worker : Worker} (hids : (started.map (·.2.id)).Nodup)
    (hmem : (worker, chunk) ∈ started)
    (hcommits : WriteEffect.commits
      (worker.writeBody chunk chunk.committed (arrivals chunk.id)).1 = offset :: later) :
    Interleaves started arrivals [(chunk.id, offset)] where
  owned := by
    intro entry hentry
    obtain rfl := List.mem_singleton.mp hentry
    exact ⟨worker, chunk, hmem, rfl⟩
  ordered := by
    intro worker' chunk' hmem'
    by_cases hid : chunk'.id = chunk.id
    · have hsame := List.inj_on_of_nodup_map hids hmem' hmem hid
      obtain ⟨rfl, rfl⟩ := Prod.mk.inj hsame
      rw [hcommits]
      exact ⟨later, by simp⟩
    · rw [List.filter_cons_of_neg (by simpa using Ne.symm hid)]
      exact List.nil_prefix

end Interleaves

namespace Worker

/-- A pause before the first byte records where the connection started. -/
theorem commits_paused (worker : Worker) (chunk : ChunkSpec) (position : Nat) :
    WriteEffect.commits (worker.writeBody chunk position [.cancelled]).1 = [position] := rfl

theorem feedWalker_new (transform : Option StreamTransform) (position : Nat) (bytes : List UInt8) :
    ∃ fed, feedWalker (transform.bind (·.macWalker position)) position bytes = .ok fed := by
  cases transform with
  | none => exact ⟨_, rfl⟩
  | some transform =>
    rw [Option.bind_some, StreamTransform.macWalker]
    cases transform.integrity with
    | none => exact ⟨_, rfl⟩
    | some integrity =>
      dsimp only [Option.map_some, feedWalker]
      rw [MacWalker.feed]
      split
      · exact ⟨_, rfl⟩
      · rw [if_neg fun hne => hne rfl]
        exact ⟨_, rfl⟩

/-- One buffer that fits and a pause: where the buffer ended is recorded. -/
theorem commits_buffer (worker : Worker) (chunk : ChunkSpec) (position : Nat) (bytes : List UInt8)
    (hstop : ∀ stop, chunk.stop = some stop → position + bytes.length ≤ stop)
    (hlast : position + bytes.length ≤ i64Max) :
    ∃ later, WriteEffect.commits (worker.writeBody chunk position
      [.buffer bytes false, .cancelled]).1 = (position + bytes.length) :: later := by
  obtain ⟨⟨finished, walker⟩, hfed⟩ := feedWalker_new worker.transform position
    (worker.plaintext position bytes)
  have hfits : ¬ chunk.stop.any (· < position + bytes.length) := by
    cases heq : chunk.stop with
    | none => simp
    | some stop => simpa using hstop stop heq
  have hwritten : worker.writeBytes chunk position bytes
      (worker.transform.bind (·.macWalker position)) =
      .ok (.write position (worker.plaintext position bytes) ::
        finished.map (fun entry => .mac entry.1 entry.2), walker, position + bytes.length) := by
    rw [writeBytes, if_neg hfits, hfed]
    exact if_neg (Nat.not_lt.mpr hlast)
  have hmacs : WriteEffect.commits (finished.map fun entry => .mac entry.1 entry.2) = [] := by
    simp [WriteEffect.commits, List.filterMap_map]
  unfold WriteEffect.commits at hmacs ⊢
  rw [writeBody, writeLoop, hwritten]
  dsimp only
  split <;> simp [writeLoop, hmacs]

end Worker

namespace DownloadRequest

variable {request : DownloadRequest} {plan : TransformPlan} {integrity : IntegritySpec}
  {store : ChunkStore}

/-- A transfer that takes nothing back records all its progress. -/
theorem recordsProgress_of_resumable (hkeyed : store.Keyed)
    (hwf : ∀ row ∈ store.chunks, row.spec.WellFormed) {download : DownloadId}
    (hchunks : request.chunks = store.loadTransfer download)
    (hplan : request.transform = some plan) (hint : plan.transform.integrity = some integrity)
    (freshId : ChunkId) (hresumable : request.Resumable plan integrity) :
    request.RecordsProgress store freshId := by
  have hstored : ∀ chunk ∈ request.chunks, chunk.WellFormed ∧
      ∃ row, store.row? chunk.id = some row ∧ row.spec = chunk := by
    intro chunk hmem
    rw [hchunks] at hmem
    obtain ⟨row, hrow, -, rfl⟩ := store.mem_loadTransfer.mp hmem
    exact ⟨hwf row hrow, row, hkeyed.row? hrow, rfl⟩
  intro started hstarted arrivals run hrun
  have hplanned := plannedChunks_wellFormed (fun chunk hmem => (hstored chunk hmem).1) freshId
  have hstartedWf : ∀ worker chunk, (worker, chunk) ∈ started → chunk.WellFormed :=
    fun worker chunk hmem => hplanned chunk ((mem_connections hstarted).mp ⟨worker, hmem⟩).1
  refine store.checkpointAll_ok run (fun entry hmem => ?_) (hrun.ascending hstartedWf)
  obtain ⟨worker, chunk, hmem, hid, hlo, hstop, hlast⟩ := hrun.within hstartedWf hmem
  obtain ⟨hmemPlanned, hincomplete⟩ := (mem_connections hstarted).mp ⟨worker, hmem⟩
  rw [← hid]
  by_cases haligned : ∀ chunk ∈ request.chunks, integrity.isBoundary chunk.start
  · obtain ⟨stored, hmemStored, hrewound⟩ := IntegritySpec.exists_rewound
      (plannedChunks_aligned hplan hint (fun chunk hmem => (hstored chunk hmem).1) haligned
        freshId) hmemPlanned
    obtain ⟨hstoredWf, row, hrow, rfl⟩ := hstored stored hmemStored
    have hsame : chunk = row.spec := by
      rw [hrewound.eq, hrewound.unmoved (hresumable.aligned haligned row.spec hmemStored)]
    subst hsame
    refine ⟨row, hrow, hlo, Nat.le_trans hstoredWf.start_le hlo, hstop, ?_⟩
    rwa [Nat.max_eq_right row.fits] at hlast
  · have hunaligned : ∃ chunk ∈ request.chunks, ¬ integrity.isBoundary chunk.start := by
      simpa using haligned
    cases hfirst : request.chunks with
    | nil => simp [hfirst] at hunaligned
    | cons first rest =>
      rw [plannedChunks_unaligned hplan hint hfirst hunaligned, List.mem_singleton] at hmemPlanned
      subst hmemPlanned
      obtain ⟨hfirstWf, row, hrow, rfl⟩ := hstored first (hfirst ▸ List.mem_cons_self ..)
      have hlast' : entry.2 ≤ i64Max := by simpa using hlast
      have hopen : request.collapsedStop integrity ≠ some 0 := by
        intro hzero
        simp [ChunkSpec.isComplete, hzero] at hincomplete
      obtain ⟨hcommitted, hbound⟩ := hresumable.unaligned _ rest hfirst hunaligned hopen
      refine ⟨row, hrow, ?_, ?_, fun stop heq => ?_, hlast'⟩
      · rw [hcommitted]; exact Nat.zero_le _
      · have := hfirstWf.start_le
        rw [hcommitted] at this
        exact Nat.le_trans this (Nat.zero_le _)
      · refine Nat.le_trans (Nat.le_min.mpr ⟨?_, hlast'⟩) (hbound stop heq)
        cases hend : request.collapsedStop integrity with
        | none => exact hlast'
        | some last => exact hstop last hend

/-- A started connection whose first checkpoint its row does not take. -/
theorem not_recordsProgress (hstarted : request.connections freshId = .ok started)
    (hids : (started.map (·.2.id)).Nodup) {worker : Worker} (hmem : (worker, chunk) ∈ started)
    (events : List BodyEvent)
    (hcommits : WriteEffect.commits (worker.writeBody chunk chunk.committed events).1 =
      offset :: later)
    (hrow : store.row? chunk.id = some row) (hbad : ¬ ChunkStore.Admits row offset) :
    ¬ request.RecordsProgress store freshId := by
  intro h
  exact store.checkpointAll_error hrow hbad
    (h started hstarted (fun _ => events) _ (.single hids hmem hcommits))

theorem connections_ids (hstarted : request.connections freshId = .ok started)
    (hids : ((request.plannedChunks freshId).map (·.id)).Nodup) :
    (started.map (·.2.id)).Nodup := by
  obtain ⟨rfl, -⟩ := connections_ok hstarted
  rw [List.map_map]
  exact hids.sublist (List.filter_sublist.map _)

/-- What was taken back, or is not where the row ends, is refused at the first checkpoint. -/
theorem resumable_of_recordsProgress (hkeyed : store.Keyed)
    (hwf : ∀ row ∈ store.chunks, row.spec.WellFormed) {download : DownloadId}
    (hchunks : request.chunks = store.loadTransfer download)
    (hplan : request.transform = some plan) (hint : plan.transform.integrity = some integrity)
    (hstarted : request.connections freshId = .ok started)
    (hrecords : request.RecordsProgress store freshId) : request.Resumable plan integrity := by
  have hstored : ∀ chunk ∈ request.chunks, chunk.WellFormed ∧
      ∃ row, store.row? chunk.id = some row ∧ row.spec = chunk := by
    intro chunk hmem
    rw [hchunks] at hmem
    obtain ⟨row, hrow, -, rfl⟩ := store.mem_loadTransfer.mp hmem
    exact ⟨hwf row hrow, row, hkeyed.row? hrow, rfl⟩
  refine ⟨fun haligned chunk hmem => ?_, fun first rest hfirst hunaligned hopen => ?_⟩
  · have hrewound := plannedChunks_aligned hplan hint (fun chunk hmem => (hstored chunk hmem).1)
      haligned freshId
    obtain ⟨planned, hplanned, hone⟩ := IntegritySpec.exists_rewound_of hrewound hmem
    obtain ⟨hchunkWf, row, hrow, rfl⟩ := hstored chunk hmem
    refine Classical.byContradiction fun hkept => ?_
    have hback : planned.committed < row.spec.committed :=
      Nat.lt_of_le_of_ne hone.le_committed fun heq => hkept (hone.unmoved_iff.mp heq)
    have hid : planned.id = row.spec.id := by rw [hone.eq]
    have hstop : planned.stop = row.spec.stop := by rw [hone.eq]
    have hincomplete : planned.isComplete = false := by
      cases heq : row.spec.stop with
      | none => simp [ChunkSpec.isComplete, hstop, heq]
      | some stop =>
        have := Nat.lt_of_lt_of_le hback (hchunkWf.committed_le stop heq)
        simpa [ChunkSpec.isComplete, hstop, heq] using this
    have hids : ((request.plannedChunks freshId).map (·.id)).Nodup := by
      rw [plannedChunks_ids hrewound, hchunks]
      exact hkeyed.loadTransfer download
    obtain ⟨worker, hworker⟩ := (mem_connections hstarted).mpr ⟨hplanned, hincomplete⟩
    refine not_recordsProgress hstarted (connections_ids hstarted hids) hworker [.cancelled]
      (worker.commits_paused planned planned.committed) (hid ▸ hrow) (fun hadmits => ?_) hrecords
    exact absurd hadmits.committed_le (Nat.not_le.mpr hback)
  · have hplanned := plannedChunks_unaligned hplan hint hfirst hunaligned freshId
    obtain ⟨hfirstWf, row, hrow, rfl⟩ := hstored first (hfirst ▸ List.mem_cons_self ..)
    have hids : ((request.plannedChunks freshId).map (·.id)).Nodup := by
      rw [hplanned]
      exact List.nodup_singleton _
    have hincomplete : ChunkSpec.isComplete {
        id := row.spec.id, start := 0, stop := request.collapsedStop integrity
        committed := 0 } = false := by
      cases hend : request.collapsedStop integrity with
      | none => rfl
      | some last =>
        have hne : last ≠ 0 := fun hzero => hopen (hzero ▸ hend)
        simpa [ChunkSpec.isComplete] using hne
    obtain ⟨worker, hworker⟩ := (mem_connections hstarted).mpr
      ⟨hplanned ▸ List.mem_singleton.mpr rfl, hincomplete⟩
    refine ⟨?_, fun stop hstop => ?_⟩
    · refine Decidable.byContradiction fun hcommitted => ?_
      refine not_recordsProgress hstarted (connections_ids hstarted hids) hworker [.cancelled]
        (worker.commits_paused _ 0) hrow (fun hadmits => ?_) hrecords
      exact hcommitted (Nat.le_zero.mp hadmits.committed_le)
    · refine Nat.le_of_not_lt fun hshort => ?_
      obtain ⟨hend, hlast⟩ := Nat.lt_min.mp hshort
      have hfits : ∀ last, request.collapsedStop integrity = some last →
          0 + (List.replicate (stop + 1) (0 : UInt8)).length ≤ last := by
        intro last heq
        rw [heq] at hend
        rw [List.length_replicate, Nat.zero_add]
        exact hend
      have hlast' : 0 + (List.replicate (stop + 1) (0 : UInt8)).length ≤ i64Max := by
        rw [List.length_replicate, Nat.zero_add]
        exact hlast
      obtain ⟨later, hlater⟩ := worker.commits_buffer {
        id := row.spec.id, start := 0, stop := request.collapsedStop integrity
        committed := 0 } 0 (List.replicate (stop + 1) 0) hfits hlast'
      refine not_recordsProgress hstarted (connections_ids hstarted hids) hworker _ hlater hrow
        (fun hadmits => ?_) hrecords
      have hpast := hadmits.le_stop stop hstop
      rw [List.length_replicate, Nat.zero_add] at hpast
      exact Nat.not_succ_le_self stop hpast

/-- A transformed transfer can record all its progress exactly when it is refused up front or has
nothing to take back. -/
theorem recordsProgress_iff (store : ChunkStore) (hkeyed : store.Keyed)
    (hwf : ∀ row ∈ store.chunks, row.spec.WellFormed) (download : DownloadId)
    (request : DownloadRequest) (hchunks : request.chunks = store.loadTransfer download)
    (plan : TransformPlan) (hplan : request.transform = some plan) (integrity : IntegritySpec)
    (hint : plan.transform.integrity = some integrity) (freshId : ChunkId) :
    request.RecordsProgress store freshId ↔
      (∃ refusal, request.connections freshId = .error refusal) ∨
        request.Resumable plan integrity := by
  refine ⟨fun hrecords => ?_, fun h => ?_⟩
  · cases hstarted : request.connections freshId with
    | error refusal => exact .inl ⟨refusal, rfl⟩
    | ok started =>
      exact .inr (resumable_of_recordsProgress hkeyed hwf hchunks hplan hint hstarted hrecords)
  · rcases h with ⟨refusal, hrefused⟩ | hresumable
    · intro started hstarted
      rw [hrefused] at hstarted
      cases hstarted
    · exact recordsProgress_of_resumable hkeyed hwf hchunks hplan hint freshId hresumable

/-! ## A pause inside a provider chunk -/

/-- Five bytes in provider chunks of two and three, of which `committed` are recorded. -/
def shortRow (committed : Nat) (fits : committed ≤ i64Max) : ChunkRow where
  spec := { id := 7, start := 0, stop := some 5, committed }
  downloadId := 1
  fits

/-- The first provider chunk's MAC is recorded. -/
def shortPlan : TransformPlan where
  transform := shortTransform
  checkpoint := {
    fingerprint := some shortTransform.fingerprint
    macs := [(0, shortIntegrity.referenceMac id shortPlaintext 0)] }

def shortRequest (committed : Nat) : DownloadRequest where
  totalBytes := some 5
  etag := some "tag"
  useRanges := true
  chunks := [{ id := 7, start := 0, stop := some 5, committed }]
  transform := some shortPlan

theorem shortRow_wellFormed (hle : committed ≤ 5) (fits : committed ≤ i64Max) :
    ∀ row ∈ [shortRow committed fits], row.spec.WellFormed := by
  intro row hmem
  obtain rfl := List.mem_singleton.mp hmem
  refine ⟨Nat.zero_le _, fun stop hstop => ?_⟩
  obtain rfl := Option.some.inj hstop
  exact hle

theorem shortRequest_resumable : (shortRequest 2).Resumable shortPlan shortIntegrity := by
  refine ⟨fun _ chunk hmem => ?_, fun first rest hfirst hunaligned => ?_⟩
  · obtain rfl := List.mem_singleton.mp hmem
    refine ⟨rfl, fun index _ hlt => ?_⟩
    obtain rfl : index = 0 := Nat.lt_one_iff.mp hlt
    rfl
  · obtain ⟨chunk, hmem, hnot⟩ := hunaligned
    obtain rfl := List.mem_singleton.mp hmem
    exact absurd rfl hnot

/-- Stopped on the boundary, the transfer goes on from there. -/
theorem recordsProgress_short :
    (shortRequest 2).RecordsProgress ⟨[shortRow 2 (by decide)], fun _ => 0⟩ 0 :=
  (recordsProgress_iff ⟨[shortRow 2 (by decide)], fun _ => 0⟩ (List.nodup_singleton _)
    (shortRow_wellFormed (by decide) _) 1 (shortRequest 2) rfl shortPlan rfl shortIntegrity rfl
    0).mpr (.inr shortRequest_resumable)

/-- Stopped inside the second provider chunk and paused again before a byte arrives, the transfer
records the boundary behind it, and the ledger refuses. -/
theorem shortRequest_refused :
    let store : ChunkStore := ⟨[shortRow 3 (by decide)], fun _ => 0⟩
    let chunk : ChunkSpec := { id := 7, start := 0, stop := some 5, committed := 2 }
    let worker := (shortRequest 3).workerFor true chunk
    (shortRequest 3).connections 0 = .ok [(worker, chunk)] ∧
      worker.run chunk { status := 206, contentRange := "bytes 2-4/5".toList } [.cancelled] =
        ([.commit 7 2], .ok .paused) ∧
      store.checkpointAll [(7, 2)] = .error "invalid chunk checkpoint" ∧
      ¬ (shortRequest 3).RecordsProgress store 0 := by
  intro store chunk worker
  have hstarted : (shortRequest 3).connections 0 = .ok [(worker, chunk)] := rfl
  refine ⟨hstarted, rfl, rfl, ?_⟩
  refine not_recordsProgress hstarted (List.nodup_singleton _) (List.mem_singleton.mpr rfl)
    [.cancelled] rfl rfl (fun hadmits => ?_)
  exact absurd hadmits.committed_le (by decide)

end DownloadRequest
end RDownloader
