import RDownloader.Scheduler.SourcePlan

/-!
# What holds throughout a download with sources

Every chunk the loop still has to do with is where its row says, every fetch stands within its chunk
at or past the row's offset, and a row marked as checked is complete with every piece of it matching.
`SourceTransfer.Sound` gathers this; every step keeps it.
-/

namespace RDownloader

/-! ## Chunks, fetches and their rows -/

/-- The chunk is its row as it stands. -/
def SourceLedger.Recorded (ledger : SourceLedger) (chunk : ChunkSpec) : Prop :=
  ∃ row, ledger.row? chunk.id = some row ∧ row.spec = chunk

/-- A fetch and the row of its chunk. -/
structure Fetch.On (task : Fetch) (row : ChunkRow) (confirmed : Option Nat) : Prop where
  same : row.spec = { task.chunk with committed := row.spec.committed }
  unverified : row.verified = false
  named : row.sourcePosition = some task.position
  startedAt : task.startedAt = task.chunk.committed
  le_recorded : task.chunk.committed ≤ row.spec.committed
  recorded_le : row.spec.committed ≤ task.written
  script : WriteEffect.Script task.chunk.id task.chunk.stop task.written task.effects task.result
  settled : task.result = .ok .complete → task.effects = [] → row.spec.committed = task.written
  unconfirmed : confirmed = none → row.spec.committed = task.chunk.committed

namespace SourceRun

def queued (run : SourceRun) : List ChunkSpec :=
  match run.phase with
  | .queueing chunks => chunks
  | _ => []

def waiting (run : SourceRun) : List ChunkSpec :=
  match run.phase with
  | .dispatching chunks => chunks
  | _ => []

/-- The chunks without a fetch the loop still has to do with. -/
def idle (run : SourceRun) : List ChunkSpec := run.queued ++ (run.pending ++ run.waiting)

theorem idle_queueing {run : SourceRun} (h : run.phase = .queueing chunks) :
    run.queued = chunks ∧ run.idle = chunks ++ run.pending := by
  simp [idle, queued, waiting, h]

theorem idle_dispatching {run : SourceRun} (h : run.phase = .dispatching chunks) :
    run.queued = [] ∧ run.idle = run.pending ++ chunks := by
  simp [idle, queued, waiting, h]

theorem idle_joining {run : SourceRun} (h : run.phase = .joining) :
    run.queued = [] ∧ run.idle = run.pending := by
  simp [idle, queued, waiting, h]

theorem idle_ended {run : SourceRun} (h : run.phase = .ended outcome) :
    run.queued = [] ∧ run.idle = run.pending := by
  simp [idle, queued, waiting, h]

/-- The chunks the loop still has to do with. -/
def openIds (run : SourceRun) : List ChunkId :=
  run.idle.map (·.id) ++ run.tasks.map (·.chunk.id)

/-- A run and the rows it works on. -/
structure Sound (run : SourceRun) (ledger : SourceLedger) (hashes : Option PieceHashes) :
    Prop where
  nodup : run.openIds.Nodup
  recorded : ∀ chunk ∈ run.idle, ledger.Recorded chunk
  fetching : ∀ task ∈ run.tasks, ∃ row, ledger.row? task.chunk.id = some row ∧
    task.On row (run.confirmed task.chunk.id)
  confirmed : ∀ id row offset, ledger.row? id = some row → run.confirmed id = some offset →
    offset = row.spec.committed
  unconfirmed : ∀ chunk ∈ run.queued, run.confirmed chunk.id = none
  total : ∀ row ∈ ledger.rows, row.spec.stop ≠ none → ledger.totalBytes = some run.total
  pieces : ∀ pieces, run.pieces = some pieces →
    hashes = some pieces ∧ ∀ row ∈ ledger.rows, row.spec.stop ≠ none
  marks : ∀ chunk ∈ run.queued, ∀ row, ledger.row? chunk.id = some row →
    run.unverified.lookup chunk.id = if row.verified then none else some row.sourcePosition

end SourceRun

/-- Every piece inside the chunk is in the file as its hash says. -/
def PiecesMatch (hashes : Option PieceHashes) (total : Option Nat) (file : Nat → UInt8)
    (chunk : ChunkSpec) : Prop :=
  ∀ pieces, hashes = some pieces → ∀ size, total = some size →
    ∀ index, pieces.Inside chunk size index → pieces.matchesHash file size index

theorem PiecesMatch.congr {hashes : Option PieceHashes} {total : Option Nat} {chunk : ChunkSpec}
    {file file' : Nat → UInt8}
    (h : PiecesMatch hashes total file chunk)
    (hsame : ∀ offset, chunk.start ≤ offset → (∀ stop, chunk.stop = some stop → offset < stop) →
      file' offset = file offset) (hbounded : chunk.stop ≠ none) :
    PiecesMatch hashes total file' chunk := by
  intro pieces hpieces size hsize index hinside
  obtain ⟨stop, hstop⟩ := Option.ne_none_iff_exists'.mp hbounded
  have hpiece : pieces.matchesHash file' size index = pieces.matchesHash file size index := by
    apply PieceHashes.matchesHash_congr
    intro offset hlo hhi
    refine hsame offset (Nat.le_trans hinside.start_le hlo) fun last hlast => ?_
    have hle := hinside.le_stop
    rw [hlast, Option.getD_some] at hle
    exact Nat.lt_of_lt_of_le hhi hle
  exact hpiece.trans (h pieces hpieces size hsize index hinside)

/-- What a row marked as checked is. -/
structure ChunkRow.Checked (row : ChunkRow) (hashes : Option PieceHashes) (total : Option Nat)
    (file : Nat → UInt8) : Prop where
  complete : ∃ stop, row.spec.stop = some stop ∧ stop ≤ row.spec.committed
  matching : PiecesMatch hashes total file row.spec

/-- The invariant of a download with sources. -/
structure SourceTransfer.Sound (transfer : SourceTransfer) : Prop where
  laid : transfer.ledger.Laid
  checked : ∀ row ∈ transfer.ledger.rows, row.verified = true →
    row.Checked transfer.pieceHashes transfer.ledger.totalBytes transfer.file
  run : ∀ run, transfer.run = some run → run.Sound transfer.ledger transfer.pieceHashes

/-! ## A run after one row has changed -/

namespace SourceRun

variable {run next : SourceRun} {ledger ledger' : SourceLedger} {hashes : Option PieceHashes}
  {id : ChunkId} {f : ChunkRow → ChunkRow}

theorem mem_openIds_of_idle (h : chunk ∈ run.idle) : chunk.id ∈ run.openIds :=
  List.mem_append_left _ (List.mem_map_of_mem h)

theorem mem_openIds_of_task (h : task ∈ run.tasks) : task.chunk.id ∈ run.openIds :=
  List.mem_append_right _ (List.mem_map_of_mem h)

theorem mem_idle_of_queued (h : chunk ∈ run.queued) : chunk ∈ run.idle :=
  List.mem_append_left _ h

theorem mem_idle_of_pending (h : chunk ∈ run.pending) : chunk ∈ run.idle :=
  List.mem_append_right _ (List.mem_append_left _ h)

/-- A chunk is put back. -/
theorem openIds_putBack (hidle : next.idle.Perm (chunk :: run.idle))
    (htasks : next.tasks = run.tasks) : next.openIds.Perm (chunk.id :: run.openIds) := by
  rw [openIds, openIds, htasks, ← List.cons_append, ← List.map_cons]
  exact (hidle.map _).append_right _

/-- A chunk is taken off the queue. -/
theorem openIds_queueing (phase : run.phase = .queueing (chunk :: rest)) :
    run.openIds = chunk.id :: openIds { run with phase := .queueing rest } := by
  rw [openIds, openIds, (idle_queueing phase).2, (idle_queueing rfl).2]
  rfl

theorem nodup_of_subperm {xs ys : List α} (h : ys.Nodup) (hsub : xs.Subperm ys) : xs.Nodup := by
  obtain ⟨zs, hperm, hzs⟩ := hsub
  exact hperm.nodup_iff.mp (h.sublist hzs)

/-- How a run moves when at most the row of chunk `id` changes: its other chunks and fetches are
ones it had. -/
structure Moves (run next : SourceRun) (id : ChunkId) : Prop where
  total : next.total = run.total
  pieces : next.pieces = run.pieces
  unverified : next.unverified = run.unverified
  idle : ∀ chunk ∈ next.idle, chunk.id ≠ id → chunk ∈ run.idle
  tasks : ∀ task ∈ next.tasks, task.chunk.id ≠ id → task ∈ run.tasks
  confirmed : ∀ other, other ≠ id → next.confirmed other = run.confirmed other
  queued : ∀ chunk ∈ next.queued, chunk ∈ run.queued ∧ chunk.id ≠ id

theorem Sound.moves (h : run.Sound ledger hashes)
    (hupdated : SourceLedger.Updated ledger ledger' id f) (hmoves : run.Moves next id)
    (hnodup : next.openIds.Nodup)
    (hidle : ∀ chunk ∈ next.idle, chunk.id = id → ledger'.Recorded chunk)
    (htasks : ∀ task ∈ next.tasks, task.chunk.id = id →
      ∃ row, ledger'.row? task.chunk.id = some row ∧ task.On row (next.confirmed task.chunk.id))
    (hconfirmed : ∀ row offset, ledger'.row? id = some row → next.confirmed id = some offset →
      offset = row.spec.committed) : next.Sound ledger' hashes where
  nodup := hnodup
  recorded := by
    intro chunk hmem
    by_cases hid : chunk.id = id
    · exact hidle chunk hmem hid
    · obtain ⟨row, hrow, hspec⟩ := h.recorded chunk (hmoves.idle chunk hmem hid)
      exact ⟨row, by rw [hupdated.row?, hrow, Option.map_some, if_neg hid], hspec⟩
  fetching := by
    intro task hmem
    by_cases hid : task.chunk.id = id
    · exact htasks task hmem hid
    · obtain ⟨row, hrow, hon⟩ := h.fetching task (hmoves.tasks task hmem hid)
      refine ⟨row, by rw [hupdated.row?, hrow, Option.map_some, if_neg hid], ?_⟩
      rw [hmoves.confirmed _ hid]
      exact hon
  confirmed := by
    intro other row offset hrow hoffset
    by_cases hid : other = id
    · subst hid
      exact hconfirmed row offset hrow hoffset
    · rw [hupdated.row?] at hrow
      obtain ⟨row', hrow', heq⟩ := Option.map_eq_some_iff.mp hrow
      rw [if_neg hid] at heq
      subst heq
      rw [hmoves.confirmed _ hid] at hoffset
      exact h.confirmed other row' offset hrow' hoffset
  unconfirmed := by
    intro chunk hmem
    obtain ⟨hqueued, hid⟩ := hmoves.queued chunk hmem
    rw [hmoves.confirmed _ hid]
    exact h.unconfirmed chunk hqueued
  total := by
    intro row' hmem hbounded
    obtain ⟨row, hrow, rfl⟩ := hupdated.mem hmem
    rw [hupdated.totalBytes, hmoves.total]
    apply h.total row hrow
    split at hbounded
    · rwa [hupdated.stop] at hbounded
    · exact hbounded
  pieces := by
    intro pieces hpieces
    rw [hmoves.pieces] at hpieces
    obtain ⟨hhashes, hbounded⟩ := h.pieces pieces hpieces
    refine ⟨hhashes, fun row' hmem => ?_⟩
    obtain ⟨row, hrow, rfl⟩ := hupdated.mem hmem
    split
    · rw [hupdated.stop]
      exact hbounded row hrow
    · exact hbounded row hrow
  marks := by
    intro chunk hmem row hrow
    obtain ⟨hqueued, hid⟩ := hmoves.queued chunk hmem
    rw [hupdated.row?] at hrow
    obtain ⟨row', hrow', heq⟩ := Option.map_eq_some_iff.mp hrow
    rw [if_neg hid] at heq
    subst heq
    rw [hmoves.unverified]
    exact h.marks chunk hqueued row' hrow'

/-- A run that only regroups its chunks, or has fewer of them left, on rows that stay. -/
theorem Sound.regroup (h : run.Sound ledger hashes)
    (hsame : SourceLedger.SameRows ledger ledger')
    (hrequest : next.total = run.total ∧ next.pieces = run.pieces ∧
      next.unverified = run.unverified ∧ next.confirmed = run.confirmed)
    (hidle : next.idle.Subperm run.idle) (htasks : next.tasks.Subperm run.tasks)
    (hqueued : ∀ chunk ∈ next.queued, chunk ∈ run.queued) : next.Sound ledger' hashes := by
  obtain ⟨htotal, hpieces, hunverified, hconfirmed⟩ := hrequest
  have hopen : next.openIds.Subperm run.openIds := by
    obtain ⟨idle, hidlePerm, hidleSub⟩ := hidle
    obtain ⟨tasks, htasksPerm, htasksSub⟩ := htasks
    exact ⟨idle.map (·.id) ++ tasks.map (·.chunk.id),
      (hidlePerm.map _).append (htasksPerm.map _), (hidleSub.map _).append (htasksSub.map _)⟩
  constructor
  · exact nodup_of_subperm h.nodup hopen
  · intro chunk hmem
    obtain ⟨row, hrow, hspec⟩ := h.recorded chunk (hidle.subset hmem)
    exact ⟨row, (hsame.row? _).trans hrow, hspec⟩
  · intro task hmem
    rw [hsame.row?, hconfirmed]
    exact h.fetching task (htasks.subset hmem)
  · intro id row offset
    rw [hsame.row?, hconfirmed]
    exact h.confirmed id row offset
  · intro chunk hmem
    rw [hconfirmed]
    exact h.unconfirmed chunk (hqueued chunk hmem)
  · rw [hsame.rows, hsame.totalBytes, htotal]
    exact h.total
  · rw [hsame.rows, hpieces]
    exact h.pieces
  · intro chunk hmem row
    rw [hsame.row?, hunverified]
    exact h.marks chunk (hqueued chunk hmem) row

theorem Sound.same (h : run.Sound ledger hashes) (hsame : SourceLedger.SameRows ledger ledger') :
    run.Sound ledger' hashes :=
  h.regroup hsame ⟨rfl, rfl, rfl, rfl⟩ (.refl _) (.refl _) fun _ => id

theorem Sound.endWith (h : run.Sound ledger hashes)
    (hsame : SourceLedger.SameRows ledger ledger')
    (outcome : Except HttpDownloadError DownloadOutcome) :
    (run.endWith outcome).Sound ledger' hashes := by
  refine h.regroup hsame ⟨rfl, rfl, rfl, rfl⟩ ?_ (.refl _) fun _ hmem => by cases hmem
  apply List.Sublist.subperm
  rw [show (run.endWith outcome).idle = run.pending from (idle_ended rfl).2]
  exact (List.sublist_append_left ..).trans (List.sublist_append_right ..)

/-- The row of a chunk the loop has no more to do with may change. -/
theorem Sound.unaffected (h : run.Sound ledger hashes)
    (hupdated : SourceLedger.Updated ledger ledger' id f) (hopen : id ∉ run.openIds)
    (hconfirmed : ∀ row offset, ledger'.row? id = some row → run.confirmed id = some offset →
      offset = row.spec.committed) : run.Sound ledger' hashes := by
  refine h.moves hupdated ⟨rfl, rfl, rfl, fun _ hmem _ => hmem, fun _ hmem _ => hmem,
    fun _ _ => rfl, fun chunk hmem => ⟨hmem, ?_⟩⟩ h.nodup ?_ ?_ hconfirmed
  · intro hid
    exact hopen (hid ▸ mem_openIds_of_idle (mem_idle_of_queued hmem))
  · intro chunk hmem hid
    exact absurd (hid ▸ mem_openIds_of_idle hmem) hopen
  · intro task hmem hid
    exact absurd (hid ▸ mem_openIds_of_task hmem) hopen

/-- A chunk the loop had no more to do with is pending again, where its row says. -/
theorem Sound.putBack (h : run.Sound ledger hashes)
    (hupdated : SourceLedger.Updated ledger ledger' id f) (hopen : id ∉ run.openIds)
    (hid : chunk.id = id) (hrecorded : ledger'.Recorded chunk)
    (hrequest : next.total = run.total ∧ next.pieces = run.pieces ∧
      next.unverified = run.unverified)
    (hidle : next.idle.Perm (chunk :: run.idle)) (htasks : next.tasks = run.tasks)
    (hqueued : next.queued = run.queued)
    (hothers : ∀ other, other ≠ id → next.confirmed other = run.confirmed other)
    (hconfirmed : ∀ row offset, ledger'.row? id = some row → next.confirmed id = some offset →
      offset = row.spec.committed) : next.Sound ledger' hashes := by
  obtain ⟨htotal, hpieces, hunverified⟩ := hrequest
  have hopenIds : next.openIds.Perm (id :: run.openIds) := hid ▸ openIds_putBack hidle htasks
  refine h.moves hupdated ⟨htotal, hpieces, hunverified, ?_, ?_, hothers, ?_⟩ ?_ ?_ ?_ hconfirmed
  · intro other hmem hne
    rcases List.mem_cons.mp (hidle.mem_iff.mp hmem) with rfl | hmem
    · exact absurd hid hne
    · exact hmem
  · intro task hmem _
    exact htasks ▸ hmem
  · intro other hmem
    rw [hqueued] at hmem
    exact ⟨hmem, fun heq => hopen (heq ▸ mem_openIds_of_idle (mem_idle_of_queued hmem))⟩
  · exact hopenIds.nodup_iff.mpr (List.nodup_cons.mpr ⟨hopen, h.nodup⟩)
  · intro other hmem heq
    rcases List.mem_cons.mp (hidle.mem_iff.mp hmem) with rfl | hmem
    · exact hrecorded
    · exact absurd (heq ▸ mem_openIds_of_idle hmem) hopen
  · intro task hmem heq
    rw [htasks] at hmem
    exact absurd (heq ▸ mem_openIds_of_task hmem) hopen

theorem Sound.eq_of_row? (h : run.Sound ledger hashes) (hmem : chunk ∈ run.idle)
    (hrow : ledger.row? chunk.id = some row) : row.spec = chunk := by
  obtain ⟨row', hrow', hspec⟩ := h.recorded chunk hmem
  rw [hrow] at hrow'
  rw [Option.some.inj hrow', hspec]

end SourceRun

/-! ## Checked rows -/

namespace SourceTransfer

variable {hashes : Option PieceHashes} {ledger ledger' : SourceLedger} {id : ChunkId}
  {f : ChunkRow → ChunkRow} {file file' : Nat → UInt8}

theorem checked_same (hsame : SourceLedger.SameRows ledger ledger')
    (h : ∀ row ∈ ledger.rows, row.verified = true → row.Checked hashes ledger.totalBytes file) :
    ∀ row ∈ ledger'.rows, row.verified = true → row.Checked hashes ledger'.totalBytes file := by
  rw [hsame.rows, hsame.totalBytes]
  exact h

theorem checked_updated (hlaid : ledger.Laid)
    (hupdated : SourceLedger.Updated ledger ledger' id f)
    (h : ∀ row ∈ ledger.rows, row.verified = true → row.Checked hashes ledger.totalBytes file)
    (hself : ∀ row, ledger.row? id = some row → (f row).verified = true →
      (f row).Checked hashes ledger.totalBytes file) :
    ∀ row ∈ ledger'.rows, row.verified = true → row.Checked hashes ledger'.totalBytes file := by
  intro row' hmem hverified
  obtain ⟨row, hrow, rfl⟩ := hupdated.mem hmem
  rw [hupdated.totalBytes]
  split
  · next hid =>
    rw [if_pos hid] at hverified
    exact hself row (hid ▸ hlaid.row? hrow) hverified
  · next hid =>
    rw [if_neg hid] at hverified
    exact h row hrow hverified

end SourceTransfer

/-! ## An attempt starts -/

theorem bounded_of_chunksAligned (h : chunksAligned chunks align total) (hmem : chunk ∈ chunks) :
    chunk.stop ≠ none := by
  intro hopen
  have hchunk := List.all_eq_true.mp h chunk hmem
  simp [hopen] at hchunk

theorem Attempt.run_sound {ledger ledger' : SourceLedger} {attempt : Attempt}
    {chunks : List ChunkSpec}
    (hplan : ledger.PlannedFrom attempt.total chunks ledger') (hashes : Option PieceHashes) :
    (attempt.run hashes chunks ledger').Sound ledger' hashes := by
  have hidle : (attempt.run hashes chunks ledger').idle = chunks := List.append_nil chunks
  have hmem {chunk} (hmem : chunk ∈ chunks) : ∃ row ∈ ledger'.rows, row.spec = chunk := by
    obtain ⟨row, hrow, hspec⟩ := List.mem_map.mp (hplan.chunks.mem_iff.mp hmem)
    exact ⟨row, hrow, hspec⟩
  constructor
  · rw [SourceRun.openIds, hidle]
    change (chunks.map ChunkSpec.id ++ []).Nodup
    rw [List.append_nil, (hplan.chunks.map ChunkSpec.id).nodup_iff, List.map_map]
    exact hplan.laid.keyed
  · intro chunk hchunk
    rw [hidle] at hchunk
    obtain ⟨row, hrow, rfl⟩ := hmem hchunk
    exact ⟨row, hplan.laid.row? hrow, rfl⟩
  · intro task htask
    cases htask
  · intro id row offset _ hoffset
    cases hoffset
  · intro chunk _
    rfl
  · exact hplan.total
  · intro pieces hpieces
    obtain ⟨hhashes, haligned⟩ := Option.filter_eq_some_iff.mp hpieces
    refine ⟨hhashes, fun row hrow => ?_⟩
    apply bounded_of_chunksAligned haligned
    exact hplan.chunks.mem_iff.mpr (List.mem_map_of_mem hrow)
  · intro chunk hchunk row hrow
    obtain ⟨hrowMem, hid⟩ := SourceLedger.mem_rows hrow
    rw [← hid]
    exact hplan.laid.lookup_unverifiedMarks hrowMem

namespace SourceTransfer

variable {transfer next : SourceTransfer}

theorem Sound.start (h : transfer.Sound) {ledger : SourceLedger} {attempt : Attempt}
    (planned : transfer.ledger.planTransfer transfer.pieceHashes attempt = some (chunks, ledger)) :
    Sound { transfer with
      ledger, run := some (attempt.run transfer.pieceHashes chunks ledger) } := by
  have hplan := SourceLedger.planTransfer_some h.laid planned
  refine ⟨hplan.laid, ?_, ?_⟩
  · intro row hmem hverified
    rcases hplan.origin with rfl | hfresh
    · exact h.checked row hmem hverified
    · rw [(hfresh row hmem).unverified] at hverified
      cases hverified
  · rintro _ ⟨⟩
    exact Attempt.run_sound hplan transfer.pieceHashes

/-! ## A booking -/

/-- The rows are left alone, and the run is one that fits them. -/
theorem Sound.keep (h : transfer.Sound) {ledger : SourceLedger} {run : SourceRun}
    (hsame : SourceLedger.SameRows transfer.ledger ledger)
    (hrun : run.Sound ledger transfer.pieceHashes) (blames : List Blame) :
    Sound { transfer with ledger, blames, run := some run } := by
  refine ⟨h.laid.same hsame, checked_same hsame h.checked, ?_⟩
  rintro _ ⟨⟩
  exact hrun

/-- One row was changed within its range, and the run is one that fits the rows since. -/
theorem Sound.change (h : transfer.Sound) {ledger : SourceLedger} {run : SourceRun} {id : ChunkId}
    {f : ChunkRow → ChunkRow} (hupdated : SourceLedger.Updated transfer.ledger ledger id f)
    (hwf : ∀ row, transfer.ledger.row? id = some row → (f row).spec.WellFormed)
    (hchecked : ∀ row, transfer.ledger.row? id = some row → (f row).verified = true →
      (f row).Checked transfer.pieceHashes transfer.ledger.totalBytes transfer.file)
    (hrun : run.Sound ledger transfer.pieceHashes) (blames : List Blame) :
    Sound { transfer with ledger, blames, run := some run } := by
  refine ⟨h.laid.updated hupdated hwf, checked_updated h.laid hupdated h.checked hchecked, ?_⟩
  rintro _ ⟨⟩
  exact hrun

theorem Sound.silent (h : transfer.Sound) {run : SourceRun}
    (hrun : run.Sound transfer.ledger transfer.pieceHashes) (fault : Option Nat) :
    (transfer.book (.silent run) fault).Sound := by
  rw [book_silent]
  exact h.keep (.refl _) hrun transfer.blames

/-- A booking about sources alone. -/
theorem Sound.bookSources (h : transfer.Sound) {booking : Booking}
    (hwrites : ∀ write ∈ booking.writes, write.OfSource)
    (hbase : booking.base.Sound transfer.ledger transfer.pieceHashes)
    (hnext : booking.next.Sound transfer.ledger transfer.pieceHashes) (fault : Option Nat) :
    (transfer.book booking fault).Sound := by
  have hsame := SourceLedger.writeAll_ofSource hwrites transfer.ledger fault
  unfold book
  dsimp only
  refine h.keep hsame ?_ _
  split
  · exact hnext.same hsame
  · exact hbase.endWith hsame _

/-- A booking that marks a chunk. -/
theorem Sound.bookMarked (h : transfer.Sound) {booking : Booking} {id : ChunkId}
    {before after : List LedgerWrite} {position : Option Nat} {verified : Bool}
    (hwrites : booking.writes = before ++ .chunkMarked id position verified :: after)
    (hbefore : ∀ w ∈ before, w.OfSource) (hafter : ∀ w ∈ after, w.OfSource)
    (hbase : booking.base.Sound transfer.ledger transfer.pieceHashes)
    (hchecked : ∀ row, transfer.ledger.row? id = some row → verified = true →
      row.Checked transfer.pieceHashes transfer.ledger.totalBytes transfer.file)
    (hnext : ∀ ledger,
      SourceLedger.Updated transfer.ledger ledger id (·.mark position verified) →
      booking.next.Sound ledger transfer.pieceHashes ∧
        (after ≠ [] → booking.base.Sound ledger transfer.pieceHashes)) (fault : Option Nat) :
    (transfer.book booking fault).Sound := by
  have hmarked := SourceLedger.writeAll_marked hbefore hafter transfer.ledger fault id position
    verified
  rw [← hwrites] at hmarked
  unfold book
  dsimp only
  rcases hmarked with ⟨hmade, hsame⟩ | ⟨hupdated, hmade⟩
  · rw [hmade]
    exact h.keep hsame (hbase.endWith hsame _) _
  · obtain ⟨hsound, hbaseSound⟩ := hnext _ hupdated
    refine h.change hupdated (fun row hrow => ?_) (fun row hrow hverified => ?_) ?_ _
    · exact h.laid.wellFormed row (SourceLedger.mem_rows hrow).1
    · obtain ⟨hcomplete, hmatch⟩ := hchecked row hrow hverified
      exact ⟨hcomplete, hmatch⟩
    · split
      · exact hsound
      · next hnot =>
        exact (hbaseSound fun hnil => hnot (hmade hnil)).endWith (.refl _) _

/-- A booking that moves a chunk back. -/
theorem Sound.bookRewound (h : transfer.Sound) {booking : Booking} {id : ChunkId}
    {before : List LedgerWrite} {committed : Nat}
    (hwrites : booking.writes = before ++ [.chunkRewound id committed])
    (hbefore : ∀ w ∈ before, w.OfSource)
    (hbase : booking.base.Sound transfer.ledger transfer.pieceHashes)
    (hnext : ∀ row ledger (fits : committed ≤ i64Max), transfer.ledger.row? id = some row →
      SourceLedger.Updated transfer.ledger ledger id (·.rewind committed fits) →
      booking.next.Sound ledger transfer.pieceHashes) (fault : Option Nat) :
    (transfer.book booking fault).Sound := by
  have hrewound := SourceLedger.writeAll_rewound hbefore transfer.ledger fault id committed
  rw [← hwrites] at hrewound
  unfold book
  dsimp only
  rcases hrewound with ⟨hmade, hsame⟩ | ⟨row, fits, hrow, hlo, hhi, hupdated, hmade⟩
  · rw [hmade]
    exact h.keep hsame (hbase.endWith hsame _) _
  · rw [hmade]
    refine h.change hupdated (fun row' hrow' => ?_) (fun row' hrow' hverified => ?_)
      (hnext row _ fits hrow hupdated) _
    · obtain rfl := Option.some.inj (hrow.symm.trans hrow')
      refine ⟨hlo, fun stop hstop => Nat.le_trans hhi ?_⟩
      exact (h.laid.wellFormed row (SourceLedger.mem_rows hrow).1).committed_le stop hstop
    · cases hverified

/-! ## Queueing -/

theorem ofSource_blamed (blamed : Option Nat) (code : String) :
    ∀ write ∈ blamed.toList.map (LedgerWrite.sourceIsolated · code), write.OfSource := by
  intro write hmem
  obtain ⟨position, -, rfl⟩ := List.mem_map.mp hmem
  trivial

theorem ofSource_delivered (position bytes : Nat) :
    ∀ write ∈ [LedgerWrite.sourceDelivered position bytes], write.OfSource := by
  intro write hmem
  obtain rfl := List.mem_singleton.mp hmem
  trivial

/-- A piece list that refuses nothing of a complete row makes it a checked one. -/
theorem checked_of_firstBadPiece {run : SourceRun} {row : ChunkRow}
    (h : run.Sound transfer.ledger transfer.pieceHashes) (hmem : row ∈ transfer.ledger.rows)
    (hcomplete : ∃ stop, row.spec.stop = some stop ∧ stop ≤ row.spec.committed)
    (hpieces : run.pieces = some pieces)
    (hchunk : chunk.start = row.spec.start ∧ chunk.stop = row.spec.stop)
    (hnone : pieces.firstBadPiece transfer.file chunk run.total = none) :
    row.Checked transfer.pieceHashes transfer.ledger.totalBytes transfer.file := by
  refine ⟨hcomplete, fun pieces' hhashes size hsize index hinside => ?_⟩
  obtain ⟨hrunHashes, hbounded⟩ := h.pieces pieces hpieces
  obtain rfl := Option.some.inj (hrunHashes.symm.trans hhashes)
  obtain rfl := Option.some.inj ((h.total row hmem (hbounded row hmem)).symm.trans hsize)
  refine pieces.firstBadPiece_none hnone ⟨hinside.listed, ?_, hinside.nonempty, ?_⟩
  · rw [hchunk.1]
    exact hinside.start_le
  · rw [hchunk.2]
    exact hinside.le_stop

theorem Sound.queue (h : transfer.Sound) {run : SourceRun} (running : transfer.run = some run)
    (phase : run.phase = .queueing (chunk :: rest)) (unreadable : Bool) (fault : Option Nat) :
    (transfer.book (run.queueChunk transfer.file unreadable chunk rest) fault).Sound := by
  have hrun := h.run run running
  obtain ⟨hqueued, hidle⟩ := SourceRun.idle_queueing phase
  have hrest : SourceRun.idle { run with phase := .queueing rest } = rest ++ run.pending :=
    (SourceRun.idle_queueing rfl).2
  have hchunk : chunk ∈ run.idle := hidle ▸ List.mem_cons_self ..
  have hconfirmed := hrun.unconfirmed chunk (hqueued ▸ List.mem_cons_self ..)
  -- the run that has taken the chunk off the queue
  have hbase : SourceRun.Sound { run with phase := .queueing rest } transfer.ledger
      transfer.pieceHashes := by
    refine hrun.regroup (.refl _) ⟨rfl, rfl, rfl, rfl⟩ ?_ (.refl _) fun other hmem => ?_
    · rw [hidle, hrest]
      exact (List.sublist_cons_self ..).subperm
    · rw [hqueued]
      exact List.mem_cons_of_mem _ hmem
  have hopen : chunk.id ∉ SourceRun.openIds { run with phase := .queueing rest } := by
    have hnodup := hrun.nodup
    rw [SourceRun.openIds_queueing phase] at hnodup
    exact (List.nodup_cons.mp hnodup).1
  have hperm (pending : ChunkSpec) : (SourceRun.idle { run with
      phase := .queueing rest, pending := run.pending ++ [pending] }).Perm
        (pending :: SourceRun.idle { run with phase := .queueing rest }) := by
    rw [(SourceRun.idle_queueing rfl).2, hrest, ← List.append_assoc]
    exact List.perm_append_singleton ..
  unfold SourceRun.queueChunk
  dsimp only
  split
  · have hnext : SourceRun.Sound {
        run with phase := .queueing rest, pending := run.pending ++ [chunk] } transfer.ledger
        transfer.pieceHashes := by
      refine hrun.regroup (.refl _) ⟨rfl, rfl, rfl, rfl⟩ ?_ (.refl _) fun other hmem => ?_
      · have hsub := hperm chunk
        rw [hrest] at hsub
        exact hidle ▸ hsub.subperm
      · rw [hqueued]
        exact List.mem_cons_of_mem _ hmem
    exact h.silent hnext _
  next hcomplete =>
  split
  · next pieces deliveredBy hpieces hmark =>
    split
    · exact h.silent (hbase.endWith (.refl _) _) _
    · split
      · next hnone =>
        refine h.bookMarked rfl (List.forall_mem_nil _)
          (List.forall_mem_nil _) hbase (fun row hrow _ => ?_) (fun ledger hupdated => ?_) _
        · have hspec := hrun.eq_of_row? hchunk hrow
          refine checked_of_firstBadPiece hrun (SourceLedger.mem_rows hrow).1 ?_ hpieces
            ⟨by rw [hspec], by rw [hspec]⟩ hnone
          rw [hspec]
          cases hstop : chunk.stop with
          | none => simp [ChunkSpec.isComplete, hstop] at hcomplete
          | some stop => exact ⟨stop, rfl, by simpa [ChunkSpec.isComplete, hstop] using hcomplete⟩
        · refine ⟨hbase.unaffected hupdated hopen fun row offset _ hoffset => ?_,
            fun hnot => absurd rfl hnot⟩
          rw [hconfirmed] at hoffset
          cases hoffset
      · next bad hbad =>
        have hnext (pool : Pool) (row ledger) (fits : bad ≤ i64Max)
            (hrow : transfer.ledger.row? chunk.id = some row)
            (hupdated : SourceLedger.Updated transfer.ledger ledger chunk.id (·.rewind bad fits)) :
            SourceRun.Sound { run with
              phase := .queueing rest, pool
              pending := run.pending ++ [{ chunk with committed := bad }] } ledger
              transfer.pieceHashes := by
          have hspec := hrun.eq_of_row? hchunk hrow
          have hrecorded : ledger.Recorded { chunk with committed := bad } := by
            refine ⟨row.rewind bad fits, ?_, by rw [← hspec]; rfl⟩
            rw [hupdated.row?, hrow, Option.map_some, if_pos rfl]
          have hid : ChunkSpec.id { chunk with committed := bad } = chunk.id := rfl
          refine hbase.putBack hupdated hopen hid hrecorded ⟨rfl, rfl, rfl⟩ (hperm _) rfl rfl
            (fun _ _ => rfl) ?_
          intro row' offset _ hoffset
          rw [hconfirmed] at hoffset
          cases hoffset
        cases deliveredBy with
        | none =>
          exact h.bookRewound rfl (List.forall_mem_nil _) hbase
            (fun row ledger fits hrow hupdated => hnext _ row ledger fits hrow hupdated) _
        | some position =>
          refine h.bookRewound rfl ?_ hbase
            (fun row ledger fits hrow hupdated => hnext _ row ledger fits hrow hupdated) _
          exact ofSource_blamed _ _
  · exact h.silent hbase _

end SourceTransfer
end RDownloader
