import RDownloader.Scheduler.SourceInvariant
import RDownloader.Scheduler.SourceParallel

/-!
# Every step of a download with sources keeps its invariant

A fetch is started where its row says, moves its row only forward and inside its chunk, and leaves
the run with the row where it was booked.
-/

namespace RDownloader

open WriteEffect (Script)

/-! ## Scripts and fetches -/

theorem WriteEffect.Script.cut {id : ChunkId} {effects : List WriteEffect}
    {result result' : Except HttpDownloadError DownloadOutcome}
    (h : Script id stop position effects result) (hresult : result' ≠ .ok .complete) :
    Script id stop position [] result' where
  ordered := trivial
  bounded := fun last heq => Nat.le_trans (le_reached position effects) (h.bounded last heq)
  complete := fun hcomplete => absurd hcomplete hresult

namespace Fetch

variable {task task' : Fetch} {row : ChunkRow}

/-- A fetch that stands at its row's offset or past it. -/
theorem On.goOn (h : task.On row confirmed) (hchunk : task'.chunk = task.chunk)
    (hposition : task'.position = task.position) (hstarted : task'.startedAt = task.startedAt)
    (hwritten : task.written ≤ task'.written)
    (hscript : Script task.chunk.id task.chunk.stop task'.written task'.effects task'.result)
    (hsettled : task'.result = .ok .complete → task'.effects = [] →
      row.spec.committed = task'.written) : task'.On row confirmed where
  same := by rw [hchunk]; exact h.same
  unverified := h.unverified
  named := by rw [hposition]; exact h.named
  startedAt := by rw [hstarted, hchunk]; exact h.startedAt
  le_recorded := by rw [hchunk]; exact h.le_recorded
  recorded_le := Nat.le_trans h.recorded_le hwritten
  script := by rw [hchunk]; exact hscript
  settled := hsettled
  unconfirmed := by rw [hchunk]; exact h.unconfirmed

/-- A fetch whose checkpoint the ledger took. -/
theorem On.committed (h : task.On row confirmed) (task' : Fetch) (hchunk : task'.chunk = task.chunk)
    (hposition : task'.position = task.position) (hstarted : task'.startedAt = task.startedAt)
    (hwritten : task'.written = task.written)
    (hscript : Script task.chunk.id task.chunk.stop task'.written task'.effects task'.result)
    (fits : task.written ≤ i64Max) :
    task'.On (row.setCommitted task.written fits) (some task.written) where
  same := by
    rw [hchunk]
    exact congrArg (fun spec => { spec with committed := task.written }) h.same
  unverified := h.unverified
  named := by rw [hposition]; exact h.named
  startedAt := by rw [hstarted, hchunk]; exact h.startedAt
  le_recorded := by rw [hchunk]; exact Nat.le_trans h.le_recorded h.recorded_le
  recorded_le := Nat.le_of_eq hwritten.symm
  script := by rw [hchunk]; exact hscript
  settled := fun _ _ => hwritten.symm
  unconfirmed := fun hnone => by cases hnone

/-- A complete fetch with nothing left to do has its chunk recorded to the end. -/
theorem On.recorded_stop (h : task.On row confirmed) (hresult : task.result = .ok .complete)
    (hdone : task.effects = []) (hstop : task.chunk.stop = some stop) :
    row.spec.committed = stop := by
  have hreached := (h.script.complete hresult).1 stop hstop
  rw [hdone] at hreached
  exact (h.settled hresult hdone).trans hreached

/-- What was confirmed of the chunk is what its row records. -/
theorem On.confirmed_eq (h : task.On row confirmed)
    (hconfirmed : ∀ offset, confirmed = some offset → offset = row.spec.committed) :
    max (confirmed.getD task.chunk.committed) task.chunk.committed = row.spec.committed := by
  cases hcase : confirmed with
  | none =>
    rw [Option.getD_none, Nat.max_self]
    exact (h.unconfirmed hcase).symm
  | some offset =>
    rw [Option.getD_some, hconfirmed offset hcase]
    exact Nat.max_eq_left h.le_recorded

end Fetch

/-- A started fetch stands where the row of its chunk says. -/
theorem SourceRun.spawnFetch_on (run : SourceRun) (source : SourceEndpoint) (answer : Answer)
    {row : ChunkRow} (hspec : row.spec = chunk) (hwf : chunk.WellFormed)
    (confirmed : Option Nat) :
    (run.spawnFetch chunk source answer).On (row.mark (some source.position) false) confirmed where
  same := by
    change row.spec = { chunk with committed := row.spec.committed }
    rw [hspec]
  unverified := rfl
  named := rfl
  startedAt := rfl
  le_recorded := Nat.le_of_eq (congrArg (·.committed) hspec.symm)
  recorded_le := Nat.le_of_eq (congrArg (·.committed) hspec)
  script := by
    unfold spawnFetch
    dsimp only
    split
    · exact fetchVia_script chunk hwf answer.opening answer.events
    · exact Worker.run_script _ chunk hwf answer.response answer.events
  settled := fun _ _ => congrArg (·.committed) hspec
  unconfirmed := fun _ => congrArg (·.committed) hspec

/-! ## Runs after one step -/

namespace SourceLedger

variable {ledger ledger' : SourceLedger}

/-- Rows that stay, as a change of one row that changes nothing. -/
theorem SameRows.updated (h : SameRows ledger ledger') (id : ChunkId) :
    Updated ledger ledger' id fun row => row := by
  refine ⟨?_, h.totalBytes, h.download, fun _ => rfl, fun _ => rfl, fun _ => rfl, fun _ => rfl⟩
  rw [h.rows]
  simp only [ite_self, List.map_id']

theorem Updated.row?_self {id : ChunkId} {f : ChunkRow → ChunkRow}
    (h : Updated ledger ledger' id f) (hrow : ledger.row? id = some row) :
    ledger'.row? id = some (f row) := by
  rw [h.row?, hrow, Option.map_some, if_pos rfl]

end SourceLedger

namespace SourceRun

variable {run next : SourceRun} {ledger ledger' : SourceLedger} {hashes : Option PieceHashes}
  {id : ChunkId}

theorem perm_set {tasks : List α} (h : tasks[index]? = some task) :
    (tasks.set index task').Perm (task' :: tasks.eraseIdx index) := by
  have hlt := (List.getElem?_eq_some_iff.mp h).1
  have hperm := perm_eraseIdx (List.getElem?_set_self (a := task') hlt)
  rwa [List.eraseIdx_set_eq] at hperm

/-- The chunk of a fetch is open on its own account. -/
theorem openIds_task (h : run.tasks[index]? = some task) :
    run.openIds.Perm (task.chunk.id ::
      (run.idle.map (·.id) ++ (run.tasks.eraseIdx index).map (·.chunk.id))) :=
  (((perm_eraseIdx h).map (·.chunk.id)).append_left _).trans List.perm_middle

/-- A fetch is joined. -/
theorem openIds_joined (phase : run.phase = .joining) (h : run.tasks[index]? = some task) :
    run.openIds.Perm (task.chunk.id :: (run.joined index task).openIds) := by
  have hidle : (run.joined index task).idle = run.idle :=
    (idle_dispatching rfl).2.trans ((List.append_nil _).trans (idle_joining phase).2.symm)
  have hperm := openIds_task h
  rwa [← hidle] at hperm

/-- A step inside a fetch opens and closes nothing. -/
theorem openIds_set {confirmed : ChunkId → Option Nat} (h : run.tasks[index]? = some task)
    (hchunk : task'.chunk = task.chunk) :
    openIds { run with confirmed, tasks := run.tasks.set index task' } = run.openIds := by
  have hids : (run.tasks.set index task').map (·.chunk.id) = run.tasks.map (·.chunk.id) :=
    map_set h (congrArg ChunkSpec.id hchunk)
  exact congrArg (run.idle.map (·.id) ++ ·) hids

/-- A pending chunk gets a fetch. -/
theorem openIds_spawned {left : List ChunkSpec} (phase : run.phase = .dispatching left)
    (pending : run.pending = chunk :: rest) (fetch : Fetch) (hchunk : fetch.chunk = chunk)
    (pool : Pool) (fetches : List (ChunkId × Nat)) :
    run.openIds.Perm (openIds { run with
      pool, fetches, pending := rest, tasks := run.tasks ++ [fetch] }) := by
  have hidle : idle { run with pool, fetches, pending := rest, tasks := run.tasks ++ [fetch] } =
      rest ++ left := by
    simp [idle, queued, waiting, phase]
  have htasks : (run.tasks ++ [fetch]).map (·.chunk.id) =
      run.tasks.map (·.chunk.id) ++ [chunk.id] := by
    rw [List.map_append, List.map_singleton, hchunk]
  rw [openIds, openIds, hidle, (idle_dispatching phase).2, pending]
  dsimp only
  rw [htasks, ← List.append_assoc]
  exact (List.perm_append_singleton ..).symm

/-- A mark on the row of a chunk the loop has no more to do with. -/
theorem Sound.remarked (h : run.Sound ledger hashes)
    (hupdated : SourceLedger.Updated ledger ledger' id (·.mark position verified))
    (hopen : id ∉ run.openIds) : run.Sound ledger' hashes := by
  apply h.unaffected hupdated hopen
  intro row' offset hrow' hoffset
  rw [hupdated.row?] at hrow'
  obtain ⟨row, hrow, rfl⟩ := Option.map_eq_some_iff.mp hrow'
  rw [if_pos rfl]
  exact h.confirmed id row offset hrow hoffset

/-- A step inside one fetch, with what it did to the row of its chunk. -/
theorem Sound.setTask {task : Fetch} {f : ChunkRow → ChunkRow} (h : run.Sound ledger hashes)
    (task' : Fetch) (htask : run.tasks[index]? = some task)
    (hupdated : SourceLedger.Updated ledger ledger' task.chunk.id f)
    (hchunk : task'.chunk = task.chunk) {confirmed : ChunkId → Option Nat}
    (hothers : ∀ other, other ≠ task.chunk.id → confirmed other = run.confirmed other)
    (hon : ∃ row, ledger'.row? task.chunk.id = some row ∧
      task'.On row (confirmed task.chunk.id))
    (hconfirmed : ∀ row offset, ledger'.row? task.chunk.id = some row →
      confirmed task.chunk.id = some offset → offset = row.spec.committed) :
    SourceRun.Sound { run with confirmed, tasks := run.tasks.set index task' } ledger' hashes := by
  have hnodup := h.nodup
  rw [(openIds_task htask).nodup_iff, List.nodup_cons, List.mem_append, not_or] at hnodup
  obtain ⟨⟨hidle, herased⟩, -⟩ := hnodup
  -- a fetch for the chunk can only be the one that took the step
  have hself (other) (hmem : other ∈ run.tasks.set index task')
      (hid : other.chunk.id = task.chunk.id) : other = task' := by
    rcases List.mem_cons.mp ((perm_set htask).mem_iff.mp hmem) with rfl | hmem
    · rfl
    · exact absurd (hid ▸ List.mem_map_of_mem hmem) herased
  refine h.moves hupdated ⟨rfl, rfl, rfl, fun _ hmem _ => hmem, ?_, hothers, ?_⟩ ?_ ?_ ?_ hconfirmed
  · intro other hmem hne
    rcases List.mem_or_eq_of_mem_set hmem with hmem | rfl
    · exact hmem
    · exact absurd (congrArg ChunkSpec.id hchunk) hne
  · intro chunk hmem
    refine ⟨hmem, fun heq => hidle ?_⟩
    exact heq ▸ List.mem_map_of_mem (mem_idle_of_queued hmem)
  · rw [openIds_set htask hchunk]
    exact h.nodup
  · intro chunk hmem heq
    exact absurd (heq ▸ List.mem_map_of_mem hmem) hidle
  · intro other hmem heq
    rw [hself other hmem heq]
    rw [hchunk]
    exact hon

end SourceRun

/-! ## Dispatching -/

namespace SourceTransfer

variable {transfer next : SourceTransfer}

theorem Sound.queued (h : transfer.Sound) {run : SourceRun} (running : transfer.run = some run)
    (phase : run.phase = .queueing []) :
    Sound { transfer with run := some { run with phase := .dispatching [] } } := by
  refine h.keep (.refl _) ?_ transfer.blames
  refine (h.run run running).regroup (.refl _) ⟨rfl, rfl, rfl, rfl⟩ ?_ (.refl _)
    fun _ hmem => by cases hmem
  rw [(SourceRun.idle_queueing phase).2, (SourceRun.idle_dispatching rfl).2, List.append_nil]
  exact .refl _

theorem Sound.dispatched (h : transfer.Sound) {run : SourceRun} (running : transfer.run = some run)
    (phase : run.phase = .dispatching waiting) (pending : run.pending = []) :
    Sound { transfer with run := some { run with pending := waiting, phase := .joining } } := by
  refine h.keep (.refl _) ?_ transfer.blames
  refine (h.run run running).regroup (.refl _) ⟨rfl, rfl, rfl, rfl⟩ ?_ (.refl _)
    fun _ hmem => by cases hmem
  rw [(SourceRun.idle_dispatching phase).2, (SourceRun.idle_joining rfl).2, pending]
  exact .refl _

theorem Sound.dispatch (h : transfer.Sound) {run : SourceRun} (running : transfer.run = some run)
    (phase : run.phase = .dispatching waiting) (pending : run.pending = chunk :: rest)
    (answer : Answer) (fault : Option Nat) :
    (transfer.book (run.dispatchChunk answer chunk rest waiting) fault).Sound := by
  have hrun := h.run run running
  obtain ⟨hqueued, hidle⟩ := SourceRun.idle_dispatching phase
  rw [pending] at hidle
  have hnodup := hrun.nodup
  rw [SourceRun.openIds, hidle, List.cons_append, List.map_cons, List.cons_append, List.nodup_cons,
    List.mem_append, not_or] at hnodup
  obtain ⟨⟨hfresh, hfetching⟩, -⟩ := hnodup
  unfold SourceRun.dispatchChunk
  split
  · refine h.silent ?_ _
    refine hrun.regroup (.refl _) ⟨rfl, rfl, rfl, rfl⟩ ?_ (.refl _) fun _ hmem => by cases hmem
    rw [hidle, (SourceRun.idle_dispatching rfl).2, ← List.append_assoc]
    exact (List.perm_append_singleton ..).subperm
  · next source pool _ =>
    refine h.bookMarked rfl (List.forall_mem_nil _) (List.forall_mem_nil _) hrun
      (fun _ _ hverified => by cases hverified) (fun ledger hupdated => ⟨?_, ?_⟩) fault
    · obtain ⟨row, hrow, hspec⟩ := hrun.recorded chunk (hidle ▸ List.mem_cons_self ..)
      have hwf := h.laid.wellFormed row (SourceLedger.mem_rows hrow).1
      rw [hspec] at hwf
      have hmarked := hupdated.row?_self hrow
      have hnext : SourceRun.idle { run with
          pool, pending := rest
          tasks := run.tasks ++ [run.spawnFetch chunk source answer]
          fetches := run.fetches ++ [(chunk.id, source.position)] } = rest ++ waiting := by
        simp [SourceRun.idle, SourceRun.queued, SourceRun.waiting, phase]
      refine hrun.moves hupdated ⟨rfl, rfl, rfl, ?_, ?_, fun _ _ => rfl, ?_⟩ ?_ ?_ ?_ ?_
      · intro other hmem _
        rw [hnext] at hmem
        exact hidle ▸ List.mem_cons_of_mem _ hmem
      · intro task hmem hne
        rcases List.mem_append.mp hmem with hmem | hmem
        · exact hmem
        · exact absurd (congrArg (·.chunk.id) (List.mem_singleton.mp hmem)) hne
      · intro other hmem
        rw [SourceRun.queued, phase] at hmem
        cases hmem
      · have hopen := run.openIds_spawned phase pending (run.spawnFetch chunk source answer) rfl
          pool (run.fetches ++ [(chunk.id, source.position)])
        exact hopen.nodup_iff.mp hrun.nodup
      · intro other hmem heq
        rw [hnext] at hmem
        exact absurd (heq ▸ List.mem_map_of_mem hmem) hfresh
      · intro task hmem heq
        rcases List.mem_append.mp hmem with hmem | hmem
        · exact absurd (heq ▸ List.mem_map_of_mem (f := fun task : Fetch => task.chunk.id) hmem)
            hfetching
        · obtain rfl := List.mem_singleton.mp hmem
          exact ⟨_, hmarked, run.spawnFetch_on source answer hspec hwf _⟩
      · intro row' offset hrow' hoffset
        obtain rfl := Option.some.inj (hmarked.symm.trans hrow')
        exact hrun.confirmed chunk.id row offset hrow hoffset
    · intro hnot
      exact absurd rfl hnot

/-! ## Booking a fetch -/

/-- The run a fetch is booked to has nothing left to do with its chunk. -/
theorem Sound.joined (h : transfer.Sound) {run : SourceRun} (running : transfer.run = some run)
    (phase : run.phase = .joining) (task_eq : run.tasks[index]? = some task) :
    (run.joined index task).Sound transfer.ledger transfer.pieceHashes ∧
      task.chunk.id ∉ (run.joined index task).openIds := by
  have hrun := h.run run running
  have hidle : (run.joined index task).idle = run.idle :=
    (SourceRun.idle_dispatching rfl).2.trans
      ((List.append_nil _).trans (SourceRun.idle_joining phase).2.symm)
  constructor
  · refine hrun.regroup (.refl _) ⟨rfl, rfl, rfl, rfl⟩ ?_ ?_ fun _ hmem => by cases hmem
    · rw [hidle]
    · exact (List.eraseIdx_sublist ..).subperm
  · have hnodup := hrun.nodup
    rw [(SourceRun.openIds_joined phase task_eq).nodup_iff] at hnodup
    exact (List.nodup_cons.mp hnodup).1

section Settle

variable {base : SourceRun} {task : Fetch}

theorem pending_perm (run : SourceRun) (chunk : ChunkSpec) (pool : Pool)
    (confirmed : ChunkId → Option Nat) (lastError : Option HttpDownloadError) :
    (SourceRun.idle { run with
      pool, confirmed, lastError, pending := run.pending ++ [chunk] }).Perm (chunk :: run.idle) := by
  change (run.queued ++ ((run.pending ++ [chunk]) ++ run.waiting)).Perm _
  rw [List.append_assoc, ← List.append_assoc, List.singleton_append, SourceRun.idle,
    ← List.append_assoc run.queued]
  exact List.perm_middle

theorem Sound.settleComplete (h : transfer.Sound)
    (hbase : base.Sound transfer.ledger transfer.pieceHashes) (hopen : task.chunk.id ∉ base.openIds)
    (hrow : transfer.ledger.row? task.chunk.id = some row) (hon : task.On row confirmed)
    (hresult : task.result = .ok .complete) (hdone : task.effects = []) (unreadable : Bool)
    (fault : Option Nat) :
    (transfer.book (base.settleComplete transfer.file unreadable task) fault).Sound := by
  have hmem := (SourceLedger.mem_rows hrow).1
  unfold SourceRun.settleComplete
  dsimp only
  split
  · exact h.silent (hbase.endWith (.refl _) _) fault
  split
  · next hnone =>
    refine h.bookMarked (List.nil_append _).symm (List.forall_mem_nil _) (ofSource_delivered _ _) hbase
      (fun row' hrow' hverified => ?_)
      (fun ledger hupdated => ⟨hbase.remarked hupdated hopen, fun _ => hbase.remarked hupdated hopen⟩)
      fault
    obtain rfl := Option.some.inj (hrow.symm.trans hrow')
    obtain ⟨pieces, hpieces⟩ := Option.isSome_iff_exists.mp hverified
    obtain ⟨-, hbounded⟩ := hbase.pieces pieces hpieces
    obtain ⟨stop, hstop⟩ := Option.ne_none_iff_exists'.mp (hbounded row hmem)
    have hchunk : task.chunk.stop = some stop := by
      rw [← hstop, hon.same]
    rw [hpieces, Option.bind_some] at hnone
    refine checked_of_firstBadPiece hbase hmem ⟨stop, hstop, ?_⟩ hpieces
      ⟨by rw [hon.same], by rw [hon.same]⟩ hnone
    exact Nat.le_of_eq (hon.recorded_stop hresult hdone hchunk).symm
  · next bad hbad =>
    refine h.bookRewound rfl (ofSource_blamed _ _) hbase (fun row' ledger fits hrow' hupdated => ?_)
      fault
    have hid : ChunkSpec.id { task.chunk with committed := bad } = task.chunk.id := rfl
    have hrewound := hupdated.row?_self hrow
    have hrecorded : ledger.Recorded { task.chunk with committed := bad } := by
      refine ⟨_, hrewound, ?_⟩
      exact congrArg (fun spec => { spec with committed := bad }) hon.same
    refine hbase.putBack hupdated hopen hid hrecorded ⟨rfl, rfl, rfl⟩
      (pending_perm base _ _ _ _) rfl rfl (fun other hne => if_neg hne) ?_
    intro row'' offset hrow'' hoffset
    obtain rfl := Option.some.inj (hrewound.symm.trans hrow'')
    exact (Option.some.inj ((if_pos rfl).symm.trans hoffset)).symm

/-- A failed source is all a failure writes about. -/
theorem settleFailure_ofSource (run : SourceRun) (task : Fetch) (error : HttpDownloadError) :
    ∀ write ∈ (run.settleFailure task error).writes, write.OfSource := by
  intro write hmem
  rcases List.mem_append.mp hmem with hmem | hmem
  · split at hmem
    · obtain rfl := List.mem_singleton.mp hmem
      trivial
    · cases hmem
  · obtain rfl := List.mem_singleton.mp hmem
    split <;> trivial

theorem Sound.settleFailure (h : transfer.Sound)
    (hbase : base.Sound transfer.ledger transfer.pieceHashes) (hopen : task.chunk.id ∉ base.openIds)
    (hrow : transfer.ledger.row? task.chunk.id = some row)
    (hon : task.On row (base.confirmed task.chunk.id)) (error : HttpDownloadError)
    (fault : Option Nat) : (transfer.book (base.settleFailure task error) fault).Sound := by
  have hconfirmed := hon.confirmed_eq fun offset =>
    hbase.confirmed task.chunk.id row offset hrow
  refine h.bookSources (settleFailure_ofSource base task error) hbase ?_ fault
  unfold SourceRun.settleFailure
  dsimp only
  rw [hconfirmed]
  have hid : ChunkSpec.id { task.chunk with committed := row.spec.committed } = task.chunk.id := rfl
  have hrecorded : transfer.ledger.Recorded
      { task.chunk with committed := row.spec.committed } := ⟨row, hrow, hon.same⟩
  exact hbase.putBack ((SourceLedger.SameRows.refl _).updated _) hopen hid hrecorded
    ⟨rfl, rfl, rfl⟩ (pending_perm base _ _ _ _) rfl rfl (fun _ _ => rfl)
    (hbase.confirmed task.chunk.id)

end Settle

theorem Sound.join (h : transfer.Sound) {run : SourceRun} (running : transfer.run = some run)
    (phase : run.phase = .joining) (task_eq : run.tasks[index]? = some task)
    (done : task.effects = []) (unreadable : Bool) (fault : Option Nat) :
    (transfer.book ((run.joined index task).settle transfer.file unreadable task) fault).Sound := by
  obtain ⟨hbase, hopen⟩ := h.joined running phase task_eq
  obtain ⟨row, hrow, hon⟩ :=
    (h.run run running).fetching task (List.mem_of_getElem? task_eq)
  unfold SourceRun.settle
  split
  · next hresult => exact h.settleComplete hbase hopen hrow hon hresult done unreadable fault
  · exact h.silent (hbase.endWith (.refl _) _) fault
  · exact h.silent (hbase.endWith (.refl _) _) fault
  · exact h.silent (hbase.endWith (.refl _) _) fault
  · exact h.settleFailure hbase hopen hrow hon _ fault

theorem Sound.finish (h : transfer.Sound) {run : SourceRun} (running : transfer.run = some run)
    (synced : Bool) : Sound { transfer with run := some (run.finish synced) } := by
  have hrun := h.run run running
  refine h.keep (.refl _) ?_ transfer.blames
  unfold SourceRun.finish
  split
  · exact hrun.endWith (.refl _) _
  · split <;> exact hrun.endWith (.refl _) _

/-! ## One step of a fetch -/

/-- Bytes written for an unchecked row are in none of the other rows. -/
theorem piecesMatch_writeAt {file : Nat → UInt8} {ledger : SourceLedger} (hlaid : ledger.Laid) {row other : ChunkRow}
    (hrow : row ∈ ledger.rows) (hother : other ∈ ledger.rows) (hne : row ≠ other)
    (hbounded : other.spec.stop ≠ none) (hstart : row.spec.start ≤ position)
    (hstop : ∀ stop, row.spec.stop = some stop → position + bytes.length ≤ stop)
    (h : PiecesMatch hashes total file other.spec) :
    PiecesMatch hashes total (writeAt file position bytes) other.spec := by
  refine h.congr (fun offset hlo hhi => if_neg ?_) hbounded
  rintro ⟨hle, hlt⟩
  rcases hlaid.apart hrow hother hne with ⟨stop, heq, hbefore⟩ | ⟨stop, heq, hbefore⟩
  · have := hstop stop heq
    omega
  · have := hhi stop heq
    omega

theorem Sound.advance (h : transfer.Sound) {run : SourceRun} (running : transfer.run = some run)
    (task_eq : run.tasks[index]? = some task)
    (advanced : transfer.advance run index task = some next) : next.Sound := by
  have hrun := h.run run running
  obtain ⟨row, hrow, hon⟩ := hrun.fetching task (List.mem_of_getElem? task_eq)
  have hmem := (SourceLedger.mem_rows hrow).1
  have hsame := (SourceLedger.SameRows.refl transfer.ledger).updated task.chunk.id
  have hscript := hon.script
  unfold SourceTransfer.advance at advanced
  split at advanced
  · cases advanced
  · next position bytes effects heffects =>
    obtain rfl := Option.some.inj advanced
    rw [heffects] at hscript
    obtain ⟨rfl, htail, hfits, hmore⟩ := hscript.write_tail
    refine ⟨h.laid, fun other hother hverified => ?_, ?_⟩
    · obtain ⟨hcomplete, hmatch⟩ := h.checked other hother hverified
      refine ⟨hcomplete, piecesMatch_writeAt h.laid hmem hother ?_ ?_ ?_ ?_ hmatch⟩
      · rintro rfl
        rw [hon.unverified] at hverified
        cases hverified
      · obtain ⟨stop, hstop, -⟩ := hcomplete
        simp [hstop]
      · exact Nat.le_trans (h.laid.wellFormed row hmem).start_le hon.recorded_le
      · intro stop hstop
        rw [hon.same] at hstop
        exact hfits stop hstop
    · rintro _ ⟨⟩
      refine hrun.setTask { task with written := task.written + bytes.length, effects } task_eq hsame
        rfl (fun _ _ => rfl) ⟨row, hrow, ?_⟩ (hrun.confirmed task.chunk.id)
      exact hon.goOn rfl rfl rfl (Nat.le_add_right ..) htail fun hresult hnil =>
        absurd hnil (hmore hresult)
  · next index' block effects heffects =>
    obtain rfl := Option.some.inj advanced
    rw [heffects] at hscript
    obtain ⟨htail, hmore⟩ := hscript.mac_tail
    refine h.keep (.refl _) ?_ transfer.blames
    refine hrun.setTask { task with effects } task_eq hsame rfl (fun _ _ => rfl) ⟨row, hrow, ?_⟩
      (hrun.confirmed task.chunk.id)
    exact hon.goOn rfl rfl rfl (Nat.le_refl _) htail fun hresult hnil =>
      absurd hnil (hmore hresult)
  · next id offset effects heffects =>
    rw [heffects] at hscript
    obtain ⟨rfl, rfl, htail⟩ := hscript.commit_tail
    split at advanced
    · obtain rfl := Option.some.inj advanced
      refine h.keep (.refl _) ?_ transfer.blames
      refine hrun.setTask { task with effects := [], result := .error (.internal _) } task_eq hsame rfl
        (fun _ _ => rfl) ⟨row, hrow, ?_⟩ (hrun.confirmed task.chunk.id)
      exact hon.goOn rfl rfl rfl (Nat.le_refl _) (hscript.cut fun heq => by cases heq)
        fun heq => by cases heq
    · next chunks hchunks =>
      obtain rfl := Option.some.inj advanced
      obtain ⟨row', fits, hrow', hadmits, hupdated⟩ := SourceLedger.checkpointed hchunks
      obtain rfl := Option.some.inj (hrow.symm.trans hrow')
      have hcommitted := hupdated.row?_self hrow
      refine h.change hupdated (fun row' hrow' => ?_) (fun row' hrow' hverified => ?_) ?_
        transfer.blames
      · obtain rfl := Option.some.inj (hrow.symm.trans hrow')
        exact ⟨hadmits.start_le, hadmits.le_stop⟩
      · obtain rfl := Option.some.inj (hrow.symm.trans hrow')
        exact absurd hverified (by rw [ChunkRow.setCommitted, hon.unverified]; exact Bool.false_ne_true)
      · refine hrun.setTask { task with effects } task_eq hupdated rfl
          (fun other hne => if_neg hne) ⟨_, hcommitted, ?_⟩ ?_
        · rw [if_pos rfl]
          exact hon.committed { task with effects } rfl rfl rfl rfl htail fits
        · intro row' offset hrow' hoffset
          obtain rfl := Option.some.inj (hcommitted.symm.trans hrow')
          rw [if_pos rfl] at hoffset
          exact (Option.some.inj hoffset).symm

theorem Sound.interrupt (h : transfer.Sound) {run : SourceRun} (running : transfer.run = some run)
    (task_eq : run.tasks[index]? = some task) (failure : HttpDownloadError) :
    Sound { transfer with
      run := some { run with
        tasks := run.tasks.set index { task with effects := [], result := .error failure } } } := by
  have hrun := h.run run running
  obtain ⟨row, hrow, hon⟩ := hrun.fetching task (List.mem_of_getElem? task_eq)
  refine h.keep (.refl _) ?_ transfer.blames
  refine hrun.setTask { task with effects := [], result := .error failure } task_eq
    ((SourceLedger.SameRows.refl _).updated _) rfl (fun _ _ => rfl) ⟨row, hrow, ?_⟩
    (hrun.confirmed task.chunk.id)
  exact hon.goOn rfl rfl rfl (Nat.le_refl _) (hon.script.cut fun heq => by cases heq)
    fun heq => by cases heq

/-! ## Every step -/

theorem sound_step (h : transfer.Sound) (hstep : transfer.step event = some next) :
    next.Sound := by
  cases stepped hstep with
  | start _ _ planned => exact h.start planned
  | stop => exact ⟨h.laid, h.checked, fun _ hrun => by cases hrun⟩
  | queued running phase => exact h.queued running phase
  | @queue _ fault _ _ running phase => exact h.queue running phase fault.unreadable fault.write
  | dispatched running phase pending => exact h.dispatched running phase pending
  | @dispatch _ answer fault _ _ _ running phase pending =>
    exact h.dispatch running phase pending answer fault
  | @join _ _ fault _ running phase task_eq done =>
    exact h.join running phase task_eq done fault.unreadable fault.write
  | @finish _ synced running => exact h.finish running synced
  | advance running task_eq advanced => exact h.advance running task_eq advanced
  | @interrupt _ _ _ failure running task_eq => exact h.interrupt running task_eq failure

theorem Untouched.sound (h : transfer.Untouched) : transfer.Sound where
  laid := h.laid
  checked := by
    intro row hmem hverified
    rw [(h.unmarked row hmem).1] at hverified
    cases hverified
  run := by
    intro run hrun
    rw [h.idle] at hrun
    cases hrun

/-- A download without a plan is one that no attempt has touched. -/
theorem Untouched.of_empty (hrows : transfer.ledger.rows = []) (hidle : transfer.run = none)
    (hdeliveries : transfer.deliveries = []) (hblames : transfer.blames = []) :
    transfer.Untouched where
  laid := {
    keyed := by
      rw [ChunkStore.Keyed]
      exact (congrArg (List.map _) hrows).symm ▸ List.nodup_nil
    owned := hrows ▸ List.forall_mem_nil _
    wellFormed := hrows ▸ List.forall_mem_nil _
    before := hrows ▸ .nil
    total := hrows ▸ List.forall_mem_nil _ }
  unmarked := hrows ▸ List.forall_mem_nil _
  idle := hidle
  deliveries := hdeliveries
  blames := hblames

/-- Whatever a download with sources goes through, the invariant holds. -/
theorem sound_of_reaches (h : sourceMachine.Reaches allowed transfer) : transfer.Sound :=
  h.invariant Sound (fun _ h => Untouched.sound h) fun _ _ _ hsound _ hstep => sound_step hsound hstep

end SourceTransfer
end RDownloader
