import RDownloader.Scheduler.SourceSteps

/-!
# What `Complete` says about the file

A chunk leaves the loop of a run only where its row is complete and, with a piece list, checked. The
one exception is a chunk without an end, as an attempt at a download of unknown size leaves it: its
fetch ends with the body, and `settle_complete` books it to the end of the file however short the
body was.
-/

namespace RDownloader

/-- The row is at its end, and checked where it has to be. -/
structure ChunkRow.Final (row : ChunkRow) (total : Nat) (checked : Bool) : Prop where
  complete : row.spec.stop.getD total ≤ row.spec.committed
  verified : checked = true → row.verified = true

/-- A fetch of a chunk without an end gets to the end of the file. -/
def Fetch.Whole (task : Fetch) (total : Nat) : Prop :=
  task.chunk.stop = none → task.result = .ok .complete →
    total ≤ WriteEffect.reached task.written task.effects

namespace SourceRun

/-- The run has not failed or been stopped. -/
def Going (run : SourceRun) : Prop :=
  ∀ outcome, run.phase = .ended outcome → outcome = .ok .complete

/-- A chunk the loop has no more to do with is final. -/
structure Covers (run : SourceRun) (ledger : SourceLedger) : Prop where
  final : run.Going → ∀ row ∈ ledger.rows, row.spec.id ∉ run.openIds →
    row.Final run.total run.pieces.isSome
  whole : ∀ task ∈ run.tasks, task.Whole run.total
  none_open : run.phase = .ended (.ok .complete) → run.openIds = []

variable {run next : SourceRun} {ledger ledger' : SourceLedger} {id : ChunkId}
  {f : ChunkRow → ChunkRow}

theorem covers_endWith (hwhole : ∀ task ∈ run.tasks, task.Whole run.total)
    (houtcome : outcome ≠ .ok .complete) : (run.endWith outcome).Covers ledger where
  final := fun hgoing => absurd (hgoing outcome rfl) houtcome
  whole := hwhole
  none_open := fun heq => absurd (Phase.ended.inj heq) houtcome

/-- At most one row changes, and it is final when the loop has no more to do with it. -/
theorem Covers.moves (h : run.Covers ledger)
    (hupdated : SourceLedger.Updated ledger ledger' id f)
    (hrequest : next.total = run.total ∧ next.pieces = run.pieces)
    (hgoing : next.Going → run.Going)
    (hopen : ∀ other ∈ run.openIds, other ≠ id → other ∈ next.openIds)
    (hself : next.Going → id ∉ next.openIds → ∀ row, ledger.row? id = some row →
      (f row).Final run.total run.pieces.isSome)
    (hlaid : ledger.Laid) (hwhole : ∀ task ∈ next.tasks, task.Whole run.total)
    (hended : next.phase = .ended (.ok .complete) → next.openIds = []) : next.Covers ledger' := by
  obtain ⟨htotal, hpieces⟩ := hrequest
  refine ⟨fun hnext row' hmem hclosed => ?_, htotal ▸ hwhole, hended⟩
  obtain ⟨row, hrow, rfl⟩ := hupdated.mem hmem
  rw [htotal, hpieces]
  by_cases hid : row.spec.id = id
  · rw [if_pos hid] at hclosed ⊢
    rw [hupdated.key, hid] at hclosed
    exact hself hnext hclosed row (hid ▸ hlaid.row? hrow)
  · rw [if_neg hid] at hclosed ⊢
    exact h.final (hgoing hnext) row hrow fun hmem => hclosed (hopen _ hmem hid)

/-- No chunk is left out and no row changes. -/
theorem Covers.regroup (h : run.Covers ledger) (hlaid : ledger.Laid)
    (hrequest : next.total = run.total ∧ next.pieces = run.pieces)
    (hgoing : next.Going → run.Going) (hopen : ∀ other ∈ run.openIds, other ∈ next.openIds)
    (htasks : ∀ task ∈ next.tasks, task ∈ run.tasks)
    (hended : ∀ outcome, next.phase ≠ .ended outcome) : next.Covers ledger := by
  refine h.moves ((SourceLedger.SameRows.refl ledger).updated 0) hrequest hgoing
    (fun other hmem _ => hopen other hmem) (fun hnext hclosed row hrow => ?_) hlaid
    (fun task hmem => h.whole task (htasks task hmem)) fun heq => absurd heq (hended _)
  obtain ⟨hmem, hid⟩ := SourceLedger.mem_rows hrow
  exact h.final (hgoing hnext) row hmem fun hrun => hclosed (hid ▸ hopen _ hrun)

theorem going_of_phase {phase : Phase} (h : run.phase = phase)
    (hphase : ∀ outcome, phase ≠ .ended outcome) : run.Going :=
  fun outcome heq => absurd (h.symm.trans heq) (hphase outcome)

end SourceRun

namespace SourceTransfer

/-- An answer the engine takes for the rest of a chunk without an end reaches the end of the file. -/
def ReachesEnd (transfer : SourceTransfer) : SourceEvent → Prop
  | .dispatch answer _ => ∀ run waiting chunk rest source pool, transfer.run = some run →
      run.phase = .dispatching waiting → run.pending = chunk :: rest →
      run.pool.pick chunk.committed = some (source, pool) → chunk.stop = none →
      (run.spawnFetch chunk source answer).result = .ok .complete →
      run.total ≤ chunk.committed + bodySize answer.events
  | _ => True

/-- Every chunk is there to its end, and every piece of it is in the file as its hash says. -/
def Delivered (transfer : SourceTransfer) (run : SourceRun) : Prop :=
  ∀ row ∈ transfer.ledger.rows, row.spec.stop.getD run.total ≤ row.spec.committed ∧
    ∀ pieces, run.pieces = some pieces → ∀ index, pieces.Inside row.spec run.total index →
      pieces.matchesHash transfer.file run.total index

variable {transfer next : SourceTransfer}

def Covers (transfer : SourceTransfer) : Prop :=
  ∀ run, transfer.run = some run → run.Covers transfer.ledger

/-- A booking whose writes were all made goes on with its run; another ends. -/
theorem book_covers {booking : Booking} {fault : Option Nat}
    (hwhole : ∀ task ∈ booking.base.tasks, task.Whole booking.base.total)
    (hnext : ∀ ledger, transfer.ledger.writeAll fault booking.writes = (ledger, true) →
      booking.next.Covers ledger) : (transfer.book booking fault).Covers := by
  intro run hrun
  unfold book at hrun ⊢
  dsimp only at hrun ⊢
  obtain rfl := Option.some.inj hrun
  split
  · next hmade => exact hnext _ (Prod.ext rfl hmade)
  · exact SourceRun.covers_endWith hwhole fun heq => by cases heq

theorem silent_covers {run : SourceRun} (h : run.Covers transfer.ledger) (fault : Option Nat) :
    (transfer.book (.silent run) fault).Covers := by
  rw [book_silent]
  rintro _ ⟨⟩
  exact h

theorem Covers.queue (h : transfer.Covers) (hsound : transfer.Sound) {run : SourceRun}
    (running : transfer.run = some run) (phase : run.phase = .queueing (chunk :: rest))
    (unreadable : Bool) (fault : Option Nat) :
    (transfer.book (run.queueChunk transfer.file unreadable chunk rest) fault).Covers := by
  have hrun := hsound.run run running
  have hcovers := h run running
  have hgoing : run.Going := SourceRun.going_of_phase phase fun _ heq => by cases heq
  have hchunk : chunk ∈ run.queued := (SourceRun.idle_queueing phase).1 ▸ List.mem_cons_self ..
  have hopenIds := SourceRun.openIds_queueing phase
  have hsame := (SourceLedger.SameRows.refl transfer.ledger).updated chunk.id
  -- the chunk is left out
  have hleft {ledger : SourceLedger} {f : ChunkRow → ChunkRow}
      (hupdated : SourceLedger.Updated transfer.ledger ledger chunk.id f)
      (hfinal : ∀ row, transfer.ledger.row? chunk.id = some row →
        (f row).Final run.total run.pieces.isSome) :
      SourceRun.Covers { run with phase := .queueing rest } ledger := by
    refine hcovers.moves hupdated ⟨rfl, rfl⟩ (fun _ => hgoing) (fun other hmem hne => ?_)
      (fun _ _ => hfinal) hsound.laid hcovers.whole fun heq => by cases heq
    rw [hopenIds] at hmem
    exact (List.mem_cons.mp hmem).resolve_left hne
  -- the chunk is pending
  have hpending {ledger : SourceLedger} {f : ChunkRow → ChunkRow} (committed : Nat) (pool : Pool)
      (hupdated : SourceLedger.Updated transfer.ledger ledger chunk.id f) :
      SourceRun.Covers { run with
        phase := .queueing rest, pool
        pending := run.pending ++ [{ chunk with committed }] } ledger := by
    have hperm := SourceRun.openIds_putBack (pending_perm { run with phase := .queueing rest }
      { chunk with committed } pool run.confirmed run.lastError) rfl
    refine hcovers.moves hupdated ⟨rfl, rfl⟩ (fun _ => hgoing) (fun other hmem _ => ?_)
      (fun _ hclosed => absurd (hperm.mem_iff.mpr (List.mem_cons_self ..)) hclosed) hsound.laid
      hcovers.whole fun heq => by cases heq
    rw [hopenIds] at hmem
    exact hperm.mem_iff.mpr hmem
  have hended (outcome) (houtcome : outcome ≠ .ok .complete) :
      SourceRun.Covers ((SourceRun.endWith { run with phase := .queueing rest } outcome))
        transfer.ledger := SourceRun.covers_endWith hcovers.whole houtcome
  have hcomplete (hdone : chunk.isComplete) (row) (hrow : transfer.ledger.row? chunk.id = some row) :
      row.spec.stop.getD run.total ≤ row.spec.committed := by
    rw [hrun.eq_of_row? (SourceRun.mem_idle_of_queued hchunk) hrow]
    cases hstop : chunk.stop with
    | none => simp [ChunkSpec.isComplete, hstop] at hdone
    | some stop => simpa [ChunkSpec.isComplete, hstop] using hdone
  unfold SourceRun.queueChunk
  dsimp only
  split
  · exact silent_covers (hpending chunk.committed run.pool hsame) fault
  next hdone =>
  have hdone : chunk.isComplete = true := by simpa using hdone
  split
  · next pieces deliveredBy hpieces hmark =>
    split
    · exact silent_covers (hended _ fun heq => by cases heq) fault
    · split
      · refine book_covers hcovers.whole fun ledger hledger => ?_
        have hupdated := SourceLedger.marked_of_writeAll (List.forall_mem_nil _)
          (List.forall_mem_nil _) hledger
        exact hleft hupdated fun row hrow => ⟨hcomplete hdone row hrow, fun _ => rfl⟩
      · next bad _ =>
        cases deliveredBy with
        | none =>
          refine book_covers hcovers.whole fun ledger hledger => ?_
          obtain ⟨row, fits, -, -, -, hupdated⟩ :=
            SourceLedger.rewound_of_writeAll (List.forall_mem_nil _) hledger
          exact hpending bad run.pool hupdated
        | some position =>
          refine book_covers hcovers.whole fun ledger hledger => ?_
          obtain ⟨row, fits, -, -, -, hupdated⟩ :=
            SourceLedger.rewound_of_writeAll (ofSource_blamed _ _) hledger
          exact hpending bad _ hupdated
  · next hother =>
    refine silent_covers (hleft hsame fun row hrow => ⟨hcomplete hdone row hrow, fun hpieces => ?_⟩)
      fault
    -- with a piece list, only a chunk that was checked has no mark to go by
    obtain ⟨pieces, hpieces⟩ := Option.isSome_iff_exists.mp hpieces
    have hmark := hrun.marks chunk hchunk row hrow
    cases hverified : row.verified with
    | true => rfl
    | false =>
      rw [hverified] at hmark
      exact absurd hmark (hother pieces row.sourcePosition hpieces)

/-- A fetch that ends complete has written its answer's whole body. -/
theorem spawnFetch_whole {run : SourceRun} {chunk : ChunkSpec} {source : SourceEndpoint}
    {answer : Answer} (hchunk : chunk.WellFormed)
    (h : chunk.stop = none → (run.spawnFetch chunk source answer).result = .ok .complete →
      run.total ≤ chunk.committed + bodySize answer.events) :
    (run.spawnFetch chunk source answer).Whole run.total := by
  intro hopen hresult
  have hle := h hopen hresult
  have hopen : chunk.stop = none := hopen
  unfold SourceRun.spawnFetch at hresult ⊢
  dsimp only at hresult ⊢
  split at hresult
  · -- a mirror of another protocol needs an end
    rw [fetchVia, hopen] at hresult
    cases hresult
  · next hvia =>
    rw [if_neg hvia, Worker.run_reached _ chunk hchunk answer.response answer.events hresult]
    exact hle

theorem Covers.dispatch (h : transfer.Covers) (hsound : transfer.Sound) {run : SourceRun}
    (running : transfer.run = some run) (phase : run.phase = .dispatching waiting)
    (pending : run.pending = chunk :: rest)
    (hallowed : transfer.ReachesEnd (.dispatch answer fault)) :
    (transfer.book (run.dispatchChunk answer chunk rest waiting) fault).Covers := by
  have hcovers := h run running
  have hgoing : run.Going := SourceRun.going_of_phase phase fun _ heq => by cases heq
  unfold SourceRun.dispatchChunk
  split
  · refine silent_covers ?_ fault
    refine hcovers.regroup hsound.laid ⟨rfl, rfl⟩ (fun _ => hgoing) (fun other hmem => ?_)
      (fun _ hmem => hmem) fun _ heq => by cases heq
    have hidle : (rest ++ (waiting ++ [chunk])).Perm run.idle := by
      rw [(SourceRun.idle_dispatching phase).2, pending, ← List.append_assoc]
      exact List.perm_append_singleton ..
    rw [SourceRun.openIds, (SourceRun.idle_dispatching rfl).2]
    exact ((hidle.map _).append_right _).mem_iff.mpr hmem
  · next source pool hpick =>
    refine book_covers hcovers.whole fun ledger hledger => ?_
    have hupdated := SourceLedger.marked_of_writeAll (List.forall_mem_nil _)
      (List.forall_mem_nil _) hledger
    have hperm := run.openIds_spawned phase pending (run.spawnFetch chunk source answer) rfl pool
      (run.fetches ++ [(chunk.id, source.position)])
    have hmem : chunk ∈ run.idle := by
      rw [(SourceRun.idle_dispatching phase).2, pending]
      exact List.mem_cons_self ..
    obtain ⟨row, hrow, hspec⟩ := (hsound.run run running).recorded chunk hmem
    have hwf := hsound.laid.wellFormed row (SourceLedger.mem_rows hrow).1
    rw [hspec] at hwf
    refine hcovers.moves hupdated ⟨rfl, rfl⟩ (fun _ => hgoing)
      (fun other hmem _ => hperm.mem_iff.mp hmem) (fun _ hclosed => ?_) hsound.laid ?_ ?_
    · exact absurd (hperm.mem_iff.mp (SourceRun.mem_openIds_of_idle hmem)) hclosed
    · intro task htask
      rcases List.mem_append.mp htask with htask | htask
      · exact hcovers.whole task htask
      · obtain rfl := List.mem_singleton.mp htask
        exact spawnFetch_whole hwf
          (hallowed run waiting chunk rest source pool running phase pending hpick)
    · intro heq
      exact absurd (phase.symm.trans heq) (by simp)

theorem Covers.join (h : transfer.Covers) (hsound : transfer.Sound) {run : SourceRun}
    (running : transfer.run = some run) (phase : run.phase = .joining)
    (task_eq : run.tasks[index]? = some task) (done : task.effects = []) (unreadable : Bool)
    (fault : Option Nat) :
    (transfer.book ((run.joined index task).settle transfer.file unreadable task) fault).Covers := by
  have hcovers := h run running
  have hgoing : run.Going := SourceRun.going_of_phase phase fun _ heq => by cases heq
  have htask := List.mem_of_getElem? task_eq
  obtain ⟨row, hrow, hon⟩ := (hsound.run run running).fetching task htask
  have hopenIds := SourceRun.openIds_joined phase task_eq
  have hwhole : ∀ other ∈ (run.joined index task).tasks, other.Whole run.total :=
    fun other hmem => hcovers.whole other ((List.eraseIdx_sublist ..).subset hmem)
  have hsame := (SourceLedger.SameRows.refl transfer.ledger).updated task.chunk.id
  -- the chunk is pending again
  have hpending {ledger : SourceLedger} {f : ChunkRow → ChunkRow} (committed : Nat) (pool : Pool)
      (confirmed : ChunkId → Option Nat) (lastError : Option HttpDownloadError)
      (hupdated : SourceLedger.Updated transfer.ledger ledger task.chunk.id f) :
      SourceRun.Covers { run.joined index task with
        pool, confirmed, lastError
        pending := (run.joined index task).pending ++ [{ task.chunk with committed }] } ledger := by
    have hperm := SourceRun.openIds_putBack (pending_perm (run.joined index task)
      { task.chunk with committed } pool confirmed lastError) rfl
    refine hcovers.moves hupdated ⟨rfl, rfl⟩ (fun _ => hgoing) (fun other hmem _ => ?_)
      (fun _ hclosed => absurd (hperm.mem_iff.mpr (List.mem_cons_self ..)) hclosed) hsound.laid
      hwhole fun heq => by cases heq
    exact hperm.mem_iff.mpr (hopenIds.mem_iff.mp hmem)
  have hended {outcome} (houtcome : outcome ≠ .ok .complete) :
      ((run.joined index task).endWith outcome).Covers transfer.ledger :=
    SourceRun.covers_endWith hwhole houtcome
  unfold SourceRun.settle
  split
  · next hresult =>
    unfold SourceRun.settleComplete
    dsimp only
    split
    · exact silent_covers (hended fun heq => by cases heq) fault
    split
    · refine book_covers hwhole fun ledger hledger => ?_
      have hupdated := SourceLedger.marked_of_writeAll (List.forall_mem_nil _) (ofSource_delivered _ _) hledger
      refine hcovers.moves hupdated ⟨rfl, rfl⟩ (fun _ => hgoing) (fun other hmem hne => ?_)
        (fun _ _ row' hrow' => ⟨?_, id⟩) hsound.laid hwhole fun heq => by cases heq
      · exact (List.mem_cons.mp (hopenIds.mem_iff.mp hmem)).resolve_left hne
      · obtain rfl := Option.some.inj (hrow.symm.trans hrow')
        change row.spec.stop.getD run.total ≤ row.spec.committed
        rw [show row.spec.stop = task.chunk.stop by rw [hon.same]]
        cases hstop : task.chunk.stop with
        | some stop => exact Nat.le_of_eq (hon.recorded_stop hresult done hstop).symm
        | none =>
          have hle := hcovers.whole task htask hstop hresult
          rw [done] at hle
          rw [hon.settled hresult done]
          exact hle
    · refine book_covers hwhole fun ledger hledger => ?_
      obtain ⟨row', fits, -, -, -, hupdated⟩ :=
        SourceLedger.rewound_of_writeAll (ofSource_blamed _ _) hledger
      exact hpending _ _ _ _ hupdated
  · exact silent_covers (hended fun heq => by cases heq) fault
  · exact silent_covers (hended fun heq => by cases heq) fault
  · exact silent_covers (hended fun heq => by cases heq) fault
  · next error _ _ _ =>
    refine book_covers hwhole fun ledger hledger => ?_
    have hsame := SourceLedger.same_of_writeAll (settleFailure_ofSource _ task error) hledger
    exact hpending _ _ _ _ (hsame.updated task.chunk.id)

theorem Covers.finish (h : transfer.Covers) {run : SourceRun} (running : transfer.run = some run)
    (phase : run.phase = .joining) (none_left : run.tasks = []) (synced : Bool) :
    Covers { transfer with run := some (run.finish synced) } := by
  have hcovers := h run running
  rintro _ ⟨⟩
  unfold SourceRun.finish
  split
  · next hpending =>
    have hopen : run.openIds = [] := by
      rw [SourceRun.openIds, (SourceRun.idle_joining phase).2, hpending, none_left]
      rfl
    cases synced with
    | true =>
      refine ⟨fun _ row hmem _ => ?_, hcovers.whole, fun _ => ?_⟩
      · refine hcovers.final (SourceRun.going_of_phase phase fun _ heq => by cases heq) row hmem ?_
        rw [hopen]
        exact List.not_mem_nil
      · rw [SourceRun.openIds, (SourceRun.idle_ended rfl).2]
        rw [SourceRun.openIds, (SourceRun.idle_joining phase).2] at hopen
        exact hopen
    | false => exact SourceRun.covers_endWith hcovers.whole fun heq => by cases heq
  · split <;> exact SourceRun.covers_endWith hcovers.whole fun heq => by cases heq

/-- A fetch that has taken a step still gets as far as it did, where it still ends complete. -/
theorem advance_reached {run : SourceRun} {task : Fetch} (hsound : transfer.Sound)
    (running : transfer.run = some run) (task_eq : run.tasks[index]? = some task)
    (advanced : transfer.advance run index task = some next) :
    ∃ task' confirmed f, next.run = some { run with
        confirmed, tasks := run.tasks.set index task' } ∧ task'.chunk = task.chunk ∧
      SourceLedger.Updated transfer.ledger next.ledger task.chunk.id f ∧
      (task'.result = .ok .complete → task.result = .ok .complete ∧
        WriteEffect.reached task'.written task'.effects =
          WriteEffect.reached task.written task.effects) := by
  obtain ⟨row, -, hon⟩ := (hsound.run run running).fetching task (List.mem_of_getElem? task_eq)
  have hscript := hon.script
  have hsame := (SourceLedger.SameRows.refl transfer.ledger).updated task.chunk.id
  unfold advance at advanced
  split at advanced
  · cases advanced
  · next heffects =>
    obtain rfl := Option.some.inj advanced
    exact ⟨_, run.confirmed, _, rfl, rfl, hsame, fun hresult => ⟨hresult, by rw [heffects]; rfl⟩⟩
  · next heffects =>
    obtain rfl := Option.some.inj advanced
    exact ⟨_, run.confirmed, _, rfl, rfl, hsame, fun hresult => ⟨hresult, by rw [heffects]; rfl⟩⟩
  · next heffects =>
    rw [heffects] at hscript
    obtain ⟨rfl, -, -⟩ := hscript.commit_tail
    split at advanced
    · obtain rfl := Option.some.inj advanced
      exact ⟨_, run.confirmed, _, rfl, rfl, hsame, fun hresult => by cases hresult⟩
    · next hchunks =>
      obtain rfl := Option.some.inj advanced
      obtain ⟨row', fits, -, -, hupdated⟩ := SourceLedger.checkpointed hchunks
      exact ⟨_, _, _, rfl, rfl, hupdated, fun hresult => ⟨hresult, by rw [heffects]; rfl⟩⟩

/-- A step inside a fetch leaves its chunk open. -/
theorem Covers.setTask {run : SourceRun} {task : Fetch} {ledger : SourceLedger}
    {f : ChunkRow → ChunkRow} (h : run.Covers transfer.ledger) (task' : Fetch) (hlaid : transfer.ledger.Laid)
    (task_eq : run.tasks[index]? = some task) (hchunk : task'.chunk = task.chunk)
    (hupdated : SourceLedger.Updated transfer.ledger ledger task.chunk.id f)
    (hreached : task'.result = .ok .complete → task.result = .ok .complete ∧
      WriteEffect.reached task'.written task'.effects =
        WriteEffect.reached task.written task.effects) (confirmed : ChunkId → Option Nat) :
    SourceRun.Covers { run with confirmed, tasks := run.tasks.set index task' } ledger := by
  have htask := List.mem_of_getElem? task_eq
  have hopen : SourceRun.openIds { run with confirmed, tasks := run.tasks.set index task' } =
      run.openIds := SourceRun.openIds_set task_eq hchunk
  refine h.moves hupdated ⟨rfl, rfl⟩ id (fun other hmem _ => hopen ▸ hmem)
    (fun _ hclosed => ?_) hlaid (fun other hmem => ?_) fun heq => hopen.trans (h.none_open heq)
  · rw [hopen] at hclosed
    exact absurd (SourceRun.mem_openIds_of_task htask) hclosed
  · rcases List.mem_or_eq_of_mem_set hmem with hmem | rfl
    · exact h.whole other hmem
    · intro hstop hresult
      obtain ⟨hcomplete, heq⟩ := hreached hresult
      rw [heq]
      exact h.whole task htask (hchunk ▸ hstop) hcomplete

theorem covers_step (hsound : transfer.Sound) (h : transfer.Covers)
    (hallowed : transfer.ReachesEnd event) (hstep : transfer.step event = some next) :
    next.Covers := by
  cases stepped hstep with
  | @start attempt chunks ledger _ _ planned =>
    rintro _ ⟨⟩
    have hplan := SourceLedger.planTransfer_some hsound.laid planned
    refine ⟨fun _ row hmem hclosed => absurd ?_ hclosed, List.forall_mem_nil _, fun heq => ?_⟩
    case refine_2 => cases heq
    have hchunk := hplan.chunks.mem_iff.mpr (List.mem_map_of_mem hmem)
    apply SourceRun.mem_openIds_of_idle
    exact SourceRun.mem_idle_of_queued hchunk
  | stop => exact fun _ hrun => by cases hrun
  | @queued run _ running phase =>
    rintro _ ⟨⟩
    refine (h run running).regroup hsound.laid ⟨rfl, rfl⟩
      (fun _ => SourceRun.going_of_phase phase fun _ heq => by cases heq) (fun other hmem => ?_)
      (fun _ hmem => hmem) fun _ heq => by cases heq
    rw [SourceRun.openIds, (SourceRun.idle_queueing phase).2] at hmem
    rw [SourceRun.openIds, (SourceRun.idle_dispatching rfl).2, List.append_nil]
    exact hmem
  | @queue _ fault _ _ running phase => exact h.queue hsound running phase fault.unreadable fault.write
  | @dispatched run answer fault waiting running phase pending =>
    rintro _ ⟨⟩
    refine (h run running).regroup hsound.laid ⟨rfl, rfl⟩
      (fun _ => SourceRun.going_of_phase phase fun _ heq => by cases heq) (fun other hmem => ?_)
      (fun _ hmem => hmem) fun _ heq => by cases heq
    rw [SourceRun.openIds, (SourceRun.idle_dispatching phase).2, pending] at hmem
    rw [SourceRun.openIds, (SourceRun.idle_joining rfl).2]
    exact hmem
  | dispatch running phase pending => exact h.dispatch hsound running phase pending hallowed
  | @join _ _ fault _ running phase task_eq done =>
    exact h.join hsound running phase task_eq done fault.unreadable fault.write
  | @finish _ synced running phase none_left => exact h.finish running phase none_left synced
  | @advance run index task _ running task_eq advanced =>
    obtain ⟨task', confirmed, f, hnext, hchunk, hupdated, hreached⟩ :=
      advance_reached hsound running task_eq advanced
    intro run' hrun'
    obtain rfl := Option.some.inj (hnext.symm.trans hrun')
    exact Covers.setTask (h run running) task' hsound.laid task_eq hchunk hupdated hreached confirmed
  | @interrupt run index task failure running task_eq =>
    rintro _ ⟨⟩
    exact Covers.setTask (h run running)
      { task with effects := [], result := .error failure } hsound.laid task_eq rfl
      ((SourceLedger.SameRows.refl _).updated _) (fun hresult => by cases hresult) run.confirmed

/-- A run that ended complete has delivered the file, whatever the sources sent and wherever it was
taken up again, as long as no source cuts a chunk without an end short. -/
theorem delivered_of_complete {run : SourceRun} (h : sourceMachine.Reaches ReachesEnd transfer)
    (running : transfer.run = some run) (ended : run.phase = .ended (.ok .complete)) :
    transfer.Delivered run := by
  obtain ⟨hsound, hcovers⟩ : transfer.Sound ∧ transfer.Covers := by
    refine h.invariant (fun state => state.Sound ∧ state.Covers)
      (fun state hinitial => ⟨Untouched.sound hinitial, fun run hrun => ?_⟩)
      fun _ _ _ hinv hallowed hstep => ⟨sound_step hinv.1 hstep, covers_step hinv.1 hinv.2 hallowed hstep⟩
    rw [Untouched.idle hinitial] at hrun
    cases hrun
  intro row hmem
  have hrun := hsound.run run running
  have hcover := hcovers run running
  have hgoing : run.Going := by
    intro outcome heq
    exact (Phase.ended.inj (ended.symm.trans heq)).symm
  obtain ⟨hcomplete, hverified⟩ := hcover.final hgoing row hmem
    (by rw [hcover.none_open ended]; exact List.not_mem_nil)
  refine ⟨hcomplete, fun pieces hpieces index hinside => ?_⟩
  obtain ⟨hhashes, hbounded⟩ := hrun.pieces pieces hpieces
  have hchecked := hsound.checked row hmem (hverified (by rw [hpieces]; rfl))
  exact hchecked.matching pieces hhashes run.total (hrun.total row hmem (hbounded row hmem)) index
    hinside

/-! ## Two runs that end complete -/

/-- Two bytes in one piece, of which nothing is there yet. -/
def onePiece : SourceTransfer where
  file := fun _ => 0
  ledger := {
    download := 1
    chunks := { chunks := [] }
    totalBytes := none
    sources := [{ position := 0 }] }
  pieceHashes := some {
    digest := fun bytes => if bytes = [7, 7] then "good".toList else "bad".toList
    length := 2, hashes := ["good".toList] }

def fetched : List SourceEvent := [
  .start { total := 2, endpoints := [{ position := 0 }], parallel := 1 },
  .queue {}, .queue {},
  .dispatch {
    response := { status := 206, contentRange := "bytes 0-1/2".toList }
    events := [.buffer [7, 7] false] } none,
  .dispatch {} none, .advance 0, .advance 0, .join 0 {}, .dispatch {} none, .finish true]

theorem onePiece_untouched : sourceMachine.initial onePiece :=
  SourceTransfer.Untouched.of_empty rfl rfl rfl rfl

theorem fetched_reachesEnd : sourceMachine.Within ReachesEnd onePiece fetched := by
  refine .cons trivial rfl (.cons trivial rfl (.cons trivial rfl (.cons ?_ rfl (.cons ?_ rfl
    (.cons trivial rfl (.cons trivial rfl (.cons trivial rfl (.cons ?_ rfl
    (.cons trivial rfl trivial)))))))))
  · rintro _ _ _ _ _ _ ⟨⟩ - ⟨⟩ - hopen
    cases hopen
  · rintro _ _ _ _ _ _ ⟨⟩ - hpending
    cases hpending
  · rintro _ _ _ _ _ _ ⟨⟩ - hpending
    cases hpending

theorem delivered_of_complete_onePiece : ∃ last run, sourceMachine.run onePiece fetched = some last ∧
    last.run = some run ∧ run.phase = .ended (.ok .complete) ∧ last.Delivered run :=
  ⟨_, _, rfl, rfl, rfl, delivered_of_complete
    ((Machine.Reaches.initial onePiece_untouched).within fetched_reachesEnd rfl) rfl rfl⟩

/-- Two bytes of a download whose size was not known at the time, in a chunk without an end. -/
def openEnded : SourceTransfer where
  file := fun _ => 7
  ledger := {
    download := 1
    chunks := {
      chunks := [{ spec := { id := 1, start := 0, stop := none, committed := 2 }, downloadId := 1
                   fits := by decide }] }
    totalBytes := none
    sources := [{ position := 0 }] }
  pieceHashes := none

/-- The mirrors agree on five bytes, and the one asked sends two of the three that are missing. -/
def cutShort : List SourceEvent := [
  .start { total := 5, endpoints := [{ position := 0 }], parallel := 1 },
  .queue {}, .queue {},
  .dispatch {
    response := { status := 206, contentRange := "bytes 2-3/5".toList }
    events := [.buffer [7, 7] false] } none,
  .dispatch {} none, .advance 0, .advance 0, .join 0 {}, .dispatch {} none, .finish true]

theorem openEnded_untouched : sourceMachine.initial openEnded where
  laid := {
    keyed := List.nodup_singleton 1
    owned := List.forall_mem_singleton.mpr rfl
    wellFormed := List.forall_mem_singleton.mpr ⟨Nat.zero_le 2, fun _ h => by cases h⟩
    before := List.pairwise_singleton ..
    total := List.forall_mem_singleton.mpr fun h => absurd rfl h }
  unmarked := List.forall_mem_singleton.mpr ⟨rfl, rfl⟩
  idle := rfl
  deliveries := rfl
  blames := rfl

/-- A run ends complete with the last byte missing. -/
theorem complete_not_delivered :
    ¬ ∀ transfer run, sourceMachine.Reaches Machine.anything transfer → transfer.run = some run →
      run.phase = .ended (.ok .complete) → transfer.Delivered run := by
  intro h
  obtain ⟨last, hlast⟩ : ∃ last, sourceMachine.run openEnded cutShort = some last := ⟨_, rfl⟩
  have hreaches := (Machine.Reaches.initial openEnded_untouched).run hlast
  obtain rfl := Option.some.inj hlast
  have hcomplete := (h _ _ hreaches rfl rfl _ (List.mem_singleton_self _)).1
  exact absurd hcomplete (by decide)

end SourceTransfer
end RDownloader
