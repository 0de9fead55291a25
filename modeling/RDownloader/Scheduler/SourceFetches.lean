import RDownloader.Scheduler.SourceSteps
import Mathlib.Data.List.ProdSigma

/-!
# How long a run goes on

A chunk goes to a source at most once: a fetch that is booked without its chunk being done with
takes its source out of the run. So there are at most as many fetches as chunks times sources, and
with them the parts of the loop are counted. An offset moves back only to the start of a refused
piece, and a run ends in an error only for a failure on this machine or for want of a source.
-/

namespace RDownloader

/-! ## One fetch a chunk and source -/

namespace SourceRun

/-- Every fetch started so far was of a known chunk from a known source, and will not be started
again: its source is out, it is in flight, or its chunk is done with. -/
structure Once (run : SourceRun) (ids : List ChunkId) : Prop where
  nodup : run.fetches.Nodup
  spent : ∀ fetch ∈ run.fetches, fetch.2 ∈ run.pool.out ∨
    (∃ task ∈ run.tasks, task.chunk.id = fetch.1 ∧ task.position = fetch.2) ∨
    fetch.1 ∉ run.openIds
  known : ∀ fetch ∈ run.fetches, fetch.1 ∈ ids ∧ fetch.2 ∈ run.pool.sources.map (·.position)

variable {run next : SourceRun} {ids : List ChunkId}

/-- No more fetches than chunks times sources. -/
theorem Once.length_le (h : run.Once ids) :
    run.fetches.length ≤ ids.length * run.pool.sources.length := by
  have hsub : run.fetches ⊆ ids ×ˢ run.pool.sources.map (·.position) := by
    intro fetch hmem
    exact List.mem_product.mpr (h.known fetch hmem)
  have hle := (List.subperm_of_subset h.nodup hsub).length_le
  rwa [List.length_product, List.length_map] at hle

/-- Nothing new is open, and a fetch that is no longer in flight is spent. -/
theorem Once.moves (h : run.Once ids) (hfetches : next.fetches = run.fetches)
    (hsources : next.pool.sources = run.pool.sources)
    (hout : ∀ position ∈ run.pool.out, position ∈ next.pool.out)
    (hopen : ∀ id ∈ next.openIds, id ∈ run.openIds)
    (htasks : ∀ task ∈ run.tasks, task.position ∈ next.pool.out ∨
      (∃ task' ∈ next.tasks, task'.chunk.id = task.chunk.id ∧ task'.position = task.position) ∨
      task.chunk.id ∉ next.openIds) : next.Once ids := by
  refine ⟨hfetches ▸ h.nodup, fun fetch hmem => ?_, fun fetch hmem => ?_⟩
  · rw [hfetches] at hmem
    rcases h.spent fetch hmem with hspent | ⟨task, htask, hid, hposition⟩ | hclosed
    · exact .inl (hout _ hspent)
    · rw [← hid, ← hposition]
      exact htasks task htask
    · exact .inr (.inr fun hmem => hclosed (hopen _ hmem))
  · rw [hfetches] at hmem
    rw [hsources]
    exact h.known fetch hmem

theorem Once.keeps (h : run.Once ids) (hkeeps : run.Keeps next)
    (hopen : ∀ id ∈ next.openIds, id ∈ run.openIds) : next.Once ids := by
  refine h.moves hkeeps.fetches (by rw [hkeeps.pool]) hkeeps.out hopen fun task hmem => ?_
  exact .inr (.inl ⟨task, hkeeps.tasks ▸ hmem, rfl, rfl⟩)

/-- A chunk goes to a source that is in: this is the first time it does. -/
theorem Once.spawn (h : run.Once ids) {left : List ChunkSpec} (fetch : Fetch) {pool : Pool}
    (phase : run.phase = .dispatching left) (pending : run.pending = chunk :: rest)
    (hnodup : run.openIds.Nodup) (hknown : chunk.id ∈ ids)
    (hchunk : fetch.chunk = chunk) (hpool : pool.sources = run.pool.sources ∧ pool.out = run.pool.out)
    (hsource : fetch.position ∈ run.pool.sources.map (·.position))
    (hin : fetch.position ∉ run.pool.out) :
    Once { run with
      pool, pending := rest, tasks := run.tasks ++ [fetch]
      fetches := run.fetches ++ [(chunk.id, fetch.position)] } ids := by
  have hperm := run.openIds_spawned phase pending fetch hchunk pool
    (run.fetches ++ [(chunk.id, fetch.position)])
  have hidle : chunk ∈ run.idle := by
    rw [(idle_dispatching phase).2, pending]
    exact List.mem_cons_self ..
  have hfresh : (chunk.id, fetch.position) ∉ run.fetches := by
    intro hmem
    rcases h.spent _ hmem with hout | ⟨task, htask, hid, -⟩ | hclosed
    · exact hin hout
    · -- a chunk without a fetch is not one of those in flight
      have hdisjoint := (List.nodup_append.mp hnodup).2.2
      exact hdisjoint _ (List.mem_map_of_mem hidle) _ (List.mem_map_of_mem htask) hid.symm
    · exact hclosed (mem_openIds_of_idle hidle)
  refine ⟨?_, fun entry hmem => ?_, fun entry hmem => ?_⟩
  · refine (List.perm_append_singleton ..).nodup_iff.mpr ?_
    exact List.nodup_cons.mpr ⟨hfresh, h.nodup⟩
  · rcases List.mem_append.mp hmem with hmem | hmem
    · rcases h.spent entry hmem with hout | ⟨task, htask, hsame⟩ | hclosed
      · exact .inl (by rw [hpool.2]; exact hout)
      · exact .inr (.inl ⟨task, List.mem_append_left _ htask, hsame⟩)
      · exact .inr (.inr fun hopen => hclosed (hperm.mem_iff.mpr hopen))
    · obtain rfl := List.mem_singleton.mp hmem
      exact .inr (.inl ⟨fetch, List.mem_append_right _ (List.mem_singleton_self _),
        congrArg ChunkSpec.id hchunk, rfl⟩)
  · change entry.1 ∈ ids ∧ entry.2 ∈ pool.sources.map (·.position)
    rw [hpool.1]
    rcases List.mem_append.mp hmem with hmem | hmem
    · exact h.known entry hmem
    · obtain rfl := List.mem_singleton.mp hmem
      exact ⟨hknown, hsource⟩

/-! ## What the parts of the loop leave open -/

theorem openIds_endWith (run : SourceRun) (outcome : Except HttpDownloadError DownloadOutcome) :
    ∀ id ∈ (run.endWith outcome).openIds, id ∈ run.openIds := by
  intro id hmem
  have hidle : (run.endWith outcome).idle = run.pending := (idle_ended rfl).2
  rw [openIds, hidle] at hmem
  rcases List.mem_append.mp hmem with hmem | hmem
  · obtain ⟨chunk, hchunk, rfl⟩ := List.mem_map.mp hmem
    exact mem_openIds_of_idle (mem_idle_of_pending hchunk)
  · exact List.mem_append_right _ hmem

theorem queueChunk_openIds {run : SourceRun} (phase : run.phase = .queueing (chunk :: rest))
    (file : Nat → UInt8) (unreadable : Bool) :
    (∀ id ∈ (run.queueChunk file unreadable chunk rest).next.openIds, id ∈ run.openIds) ∧
      ∀ id ∈ (run.queueChunk file unreadable chunk rest).base.openIds, id ∈ run.openIds := by
  have hopen := openIds_queueing phase
  have hleft : ∀ id ∈ openIds { run with phase := .queueing rest }, id ∈ run.openIds := by
    intro id hmem
    rw [hopen]
    exact List.mem_cons_of_mem _ hmem
  have hended (outcome) : ∀ id ∈ (endWith { run with phase := .queueing rest } outcome).openIds,
      id ∈ run.openIds := fun id hmem => hleft id (openIds_endWith _ outcome id hmem)
  have hpending (committed : Nat) (pool : Pool) : ∀ id ∈ openIds { run with
      phase := .queueing rest, pool, pending := run.pending ++ [{ chunk with committed }] },
      id ∈ run.openIds := by
    intro id hmem
    have hperm := openIds_putBack (SourceTransfer.pending_perm { run with phase := .queueing rest }
      { chunk with committed } pool run.confirmed run.lastError) rfl
    rw [hopen]
    exact hperm.mem_iff.mp hmem
  unfold queueChunk
  dsimp only
  split
  · exact ⟨hpending chunk.committed run.pool, hpending chunk.committed run.pool⟩
  split
  · split
    · exact ⟨hended _, hended _⟩
    · split
      · exact ⟨hleft, hleft⟩
      · exact ⟨hpending _ _, hleft⟩
  · exact ⟨hleft, hleft⟩

/-- A booked fetch leaves its chunk done with, or its source out. -/
theorem settle_openIds (run : SourceRun) (file : Nat → UInt8) (unreadable : Bool) (fetched : Fetch) :
    (∀ id ∈ (run.settle file unreadable fetched).next.openIds,
      id = fetched.chunk.id ∨ id ∈ run.openIds) ∧
    (fetched.position ∈ (run.settle file unreadable fetched).next.pool.out ∨
      ∀ id ∈ (run.settle file unreadable fetched).next.openIds, id ∈ run.openIds) ∧
    ∀ id ∈ (run.settle file unreadable fetched).base.openIds, id ∈ run.openIds := by
  have hended (outcome) := run.openIds_endWith outcome
  have hpending (committed : Nat) (confirmed : ChunkId → Option Nat)
      (lastError : Option HttpDownloadError) : ∀ id ∈ openIds { run with
        pool := (run.pool.exclude fetched.position).2, confirmed, lastError
        pending := run.pending ++ [{ fetched.chunk with committed }] },
      id = fetched.chunk.id ∨ id ∈ run.openIds := by
    intro id hmem
    have hperm := openIds_putBack (SourceTransfer.pending_perm run { fetched.chunk with committed }
      (run.pool.exclude fetched.position).2 confirmed lastError) rfl
    exact List.mem_cons.mp (hperm.mem_iff.mp hmem)
  have hout := (run.pool.mem_exclude_out fetched.position fetched.position).mpr (.inl rfl)
  have hclosed {outcome} : (∀ id ∈ (run.endWith outcome).openIds,
        id = fetched.chunk.id ∨ id ∈ run.openIds) ∧
      (fetched.position ∈ (run.endWith outcome).pool.out ∨
        ∀ id ∈ (run.endWith outcome).openIds, id ∈ run.openIds) ∧
      ∀ id ∈ (run.endWith outcome).openIds, id ∈ run.openIds :=
    ⟨fun id hmem => .inr (hended outcome id hmem), .inr (hended outcome), hended outcome⟩
  unfold settle
  split
  · unfold settleComplete
    dsimp only
    split
    · exact hclosed
    split
    · exact ⟨fun _ => .inr, .inr fun _ hmem => hmem, fun _ hmem => hmem⟩
    · exact ⟨hpending _ _ _, .inl hout, fun _ hmem => hmem⟩
  · exact hclosed
  · exact hclosed
  · exact hclosed
  · exact ⟨hpending _ _ _, .inl hout, fun _ hmem => hmem⟩

/-! ## Where the loop stands -/

/-- A chunk waits only while no source may serve it, and a run ends in an error for a failure of its
own or for such a chunk. -/
def Waits (run : SourceRun) : Prop :=
  match run.phase with
  | .dispatching waiting => ∀ chunk ∈ waiting, run.pool.usable chunk.committed = []
  | .joining => ∀ chunk ∈ run.pending, run.pool.usable chunk.committed = []
  | .ended (.error error) => SourceTransfer.isOwnFailure error ∨
      ∃ chunk ∈ run.pending, run.pool.usable chunk.committed = []
  | _ => True

theorem waits_endWith (run : SourceRun) (h : SourceTransfer.isOwnFailure error) :
    (run.endWith (.error error)).Waits :=
  .inl h

theorem queueChunk_phase (run : SourceRun) (file : Nat → UInt8) (unreadable : Bool)
    (chunk : ChunkSpec) (rest : List ChunkSpec) :
    (run.queueChunk file unreadable chunk rest).next.phase = .queueing rest ∨
      ∃ error, SourceTransfer.isOwnFailure error ∧
        (run.queueChunk file unreadable chunk rest).next.phase = .ended (.error error) := by
  unfold queueChunk
  dsimp only
  split
  · exact .inl rfl
  split
  · split
    · exact .inr ⟨_, rfl, rfl⟩
    · split <;> exact .inl rfl
  · exact .inl rfl

theorem settle_phase (run : SourceRun) (file : Nat → UInt8) (unreadable : Bool) (fetched : Fetch) :
    (run.settle file unreadable fetched).next.phase = run.phase ∨
      (run.settle file unreadable fetched).next.phase = .ended (.ok .paused) ∨
      ∃ error, SourceTransfer.isOwnFailure error ∧
        (run.settle file unreadable fetched).next.phase = .ended (.error error) := by
  unfold settle
  split
  · unfold settleComplete
    dsimp only
    split
    · exact .inr (.inr ⟨_, rfl, rfl⟩)
    · split <;> exact .inl rfl
  · exact .inr (.inl rfl)
  · exact .inr (.inr ⟨_, rfl, rfl⟩)
  · exact .inr (.inr ⟨_, rfl, rfl⟩)
  · exact .inl rfl

theorem finish_waits (run : SourceRun) (phase : run.phase = .joining) (h : run.Waits)
    (synced : Bool) : (run.finish synced).Waits := by
  unfold Waits at h
  rw [phase] at h
  unfold finish
  split
  · cases synced with
    | true => trivial
    | false => exact .inl rfl
  · next hpending =>
    obtain ⟨chunk, hmem⟩ := List.exists_mem_of_ne_nil _ hpending
    split <;> exact .inr ⟨chunk, hmem, h chunk hmem⟩

/-! ## How much the loop still has to do -/

/-- The parts of the loop a run of so many chunks can still go through. -/
def loopSteps (run : SourceRun) (chunks : Nat) : Nat :=
  (chunks * run.pool.sources.length - run.fetches.length + run.tasks.length) * (chunks + 3) +
    match run.phase with
    | .queueing queued => queued.length + chunks + 4
    | .dispatching _ => run.pending.length + 2
    | .joining => 1
    | .ended _ => 0

end SourceRun

/-- A part of the loop, as opposed to something a fetch does. -/
def SourceEvent.isLoop : SourceEvent → Bool
  | .queue _ | .dispatch _ _ | .join _ _ | .finish _ => true
  | _ => false

/-- The event happens within a run. -/
def SourceEvent.InRun : SourceEvent → Prop
  | .start _ | .stop => False
  | _ => True

namespace SourceTransfer

variable {transfer next : SourceTransfer}

/-- The identifiers of the rows. -/
def ids (transfer : SourceTransfer) : List ChunkId := transfer.ledger.rows.map (·.spec.id)

structure Frugal (transfer : SourceTransfer) (run : SourceRun) : Prop where
  once : run.Once transfer.ids
  waits : run.Waits
  parallel : 0 < run.pool.parallel

theorem book_ids (transfer : SourceTransfer) (booking : Booking) (fault : Option Nat) :
    (transfer.book booking fault).ids = transfer.ids :=
  SourceLedger.writeAll_ids ..

/-- Within a run no chunk is added or taken away. -/
theorem ids_step {run : SourceRun} (running : transfer.run = some run)
    (hstep : transfer.step event = some next) : next.ids = transfer.ids := by
  cases stepped hstep with
  | start idle =>
    rw [running] at idle
    cases idle
  | stop | queued | dispatched | finish | interrupt => rfl
  | queue | dispatch | join => exact book_ids ..
  | advance _ _ advanced =>
    unfold advance at advanced
    split at advanced
    · cases advanced
    · obtain rfl := Option.some.inj advanced
      rfl
    · obtain rfl := Option.some.inj advanced
      rfl
    · split at advanced
      · obtain rfl := Option.some.inj advanced
        rfl
      · next hchunks =>
        obtain rfl := Option.some.inj advanced
        obtain ⟨row, fits, -, -, hupdated⟩ := SourceLedger.checkpointed hchunks
        exact hupdated.ids

/-- A fetch was set to another with its chunk and its source. -/
theorem Frugal.setTask {run : SourceRun} {task : Fetch} (h : transfer.Frugal run) (task' : Fetch)
    (hids : next.ids = transfer.ids) (task_eq : run.tasks[index]? = some task)
    (hchunk : task'.chunk = task.chunk) (hposition : task'.position = task.position)
    (confirmed : ChunkId → Option Nat) :
    next.Frugal { run with confirmed, tasks := run.tasks.set index task' } := by
  refine ⟨hids ▸ h.once.moves rfl rfl (fun _ hmem => hmem) (fun id hmem => ?_)
    (fun other hmem => .inr (.inl ?_)), h.waits, h.parallel⟩
  · rwa [SourceRun.openIds_set task_eq hchunk] at hmem
  · rcases List.mem_cons.mp ((SourceRun.perm_eraseIdx task_eq).mem_iff.mp hmem) with rfl | hmem
    · exact ⟨task', (SourceRun.perm_set task_eq).mem_iff.mpr (List.mem_cons_self ..),
        congrArg ChunkSpec.id hchunk, hposition⟩
    · exact ⟨other, (SourceRun.perm_set task_eq).mem_iff.mpr (List.mem_cons_of_mem _ hmem), rfl, rfl⟩

theorem Frugal.queue {run : SourceRun} (h : transfer.Frugal run)
    (phase : run.phase = .queueing (chunk :: rest)) (unreadable : Bool) (fault : Option Nat) :
    ∃ run', (transfer.book (run.queueChunk transfer.file unreadable chunk rest) fault).run =
        some run' ∧
      (transfer.book (run.queueChunk transfer.file unreadable chunk rest) fault).Frugal run' := by
  obtain ⟨hnext, hbase⟩ := run.queueChunk_keeps transfer.file unreadable chunk rest
  obtain ⟨hopenNext, hopenBase⟩ := SourceRun.queueChunk_openIds phase transfer.file unreadable
  have hids := book_ids transfer (run.queueChunk transfer.file unreadable chunk rest) fault
  rcases transfer.book_run (run.queueChunk transfer.file unreadable chunk rest) fault with
    hrun | hrun
  · refine ⟨_, hrun, hids ▸ h.once.keeps hnext hopenNext, ?_, hnext.parallel ▸ h.parallel⟩
    unfold SourceRun.Waits
    rcases run.queueChunk_phase transfer.file unreadable chunk rest with hphase | ⟨error, hown, hphase⟩
    · rw [hphase]
      trivial
    · rw [hphase]
      exact .inl hown
  · have hended : run.Keeps ((run.queueChunk transfer.file unreadable chunk rest).base.endWith
        (.error (.internal "ledger"))) := hbase.with ..
    exact ⟨_, hrun, hids ▸ h.once.keeps hended fun id hmem =>
      hopenBase id (SourceRun.openIds_endWith _ _ id hmem), .inl rfl, hended.parallel ▸ h.parallel⟩

theorem Frugal.dispatch {run : SourceRun} (h : transfer.Frugal run) (hsound : transfer.Sound)
    (running : transfer.run = some run) (phase : run.phase = .dispatching waiting)
    (pending : run.pending = chunk :: rest) (answer : Answer) (fault : Option Nat) :
    ∃ run', (transfer.book (run.dispatchChunk answer chunk rest waiting) fault).run = some run' ∧
      (transfer.book (run.dispatchChunk answer chunk rest waiting) fault).Frugal run' := by
  have hids := book_ids transfer (run.dispatchChunk answer chunk rest waiting) fault
  have hwaiting : ∀ chunk ∈ waiting, run.pool.usable chunk.committed = [] := by
    have hwaits := h.waits
    unfold SourceRun.Waits at hwaits
    rwa [phase] at hwaits
  rcases transfer.book_dispatchChunk run answer chunk rest waiting fault with
    ⟨hpick, hnext⟩ | ⟨source, pool, hpick, ⟨-, hnext⟩ | ⟨-, hnext⟩⟩
  · refine ⟨_, hnext, hids ▸ h.once.keeps ((SourceRun.Keeps.refl run).with ..) fun id hmem => ?_,
      fun other hmem => ?_, h.parallel⟩
    · have hperm : (rest ++ (waiting ++ [chunk])).Perm run.idle := by
        rw [(SourceRun.idle_dispatching phase).2, pending, ← List.append_assoc]
        exact List.perm_append_singleton ..
      rw [SourceRun.openIds, (SourceRun.idle_dispatching rfl).2] at hmem
      exact ((hperm.map _).append_right _).mem_iff.mp hmem
    · rcases List.mem_append.mp hmem with hmem | hmem
      · exact hwaiting other hmem
      · obtain rfl := List.mem_singleton.mp hmem
        exact Pool.pick_none h.parallel hpick
  · have hended : run.Keeps (run.endWith (.error (.internal "ledger"))) :=
      (SourceRun.Keeps.refl run).with ..
    exact ⟨_, hnext, hids ▸ h.once.keeps hended (SourceRun.openIds_endWith _ _), .inl rfl, h.parallel⟩
  · obtain ⟨hselected, -, rfl⟩ := Pool.pick_some hpick
    obtain ⟨hsource, hin, -⟩ := Pool.mem_usable.mp (Pool.mem_usable_of_selection hselected)
    have hrun := hsound.run run running
    obtain ⟨row, hrow, -⟩ := hrun.recorded chunk (by
      rw [(SourceRun.idle_dispatching phase).2, pending]
      exact List.mem_cons_self ..)
    obtain ⟨hmem, hid⟩ := SourceLedger.mem_rows hrow
    have hknown : chunk.id ∈ transfer.ids := hid ▸ List.mem_map_of_mem hmem
    refine ⟨_, hnext, hids ▸ h.once.spawn (run.spawnFetch chunk source answer) phase pending
      hrun.nodup hknown rfl ⟨rfl, rfl⟩ (List.mem_map_of_mem hsource) hin, ?_, h.parallel⟩
    unfold SourceRun.Waits
    rw [phase]
    exact hwaiting

theorem Frugal.join {run : SourceRun} (h : transfer.Frugal run) (hsound : transfer.Sound)
    (running : transfer.run = some run) (phase : run.phase = .joining)
    (task_eq : run.tasks[index]? = some task) (unreadable : Bool) (fault : Option Nat) :
    ∃ run', (transfer.book ((run.joined index task).settle transfer.file unreadable task) fault).run =
        some run' ∧
      (transfer.book ((run.joined index task).settle transfer.file unreadable task) fault).Frugal
        run' := by
  have hids := book_ids transfer ((run.joined index task).settle transfer.file unreadable task) fault
  obtain ⟨hnext, hbase⟩ := (run.joined index task).settle_keeps transfer.file unreadable task
  obtain ⟨hopen, hspent, hopenBase⟩ :=
    (run.joined index task).settle_openIds transfer.file unreadable task
  have hperm := SourceRun.openIds_joined phase task_eq
  have hnodup := (hsound.run run running).nodup
  rw [hperm.nodup_iff, List.nodup_cons] at hnodup
  have hjoined {id} (hmem : id ∈ (run.joined index task).openIds) : id ∈ run.openIds :=
    hperm.mem_iff.mpr (List.mem_cons_of_mem _ hmem)
  -- the joined fetch is spent, and the others are still in flight
  have hmoves {run' : SourceRun} (hkeeps : (run.joined index task).Keeps run')
      (hopen : ∀ id ∈ run'.openIds, id = task.chunk.id ∨ id ∈ (run.joined index task).openIds)
      (hspent : task.position ∈ run'.pool.out ∨
        ∀ id ∈ run'.openIds, id ∈ (run.joined index task).openIds) : run'.Once transfer.ids := by
    refine h.once.moves hkeeps.fetches (by rw [hkeeps.pool]; rfl) hkeeps.out (fun id hmem => ?_)
      fun other hmem => ?_
    · rcases hopen id hmem with rfl | hmem
      · exact hperm.mem_iff.mpr (List.mem_cons_self ..)
      · exact hjoined hmem
    · rcases List.mem_cons.mp ((SourceRun.perm_eraseIdx task_eq).mem_iff.mp hmem) with rfl | hmem
      · rcases hspent with hout | hclosed
        · exact .inl hout
        · exact .inr (.inr fun hmem => hnodup.1 (hclosed _ hmem))
      · exact .inr (.inl ⟨other, hkeeps.tasks ▸ hmem, rfl, rfl⟩)
  rcases transfer.book_run ((run.joined index task).settle transfer.file unreadable task) fault with
    hrun | hrun
  · refine ⟨_, hrun, hids ▸ hmoves hnext hopen hspent, ?_, hnext.parallel ▸ h.parallel⟩
    unfold SourceRun.Waits
    rcases (run.joined index task).settle_phase transfer.file unreadable task with
      hphase | hphase | ⟨error, hown, hphase⟩
    · rw [hphase]
      exact fun _ hmem => by cases hmem
    · rw [hphase]
      trivial
    · rw [hphase]
      exact .inl hown
  · have hended : (run.joined index task).Keeps
        (((run.joined index task).settle transfer.file unreadable task).base.endWith
          (.error (.internal "ledger"))) := hbase.with ..
    have hclosed : ∀ id ∈ (((run.joined index task).settle transfer.file unreadable task).base.endWith
        (.error (.internal "ledger"))).openIds, id ∈ (run.joined index task).openIds :=
      fun id hmem => hopenBase id (SourceRun.openIds_endWith _ _ id hmem)
    exact ⟨_, hrun, hids ▸ hmoves hended (fun id hmem => .inr (hclosed id hmem)) (.inr hclosed),
      .inl rfl, hended.parallel ▸ h.parallel⟩

theorem Frugal.keep {run run' : SourceRun} (h : transfer.Frugal run) (hkeeps : run.Keeps run')
    (hids : next.ids = transfer.ids) (hopen : ∀ id ∈ run'.openIds, id ∈ run.openIds)
    (hwaits : run'.Waits) : next.Frugal run' :=
  ⟨hids ▸ h.once.keeps hkeeps hopen, hwaits, hkeeps.parallel ▸ h.parallel⟩

theorem finish_openIds (run : SourceRun) (synced : Bool) :
    ∀ id ∈ (run.finish synced).openIds, id ∈ run.openIds := by
  unfold SourceRun.finish
  split
  · exact run.openIds_endWith _
  · split <;> exact run.openIds_endWith _

theorem frugal_step (hsound : transfer.Sound)
    (h : ∀ run, transfer.run = some run → transfer.Frugal run)
    (hstep : transfer.step event = some next) :
    ∀ run, next.run = some run → next.Frugal run := by
  have hsome {run} (hrun : ∃ run', next.run = some run' ∧ next.Frugal run')
      (hnext : next.run = some run) : next.Frugal run := by
    obtain ⟨run', hrun', hfrugal⟩ := hrun
    obtain rfl := Option.some.inj (hrun'.symm.trans hnext)
    exact hfrugal
  cases stepped hstep with
  | @start attempt =>
    rintro _ ⟨⟩
    refine ⟨⟨List.nodup_nil, List.forall_mem_nil _, List.forall_mem_nil _⟩, trivial, ?_⟩
    exact Nat.lt_of_lt_of_le Nat.one_pos (Nat.le_max_right attempt.parallel 1)
  | stop => rintro _ ⟨⟩
  | @queued run _ running phase =>
    rintro _ ⟨⟩
    refine (h run running).keep ((SourceRun.Keeps.refl run).with ..) rfl (fun id hmem => ?_)
      (List.forall_mem_nil _)
    rw [SourceRun.openIds, (SourceRun.idle_dispatching rfl).2, List.append_nil] at hmem
    rw [SourceRun.openIds, (SourceRun.idle_queueing phase).2]
    exact hmem
  | @queue run fault _ _ running phase =>
    intro run'
    exact hsome ((h run running).queue phase fault.unreadable fault.write)
  | @dispatched run _ _ waiting running phase pending =>
    rintro _ ⟨⟩
    have hwaits := (h run running).waits
    unfold SourceRun.Waits at hwaits
    rw [phase] at hwaits
    refine (h run running).keep ((SourceRun.Keeps.refl run).with ..) rfl (fun id hmem => ?_) hwaits
    rw [SourceRun.openIds, (SourceRun.idle_joining rfl).2] at hmem
    rw [SourceRun.openIds, (SourceRun.idle_dispatching phase).2, pending]
    exact hmem
  | @dispatch run answer fault _ _ _ running phase pending =>
    intro run'
    exact hsome ((h run running).dispatch hsound running phase pending answer fault)
  | @join run _ fault _ running phase task_eq =>
    intro run'
    exact hsome ((h run running).join hsound running phase task_eq fault.unreadable fault.write)
  | @finish run synced running phase =>
    rintro _ ⟨⟩
    exact (h run running).keep (run.finish_keeps synced) rfl (finish_openIds run synced)
      (run.finish_waits phase (h run running).waits synced)
  | @advance run index task _ running task_eq advanced =>
    intro run' hrun'
    obtain ⟨confirmed, task', hnext, hchunk, hposition, -⟩ := advance_run advanced
    obtain rfl := Option.some.inj (hnext.symm.trans hrun')
    exact (h run running).setTask task' (ids_step running hstep) task_eq hchunk hposition confirmed
  | @interrupt run index task failure running task_eq =>
    rintro _ ⟨⟩
    exact (h run running).setTask { task with effects := [], result := .error failure }
      (ids_step running hstep) task_eq rfl rfl run.confirmed

/-! ## Offsets move forward, or back to a refused piece -/

/-- Where a row is after a step of the run: not behind where it was, but for the start of a piece of
it that does not match. -/
def Steady (transfer : SourceTransfer) (run : SourceRun) (row row' : ChunkRow) : Prop :=
  row.spec.committed ≤ row'.spec.committed ∨
  ∃ pieces index, run.pieces = some pieces ∧ pieces.Inside row.spec run.total index ∧
    pieces.matchesHash transfer.file run.total index = false ∧
    row'.spec.committed = (pieces.range index run.total).1

/-- Every row of `ledger` is steady. -/
def AllSteady (transfer : SourceTransfer) (run : SourceRun) (ledger : SourceLedger) : Prop :=
  ∀ row ∈ transfer.ledger.rows, ∀ row' ∈ ledger.rows, row'.spec.id = row.spec.id →
    transfer.Steady run row row'

variable {run : SourceRun} {ledger : SourceLedger}

theorem steady_updated {f : ChunkRow → ChunkRow} (hlaid : transfer.ledger.Laid)
    (hupdated : SourceLedger.Updated transfer.ledger ledger key f)
    (hself : ∀ row, transfer.ledger.row? key = some row → transfer.Steady run row (f row)) :
    transfer.AllSteady run ledger := by
  intro row hmem row' hmem' hid
  obtain ⟨other, hother, rfl⟩ := hupdated.mem hmem'
  by_cases hkey : other.spec.id = key
  · rw [if_pos hkey] at hid ⊢
    rw [hupdated.key] at hid
    obtain rfl := hlaid.eq_of_id hother (hlaid.row? hmem) hid
    exact hself other (hkey ▸ hlaid.row? hother)
  · rw [if_neg hkey] at hid ⊢
    obtain rfl := hlaid.eq_of_id hother (hlaid.row? hmem) hid
    exact .inl (Nat.le_refl _)

theorem steady_same (hlaid : transfer.ledger.Laid)
    (hsame : SourceLedger.SameRows transfer.ledger ledger) : transfer.AllSteady run ledger :=
  steady_updated hlaid (hsame.updated 0) fun _ _ => .inl (Nat.le_refl _)

theorem steady_marked {before after : List LedgerWrite} {position : Option Nat} {verified : Bool}
    (hlaid : transfer.ledger.Laid) (hbefore : ∀ w ∈ before, w.OfSource)
    (hafter : ∀ w ∈ after, w.OfSource) (fault : Option Nat) (key : ChunkId) :
    transfer.AllSteady run (transfer.ledger.writeAll fault
      (before ++ .chunkMarked key position verified :: after)).1 := by
  rcases SourceLedger.writeAll_marked hbefore hafter transfer.ledger fault key position verified with
    ⟨-, hsame⟩ | ⟨hupdated, -⟩
  · exact steady_same hlaid hsame
  · exact steady_updated hlaid hupdated fun _ _ => .inl (Nat.le_refl _)

/-- A chunk is moved back to the start of the first piece of it that is refused. -/
theorem steady_rewound {before : List LedgerWrite} {row : ChunkRow} {chunk : ChunkSpec}
    (hlaid : transfer.ledger.Laid) (hbefore : ∀ w ∈ before, w.OfSource)
    (hrow : transfer.ledger.row? key = some row) (hpieces : run.pieces = some pieces)
    (hrange : row.spec.start = chunk.start ∧ row.spec.stop = chunk.stop)
    (hbad : pieces.firstBadPiece transfer.file chunk run.total = some bad) (fault : Option Nat) :
    transfer.AllSteady run (transfer.ledger.writeAll fault
      (before ++ [.chunkRewound key bad])).1 := by
  rcases SourceLedger.writeAll_rewound hbefore transfer.ledger fault key bad with
    ⟨-, hsame⟩ | ⟨_, fits, -, -, -, hupdated, -⟩
  · exact steady_same hlaid hsame
  · refine steady_updated hlaid hupdated fun row' hrow' => .inr ?_
    obtain rfl := Option.some.inj (hrow.symm.trans hrow')
    obtain ⟨index, hinside, rfl, hmismatch, -⟩ := PieceHashes.firstBadPiece_some hbad
    refine ⟨pieces, index, hpieces, ⟨hinside.listed, ?_, hinside.nonempty, ?_⟩, hmismatch, rfl⟩
    · rw [hrange.1]
      exact hinside.start_le
    · rw [hrange.2]
      exact hinside.le_stop

theorem steady_step (hsound : transfer.Sound) (running : transfer.run = some run)
    (hstep : transfer.step event = some next) : transfer.AllSteady run next.ledger := by
  have hlaid := hsound.laid
  have hrun := hsound.run run running
  cases stepped hstep with
  | start idle =>
    rw [running] at idle
    cases idle
  | stop | queued | dispatched | finish | interrupt => exact steady_same hlaid (.refl _)
  | @queue run' fault chunk rest running' phase =>
    obtain rfl := Option.some.inj (running.symm.trans running')
    change transfer.AllSteady run (transfer.ledger.writeAll _ _).1
    have hidle := SourceRun.mem_idle_of_queued
      ((SourceRun.idle_queueing phase).1 ▸ List.mem_cons_self .. : chunk ∈ run.queued)
    obtain ⟨row, hrow, hspec⟩ := hrun.recorded chunk hidle
    unfold SourceRun.queueChunk
    dsimp only
    split
    · exact steady_same hlaid (.refl _)
    split
    · next pieces deliveredBy hpieces _ =>
      split
      · exact steady_same hlaid (.refl _)
      · split
        · exact steady_marked hlaid (List.forall_mem_nil _) (List.forall_mem_nil _) _ _
        · next bad hbad =>
          exact steady_rewound hlaid (ofSource_blamed _ _) hrow hpieces
            ⟨by rw [hspec], by rw [hspec]⟩ hbad _
    · exact steady_same hlaid (.refl _)
  | @dispatch run' answer fault waiting chunk rest =>
    change transfer.AllSteady run (transfer.ledger.writeAll _ _).1
    unfold SourceRun.dispatchChunk
    split
    · exact steady_same hlaid (.refl _)
    · exact steady_marked hlaid (List.forall_mem_nil _) (List.forall_mem_nil _) _ _
  | @join run' index fault task running' phase task_eq =>
    obtain rfl := Option.some.inj (running.symm.trans running')
    change transfer.AllSteady run (transfer.ledger.writeAll _ _).1
    obtain ⟨row, hrow, hon⟩ := hrun.fetching task (List.mem_of_getElem? task_eq)
    unfold SourceRun.settle
    split
    · unfold SourceRun.settleComplete
      dsimp only
      split
      · exact steady_same hlaid (.refl _)
      split
      · exact steady_marked hlaid (List.forall_mem_nil _) (ofSource_delivered _ _) _ _
      · next bad hbad =>
        obtain ⟨pieces, hpieces, hbad⟩ := Option.bind_eq_some_iff.mp hbad
        exact steady_rewound hlaid (ofSource_blamed _ _) hrow hpieces
          ⟨by rw [hon.same], by rw [hon.same]⟩ hbad _
    · exact steady_same hlaid (.refl _)
    · exact steady_same hlaid (.refl _)
    · exact steady_same hlaid (.refl _)
    · exact steady_same hlaid (SourceLedger.writeAll_ofSource (settleFailure_ofSource _ task _) _ _)
  | advance _ _ advanced =>
    unfold advance at advanced
    split at advanced
    · cases advanced
    · obtain rfl := Option.some.inj advanced
      exact steady_same hlaid (.refl _)
    · obtain rfl := Option.some.inj advanced
      exact steady_same hlaid (.refl _)
    · split at advanced
      · obtain rfl := Option.some.inj advanced
        exact steady_same hlaid (.refl _)
      · next hchunks =>
        obtain rfl := Option.some.inj advanced
        obtain ⟨row, fits, hrow, hadmits, hupdated⟩ := SourceLedger.checkpointed hchunks
        refine steady_updated hlaid hupdated fun row' hrow' => .inl ?_
        obtain rfl := Option.some.inj (hrow.symm.trans hrow')
        exact hadmits.committed_le

/-! ## The loop ends -/

/-- The pending chunks are among the rows. -/
theorem pending_le (hsound : transfer.Sound) (running : transfer.run = some run) :
    run.pending.length ≤ transfer.ids.length := by
  have hrun := hsound.run run running
  have hnodup : (run.pending.map (·.id)).Nodup := by
    have hsub : (run.pending.map (·.id)).Sublist run.openIds := by
      refine (List.Sublist.map _ ?_).trans (List.sublist_append_left ..)
      exact (List.sublist_append_left ..).trans (List.sublist_append_right ..)
    exact hrun.nodup.sublist hsub
  have hsub : run.pending.map (·.id) ⊆ transfer.ids := by
    intro id hmem
    obtain ⟨chunk, hchunk, rfl⟩ := List.mem_map.mp hmem
    obtain ⟨row, hrow, -⟩ := hrun.recorded chunk (SourceRun.mem_idle_of_pending hchunk)
    obtain ⟨hmem, hid⟩ := SourceLedger.mem_rows hrow
    exact hid ▸ List.mem_map_of_mem hmem
  have hle := (List.subperm_of_subset hnodup hsub).length_le
  rwa [List.length_map] at hle

theorem isEnded_finish (run : SourceRun) (synced : Bool) :
    ∃ outcome, (run.finish synced).phase = .ended outcome := by
  unfold SourceRun.finish
  split
  · exact ⟨_, rfl⟩
  · split <;> exact ⟨_, rfl⟩

/-- Every part of the loop is one less to go through, and nothing a fetch does adds one. -/
theorem loopSteps_step (hsound : transfer.Sound) (hnext : next.Sound)
    (hfrugal : ∀ run, next.run = some run → next.Frugal run) (running : transfer.run = some run)
    (hin : event.InRun) (hstep : transfer.step event = some next) :
    ∃ run', next.run = some run' ∧ (if event.isLoop then 1 else 0) +
      run'.loopSteps transfer.ids.length ≤ run.loopSteps transfer.ids.length := by
  have hids := ids_step running hstep
  have hpending := pending_le hsound running
  have hkeep {run' : SourceRun} (hkeeps : run.Keeps run') :
      transfer.ids.length * run'.pool.sources.length - run'.fetches.length + run'.tasks.length =
        transfer.ids.length * run.pool.sources.length - run.fetches.length + run.tasks.length := by
    rw [hkeeps.pool, hkeeps.fetches, hkeeps.tasks]
  cases stepped hstep with
  | start => exact hin.elim
  | stop => exact hin.elim
  | @queued run' _ running' phase =>
    obtain rfl := Option.some.inj (running.symm.trans running')
    refine ⟨_, rfl, ?_⟩
    simp only [SourceEvent.isLoop, SourceRun.loopSteps, phase, List.length_nil, if_true]
    omega
  | @queue run' fault chunk rest running' phase =>
    obtain rfl := Option.some.inj (running.symm.trans running')
    have hkeeps := run.queueChunk_keeps transfer.file fault.unreadable chunk rest
    rcases transfer.book_run (run.queueChunk transfer.file fault.unreadable chunk rest) fault.write with
      hrun | hrun
    · refine ⟨_, hrun, ?_⟩
      unfold SourceRun.loopSteps
      rw [hkeep hkeeps.1]
      rcases run.queueChunk_phase transfer.file fault.unreadable chunk rest with
        hphase | ⟨error, -, hphase⟩
      · simp only [SourceEvent.isLoop, hphase, phase, List.length_cons, if_true]
        omega
      · simp only [SourceEvent.isLoop, hphase, phase, List.length_cons, if_true]
        omega
    · refine ⟨_, hrun, ?_⟩
      have hended := hkeep (hkeeps.2.with
        (run.queueChunk transfer.file fault.unreadable chunk rest).base.pending
        (run.queueChunk transfer.file fault.unreadable chunk rest).base.confirmed
        (run.queueChunk transfer.file fault.unreadable chunk rest).base.lastError
        (.ended (.error (.internal "ledger"))))
      unfold SourceRun.loopSteps SourceRun.endWith
      rw [hended]
      simp only [SourceEvent.isLoop, phase, List.length_cons, if_true]
      omega
  | @dispatched run' _ _ waiting running' phase pending =>
    obtain rfl := Option.some.inj (running.symm.trans running')
    refine ⟨_, rfl, ?_⟩
    simp only [SourceEvent.isLoop, SourceRun.loopSteps, phase, pending, List.length_nil, if_true]
    omega
  | @dispatch run' answer fault waiting chunk rest running' phase pending =>
    obtain rfl := Option.some.inj (running.symm.trans running')
    rcases transfer.book_dispatchChunk run answer chunk rest waiting fault with
      ⟨-, hrun⟩ | ⟨source, pool, hpick, ⟨-, hrun⟩ | ⟨-, hrun⟩⟩
    · refine ⟨_, hrun, ?_⟩
      simp only [SourceEvent.isLoop, SourceRun.loopSteps, phase, pending, List.length_cons, if_true]
      omega
    · refine ⟨_, hrun, ?_⟩
      simp only [SourceEvent.isLoop, SourceRun.loopSteps, SourceRun.endWith, phase, if_true]
      omega
    · refine ⟨_, hrun, ?_⟩
      -- one fetch more was among the ones left
      have hfew := (hfrugal _ hrun).once.length_le
      rw [hids] at hfew
      obtain ⟨-, -, rfl⟩ := Pool.pick_some hpick
      simp only [List.length_append, List.length_singleton] at hfew
      have hsum : transfer.ids.length * run.pool.sources.length -
          (run.fetches.length + 1) + (run.tasks.length + 1) =
          transfer.ids.length * run.pool.sources.length - run.fetches.length + run.tasks.length := by
        omega
      simp only [SourceEvent.isLoop, SourceRun.loopSteps, phase, pending, List.length_cons, if_true,
        List.length_append, List.length_nil, Nat.zero_add, hsum]
      omega
  | @join run' index fault task running' phase task_eq =>
    obtain rfl := Option.some.inj (running.symm.trans running')
    have hkeeps := (run.joined index task).settle_keeps transfer.file fault.unreadable task
    obtain ⟨run', hrun, hkept⟩ := transfer.book_keeps hkeeps fault.write
    refine ⟨run', hrun, ?_⟩
    have hlength : (run.joined index task).tasks.length + 1 = run.tasks.length :=
      (SourceRun.perm_eraseIdx task_eq).length_eq.symm
    have hphase : (match run'.phase with
        | .queueing queued => queued.length + transfer.ids.length + 4
        | .dispatching _ => run'.pending.length + 2
        | .joining => 1
        | .ended _ => 0) ≤ transfer.ids.length + 2 := by
      have hpending' := hids ▸ pending_le hnext hrun
      have hphases : run'.phase = .dispatching [] ∨ ∃ outcome, run'.phase = .ended outcome := by
        rcases transfer.book_run ((run.joined index task).settle transfer.file fault.unreadable task)
          fault.write with hrun' | hrun'
        · obtain rfl := Option.some.inj (hrun.symm.trans hrun')
          rcases (run.joined index task).settle_phase transfer.file fault.unreadable task with
            hphase | hphase | ⟨error, -, hphase⟩
          · exact .inl hphase
          · exact .inr ⟨_, hphase⟩
          · exact .inr ⟨_, hphase⟩
        · obtain rfl := Option.some.inj (hrun.symm.trans hrun')
          exact .inr ⟨_, rfl⟩
      rcases hphases with hphase | ⟨outcome, hphase⟩
      · rw [hphase]
        exact Nat.add_le_add_right hpending' 2
      · rw [hphase]
        exact Nat.zero_le _
    unfold SourceRun.loopSteps
    rw [hkept.pool, hkept.fetches, hkept.tasks, phase, ← hlength]
    change _ + ((transfer.ids.length * run.pool.sources.length - run.fetches.length +
      (run.joined index task).tasks.length) * (transfer.ids.length + 3) + _) ≤ _
    have hmul : (transfer.ids.length * run.pool.sources.length - run.fetches.length +
        ((run.joined index task).tasks.length + 1)) * (transfer.ids.length + 3) =
        (transfer.ids.length * run.pool.sources.length - run.fetches.length +
          (run.joined index task).tasks.length) * (transfer.ids.length + 3) +
            (transfer.ids.length + 3) := Nat.succ_mul _ _
    simp only [SourceEvent.isLoop, if_true]
    omega
  | @finish run' synced running' phase =>
    obtain rfl := Option.some.inj (running.symm.trans running')
    obtain ⟨outcome, hphase⟩ := isEnded_finish run synced
    refine ⟨_, rfl, ?_⟩
    unfold SourceRun.loopSteps
    rw [hkeep (run.finish_keeps synced), hphase, phase]
    simp only [SourceEvent.isLoop, if_true]
    omega
  | @advance run' index task _ running' task_eq advanced =>
    obtain rfl := Option.some.inj (running.symm.trans running')
    obtain ⟨confirmed, task', hrun, -⟩ := advance_run advanced
    refine ⟨_, hrun, ?_⟩
    simp only [SourceEvent.isLoop, SourceRun.loopSteps, List.length_set]
    exact Nat.le_of_eq (Nat.zero_add _)
  | @interrupt run' index task failure running' =>
    obtain rfl := Option.some.inj (running.symm.trans running')
    refine ⟨_, rfl, ?_⟩
    simp only [SourceEvent.isLoop, SourceRun.loopSteps, List.length_set]
    exact Nat.le_of_eq (Nat.zero_add _)

theorem advance_isSome {task : Fetch} (h : task.effects ≠ []) :
    (transfer.advance run index task).isSome := by
  unfold advance
  split
  · next heffects => exact absurd heffects h
  · rfl
  · rfl
  · split <;> rfl

/-- A run that has not ended can go on by itself. -/
theorem goes_on (running : transfer.run = some run) (hgoing : ∀ outcome, run.phase ≠ .ended outcome) :
    (∃ event, event.isLoop ∧ (transfer.step event).isSome) ∨
      ∃ index, (transfer.step (.advance index)).isSome := by
  cases phase : run.phase with
  | queueing queued =>
    refine .inl ⟨.queue {}, rfl, ?_⟩
    simp only [step, running, phase]
    cases queued <;> rfl
  | dispatching waiting =>
    refine .inl ⟨.dispatch {} none, rfl, ?_⟩
    simp only [step, running, phase]
    cases run.pending <;> rfl
  | joining =>
    cases htasks : run.tasks with
    | nil =>
      refine .inl ⟨.finish true, rfl, ?_⟩
      simp [step, running, phase, htasks]
    | cons task tasks =>
      cases heffects : task.effects with
      | nil =>
        refine .inl ⟨.join 0 {}, rfl, ?_⟩
        simp [step, running, phase, htasks, heffects]
      | cons effect effects =>
        refine .inr ⟨0, ?_⟩
        simp only [step, running, htasks, List.getElem?_cons_zero, Option.bind_some]
        exact advance_isSome (by rw [heffects]; exact List.cons_ne_nil _ _)
  | ended outcome => exact absurd phase (hgoing outcome)

/-! ## What bounds a run -/

/-- A run fetches a chunk from a source once; its loop takes so many steps at most and never waits
for nothing; its offsets are steady; and it ends in an error for a failure on this machine, or with a
chunk left that no source may serve. -/
structure Bounded (transfer : SourceTransfer) (run : SourceRun) : Prop where
  once : run.fetches.Nodup
  few : run.fetches.length ≤ transfer.ledger.rows.length * run.pool.sources.length
  loop : ∀ events last, (∀ event ∈ events, event.InRun) →
    sourceMachine.run transfer events = some last →
    events.countP SourceEvent.isLoop ≤ run.loopSteps transfer.ids.length
  goes_on : (∀ outcome, run.phase ≠ .ended outcome) →
    (∃ event, event.isLoop ∧ (transfer.step event).isSome) ∨
      ∃ index, (transfer.step (.advance index)).isSome
  steady : ∀ event next, transfer.step event = some next → transfer.AllSteady run next.ledger
  error : ∀ error, run.phase = .ended (.error error) → isOwnFailure error ∨
    ∃ chunk ∈ run.pending, run.pool.usable chunk.committed = []

theorem running_of_step (hin : event.InRun) (hstep : transfer.step event = some next) :
    ∃ run, transfer.run = some run := by
  cases stepped hstep with
  | start | stop => exact hin.elim
  | queued running | queue running | dispatched running | dispatch running | join running
  | finish running | advance running | interrupt running => exact ⟨_, running⟩

/-- What a state is known to keep. -/
def Kept (transfer : SourceTransfer) : Prop :=
  transfer.Sound ∧ ∀ run, transfer.run = some run → transfer.Frugal run

theorem kept_step (h : transfer.Kept) (hstep : transfer.step event = some next) : next.Kept :=
  ⟨sound_step h.1 hstep, frugal_step h.1 h.2 hstep⟩

theorem loop_le (h : transfer.Kept) (running : transfer.run = some run) {events : List SourceEvent}
    (hin : ∀ event ∈ events, event.InRun) (hrun : sourceMachine.run transfer events = some last) :
    events.countP SourceEvent.isLoop ≤ run.loopSteps transfer.ids.length := by
  let left (transfer : SourceTransfer) : Nat :=
    (transfer.run.map (·.loopSteps transfer.ids.length)).getD 0
  have hleft {transfer : SourceTransfer} {run : SourceRun} (running : transfer.run = some run) :
      left transfer = run.loopSteps transfer.ids.length := by
    simp only [left, running, Option.map_some, Option.getD_some]
  have hcount : events.countP SourceEvent.isLoop + left last ≤ left transfer := by
    have hinv (state : SourceTransfer) (event : SourceEvent) (next : SourceTransfer)
        (hkept : state.Kept) (hstep : state.step event = some next) : next.Kept :=
      kept_step hkept hstep
    refine Machine.countP_add_le hinv ?_ h hin hrun
    intro state event next hkept hin hstep
    obtain ⟨run, running⟩ := running_of_step hin hstep
    obtain ⟨hnext, hfrugal⟩ := kept_step hkept hstep
    obtain ⟨run', running', hle⟩ := loopSteps_step hkept.1 hnext hfrugal running hin hstep
    rw [hleft running, hleft running', ids_step running hstep]
    exact hle
  rw [hleft running] at hcount
  exact Nat.le_trans (Nat.le_add_right ..) hcount

theorem bounded_of_reaches {run : SourceRun}
    (h : sourceMachine.Reaches Machine.anything transfer) (running : transfer.run = some run) :
    transfer.Bounded run := by
  have hkept : transfer.Kept := by
    refine h.invariant Kept (fun state hinitial => ⟨Untouched.sound hinitial, fun run hrun => ?_⟩)
      fun _ _ _ hkept _ hstep => kept_step hkept hstep
    rw [Untouched.idle hinitial] at hrun
    cases hrun
  have hfrugal := hkept.2 run running
  refine ⟨hfrugal.once.nodup, ?_, fun _ _ hin hrun => loop_le hkept running hin hrun,
    goes_on running, fun _ _ hstep => steady_step hkept.1 running hstep, fun error ended => ?_⟩
  · have hle := hfrugal.once.length_le
    rwa [ids, List.length_map] at hle
  · have hwaits := hfrugal.waits
    unfold SourceRun.Waits at hwaits
    rwa [ended] at hwaits

/-! ## A full disk -/

def twoSources : SourceTransfer where
  file := fun _ => 0
  ledger := {
    download := 1
    chunks := { chunks := [] }
    totalBytes := none
    sources := [{ position := 0 }, { position := 1 }] }
  pieceHashes := none

/-- The disk is full while the first mirror sends. -/
def diskFull : List SourceEvent := [
  .start { total := 2, endpoints := [{ position := 0 }, { position := 1 }], parallel := 2 },
  .queue {}, .queue {}, .dispatch {} none, .dispatch {} none,
  .interrupt 0 (.local "no space left on device"), .join 0 {}]

theorem twoSources_untouched : sourceMachine.initial twoSources :=
  SourceTransfer.Untouched.of_empty rfl rfl rfl rfl

theorem bounded_of_reaches_twoSources : ∃ last run,
    sourceMachine.run twoSources diskFull = some last ∧ last.run = some run ∧ last.Bounded run :=
  ⟨_, _, rfl, rfl, bounded_of_reaches
    (@Machine.Reaches.run _ _ _ _ _ diskFull (.initial twoSources_untouched) rfl) rfl⟩

/-- The run ends in an error with the second mirror never asked. -/
theorem error_with_source_left :
    ¬ ∀ transfer run error, sourceMachine.Reaches Machine.anything transfer →
      transfer.run = some run → run.phase = .ended (.error error) →
      ∃ row ∈ transfer.ledger.rows, row.spec.isComplete = false ∧
        run.pool.usable row.spec.committed = [] := by
  intro h
  obtain ⟨last, hlast⟩ : ∃ last, sourceMachine.run twoSources diskFull = some last := ⟨_, rfl⟩
  have hreaches := (Machine.Reaches.initial twoSources_untouched).run hlast
  obtain rfl := Option.some.inj hlast
  obtain ⟨row, hmem, -, hnone⟩ := h _ _ (.local "no space left on device") hreaches rfl rfl
  obtain rfl := List.mem_singleton.mp hmem
  exact absurd hnone (List.cons_ne_nil _ _)

end SourceTransfer
end RDownloader
