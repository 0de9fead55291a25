import RDownloader.Scheduler.WorkerSources
import Mathlib.Data.Finset.Card

/-!
# How many sources work at a time

The pool selects the first `parallel` sources that are in and may serve the chunk, and picks an idle
one while there is one. Fetches of a source that went out, or that may not serve this chunk, are not
counted. `inFlight_le_parallel_iff` says for which runs the number of sources at work stays within
`parallel` all the same.
-/

namespace RDownloader

/-- The sources with a fetch in flight. -/
def SourceRun.inFlight (run : SourceRun) : Finset Nat :=
  (run.tasks.map (·.position)).toFinset

namespace SourceTransfer

/-- No more sources have a fetch in flight than may work at a time. -/
def WithinParallel (transfer : SourceTransfer) : Prop :=
  ∀ run, transfer.run = some run → run.inFlight.card ≤ run.pool.parallel

/-- The ledger takes the chunk's mark. -/
def Markable (transfer : SourceTransfer) (chunk : ChunkSpec) (fault : Option Nat) : Prop :=
  fault ≠ some 0 ∧ (transfer.ledger.row? chunk.id).isSome

/-- A chunk is handed to an idle source only while fewer than `parallel` sources work. -/
def Spreads (transfer : SourceTransfer) : SourceEvent → Prop
  | .dispatch _ fault => ∀ run waiting chunk rest, transfer.run = some run →
      run.phase = .dispatching waiting → run.pending = chunk :: rest →
      transfer.Markable chunk fault →
      (∃ source ∈ run.pool.selection chunk.committed, source.position ∉ run.inFlight) →
      run.inFlight.card < run.pool.parallel
  | _ => True

/-- The pool's figure for a source is the number of its fetches in flight. -/
def Counted (transfer : SourceTransfer) : Prop :=
  ∀ run, transfer.run = some run →
    ∀ position, run.pool.busy position = (run.tasks.map (·.position)).count position

/-! ## Bookings -/

theorem book_run (transfer : SourceTransfer) (booking : Booking) (fault : Option Nat) :
    (transfer.book booking fault).run = some booking.next ∨
      (transfer.book booking fault).run =
        some (booking.base.endWith (.error (.internal "ledger"))) := by
  unfold book
  dsimp only
  split
  · exact .inl rfl
  · exact .inr rfl

theorem book_keeps (transfer : SourceTransfer) {run : SourceRun} {booking : Booking}
    (h : run.Keeps booking.next ∧ run.Keeps booking.base) (fault : Option Nat) :
    ∃ next, (transfer.book booking fault).run = some next ∧ run.Keeps next := by
  rcases transfer.book_run booking fault with hrun | hrun
  · exact ⟨_, hrun, h.1⟩
  · exact ⟨_, hrun, h.2.with ..⟩

theorem writeAll_mark (ledger : SourceLedger) (id : ChunkId) (position : Option Nat)
    (verified : Bool) (fault : Option Nat) :
    (ledger.writeAll fault [.chunkMarked id position verified]).2 = true ↔
      fault ≠ some 0 ∧ (ledger.row? id).isSome := by
  rw [SourceLedger.writeAll]
  split
  · next hfault => simp [hfault]
  · next hfault =>
    unfold SourceLedger.row?
    rw [SourceLedger.write, ChunkStore.markChunk]
    cases ledger.chunks.row? id <;> simp [Except.map, SourceLedger.writeAll, hfault]

end SourceTransfer

namespace SourceRun

variable {run next : SourceRun}

theorem Keeps.inFlight (h : run.Keeps next) : next.inFlight = run.inFlight := by
  rw [SourceRun.inFlight, SourceRun.inFlight, h.tasks]

theorem Keeps.parallel (h : run.Keeps next) : next.pool.parallel = run.pool.parallel := by
  rw [h.pool]

theorem Keeps.busy (h : run.Keeps next) : next.pool.busy = run.pool.busy := by
  rw [h.pool]

/-- A step inside a fetch leaves it where it is, with its source. -/
theorem map_set {α β : Type} {f : α → β} {tasks : List α} {index : Nat} {task task' : α}
    (h : tasks[index]? = some task) (hsame : f task' = f task) :
    (tasks.set index task').map f = tasks.map f := by
  rw [List.map_set, hsame]
  obtain ⟨hlt, heq⟩ := List.getElem?_eq_some_iff.mp h
  apply List.ext_getElem?
  intro i
  rw [List.getElem?_set]
  split
  · next hi =>
    subst hi
    simp [hlt, heq]
  · rfl

theorem perm_eraseIdx {tasks : List α} (h : tasks[index]? = some task) :
    tasks.Perm (task :: tasks.eraseIdx index) := by
  obtain ⟨hlt, rfl⟩ := List.getElem?_eq_some_iff.mp h
  exact (List.getElem_cons_eraseIdx_perm hlt).symm

theorem joined_count (h : run.tasks[index]? = some task)
    (hcount : ∀ position, run.pool.busy position = (run.tasks.map (·.position)).count position)
    (position : Nat) :
    (run.joined index task).pool.busy position =
      ((run.joined index task).tasks.map (·.position)).count position := by
  have hperm := ((perm_eraseIdx h).map (·.position)).count_eq position
  rw [List.map_cons, List.count_cons] at hperm
  simp only [joined, Pool.release, hcount, hperm]
  by_cases heq : position = task.position
  · simp [heq]
  · simp [heq, Ne.symm heq]

theorem joined_inFlight (run : SourceRun) (index : Nat) (task : Fetch) :
    (run.joined index task).inFlight ⊆ run.inFlight := by
  intro position hmem
  rw [inFlight, List.mem_toFinset] at hmem ⊢
  exact (List.eraseIdx_sublist run.tasks index |>.map _).subset hmem

theorem mem_inFlight_iff
    (hcount : ∀ position, run.pool.busy position = (run.tasks.map (·.position)).count position) :
    position ∈ run.inFlight ↔ 0 < run.pool.busy position := by
  rw [inFlight, List.mem_toFinset, hcount, List.count_pos_iff]

end SourceRun

namespace SourceTransfer

variable {transfer next : SourceTransfer} {event : SourceEvent}

/-- An advanced fetch is the one it was: only where it stands and what is left of it changed. -/
theorem advance_run {run : SourceRun} {task : Fetch}
    (h : transfer.advance run index task = some next) :
    ∃ confirmed task', next.run = some { run with
        confirmed, tasks := run.tasks.set index task' } ∧
      task'.chunk = task.chunk ∧ task'.position = task.position ∧
      task'.startedAt = task.startedAt := by
  unfold advance at h
  split at h
  · cases h
  · obtain rfl := Option.some.inj h
    exact ⟨run.confirmed, _, rfl, rfl, rfl, rfl⟩
  · obtain rfl := Option.some.inj h
    exact ⟨run.confirmed, _, rfl, rfl, rfl, rfl⟩
  · split at h
    · obtain rfl := Option.some.inj h
      exact ⟨run.confirmed, _, rfl, rfl, rfl, rfl⟩
    · obtain rfl := Option.some.inj h
      exact ⟨_, _, rfl, rfl, rfl, rfl⟩

/-- What handing a chunk a source comes to: the chunk waits, or its mark fails, or a fetch is
started. -/
theorem book_dispatchChunk (transfer : SourceTransfer) (run : SourceRun) (answer : Answer)
    (chunk : ChunkSpec) (rest waiting : List ChunkSpec) (fault : Option Nat) :
    let next := transfer.book (run.dispatchChunk answer chunk rest waiting) fault
    (run.pool.pick chunk.committed = none ∧ next.run = some { run with
        pending := rest, phase := .dispatching (waiting ++ [chunk]) }) ∨
    ∃ source pool, run.pool.pick chunk.committed = some (source, pool) ∧
      ((¬ transfer.Markable chunk fault ∧
          next.run = some (run.endWith (.error (.internal "ledger")))) ∨
        (transfer.Markable chunk fault ∧ next.run = some { run with
          pool, pending := rest
          tasks := run.tasks ++ [run.spawnFetch chunk source answer]
          fetches := run.fetches ++ [(chunk.id, source.position)] })) := by
  unfold SourceRun.dispatchChunk
  cases hpick : run.pool.pick chunk.committed with
  | none => exact .inl ⟨rfl, by rw [book_silent]⟩
  | some picked =>
    refine .inr ⟨picked.1, picked.2, rfl, ?_⟩
    have hmade := writeAll_mark transfer.ledger chunk.id (some picked.1.position) false fault
    unfold book
    dsimp only
    by_cases hmark : transfer.Markable chunk fault
    · exact .inr ⟨hmark, by rw [if_pos (hmade.mpr hmark)]⟩
    · exact .inl ⟨hmark, by rw [if_neg fun h => hmark (hmade.mp h)]⟩

theorem counted_step (hcount : transfer.Counted) (h : transfer.step event = some next) :
    next.Counted := by
  have hkeep {run run' : SourceRun} (hrun : transfer.run = some run) (hnext : next.run = some run')
      (htasks : run'.tasks.map (·.position) = run.tasks.map (·.position))
      (hbusy : run'.pool.busy = run.pool.busy) : next.Counted := by
    intro run'' hrun''
    obtain rfl := Option.some.inj (hnext.symm.trans hrun'')
    rw [htasks, hbusy]
    exact hcount run hrun
  cases stepped h with
  | start =>
    rintro _ ⟨⟩ position
    rfl
  | stop => rintro _ ⟨⟩
  | queued running => exact hkeep running rfl rfl rfl
  | @queue run fault chunk rest running =>
    obtain ⟨run', hrun', hkeeps⟩ := transfer.book_keeps
      (run.queueChunk_keeps transfer.file fault.unreadable chunk rest) fault.write
    exact hkeep running hrun' (by rw [hkeeps.tasks]) hkeeps.busy
  | dispatched running => exact hkeep running rfl rfl rfl
  | @dispatch run answer fault waiting chunk rest running =>
    rcases transfer.book_dispatchChunk run answer chunk rest waiting fault with
      ⟨-, hnext⟩ | ⟨source, pool, hpick, ⟨-, hnext⟩ | ⟨-, hnext⟩⟩
    · exact hkeep running hnext rfl rfl
    · exact hkeep running hnext rfl rfl
    · obtain ⟨-, -, rfl⟩ := Pool.pick_some hpick
      intro run' hrun' position
      obtain rfl := Option.some.inj (hnext.symm.trans hrun')
      have hposition : (run.spawnFetch chunk source answer).position = source.position := rfl
      rw [List.map_append, List.count_append, ← hcount run running, List.map_singleton,
        hposition, List.count_singleton]
      dsimp only
      by_cases heq : position = source.position
      · simp [heq]
      · simp [heq, Ne.symm heq]
  | @join run index fault task running phase task_eq done =>
    obtain ⟨run', hrun', hkeeps⟩ := transfer.book_keeps
      ((run.joined index task).settle_keeps transfer.file fault.unreadable task) fault.write
    intro run'' hrun'' position
    obtain rfl := Option.some.inj (hrun'.symm.trans hrun'')
    rw [hkeeps.tasks, hkeeps.busy]
    exact SourceRun.joined_count task_eq (hcount run running) position
  | @finish run synced running =>
    exact hkeep running rfl (by rw [(run.finish_keeps synced).tasks]) (run.finish_keeps synced).busy
  | advance running task_eq advanced =>
    obtain ⟨confirmed, task', hnext, -, hposition, -⟩ := advance_run advanced
    exact hkeep running hnext (SourceRun.map_set task_eq hposition) rfl
  | interrupt running task_eq =>
    exact hkeep running rfl (SourceRun.map_set task_eq rfl) rfl

theorem WithinParallel.of_subset {run run' : SourceRun} (h : transfer.WithinParallel)
    (hrun : transfer.run = some run) (hnext : next.run = some run')
    (hsub : run'.inFlight ⊆ run.inFlight) (hparallel : run'.pool.parallel = run.pool.parallel) :
    next.WithinParallel := by
  intro run'' hrun''
  obtain rfl := Option.some.inj (hnext.symm.trans hrun'')
  rw [hparallel]
  exact Nat.le_trans (Finset.card_le_card hsub) (h run hrun)

/-- A fetch was started: the bound is kept exactly when its source already worked or there was room
for one more. -/
theorem withinParallel_spawn {run run' : SourceRun} {chunk : ChunkSpec} {source : SourceEndpoint}
    (hcount : transfer.Counted)
    (h : transfer.WithinParallel) (hrun : transfer.run = some run)
    (hpick : run.pool.pick chunk.committed = some (source, pool))
    (hnext : next.run = some run') (hparallel : run'.pool.parallel = run.pool.parallel)
    (hflight : run'.inFlight = insert source.position run.inFlight) :
    next.WithinParallel ↔
      ((∃ source ∈ run.pool.selection chunk.committed, source.position ∉ run.inFlight) →
        run.inFlight.card < run.pool.parallel) := by
  obtain ⟨hmem, hleast, -⟩ := Pool.pick_some hpick
  have hwithin : next.WithinParallel ↔ run'.inFlight.card ≤ run'.pool.parallel := by
    refine ⟨fun h => h run' hnext, fun hle run'' hrun'' => ?_⟩
    obtain rfl := Option.some.inj (hnext.symm.trans hrun'')
    exact hle
  rw [hwithin, hparallel, hflight]
  by_cases hwork : source.position ∈ run.inFlight
  · rw [Finset.insert_eq_of_mem hwork]
    refine ⟨?_, fun _ => h run hrun⟩
    rintro - ⟨idle, hidle, hnot⟩
    -- the picked source has the fewest fetches, so no selected one is idle
    have hpos := (SourceRun.mem_inFlight_iff (hcount run hrun)).mp hwork
    exact absurd ((SourceRun.mem_inFlight_iff (hcount run hrun)).mpr
      (Nat.lt_of_lt_of_le hpos (hleast idle hidle))) hnot
  · rw [Finset.card_insert_of_notMem hwork]
    exact ⟨fun hle _ => hle, fun hroom => hroom ⟨source, hmem, hwork⟩⟩

theorem withinParallel_step_iff (hcount : transfer.Counted) (h : transfer.WithinParallel)
    (hstep : transfer.step event = some next) :
    next.WithinParallel ↔ transfer.Spreads event := by
  have hkeep {run run' : SourceRun} (hrun : transfer.run = some run) (hnext : next.run = some run')
      (htasks : run'.tasks.map (·.position) = run.tasks.map (·.position))
      (hparallel : run'.pool.parallel = run.pool.parallel) : next.WithinParallel := by
    refine h.of_subset hrun hnext (subset_of_eq ?_) hparallel
    rw [SourceRun.inFlight, SourceRun.inFlight, htasks]
  cases stepped hstep with
  | start =>
    refine ⟨fun _ => trivial, ?_⟩
    rintro - _ ⟨⟩
    exact Nat.zero_le _
  | stop =>
    refine ⟨fun _ => trivial, ?_⟩
    rintro - _ ⟨⟩
  | queued running => exact ⟨fun _ => trivial, fun _ => hkeep running rfl rfl rfl⟩
  | @queue run fault chunk rest running =>
    obtain ⟨run', hrun', hkeeps⟩ := transfer.book_keeps
      (run.queueChunk_keeps transfer.file fault.unreadable chunk rest) fault.write
    exact ⟨fun _ => trivial, fun _ => hkeep running hrun' (by rw [hkeeps.tasks]) hkeeps.parallel⟩
  | @dispatched run answer fault waiting running phase pending =>
    refine ⟨fun _ => ?_, fun _ => hkeep running rfl rfl rfl⟩
    intro run' _ _ _ hrun' _ hpending
    obtain rfl := Option.some.inj (running.symm.trans hrun')
    rw [pending] at hpending
    cases hpending
  | @dispatch run answer fault waiting chunk rest running phase pending =>
    have hspreads : transfer.Spreads (.dispatch answer fault) ↔ (transfer.Markable chunk fault →
        (∃ source ∈ run.pool.selection chunk.committed, source.position ∉ run.inFlight) →
        run.inFlight.card < run.pool.parallel) := by
      refine ⟨fun h => h run waiting chunk rest running phase pending, ?_⟩
      intro h run' waiting' chunk' rest' hrun' _ hpending
      obtain rfl := Option.some.inj (running.symm.trans hrun')
      obtain ⟨rfl, -⟩ := List.cons.inj (pending.symm.trans hpending)
      exact h
    rw [hspreads]
    rcases transfer.book_dispatchChunk run answer chunk rest waiting fault with
      ⟨hpick, hnext⟩ | ⟨source, pool, hpick, ⟨hmark, hnext⟩ | ⟨hmark, hnext⟩⟩
    · refine ⟨?_, fun _ => hkeep running hnext rfl rfl⟩
      rintro - - ⟨source, hmem, -⟩
      rw [Pool.pick, Option.map_eq_none_iff, List.argmin_eq_none] at hpick
      rw [hpick] at hmem
      cases hmem
    · exact ⟨fun _ hmarkable => absurd hmarkable hmark, fun _ => hkeep running hnext rfl rfl⟩
    · obtain ⟨-, -, rfl⟩ := Pool.pick_some hpick
      rw [withinParallel_spawn hcount h running hpick hnext rfl (by
        simp [SourceRun.inFlight, SourceRun.spawnFetch, List.toFinset_append, Finset.union_comm])]
      exact ⟨fun hroom _ => hroom, fun hroom => hroom hmark⟩
  | @join run index fault task running phase task_eq done =>
    obtain ⟨run', hrun', hkeeps⟩ := transfer.book_keeps
      ((run.joined index task).settle_keeps transfer.file fault.unreadable task) fault.write
    refine ⟨fun _ => trivial, fun _ => h.of_subset running hrun' ?_ hkeeps.parallel⟩
    rw [hkeeps.inFlight]
    exact run.joined_inFlight index task
  | @finish run synced running =>
    exact ⟨fun _ => trivial, fun _ => hkeep running rfl (by rw [(run.finish_keeps synced).tasks])
      (run.finish_keeps synced).parallel⟩
  | advance running task_eq advanced =>
    obtain ⟨confirmed, task', hnext, -, hposition, -⟩ := advance_run advanced
    exact ⟨fun _ => trivial, fun _ => hkeep running hnext (SourceRun.map_set task_eq hposition) rfl⟩
  | interrupt running task_eq =>
    exact ⟨fun _ => trivial, fun _ => hkeep running rfl (SourceRun.map_set task_eq rfl) rfl⟩

/-- Along every run, restarts included, the sources at work stay within `parallel` exactly when
no chunk is handed to an idle source while `parallel` sources work. -/
theorem inFlight_le_parallel_iff (transfer : SourceTransfer) (h : sourceMachine.initial transfer)
    (events : List SourceEvent) :
    sourceMachine.Always WithinParallel transfer events ↔
      sourceMachine.Within Spreads transfer events := by
  have hidle : transfer.run = none := SourceTransfer.Untouched.idle h
  refine Machine.always_iff (fun _ _ _ hcount hstep => counted_step hcount hstep)
    (fun _ _ _ hcount hwithin hstep => withinParallel_step_iff hcount hwithin hstep) ?_ ?_ events
  · intro run hrun
    rw [hidle] at hrun
    cases hrun
  · intro run hrun
    rw [hidle] at hrun
    cases hrun

/-! ## Two mirrors and no hash -/

/-- Eight bytes in two chunks, of which an attempt at the download's own address left one byte. -/
def twoMirrors : SourceTransfer where
  file := fun _ => 0
  ledger := {
    download := 1
    chunks := {
      chunks := [
        { spec := { id := 1, start := 0, stop := some 4, committed := 1 }, downloadId := 1
          fits := by decide },
        { spec := { id := 2, start := 4, stop := some 8, committed := 4 }, downloadId := 1
          fits := by decide }] }
    totalBytes := some 8
    sources := [{ position := 0 }, { position := 1 }] }
  pieceHashes := none

/-- Both chunks go to the first mirror; it fails for the one while it still sends the other, and the
one goes to the second mirror. -/
def handedOver : List SourceEvent := [
  .start { total := 8, endpoints := [{ position := 0 }, { position := 1 }], parallel := 1 },
  .queue {}, .queue {}, .queue {},
  .dispatch { response := { status := 503 } } none,
  .dispatch { response := { status := 206, contentRange := "bytes 4-7/8".toList } } none,
  .dispatch {} none, .join 0 {}, .dispatch {} none]

theorem twoMirrors_untouched : sourceMachine.initial twoMirrors where
  laid := {
    keyed := show List.Nodup [1, 2] by decide
    owned := by decide
    wellFormed := by
      intro row hmem
      rcases List.mem_cons.mp hmem with rfl | hmem
      · exact ⟨by decide, by rintro _ ⟨⟩; decide⟩
      · obtain rfl := List.mem_singleton.mp hmem
        exact ⟨by decide, by rintro _ ⟨⟩; decide⟩
    before := .cons (fun chunk hmem => by
      obtain rfl := List.mem_singleton.mp hmem
      exact ⟨4, rfl, Nat.le_refl 4⟩) (.cons (fun _ hmem => by cases hmem) .nil)
    total := fun _ _ _ => rfl }
  unmarked := by decide
  idle := rfl
  deliveries := rfl
  blames := rfl

theorem inFlight_le_parallel_iff_twoMirrors :
    sourceMachine.Always WithinParallel twoMirrors handedOver ↔
      sourceMachine.Within Spreads twoMirrors handedOver :=
  inFlight_le_parallel_iff twoMirrors twoMirrors_untouched handedOver

theorem twoMirrors_overlap :
    (((sourceMachine.run twoMirrors handedOver).bind (·.run)).map fun run =>
      (run.pool.parallel, run.inFlight)) = some (1, {0, 1}) := by
  rfl

/-- One source at a time, and two at work. -/
theorem parallel_exceeded :
    sourceMachine.initial twoMirrors ∧
      ¬ sourceMachine.Always WithinParallel twoMirrors handedOver := by
  refine ⟨twoMirrors_untouched, fun h => ?_⟩
  obtain ⟨run, hrun, heq⟩ := Option.map_eq_some_iff.mp twoMirrors_overlap
  obtain ⟨last, hlast, hlastRun⟩ := Option.bind_eq_some_iff.mp hrun
  obtain ⟨hparallel, hflight⟩ := Prod.mk.inj heq
  have hle := h.of_run hlast run hlastRun
  rw [hparallel, hflight] at hle
  exact absurd hle (by decide)

end SourceTransfer
end RDownloader
