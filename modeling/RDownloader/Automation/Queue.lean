import RDownloader.Automation.Engine

/-!
# What the run queue keeps

A row that a trim deletes is gone, so the rows of the table and the runs that have ended are all
that was queued exactly as long as no trim deletes a run that has not ended.
-/

namespace RDownloader

namespace Automation

variable {table : RunTable} {queued : List (AutomationRunId × RunKey)} {ended : List AutomationRunId}
  {known : List EventId} {input : NewRun} {now : Instant}

/-- The table beside the rows that were inserted and the runs that have ended. -/
structure Rows (table : RunTable) (queued : List (AutomationRunId × RunKey))
    (ended : List AutomationRunId) (known : List EventId) : Prop where
  sound : table.Sound
  listed : ∀ run ∈ table.rows, (run.id, run.key) ∈ queued
  keyed : ∀ entry ∈ queued, ∀ version event, entry.2 = .event version event → event ∈ known
  finished : ∀ run ∈ table.rows, run.id ∈ ended ↔ run.state.isFinished
  given : ∀ id ∈ ended, id < table.nextId

/-- Every run that was queued has ended or is in the table. -/
def Stays (table : RunTable) (queued : List (AutomationRunId × RunKey))
    (ended : List AutomationRunId) : Prop :=
  ∀ entry ∈ queued, entry.1 ∈ ended ∨ ∃ run ∈ table.rows, run.id = entry.1

/-- What an insertion does. -/
theorem Engine.queueRun_eq (engine : Engine) (input : NewRun) (now : Instant) :
    engine.queueRun input now = engine ∧ engine.table.hasKey input.key ∨
      ¬engine.table.hasKey input.key ∧
        engine.queueRun input now = { engine with
          table :=
            { rows := (engine.table.inserted input now).filter
                (isKept (engine.table.inserted input now) input.automationId)
              nextId := engine.table.nextId + 1 }
          queued := engine.queued ++ [(engine.table.nextId, input.key)] } := by
  rw [Engine.queueRun, RunTable.queueRun]
  cases hkey : engine.table.hasKey input.key with
  | true => exact .inl ⟨rfl, rfl⟩
  | false => exact .inr ⟨Bool.false_ne_true, rfl⟩

namespace Rows

/-- A statement that changes rows in place, and whether they have ended. -/
theorem map (h : Rows table queued ended known) {ended' : List AutomationRunId} (f : Run → Run)
    (hid : ∀ run, (f run).id = run.id) (hkey : ∀ run, (f run).key = run.key)
    (hended : ∀ run ∈ table.rows, (f run).id ∈ ended' ↔ (f run).state.isFinished)
    (hgiven : ∀ id ∈ ended', id < table.nextId) :
    Rows { table with rows := table.rows.map f } queued ended' known where
  sound := h.sound.map f hid hkey
  listed run hmem := by
    obtain ⟨before, hbefore, rfl⟩ := List.mem_map.mp hmem
    rw [hid, hkey]
    exact h.listed before hbefore
  keyed := h.keyed
  finished run hmem := by
    obtain ⟨before, hbefore, rfl⟩ := List.mem_map.mp hmem
    exact hended before hbefore
  given := hgiven

theorem recover (h : Rows table queued ended known) : Rows table.recover queued ended known := by
  refine h.map _ (fun run => by split <;> rfl) (fun run => by split <;> rfl) (fun run hmem => ?_)
    h.given
  have hended := h.finished run hmem
  split
  next hrunning => rwa [hrunning] at hended
  next => exact hended

/-- The outcome of an attempt of a run that had not ended. -/
theorem record (h : Rows table queued ended known) {id : AutomationRunId} (hid : id ∉ ended)
    (hgiven : id < table.nextId) (state : RunState) (actionIndex attempt : Nat)
    (nextAttemptAt : Option Instant) (message : Option String) :
    Rows (table.recordAttempt id state actionIndex attempt nextAttemptAt message) queued
      (if state.isFinished then ended ++ [id] else ended) known := by
  refine h.map _ (fun run => by split <;> rfl) (fun run => by split <;> rfl) (fun run hmem => ?_)
    fun other hother => ?_
  · have hended := h.finished run hmem
    rcases eq_or_ne run.id id with rfl | hother
    · rw [if_pos rfl]
      split
      next hfinished =>
        exact iff_of_true (List.mem_append_right _ (List.mem_singleton_self _)) hfinished
      next hfinished => exact iff_of_false hid hfinished
    · rw [if_neg hother, ← hended]
      split
      · rw [List.mem_append, List.mem_singleton, or_iff_left hother]
      · rfl
  · split at hother
    · rcases List.mem_append.mp hother with hother | hother
      · exact h.given other hother
      · exact List.mem_singleton.mp hother ▸ hgiven
    · exact h.given other hother

variable {engine : Engine}

/-- The table of an engine. -/
abbrev Of (engine : Engine) : Prop := Rows engine.table engine.queued engine.ended engine.known

theorem queueRun (h : Of engine)
    (hkey : ∀ version event, input.key = .event version event → event ∈ engine.known) :
    Of (engine.queueRun input now) := by
  have hsound := h.sound.queueRun input now
  obtain ⟨heq, -⟩ | ⟨hnew, heq⟩ := engine.queueRun_eq input now
  · exact heq.symm ▸ h
  rw [RunTable.queueRun, if_neg hnew] at hsound
  rw [heq]
  refine ⟨hsound, fun run hmem => ?_, fun entry hentry => ?_, fun run hmem => ?_, fun id hid =>
    Nat.lt_succ_of_lt (h.given id hid)⟩
  · rcases List.mem_append.mp (List.mem_of_mem_filter hmem) with hmem | hmem
    · exact List.mem_append_left _ (h.listed run hmem)
    · rw [List.mem_singleton.mp hmem]
      exact List.mem_append_right _ (List.mem_singleton_self _)
  · rcases List.mem_append.mp hentry with hentry | hentry
    · exact h.keyed entry hentry
    · rw [List.mem_singleton.mp hentry]
      exact hkey
  · rcases List.mem_append.mp (List.mem_of_mem_filter hmem) with hmem | hmem
    · exact h.finished run hmem
    · rw [List.mem_singleton.mp hmem]
      exact iff_of_false (fun hid => Nat.lt_irrefl _ (h.given _ hid)) Bool.false_ne_true

/-- Nothing is lost by an insertion exactly when its trim deletes only runs that have ended. -/
theorem stays_queueRun (h : Of engine) (hstays : Stays engine.table engine.queued engine.ended) :
    Stays (engine.queueRun input now).table (engine.queueRun input now).queued
        (engine.queueRun input now).ended ↔
      ∀ run ∈ engine.table.trimmed input now, run.state.isFinished := by
  obtain ⟨heq, htaken⟩ | ⟨hnew, heq⟩ := engine.queueRun_eq input now
  · rw [heq, RunTable.trimmed, if_pos htaken]
    exact iff_of_true hstays (List.forall_mem_nil _)
  rw [heq, RunTable.trimmed, if_neg hnew]
  have hunique : ((engine.table.inserted input now).map (·.id)).Nodup :=
    RunTable.uniqueId_inserted h.sound
  have hrows : ∀ run ∈ engine.table.inserted input now, run ∈ engine.table.rows ∨
      run = engine.table.row input now := fun run hmem =>
    (List.mem_append.mp hmem).imp_right List.mem_singleton.mp
  constructor
  · intro hafter run hrun
    obtain ⟨hmem, hgone⟩ := List.mem_filter.mp hrun
    have hentry : (run.id, run.key) ∈ engine.queued ++ [(engine.table.nextId, input.key)] := by
      rcases hrows run hmem with hrow | rfl
      · exact List.mem_append_left _ (h.listed run hrow)
      · exact List.mem_append_right _ (List.mem_singleton_self _)
    rcases hafter _ hentry with hended | ⟨row, hrow, hid⟩
    · rcases hrows run hmem with hrow | rfl
      · exact (h.finished run hrow).mp hended
      · exact absurd (h.given _ hended) (Nat.lt_irrefl _)
    · -- The only row with its id is the one that is deleted.
      obtain ⟨hrow, hkept⟩ := List.mem_filter.mp hrow
      rw [List.inj_on_of_nodup_map hunique hrow hmem hid] at hkept
      rw [hkept] at hgone
      cases hgone
  · intro htrimmed
    have hrow : ∀ run ∈ engine.table.inserted input now, run.id ∈ engine.ended ∨
        ∃ row ∈ (engine.table.inserted input now).filter
          (isKept (engine.table.inserted input now) input.automationId), row.id = run.id := by
      intro run hmem
      cases hkept : isKept (engine.table.inserted input now) input.automationId run with
      | true => exact .inr ⟨run, List.mem_filter.mpr ⟨hmem, hkept⟩, rfl⟩
      | false =>
        have hfinished := htrimmed run (List.mem_filter.mpr ⟨hmem, by rw [hkept]; rfl⟩)
        rcases hrows run hmem with hrow | rfl
        · exact .inl ((h.finished run hrow).mpr hfinished)
        · cases hfinished
    intro entry hentry
    rcases List.mem_append.mp hentry with hentry | hentry
    · rcases hstays entry hentry with hended | ⟨run, hmem, hid⟩
      · exact .inl hended
      · exact hid ▸ hrow run (List.mem_append_left _ hmem)
    · rw [List.mem_singleton.mp hentry]
      exact hrow _ (List.mem_append_right _ (List.mem_singleton_self _))

end Rows

end Automation

end RDownloader
