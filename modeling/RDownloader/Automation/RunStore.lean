import RDownloader.Core.Dates
import RDownloader.Db.DownloadRows
import RDownloader.Events.EventBus
import Mathlib.Data.List.Sort

/-!
# The run queue of the automations (`rd-db/src/automation_store.rs`)

A run is inserted once for each key, and an insertion keeps the newest rows of its automation, in
whatever state the others are.
-/

namespace RDownloader

namespace Automation

abbrev AutomationId := Nat
abbrev AutomationVersionId := Nat
abbrev AutomationRunId := Nat

/-- Runs kept per automation. -/
def maxRunsPerAutomation : Nat := 200

inductive RunState
  | queued
  | running
  | completed
  | retrying
  | failed
  deriving DecidableEq, Repr

def RunState.isFinished : RunState → Bool
  | completed | failed => true
  | _ => false

/-- `idempotency_key` and `schedule_key`, whose texts never agree. -/
inductive RunKey
  | event (version : AutomationVersionId) (event : EventId)
  | schedule (automation : AutomationId) (slot : String)
  deriving DecidableEq, Repr

/-- A run about to be queued. -/
structure NewRun where
  automationId : AutomationId
  versionId : AutomationVersionId
  packageId : Option PackageId
  key : RunKey
  deriving DecidableEq, Repr

structure Run extends NewRun where
  id : AutomationRunId
  state : RunState := .queued
  actionIndex : Nat := 0
  attempt : Nat := 0
  nextAttemptAt : Option Instant := none
  message : Option String := none
  startedAt : Instant
  deriving DecidableEq, Repr

/-- The table, its rows in the order they were inserted in. -/
structure RunTable where
  rows : List Run := []
  /-- No id from here on has been given. -/
  nextId : Nat := 0
  deriving DecidableEq, Repr

/-- The newest runs of an automation; of runs that started together the index has the first inserted
first. -/
def newest (rows : List Run) (automation : AutomationId) : List Run :=
  ((rows.filter (·.automationId = automation)).insertionSort
    fun run other => other.startedAt ≤ run.startedAt).take maxRunsPerAutomation

/-- Whether the trim keeps a row. -/
def isKept (rows : List Run) (automation : AutomationId) (run : Run) : Bool :=
  run.automationId = automation → run.id ∈ (newest rows automation).map (·.id)

namespace RunTable

variable (table : RunTable)

/-- The row of a run that is queued now. -/
def row (input : NewRun) (now : Instant) : Run := { input with id := table.nextId, startedAt := now }

def hasKey (key : RunKey) : Bool := table.rows.any (·.key = key)

/-- The rows before the trim of a run that is queued. -/
def inserted (input : NewRun) (now : Instant) : List Run := table.rows ++ [table.row input now]

/-- Queues a run and trims; `false` means that the key was taken. -/
def queueRun (input : NewRun) (now : Instant) : RunTable × Bool :=
  if table.hasKey input.key then (table, false)
  else
    ({ rows := (table.inserted input now).filter (isKept (table.inserted input now) input.automationId)
       nextId := table.nextId + 1 }, true)

/-- The rows that the trim of a run that is queued deletes. -/
def trimmed (input : NewRun) (now : Instant) : List Run :=
  if table.hasKey input.key then []
  else (table.inserted input now).filter
    fun run => !isKept (table.inserted input now) input.automationId run

/-- Records the outcome of one attempt. -/
def recordAttempt (id : AutomationRunId) (state : RunState) (actionIndex attempt : Nat)
    (nextAttemptAt : Option Instant) (message : Option String) : RunTable :=
  { table with
    rows := table.rows.map fun run =>
      if run.id = id then { run with state, actionIndex, attempt, nextAttemptAt, message } else run }

/-- Moves the runs that were being executed back into the queue. -/
def recover : RunTable :=
  { table with
    rows := table.rows.map fun run =>
      if run.state = .running then { run with state := .queued, nextAttemptAt := none } else run }

/-- The runs to work on, oldest first. -/
def dueRuns (now : Instant) : List Run :=
  (table.rows.filter fun run =>
    run.state = .queued ∨ (run.state = .retrying ∧ ∃ due ∈ run.nextAttemptAt, due ≤ now)).insertionSort
      fun run other => run.startedAt ≤ other.startedAt

/-- What the schema and the ids that are given guarantee. -/
structure Sound (table : RunTable) : Prop where
  uniqueId : (table.rows.map (·.id)).Nodup
  uniqueKey : (table.rows.map (·.key)).Nodup
  given : ∀ run ∈ table.rows, run.id < table.nextId

variable {table} {input : NewRun} {now : Instant}

theorem hasKey_iff {key : RunKey} : table.hasKey key ↔ ∃ run ∈ table.rows, run.key = key := by
  simp only [hasKey, List.any_eq_true, decide_eq_true_eq]

theorem uniqueId_inserted (h : table.Sound) :
    ((table.inserted input now).map (·.id)).Nodup := by
  rw [inserted, List.map_append, List.nodup_append]
  refine ⟨h.uniqueId, List.nodup_singleton _, fun id hid id' hid' => ?_⟩
  obtain ⟨run, hmem, rfl⟩ := List.mem_map.mp hid
  obtain rfl := List.mem_singleton.mp hid'
  exact Nat.ne_of_lt (h.given run hmem)

theorem Sound.queueRun (h : table.Sound) (input : NewRun) (now : Instant) :
    (table.queueRun input now).1.Sound := by
  unfold RunTable.queueRun
  split
  · exact h
  next hnew =>
    rw [hasKey_iff] at hnew
    refine ⟨(List.filter_sublist.map _).nodup (uniqueId_inserted h), ?_, fun run hmem => ?_⟩
    · refine (List.filter_sublist.map _).nodup ?_
      rw [inserted, List.map_append, List.nodup_append]
      refine ⟨h.uniqueKey, List.nodup_singleton _, fun key hkey key' hkey' heq => ?_⟩
      obtain ⟨run, hmem, rfl⟩ := List.mem_map.mp hkey
      exact hnew ⟨run, hmem, heq.trans (List.mem_singleton.mp hkey')⟩
    · rcases List.mem_append.mp (List.mem_of_mem_filter hmem) with hmem | hmem
      · exact Nat.lt_succ_of_lt (h.given run hmem)
      · rw [List.mem_singleton.mp hmem]
        exact Nat.lt_succ_self _

/-- A statement that changes rows in place. -/
theorem Sound.map (h : table.Sound) (f : Run → Run) (hid : ∀ run, (f run).id = run.id)
    (hkey : ∀ run, (f run).key = run.key) :
    Sound { table with rows := table.rows.map f } := by
  refine ⟨?_, ?_, fun run hmem => ?_⟩
  · have hids : (table.rows.map f).map (·.id) = table.rows.map (·.id) :=
      (List.map_map ..).trans (List.map_congr_left fun run _ => hid run)
    exact hids ▸ h.uniqueId
  · have hkeys : (table.rows.map f).map (·.key) = table.rows.map (·.key) :=
      (List.map_map ..).trans (List.map_congr_left fun run _ => hkey run)
    exact hkeys ▸ h.uniqueKey
  · obtain ⟨before, hbefore, rfl⟩ := List.mem_map.mp hmem
    exact hid before ▸ h.given before hbefore

end RunTable

end Automation

end RDownloader
