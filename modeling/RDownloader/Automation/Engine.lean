import RDownloader.Automation.RunStore
import RDownloader.Events.Following
import RDownloader.Lib.Machine

/-!
# The automation engine (`rd-api-core/src/automation_service.rs`)

One loop takes the events of the bus and queues the runs they ask for; another works the queue; a
third queues the runs of the clock. What an event is classified as and which definitions are in
force are read from tables that change in between.
-/

namespace RDownloader

namespace Automation

inductive Trigger
  | intakeReceived
  | downloadResolved
  | downloadStarted
  | downloadCompleted
  | downloadFailed
  | packageCompleted
  | packageFailed
  | extractionFinished
  | scriptFinished
  | uploadFinished
  | storageThreshold
  | subscriptionItem
  | usenetJobHopeless
  | schedule
  | queuePaused
  | queueResumed
  | queueFinished
  deriving DecidableEq, Repr

inductive Field
  | source
  | domain
  | extension
  | name
  | category
  | state
  | failureCode
  | sizeBytes
  | kind
  | change
  | storageTarget
  deriving DecidableEq, Repr

structure EventContext where
  text : Field → Option String := fun _ => none
  numbers : Field → Option Nat := fun _ => none

/-- What an event means to the automation engine. -/
structure EventMatch where
  triggers : List Trigger
  context : EventContext
  packageId : Option PackageId

/-- A definition. -/
structure AutomationVersion where
  id : AutomationVersionId
  automationId : AutomationId
  trigger : Trigger
  /-- What the condition says of an event. -/
  condition : EventContext → Bool
  /-- Whether a comparison in the condition looks at the change of a storage root. -/
  mentionsChange : Bool

/-- Whether an automation runs for an event: a storage rule that names no change hears the block. -/
def admits (version : AutomationVersion) (event : EventContext) : Bool :=
  if version.trigger = .storageThreshold ∧ ¬version.mentionsChange ∧
      event.text .change ≠ some "blocked" then false
  else version.condition event

def maxAttempts : Nat := 6

/-- When the next attempt is due; the delay grows with the attempts. -/
def nextAttemptAt (backoff : Nat → Int) (attempt : Nat) (now : Instant) : Option Instant :=
  if attempt < maxAttempts then some (now + backoff attempt) else none

/-- Where the loop over the events stands. -/
inductive Phase
  /-- Not subscribed. -/
  | down
  /-- Subscribed, before the recovery. -/
  | recovering
  | watching
  deriving DecidableEq, Repr

structure Engine where
  bus : EventBus
  table : RunTable := {}
  /-- The definitions in force. -/
  versions : List AutomationVersion := []
  /-- What the tables make of an event. -/
  classify : EventEnvelope → Option EventMatch := fun _ => none
  phase : Phase := .down
  live : Nat := 0
  last : Option EventId := none
  replayed : List EventEnvelope := []
  /-- The runs of the event in hand that are still to be queued. -/
  pending : List NewRun := []
  sweeping : List Run := []
  /-- The run whose action is being executed, and how many actions it has. -/
  executing : Option (Run × Nat) := none
  /-- Every event of this process, and how many there were when it subscribed. -/
  sent : List EventEnvelope := []
  subscribed : Nat := 0
  /-- How many of them the loop is done with. -/
  position : Nat := 0
  /-- The events that were taken in, and the runs they asked for. -/
  taken : List (EventEnvelope × List NewRun) := []
  /-- The events that were passed over after a lag, and whether one was lost that need not be: the
  buffer held it, and an automation would have run for it. -/
  skipped : List (EventEnvelope × Bool) := []
  /-- Every row that was inserted, and those whose run was recorded completed or failed. -/
  queued : List (AutomationRunId × RunKey) := []
  ended : List AutomationRunId := []
  /-- The ids of all events there have been. -/
  known : List EventId := []

inductive EngineEvent
  | send (event : EventEnvelope)
  | configure (versions : List AutomationVersion) (classify : EventEnvelope → Option EventMatch)
  | start
  | recover
  | receive
  | queue (now : Instant)
  | queueDue (automation : AutomationId) (version : AutomationVersionId) (slot : String)
    (now : Instant)
  | sweep (now : Instant)
  /-- How many actions the version of the next run has, if it is still there. -/
  | advance (actions : Option Nat)
  /-- What came of the action: the message of a failure and how long its backoff is. -/
  | executed (failure : Option (String × (Nat → Int))) (now : Instant)
  | restart

namespace Engine

variable (mayTrigger : EventEnvelope → Bool) (engine : Engine)

/-- The runs of every enabled automation the event satisfies. -/
def queueFor (event : EventEnvelope) : List NewRun :=
  if ¬mayTrigger event then []
  else
    match engine.classify event with
    | none => []
    | some found =>
      (engine.versions.filter fun version =>
        found.triggers.contains version.trigger && admits version found.context).map fun version =>
          { automationId := version.automationId, versionId := version.id
            packageId := found.packageId, key := .event version.id event.id }

/-- What the loop takes from the bus after a lag. -/
def resumed : Option (List EventEnvelope × Nat) :=
  match engine.last.map engine.bus.resume with
  | some (.events replay, live) => some (replay, live)
  | _ => none

/-- The events a receiver that lagged by so much passes over. -/
def passedOver (missed : Nat) : List (EventEnvelope × Bool) :=
  ((engine.sent.drop engine.position).take missed).map fun event =>
    (event, (engine.bus.buffer.map (·.event)).contains event &&
      !(engine.queueFor mayTrigger event).isEmpty)

/-- The loop takes an event in. -/
def take (event : EventEnvelope) : Engine :=
  { engine with
    last := some event.id
    position := engine.position + 1
    pending := engine.queueFor mayTrigger event
    taken := engine.taken ++ [(event, engine.queueFor mayTrigger event)] }

/-- One turn of the loop over the events. -/
def receive : Option Engine :=
  if engine.phase ≠ .watching ∨ engine.pending ≠ [] then none
  else
    match engine.replayed with
    | event :: replayed => some (take mayTrigger { engine with replayed } event)
    | [] =>
      match engine.bus.live.recv engine.live with
      | (.got event, live) => some (take mayTrigger { engine with live } event)
      | (.lagged missed, live) =>
        match engine.resumed with
        | some (replayed, live) => some { engine with replayed, live }
        | none => some { engine with
            live
            position := engine.position + missed
            skipped := engine.skipped ++ engine.passedOver mayTrigger missed }
      | (.empty, _) => none

/-- Queues a run. -/
def queueRun (input : NewRun) (now : Instant) : Engine :=
  match engine.table.queueRun input now with
  | (table, true) =>
    { engine with table, queued := engine.queued ++ [(engine.table.nextId, input.key)] }
  | (table, false) => { engine with table }

/-- Records the outcome of one attempt of a run. -/
def record (run : Run) (state : RunState) (actionIndex attempt : Nat)
    (nextAttemptAt : Option Instant) (message : Option String) : Engine :=
  { engine with
    table := engine.table.recordAttempt run.id state actionIndex attempt nextAttemptAt message
    ended := if state.isFinished then engine.ended ++ [run.id] else engine.ended }

/-- The first half of `advance`, up to the action. -/
def advance (run : Run) : Option Nat → Engine
  | none =>
    engine.record run .failed run.actionIndex run.attempt none
      (some "automation version no longer exists")
  | some actions =>
    if run.actionIndex < actions then
      { engine.record run .running run.actionIndex run.attempt none none with
        executing := some (run, actions) }
    else engine.record run .completed run.actionIndex run.attempt none none

/-- The second half of `advance`. -/
def executed (run : Run) (actions : Nat) (now : Instant) : Option (String × (Nat → Int)) → Engine
  | none =>
    let next := run.actionIndex + 1
    engine.record run (if actions ≤ next then .completed else .queued) next 0 none none
  | some (message, backoff) =>
    let attempt := run.attempt + 1
    let due := nextAttemptAt backoff attempt now
    engine.record run (if due.isSome then .retrying else .failed) run.actionIndex attempt due
      (some message)

def step (maxEvents maxBytes : Nat) : EngineEvent → Option Engine
  | .send event =>
    -- An event is given an id of its own.
    if event.id ∈ engine.known then none
    else some { engine with
      bus := engine.bus.send event
      sent := engine.sent ++ [event]
      known := engine.known ++ [event.id] }
  | .configure versions classify =>
    if (versions.map (·.id)).Nodup then some { engine with versions, classify } else none
  | .start =>
    if engine.phase = .down then
      some { engine with
        phase := .recovering
        live := engine.bus.subscribe
        subscribed := engine.sent.length
        position := engine.sent.length }
    else none
  | .recover =>
    if engine.phase = .recovering then
      some { engine with phase := .watching, table := engine.table.recover }
    else none
  | .receive => engine.receive mayTrigger
  | .queue now =>
    match engine.pending with
    | run :: pending => some (queueRun { engine with pending } run now)
    | [] => none
  | .queueDue automation version slot now =>
    some (engine.queueRun ⟨automation, version, none, .schedule automation slot⟩ now)
  | .sweep now =>
    if engine.sweeping = [] ∧ engine.executing = none ∧ engine.phase ≠ .down then
      some { engine with sweeping := engine.table.dueRuns now }
    else none
  | .advance actions =>
    match engine.sweeping, engine.executing with
    | run :: sweeping, none => some (advance { engine with sweeping } run actions)
    | _, _ => none
  | .executed failure now =>
    match engine.executing with
    | some (run, actions) =>
      some (executed { engine with executing := none } run actions now failure)
    | none => none
  | .restart =>
    some { engine with
      bus := .bounded maxEvents maxBytes
      phase := .down, live := 0, last := none, replayed := [], pending := []
      sweeping := [], executing := none
      sent := [], subscribed := 0, position := 0, taken := [], skipped := [] }

/-- The engine over a table that was left by another process. -/
structure Initial (maxEvents maxBytes : Nat) (engine : Engine) : Prop where
  table : engine.table.Sound
  versions : (engine.versions.map (·.id)).Nodup
  process : engine = {
    bus := .bounded maxEvents maxBytes
    table := engine.table
    versions := engine.versions
    classify := engine.classify
    queued := engine.table.rows.map fun run => (run.id, run.key)
    ended := (engine.table.rows.filter (·.state.isFinished)).map (·.id)
    known := engine.known }
  known : ∀ run ∈ engine.table.rows, ∀ version event, run.key = .event version event →
    event ∈ engine.known

def machine (maxEvents maxBytes : Nat) : Machine Engine EngineEvent where
  initial := Initial maxEvents maxBytes
  step := fun engine => engine.step mayTrigger maxEvents maxBytes

end Engine

end Automation

end RDownloader
