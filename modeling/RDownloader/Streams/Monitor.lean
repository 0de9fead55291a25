import RDownloader.Core.DownloadState
import RDownloader.Lib.Machine
import RDownloader.Streams.ScheduleStore
import Mathlib.Data.Option.Basic
import Mathlib.Logic.Function.Basic

/-!
# The channel monitor (`rd-api-core/src/stream_monitor.rs`)

A pass over the channels takes them one after another: it looks for the open run that covers the
moment, probes the channel, starts a recording, and marks the run. Schedules and channels are edited,
recordings change their states, and other passes plan, between any two of these.
-/

namespace RDownloader

/-- A download as it is listed. -/
structure ListedDownload where
  id : DownloadId
  kind : DownloadKind
  source : String
  state : DownloadState
  deriving DecidableEq, Repr

/-- A `plan_and_expire` under way, and the schedules it has still to plan. -/
structure Planner where
  now : Instant
  rest : List StreamSchedule

/-- Where the pass over the channels stands. -/
inductive Polling
  | idle
  | channels (downloads : List ListedDownload) (rest : List StreamChannel)
  | probing (downloads : List ListedDownload) (rest : List StreamChannel) (channel : StreamChannel)
    (active : Option (StreamScheduledRun × StreamSchedule))
  | marking (downloads : List ListedDownload) (rest : List StreamChannel) (run : StreamScheduledRun)
    (download : DownloadId) (replayUsed : Bool)

namespace Polling

/-- The run a channel is probed for. -/
def probed : Polling → Option StreamScheduledRun
  | probing _ _ _ active => active.map Prod.fst
  | _ => none

/-- The run whose recording is not marked yet. -/
def pending : Polling → Option StreamScheduledRun
  | marking _ _ run _ _ => some run
  | _ => none

end Polling

/-- What comes of starting a recording. -/
inductive RecordingStart
  | ok
  /-- The redacted error, and whether the failed state could be stored. -/
  | failed (error : String) (stored : Bool)
  deriving DecidableEq

/-- What comes of a probe. -/
inductive ProbeResult
  | failed
  | offline
  | live (replayAvailable : Bool) (start : RecordingStart)
  deriving DecidableEq

/-- `url` and `chrono_tz`. -/
structure StreamLibraries where
  parseUrl : String → Option String
  zones : Zones

structure StreamMonitor where
  store : StreamStore := {}
  downloads : List ListedDownload := []
  planners : List Planner := []
  polling : Polling := .idle
  errors : StreamChannelId → Nat := fun _ => 0
  cycle : Nat := 0
  /-- The occurrences recordings were started for, in order. -/
  started : List OccurrenceKey := []
  /-- Those among them whose run could not be marked. -/
  unmarked : List OccurrenceKey := []

inductive StreamEvent
  | plan (now : Instant)
  | planNext (planner : Nat) (stored : Bool)
  /-- The next cycle, and whether there is a tool and the tables can be read. -/
  | pollChannels (ready : Bool)
  /-- The next channel, and whether the runs and the schedules can be read. -/
  | take (now : Instant) (runsRead schedulesRead : Bool)
  | probed (result : ProbeResult)
  /-- Whether the download can be read back, and whether the mark can be stored. -/
  | mark (read stored : Bool)
  | restart
  | createSchedule (input : NewStreamSchedule)
  | updateSchedule (id : StreamScheduleId) (input : NewStreamSchedule)
  | deleteSchedule (id : StreamScheduleId)
  | createChannel (url : String) (enabled : Bool)
  | updateChannel (id : StreamChannelId) (url : String) (enabled : Bool)
  | deleteChannel (id : StreamChannelId)
  | addDownload (kind : DownloadKind) (source : String)
  | setDownload (id : DownloadId) (state : DownloadState)
  | removeDownload (id : DownloadId)
  deriving DecidableEq

/-- Channels that failed this often in a row are probed only every fourth cycle. -/
def errorBackoffThreshold : Nat := 3

/-- Whether a recording of this URL is still active. -/
def isRecording (downloads : List ListedDownload) (channelUrl : String) : Bool :=
  downloads.any fun file =>
    file.kind = .record ∧ file.source = channelUrl ∧
      file.state ∉ [DownloadState.completed, .failed, .cancelled, .blocked]

/-- The open run whose watch window covers `now` for this channel. -/
def StreamStore.activeRun (store : StreamStore) (channelId : StreamChannelId) (now : Instant) :
    Option (StreamScheduledRun × StreamSchedule) :=
  store.openRuns.findSome? fun run =>
    if run.channelId ≠ channelId then none
    else
      (store.enabledSchedules.find? (·.id = run.scheduleId)).bind fun schedule =>
        if isWatching schedule ⟨run.startsAt, run.endsAt⟩ now then some (run, schedule) else none

/-- Whether this channel has any schedule at all. -/
def StreamStore.isScheduled (store : StreamStore) (channelId : StreamChannelId) : Bool :=
  store.enabledSchedules.any (·.channelId = channelId)

namespace StreamMonitor

variable (libraries : StreamLibraries) (monitor : StreamMonitor)

/-- One schedule of a `plan_and_expire`, or after the last one the expiry. -/
def planNext (planner : Nat) (stored : Bool) : Option StreamMonitor :=
  match monitor.planners[planner]? with
  | none => none
  | some ⟨now, []⟩ =>
    some { monitor with
      planners := monitor.planners.eraseIdx planner
      store := if stored then (monitor.store.expireRuns now).1 else monitor.store }
  | some ⟨now, schedule :: rest⟩ =>
    let planners := monitor.planners.set planner ⟨now, rest⟩
    match occurrences libraries.zones schedule now (now + wholeDays planningHorizonDays) with
    | .error _ | .ok [] => some { monitor with planners }
    | .ok found =>
      match monitor.store.planRuns schedule.id schedule.channelId found, stored with
      | .ok (store, _), true => some { monitor with planners, store }
      | _, _ => some { monitor with planners := monitor.planners.eraseIdx planner }

/-- What is done with the next channel before it is probed. -/
def takeChannel (downloads : List ListedDownload) (rest : List StreamChannel)
    (channel : StreamChannel) (now : Instant) (runsRead schedulesRead : Bool) : Polling :=
  let failures := monitor.errors channel.id
  if ¬channel.enabled then .channels downloads rest
  else if errorBackoffThreshold ≤ failures ∧ monitor.cycle % 4 ≠ 0 then .channels downloads rest
  else if isRecording downloads channel.url then .channels downloads rest
  else
    let active := if runsRead then monitor.store.activeRun channel.id now else none
    if active.isNone ∧ schedulesRead ∧ monitor.store.isScheduled channel.id then
      .channels downloads rest
    else .probing downloads rest channel active

/-- Starts the recording of a channel that is live. -/
def recordLiveChannel (downloads : List ListedDownload) (rest : List StreamChannel) (source : String)
    (active : Option (StreamScheduledRun × StreamSchedule)) (replayAvailable : Bool) :
    RecordingStart → StreamMonitor
  | .failed error stored =>
    let polling := .channels downloads rest
    match active with
    | none => { monitor with polling }
    | some (run, _) =>
      match monitor.store.setRunState run.id .failed none none (some error), stored with
      | .ok store, true => { monitor with polling, store }
      | _, _ => { monitor with polling }
  | .ok =>
    let id := monitor.store.nextId
    let store := { monitor.store with nextId := id + 1 }
    let all := monitor.downloads ++ [⟨id, .record, source, .queued⟩]
    match active with
    | none => { monitor with store, downloads := all, polling := .channels downloads rest }
    | some (run, schedule) =>
      { monitor with
        store
        downloads := all
        polling := .marking downloads rest run id (schedule.replayFromStart && replayAvailable)
        started := monitor.started ++ [run.key] }

/-- What is done with the result of a probe. A URL that does not parse is not probed. -/
def probed (downloads : List ListedDownload) (rest : List StreamChannel) (channel : StreamChannel)
    (active : Option (StreamScheduledRun × StreamSchedule)) (result : ProbeResult) :
    Option StreamMonitor :=
  match libraries.parseUrl channel.url, result with
  | _, .failed =>
    some { monitor with
      polling := .channels downloads rest
      errors := Function.update monitor.errors channel.id (monitor.errors channel.id + 1) }
  | none, _ => none
  | some source, result =>
    let monitor := { monitor with errors := Function.update monitor.errors channel.id 0 }
    match result with
    | .live replayAvailable start =>
      some (monitor.recordLiveChannel downloads rest source active replayAvailable start)
    | _ => some { monitor with polling := .channels downloads rest }

/-- `mark_run_recording`. -/
def markRunRecording (downloads : List ListedDownload) (rest : List StreamChannel)
    (run : StreamScheduledRun) (download : DownloadId) (replayUsed read stored : Bool) :
    StreamMonitor :=
  let polling := .channels downloads rest
  let downloadId := if read ∧ monitor.downloads.any (·.id = download) then some download else none
  match monitor.store.setRunState run.id .recording downloadId (some replayUsed) none, stored with
  | .ok store, true => { monitor with polling, store }
  | _, _ => { monitor with polling, unmarked := monitor.unmarked ++ [run.key] }

/-- The tables after a request, if it is not refused. -/
def edited (result : Except String StreamStore) : Option StreamMonitor :=
  match result with
  | .ok store => some { monitor with store }
  | .error _ => none

def step : StreamEvent → Option StreamMonitor
  | .plan now =>
    some { monitor with planners := monitor.planners ++ [⟨now, monitor.store.enabledSchedules⟩] }
  | .planNext planner stored => monitor.planNext libraries planner stored
  | .pollChannels ready =>
    match monitor.polling with
    | .idle | .channels _ [] =>
      some { monitor with
        cycle := monitor.cycle + 1
        polling :=
          if ready then .channels monitor.downloads monitor.store.channels else .idle }
    | _ => none
  | .take now runsRead schedulesRead =>
    match monitor.polling with
    | .channels downloads (channel :: rest) =>
      some { monitor with
        polling := monitor.takeChannel downloads rest channel now runsRead schedulesRead }
    | _ => none
  | .probed result =>
    match monitor.polling with
    | .probing downloads rest channel active =>
      monitor.probed libraries downloads rest channel active result
    | _ => none
  | .mark read stored =>
    match monitor.polling with
    | .marking downloads rest run download replayUsed =>
      some (monitor.markRunRecording downloads rest run download replayUsed read stored)
    | _ => none
  | .restart =>
    some { monitor with
      planners := [], polling := .idle, errors := fun _ => 0, cycle := 0
      unmarked := monitor.unmarked ++ (monitor.polling.pending.map (·.key)).toList }
  | .createSchedule input =>
    match input.validate libraries.zones with
    | .ok _ => monitor.edited (monitor.store.createSchedule input)
    | .error _ => none
  | .updateSchedule id input =>
    match input.validate libraries.zones with
    | .ok _ => monitor.edited (monitor.store.updateSchedule id input)
    | .error _ => none
  | .deleteSchedule id => monitor.edited (monitor.store.deleteSchedule id)
  | .createChannel url enabled =>
    some { monitor with store := monitor.store.createChannel url enabled }
  | .updateChannel id url enabled =>
    some { monitor with store := monitor.store.updateChannel id url enabled }
  | .deleteChannel id => some { monitor with store := monitor.store.deleteChannel id }
  | .addDownload kind source =>
    let id := monitor.store.nextId
    some { monitor with
      store := { monitor.store with nextId := id + 1 }
      downloads := monitor.downloads ++ [⟨id, kind, source, .queued⟩] }
  | .setDownload id state =>
    some { monitor with
      downloads := monitor.downloads.map fun file => if file.id = id then { file with state } else file }
  | .removeDownload id => some { monitor with downloads := monitor.downloads.filter (·.id ≠ id) }

/-- The monitor over an empty database, with everybody's events. -/
def machine : Machine StreamMonitor StreamEvent where
  initial monitor := monitor = {}
  step := step libraries

end StreamMonitor

end RDownloader
