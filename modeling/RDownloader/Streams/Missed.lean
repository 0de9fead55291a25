import RDownloader.Streams.Recorded

/-!
# When a run is called missed (`stream_monitor.rs`, `stream_schedule_store.rs`)

The expiry compares the nominal end of a run with the moment of its cycle, and the probe the end of
the watch window, which the trail minutes put later.
-/

namespace RDownloader

variable {store next last : StreamStore} {run : StreamScheduledRun} {schedule : StreamSchedule}
  {now : Instant}

/-- Nothing is watched for an occurrence from a moment on. -/
def OverFrom (schedule : StreamSchedule) (run : StreamScheduledRun) (now : Instant) : Prop :=
  ∀ later, now ≤ later → isWatching schedule ⟨run.startsAt, run.endsAt⟩ later = false

theorem minutes_nonneg (n : Nat) : 0 ≤ minutes n := Int.mul_nonneg (Int.natCast_nonneg n) (by decide)

theorem isWatching_iff {occurrence : StreamOccurrence} :
    isWatching schedule occurrence now = true ↔
      occurrence.startsAt - minutes schedule.leadMinutes ≤ now ∧
        now ≤ occurrence.endsAt + minutes schedule.trailMinutes := by
  rw [isWatching, decide_eq_true_eq]
  rfl

theorem overFrom_iff (hrun : run.startsAt ≤ run.endsAt) :
    OverFrom schedule run now ↔ run.endsAt + minutes schedule.trailMinutes < now := by
  constructor
  · intro h
    by_contra hend
    -- The later of the moment and the start of the window is watched.
    have hlater := h (max now (run.startsAt - minutes schedule.leadMinutes)) (le_max_left _ _)
    have hlead : 0 ≤ minutes schedule.leadMinutes := minutes_nonneg _
    have htrail : 0 ≤ minutes schedule.trailMinutes := minutes_nonneg _
    refine absurd (isWatching_iff.mpr ⟨le_max_right _ _, max_le (not_lt.mp hend) ?_⟩)
      (Bool.eq_false_iff.mp hlater)
    exact Int.le_trans (Int.sub_le_self _ hlead)
      (Int.le_trans hrun (Int.le_add_of_nonneg_right htrail))
  · intro hend later hlater
    rw [Bool.eq_false_iff, ne_eq, isWatching_iff]
    rintro ⟨-, hle⟩
    exact absurd (lt_of_le_of_lt hle hend) (not_lt.mpr hlater)

/-! ## What statements do to the rows -/

/-- Rows keep their times and are not newly missed. -/
def StreamStore.Kept (store next : StreamStore) : Prop :=
  ∀ run ∈ next.runs,
    (∃ before ∈ store.runs, before.id = run.id ∧ before.startsAt = run.startsAt ∧
      before.endsAt = run.endsAt ∧ (run.state = .missed → before.state = .missed)) ∨
    (run.startsAt ≤ run.endsAt ∧ run.state ≠ .missed)

/-- No run ends before it starts. -/
def StreamStore.Timed (store : StreamStore) : Prop := ∀ run ∈ store.runs, run.startsAt ≤ run.endsAt

namespace StreamStore

theorem Kept.timed (h : store.Kept next) (htimed : store.Timed) : next.Timed := by
  intro run hmem
  rcases h run hmem with ⟨before, hbefore, -, hstart, hend, -⟩ | ⟨htimes, -⟩
  · rw [← hstart, ← hend]
    exact htimed before hbefore
  · exact htimes

theorem Kept.of_subset (h : ∀ run ∈ next.runs, run ∈ store.runs) : store.Kept next :=
  fun run hmem => .inl ⟨run, h run hmem, rfl, rfl, rfl, id⟩

theorem Kept.refl (store : StreamStore) : store.Kept store := .of_subset fun _ => id

theorem Kept.trans (h : store.Kept next) (h' : next.Kept last) : store.Kept last := by
  intro run hmem
  rcases h' run hmem with ⟨middle, hmiddle, hid, hstart, hend, hstate⟩ | hnew
  · rcases h middle hmiddle with ⟨before, hbefore, hid', hstart', hend', hstate'⟩ | ⟨htimes, hnot⟩
    · exact .inl ⟨before, hbefore, hid'.trans hid, hstart'.trans hstart, hend'.trans hend,
        fun hmissed => hstate' (hstate hmissed)⟩
    · rw [hstart, hend] at htimes
      exact .inr ⟨htimes, fun hmissed => hnot (hstate hmissed)⟩
  · exact .inr hnew

theorem planRun_kept {scheduleId : StreamScheduleId} {channelId : StreamChannelId}
    {planned planned' : StreamStore × Nat} {occurrence : StreamOccurrence}
    (htimes : occurrence.startsAt ≤ occurrence.endsAt)
    (h : planRun scheduleId channelId planned occurrence = .ok planned') :
    planned.1.Kept planned'.1 := by
  unfold planRun at h
  dsimp only at h
  split at h
  · obtain rfl := Except.ok.inj h
    exact .refl _
  split at h
  · obtain rfl := Except.ok.inj h
    intro run hmem
    rcases List.mem_append.mp hmem with hmem | hmem
    · exact .inl ⟨run, hmem, rfl, rfl, rfl, id⟩
    · rw [List.mem_singleton.mp hmem]
      exact .inr ⟨htimes, fun h => nomatch h⟩
  · cases h

theorem planRuns_kept {scheduleId : StreamScheduleId} {channelId : StreamChannelId}
    {occurrences : List StreamOccurrence} {count : Nat}
    (htimes : ∀ occurrence ∈ occurrences, occurrence.startsAt ≤ occurrence.endsAt)
    (h : store.planRuns scheduleId channelId occurrences = .ok (next, count)) :
    store.Kept next := by
  unfold planRuns at h
  generalize 0 = created at h
  induction occurrences generalizing store created with
  | nil =>
    obtain rfl := congrArg Prod.fst (Except.ok.inj h)
    exact .refl _
  | cons occurrence rest ih =>
    rw [List.foldlM_cons] at h
    cases hfirst : planRun scheduleId channelId (store, created) occurrence with
    | error error =>
      rw [hfirst] at h
      cases h
    | ok planned =>
      rw [hfirst] at h
      have hkept := planRun_kept (htimes occurrence (List.mem_cons_self ..)) hfirst
      exact hkept.trans (ih (fun other hmem => htimes other (List.mem_cons_of_mem _ hmem))
        planned.2 h)

theorem setRunState_kept {downloadId : Option DownloadId} {replayUsed : Option Bool}
    {error : Option String} {id : StreamScheduledRunId} {state : ScheduledRunState}
    (hstate : state ≠ .missed)
    (h : store.setRunState id state downloadId replayUsed error = .ok next) :
    store.Kept next := by
  unfold setRunState at h
  split at h
  · obtain rfl := Except.ok.inj h
    intro run hmem
    obtain ⟨before, hbefore, rfl⟩ := List.mem_map.mp hmem
    refine .inl ⟨before, hbefore, ?_⟩
    split
    · exact ⟨rfl, rfl, rfl, fun hmissed => absurd hmissed hstate⟩
    · exact ⟨rfl, rfl, rfl, fun hmissed => hmissed⟩
  · cases h

/-- The rows an expiry changes are those nothing was started for that end before the moment. -/
theorem expireRuns_rows (store : StreamStore) (cutoff : Instant)
    (h : run ∈ (store.expireRuns cutoff).1.runs) :
    ∃ before ∈ store.runs, before.id = run.id ∧ before.startsAt = run.startsAt ∧
      before.endsAt = run.endsAt ∧
      (run.state = .missed ↔
        before.state = .missed ∨ before.state.isAhead = true ∧ before.endsAt < cutoff) := by
  obtain ⟨before, hbefore, rfl⟩ := List.mem_map.mp h
  refine ⟨before, hbefore, ?_⟩
  split
  next hexpired => exact ⟨rfl, rfl, rfl, ⟨fun _ => .inr (of_decide_eq_true hexpired), fun _ => rfl⟩⟩
  next hexpired =>
    refine ⟨rfl, rfl, rfl, ⟨.inl, fun h => h.resolve_right fun hlate => hexpired (decide_eq_true hlate)⟩⟩

theorem createSchedule_kept {input : NewStreamSchedule}
    (h : store.createSchedule input = .ok next) : store.Kept next := by
  unfold createSchedule at h
  split at h
  · obtain rfl := Except.ok.inj h
    exact .refl _
  · cases h

theorem updateSchedule_kept {id : StreamScheduleId} {input : NewStreamSchedule}
    (h : store.updateSchedule id input = .ok next) : store.Kept next := by
  unfold updateSchedule at h
  split at h
  · cases h
  split at h
  · obtain rfl := Except.ok.inj h
    exact .of_subset fun _ => List.mem_of_mem_filter
  · cases h

theorem deleteSchedule_kept {id : StreamScheduleId}
    (h : store.deleteSchedule id = .ok next) : store.Kept next := by
  unfold deleteSchedule at h
  split at h
  · obtain rfl := Except.ok.inj h
    exact .of_subset fun _ => List.mem_of_mem_filter
  · cases h

/-- While a run that nothing was started for is watched, its channel is probed for a run. -/
theorem activeRun_isSome (hrun : run ∈ store.runs) (hahead : run.state.isAhead = true)
    (howned : ∃ schedule ∈ store.enabledSchedules, schedule.id = run.scheduleId)
    (hwatching : ∀ schedule ∈ store.enabledSchedules, schedule.id = run.scheduleId →
      isWatching schedule ⟨run.startsAt, run.endsAt⟩ now = true) :
    (store.activeRun run.channelId now).isSome := by
  have hopen : run ∈ store.openRuns := by
    refine (List.mem_insertionSort _).mpr (List.mem_filter.mpr ⟨hrun, ?_⟩)
    revert hahead
    cases run.state <;> decide
  rw [activeRun, List.findSome?_isSome_iff]
  refine ⟨run, hopen, ?_⟩
  obtain ⟨schedule, hschedule, hid⟩ := howned
  have hfind : (store.enabledSchedules.find? (·.id = run.scheduleId)).isSome :=
    List.find?_isSome.mpr ⟨schedule, hschedule, decide_eq_true hid⟩
  obtain ⟨found, hfound⟩ := Option.isSome_iff_exists.mp hfind
  have hfoundId : decide (found.id = run.scheduleId) = true :=
    List.find?_some (p := fun schedule : StreamSchedule => decide (schedule.id = run.scheduleId)) hfound
  have hsame : ¬ run.channelId ≠ run.channelId := fun h => h rfl
  rw [if_neg hsame, hfound, Option.bind_some,
    if_pos (hwatching found (List.mem_of_find?_eq_some hfound) (of_decide_eq_true hfoundId))]
  rfl

end StreamStore

theorem mem_of_mem_sortedByStart {found : List StreamOccurrence} {occurrence : StreamOccurrence}
    (h : occurrence ∈ sortedByStart found) : occurrence ∈ found :=
  (List.mem_insertionSort _).mp ((List.destutter_sublist ..).subset h)

/-- An occurrence lasts for its window. -/
theorem timed_of_occurrences {zones : Zones} {since horizon : Instant}
    {found : List StreamOccurrence} (h : occurrences zones schedule since horizon = .ok found) :
    ∀ occurrence ∈ found, occurrence.startsAt ≤ occurrence.endsAt := by
  unfold occurrences at h
  cases hzone : schedule.validate zones with
  | error error =>
    rw [hzone] at h
    cases h
  | ok zone =>
    rw [hzone] at h
    obtain rfl := Except.ok.inj h
    have hwindow : ∀ start : Instant, start ≤ start + minutes schedule.windowMinutes :=
      fun start => Int.le_add_of_nonneg_right (minutes_nonneg _)
    dsimp only
    intro occurrence hmem
    split at hmem
    · obtain rfl := List.mem_singleton.mp (List.mem_of_mem_filter hmem)
      exact hwindow _
    · have hfound := List.mem_of_mem_filter (mem_of_mem_sortedByStart hmem)
      obtain ⟨date, -, hdate⟩ := List.mem_filterMap.mp hfound
      obtain ⟨start, -, rfl⟩ := Option.map_eq_some_iff.mp hdate
      exact hwindow start

/-! ## Runs -/

namespace StreamMonitor

open StreamStore

variable {libraries : StreamLibraries} {monitor after : StreamMonitor} {event : StreamEvent}

/-- The moment of an expiry. -/
def expiry (monitor : StreamMonitor) : StreamEvent → Option Instant
  | .planNext planner true =>
    match monitor.planners[planner]? with
    | some ⟨now, []⟩ => some now
    | _ => none
  | _ => none

/-- A run that a step calls missed is not watched any more, from the moment of the step on. -/
def MissedWhenOver (monitor : StreamMonitor) (event : StreamEvent) (after : StreamMonitor) : Prop :=
  ∀ run ∈ monitor.store.runs, run.state.isAhead = true →
    ∀ row ∈ after.store.runs, row.id = run.id → row.state = .missed →
      ∀ schedule ∈ monitor.store.schedules, schedule.id = run.scheduleId →
        ∃ now, monitor.expiry event = some now ∧ OverFrom schedule run now

/-- No expiry comes between the end of a run that nothing was started for and the end of its trail
minutes. -/
def PastTrail (monitor : StreamMonitor) (event : StreamEvent) : Prop :=
  ∀ now ∈ monitor.expiry event, ∀ run ∈ monitor.store.runs, run.state.isAhead = true →
    ∀ schedule ∈ monitor.store.schedules, schedule.id = run.scheduleId →
      run.endsAt < now → run.endsAt + minutes schedule.trailMinutes < now

/-- What is known of a monitor's tables. -/
structure Dated (monitor : StreamMonitor) : Prop where
  known : monitor.Known
  timed : monitor.store.Timed

theorem recordLiveChannel_kept (monitor : StreamMonitor) (downloads : List ListedDownload)
    (rest : List StreamChannel) (source : String)
    (active : Option (StreamScheduledRun × StreamSchedule)) (replayAvailable : Bool)
    (start : RecordingStart) :
    monitor.store.Kept
      (monitor.recordLiveChannel downloads rest source active replayAvailable start).store := by
  unfold recordLiveChannel
  split
  · dsimp only
    split
    · exact .refl _
    · split
      next hset => exact setRunState_kept (by decide) hset
      · exact .refl _
  · dsimp only
    split
    · exact .refl _
    · exact .refl _

theorem probed_kept {downloads : List ListedDownload} {rest : List StreamChannel}
    {channel : StreamChannel} {active : Option (StreamScheduledRun × StreamSchedule)}
    {result : ProbeResult}
    (h : monitor.probed libraries downloads rest channel active result = some after) :
    monitor.store.Kept after.store := by
  unfold StreamMonitor.probed at h
  split at h
  · obtain rfl := Option.some.inj h
    exact .refl _
  · cases h
  · dsimp only at h
    split at h
    · obtain rfl := Option.some.inj h
      exact recordLiveChannel_kept { monitor with
        errors := Function.update monitor.errors channel.id 0 } _ _ _ _ _ _
    · obtain rfl := Option.some.inj h
      exact .refl _

theorem markRunRecording_kept (downloads : List ListedDownload) (rest : List StreamChannel)
    (run : StreamScheduledRun) (download : DownloadId) (replayUsed read stored : Bool) :
    monitor.store.Kept
      (monitor.markRunRecording downloads rest run download replayUsed read stored).store := by
  unfold markRunRecording
  dsimp only
  split
  next hset => exact setRunState_kept (by decide) hset
  · exact .refl _

theorem edited_kept {result : Except String StreamStore}
    (hresult : ∀ store, result = .ok store → monitor.store.Kept store)
    (h : monitor.edited result = some after) : monitor.store.Kept after.store := by
  cases result with
  | ok store =>
    obtain rfl := Option.some.inj h
    exact hresult store rfl
  | error => cases h

/-- A step that is no expiry calls no run missed. -/
theorem kept_step (hexpiry : monitor.expiry event = none)
    (hstep : monitor.step libraries event = some after) : monitor.store.Kept after.store := by
  cases event with
  | planNext planner stored =>
    dsimp only [StreamMonitor.step] at hstep
    unfold StreamMonitor.planNext at hstep
    split at hstep
    · cases hstep
    next now hplanner =>
      obtain rfl := Option.some.inj hstep
      cases stored with
      | true =>
        rw [expiry, hplanner] at hexpiry
        cases hexpiry
      | false => exact .refl _
    · dsimp only at hstep
      split at hstep
      · obtain rfl := Option.some.inj hstep
        exact .refl _
      · obtain rfl := Option.some.inj hstep
        exact .refl _
      next hfound =>
        split at hstep
        next hplanned =>
          obtain rfl := Option.some.inj hstep
          exact planRuns_kept (timed_of_occurrences hfound) hplanned
        · obtain rfl := Option.some.inj hstep
          exact .refl _
  | probed result =>
    dsimp only [StreamMonitor.step] at hstep
    split at hstep
    · exact probed_kept hstep
    · cases hstep
  | mark read stored =>
    dsimp only [StreamMonitor.step] at hstep
    split at hstep
    · obtain rfl := Option.some.inj hstep
      exact markRunRecording_kept _ _ _ _ _ _ _
    · cases hstep
  | createSchedule input =>
    dsimp only [StreamMonitor.step] at hstep
    split at hstep
    · exact edited_kept (fun _ => createSchedule_kept) hstep
    · cases hstep
  | updateSchedule id input =>
    dsimp only [StreamMonitor.step] at hstep
    split at hstep
    · exact edited_kept (fun _ => updateSchedule_kept) hstep
    · cases hstep
  | deleteSchedule id => exact edited_kept (fun _ => deleteSchedule_kept) hstep
  | deleteChannel id =>
    obtain rfl := Option.some.inj hstep
    exact .of_subset fun _ => List.mem_of_mem_filter
  | take now runsRead schedulesRead =>
    dsimp only [StreamMonitor.step] at hstep
    split at hstep
    · obtain rfl := Option.some.inj hstep
      exact .refl _
    · cases hstep
  | pollChannels ready =>
    dsimp only [StreamMonitor.step] at hstep
    split at hstep
    · obtain rfl := Option.some.inj hstep
      exact .refl _
    · obtain rfl := Option.some.inj hstep
      exact .refl _
    · cases hstep
  | _ =>
    obtain rfl := Option.some.inj hstep
    exact .refl _

theorem expiry_step (hexpiry : monitor.expiry event = some now)
    (hstep : monitor.step libraries event = some after) :
    after.store = (monitor.store.expireRuns now).1 := by
  unfold expiry at hexpiry
  split at hexpiry
  next planner =>
    split at hexpiry
    next hplanner =>
      obtain rfl := Option.some.inj hexpiry
      dsimp only [StreamMonitor.step] at hstep
      unfold StreamMonitor.planNext at hstep
      rw [hplanner] at hstep
      obtain rfl := Option.some.inj hstep
      rfl
    · cases hexpiry
  · cases hexpiry

theorem Dated.step (h : monitor.Dated) (hstep : monitor.step libraries event = some after) :
    after.Dated := by
  refine ⟨(h.known.step hstep).1, ?_⟩
  cases hexpiry : monitor.expiry event with
  | none => exact (kept_step hexpiry hstep).timed h.timed
  | some now =>
    rw [expiry_step hexpiry hstep]
    intro row hmem
    obtain ⟨before, hbefore, -, hstart, hend, -⟩ := expireRuns_rows monitor.store now hmem
    rw [← hstart, ← hend]
    exact h.timed before hbefore

/-- Rows with one id are one row. -/
theorem Dated.run_eq (h : monitor.Dated) {row : StreamScheduledRun} (hrow : row ∈ monitor.store.runs)
    (hrun : run ∈ monitor.store.runs) (hid : row.id = run.id) : row = run :=
  List.inj_on_of_nodup_map h.known.sound.uniqueId hrow hrun hid

theorem Dated.missed_iff (h : monitor.Dated) (hstep : monitor.step libraries event = some after) :
    monitor.MissedWhenOver event after ↔ monitor.PastTrail event := by
  cases hexpiry : monitor.expiry event with
  | none =>
    constructor
    · intro _ now hnow
      rw [hexpiry] at hnow
      cases hnow
    · intro _ run hrun hahead row hrow hid hmissed
      exfalso
      rcases kept_step hexpiry hstep row hrow with ⟨before, hbefore, hsame, -, -, hstate⟩ | ⟨-, hnot⟩
      · rw [← h.run_eq hbefore hrun (hsame.trans hid), hstate hmissed] at hahead
        cases hahead
      · exact hnot hmissed
  | some now =>
    have hstore := expiry_step hexpiry hstep
    constructor
    · intro hmissed now' hnow' run hrun hahead schedule hschedule hid hlate
      obtain rfl := Option.some.inj (hexpiry.symm.trans hnow')
      have hrow : { run with state := .missed } ∈ after.store.runs := by
        rw [hstore]
        refine List.mem_map.mpr ⟨run, hrun, ?_⟩
        rw [if_pos (decide_eq_true ⟨hahead, hlate⟩)]
      obtain ⟨now', hnow', hover⟩ := hmissed run hrun hahead _ hrow rfl rfl schedule hschedule hid
      obtain rfl := Option.some.inj (hexpiry.symm.trans hnow')
      exact (overFrom_iff (h.timed run hrun)).mp hover
    · intro hpast run hrun hahead row hrow hid hmissed schedule hschedule hscheduleId
      refine ⟨now, hexpiry, (overFrom_iff (h.timed run hrun)).mpr ?_⟩
      rw [hstore] at hrow
      obtain ⟨before, hbefore, hsame, -, -, hstate⟩ := expireRuns_rows monitor.store now hrow
      obtain rfl := h.run_eq hbefore hrun (hsame.trans hid)
      rcases hstate.mp hmissed with hmissed | ⟨-, hlate⟩
      · rw [hmissed] at hahead
        cases hahead
      · exact hpast now hexpiry before hrun hahead schedule hschedule hscheduleId hlate

end StreamMonitor

/-- Runs are called missed only when they are over, along every run. -/
def MissedOnlyWhenOver (libraries : StreamLibraries) : Prop :=
  ∀ events, (StreamMonitor.machine libraries).Steps StreamMonitor.MissedWhenOver {} events

/-- A broadcast of a minute with ten trail minutes, up to the expiry of a cycle two minutes after its
start. -/
def trailEvents : List StreamEvent :=
  [.createChannel "https://example.org/live" true,
    .createSchedule ⟨0, true, .once 0, "UTC", 1, 0, 10, false⟩, .plan 0, .planNext 0 true,
    .planNext 0 true, .plan 120000, .planNext 0 true]

def trailSchedule : StreamSchedule := ⟨⟨0, true, .once 0, "UTC", 1, 0, 10, false⟩, 1⟩

def trailRun : StreamScheduledRun :=
  { id := 2, scheduleId := 1, channelId := 0, startsAt := 0, endsAt := 60000 }

theorem missed_in_trail : ¬MissedOnlyWhenOver plainLibraries := by
  intro h
  have hrun : ((StreamMonitor.machine plainLibraries).run {} trailEvents).bind (fun monitor =>
      ((StreamMonitor.machine plainLibraries).step monitor (.planNext 0 true)).map fun after =>
        (monitor.store.runs, monitor.store.schedules, monitor.expiry (.planNext 0 true),
          after.store.runs)) =
      some ([trailRun], [trailSchedule], some 120000, [{ trailRun with state := .missed }]) := by
    decide
  obtain ⟨monitor, hmonitor, hstep⟩ := Option.bind_eq_some_iff.mp hrun
  obtain ⟨after, hafter, hrows⟩ := Option.map_eq_some_iff.mp hstep
  simp only [Prod.mk.injEq] at hrows
  obtain ⟨hruns, hschedules, hexpiry, hmissed⟩ := hrows
  obtain ⟨now, hnow, hover⟩ := (h (trailEvents ++ [.planNext 0 true])).of_run hmonitor hafter trailRun
    (by rw [hruns]; exact List.mem_singleton_self _) rfl { trailRun with state := .missed }
    (by rw [hmissed]; exact List.mem_singleton_self _) rfl rfl trailSchedule
    (by rw [hschedules]; exact List.mem_singleton_self _) rfl
  obtain rfl := Option.some.inj (hexpiry.symm.trans hnow)
  exact absurd (hover 120000 (Int.le_refl _)) (by decide)

/-- Along a run, runs are called missed only at moments from which on they are not watched, exactly
when no expiry comes between the end of a run that nothing was started for and the end of its trail
minutes. -/
theorem missed_only_when_over_iff (libraries : StreamLibraries) (events : List StreamEvent) :
    (StreamMonitor.machine libraries).Steps StreamMonitor.MissedWhenOver {} events ↔
      (StreamMonitor.machine libraries).Within StreamMonitor.PastTrail {} events :=
  Machine.steps_iff (fun _ _ _ => StreamMonitor.Dated.step)
    (fun _ _ _ => StreamMonitor.Dated.missed_iff)
    ⟨Recorded.empty, fun _ h => nomatch h⟩ events

end RDownloader
