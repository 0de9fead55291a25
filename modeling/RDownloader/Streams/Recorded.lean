import RDownloader.Streams.Monitor

/-!
# How often an occurrence is recorded

A recording that was marked on its run leaves a row that is never planned again, so a probe for a run
nothing was started for starts the first recording of its occurrence, unless one could not be marked.
But the row of an ended recording is still open: while its window covers the moment, a probe that
finds the channel on air starts another.
-/

namespace RDownloader

open StreamStore

variable {store next : StreamStore} {polling : Polling} {started unmarked : List OccurrenceKey}
  {run : StreamScheduledRun}

namespace Polling

/-- The run a channel is probed for, or recorded for. -/
def watched (polling : Polling) : Option StreamScheduledRun := polling.probed.or polling.pending

theorem watched_of_probed (h : polling.probed = some run) : polling.watched = some run := by
  rw [watched, h, Option.some_or]

theorem watched_of_pending (h : polling.pending = some run) : polling.watched = some run := by
  cases polling with
  | marking => exact h
  | _ => cases h

end Polling

structure Recorded (store : StreamStore) (polling : Polling)
    (started unmarked : List OccurrenceKey) : Prop where
  sound : store.Sound
  settled : ∀ key ∈ started, store.Settled key ∨ key ∈ unmarked ∨
    ∃ run, polling.pending = some run ∧ run.key = key
  recording : ∀ run ∈ store.runs, run.state = .recording → run.key ∈ started
  lost : unmarked ⊆ started
  /-- The row of the run in hand is of the occurrence it was read with. -/
  named : ∀ run, polling.watched = some run → run.id < store.nextId ∧
    ∀ row ∈ store.runs, row.id = run.id → row.key = run.key
  probed : ∀ run, polling.probed = some run →
    (run.key ∈ started ↔ run.state = .recording ∨ run.key ∈ unmarked)
  pending : ∀ run, polling.pending = some run → run.key ∈ started

namespace Recorded

theorem empty : Recorded {} .idle [] [] where
  sound := ⟨List.nodup_nil, List.nodup_nil, List.forall_mem_nil _, List.forall_mem_nil _,
    List.forall_mem_nil _⟩
  settled := List.forall_mem_nil _
  recording := List.forall_mem_nil _
  lost := List.Subset.refl _
  named _ h := nomatch h
  probed _ h := nomatch h
  pending _ h := nomatch h

/-- Statements that mark no recording. -/
theorem evolves (h : Recorded store polling started unmarked)
    (hnext : next.Sound ∧ store.Evolves (fun _ => False) next) :
    Recorded next polling started unmarked where
  sound := hnext.1
  settled key hmem := (h.settled key hmem).imp_left fun hsettled => hsettled.evolves h.sound hnext.2
  recording run hmem hstate := by
    obtain ⟨before, hbefore, -, hkey, hrecording | hnone⟩ := hnext.2.recording hmem hstate
    · exact hkey ▸ h.recording before hbefore hrecording
    · exact hnone.elim
  lost := h.lost
  named run hrun :=
    ⟨lt_of_lt_of_le (h.named run hrun).1 hnext.2.nextId,
      hnext.2.named (h.named run hrun).1 (h.named run hrun).2⟩
  probed := h.probed
  pending := h.pending

variable {after : Polling}

/-- Nothing is in hand, and every recording that was started has been marked or is lost. -/
theorem resting (h : Recorded store polling started unmarked) (hafter : after.watched = none)
    (hsettled : ∀ key ∈ started, store.Settled key ∨ key ∈ unmarked) :
    Recorded store after started unmarked := by
  obtain ⟨hprobed, hpending⟩ := Option.or_eq_none_iff.mp hafter
  refine ⟨h.sound, fun key hmem => (hsettled key hmem).imp_right .inl, h.recording, h.lost,
    fun _ hrun => ?_, fun _ hrun => ?_, fun _ hrun => ?_⟩
  · exact nomatch hafter.symm.trans hrun
  · exact nomatch hprobed.symm.trans hrun
  · exact nomatch hpending.symm.trans hrun

theorem settled_of_pending (h : Recorded store polling started unmarked)
    (hpending : polling.pending = none) :
    ∀ key ∈ started, store.Settled key ∨ key ∈ unmarked := by
  intro key hmem
  refine (h.settled key hmem).imp_right fun hrest => hrest.resolve_right ?_
  rintro ⟨run, hrun, -⟩
  exact nomatch hpending.symm.trans hrun

/-- The pass leaves a channel that no recording was started for. -/
theorem goOn (h : Recorded store polling started unmarked) (hpending : polling.pending = none)
    (hafter : after.watched = none) : Recorded store after started unmarked :=
  h.resting hafter (h.settled_of_pending hpending)

theorem mem_of_activeRun {channelId : StreamChannelId} {now : Instant} {schedule : StreamSchedule}
    (h : store.activeRun channelId now = some (run, schedule)) :
    run ∈ store.runs ∧ run.state.isOpen := by
  obtain ⟨found, hmem, hfound⟩ := List.exists_of_findSome?_eq_some h
  have hopen := List.mem_filter.mp ((List.mem_insertionSort _).mp hmem)
  split at hfound
  · cases hfound
  · obtain ⟨schedule', -, hwatching⟩ := Option.bind_eq_some_iff.mp hfound
    split at hwatching
    · obtain rfl := congrArg Prod.fst (Option.some.inj hwatching)
      exact hopen
    · cases hwatching

/-- A channel is probed for the run that covers the moment. -/
theorem take (h : Recorded store polling started unmarked) (hpending : polling.pending = none)
    {channelId : StreamChannelId} {now : Instant} {schedule : StreamSchedule}
    (hactive : store.activeRun channelId now = some (run, schedule))
    (hprobed : after.probed = some run) (hnone : after.pending = none) :
    Recorded store after started unmarked := by
  obtain ⟨hmem, hopen⟩ := mem_of_activeRun hactive
  have hsettled := h.settled_of_pending hpending
  refine ⟨h.sound, fun key hkey => (hsettled key hkey).imp_right .inl, h.recording, h.lost,
    fun run' hrun => ?_, fun run' hrun => ?_, fun _ hrun => nomatch hnone.symm.trans hrun⟩
  · obtain rfl := Option.some.inj ((Polling.watched_of_probed hprobed).symm.trans hrun)
    exact ⟨h.sound.givenRun run hmem, fun row hrow hid =>
      congrArg _ (List.inj_on_of_nodup_map h.sound.uniqueId hrow hmem hid)⟩
  · obtain rfl := Option.some.inj (hprobed.symm.trans hrun)
    constructor
    · intro hstarted
      refine (hsettled run.key hstarted).imp_left fun hrow => ?_
      -- The row is open, and not planned any more.
      have hbehind := hrow.behind run hmem rfl
      cases hstate : run.state <;> simp_all [ScheduledRunState.isAhead, ScheduledRunState.isOpen]
    · rintro (hstate | hlost)
      · exact h.recording run hmem hstate
      · exact h.lost hlost

theorem start (h : Recorded store polling started unmarked) (hprobed : polling.probed = some run)
    (hafter : after.pending = some run) (hnone : after.probed = none) :
    Recorded store after (started ++ [run.key]) unmarked := by
  have hpending : polling.pending = none := by
    cases polling with
    | marking => cases hprobed
    | _ => rfl
  have hlast : run.key ∈ started ++ [run.key] :=
    List.mem_append_right _ (List.mem_singleton_self _)
  refine ⟨h.sound, fun key hmem => ?_, fun row hmem hstate => ?_, fun key hmem => ?_,
    fun run' hrun => ?_, fun _ hrun => (nomatch hnone.symm.trans hrun), fun run' hrun => ?_⟩
  · rcases List.mem_append.mp hmem with hmem | hmem
    · exact (h.settled_of_pending hpending key hmem).imp_right .inl
    · exact .inr (.inr ⟨run, hafter, (List.mem_singleton.mp hmem).symm⟩)
  · exact List.mem_append_left _ (h.recording row hmem hstate)
  · exact List.mem_append_left _ (h.lost hmem)
  · obtain rfl := Option.some.inj ((Polling.watched_of_pending hafter).symm.trans hrun)
    exact h.named run (Polling.watched_of_probed hprobed)
  · obtain rfl := Option.some.inj (hafter.symm.trans hrun)
    exact hlast

/-- The run is marked, so its row is behind from now on. -/
theorem mark (h : Recorded store polling started unmarked) (hpending : polling.pending = some run)
    {downloadId : Option DownloadId} {replayUsed : Option Bool} {error : Option String}
    (hset : store.setRunState run.id .recording downloadId replayUsed error = .ok next)
    (hafter : after.watched = none) : Recorded next after started unmarked := by
  obtain ⟨hgiven, hnamed⟩ := h.named run (Polling.watched_of_pending hpending)
  have ⟨hsound, hevolves⟩ : next.Sound ∧ store.Evolves (· = run.id) next :=
    setRunState_sound h.sound (.inr ⟨rfl, rfl⟩) hset
  obtain ⟨marked, hmarked, hid, hstate⟩ := setRunState_marked hset
  have hkey : marked.key = run.key := hevolves.named hgiven hnamed marked hmarked hid
  have hsettled : next.Settled run.key := by
    refine ⟨fun row hmem hrow => ?_, .inl ⟨marked, hmarked, hkey⟩⟩
    rw [List.inj_on_of_nodup_map hsound.unique hmem hmarked (hrow.trans hkey.symm), hstate]
    rfl
  refine (⟨hsound, fun key hmem => ?_, fun row hmem hrow => ?_, h.lost, fun _ hrun => ?_,
    fun _ hrun => ?_, fun _ hrun => ?_⟩ : Recorded next .idle started unmarked).goOn rfl hafter
  · rcases h.settled key hmem with hrow | hlost | ⟨run', hrun, rfl⟩
    · exact .inl (hrow.evolves h.sound hevolves)
    · exact .inr (.inl hlost)
    · obtain rfl := Option.some.inj (hpending.symm.trans hrun)
      exact .inl hsettled
  · obtain ⟨before, hbefore, -, hsame, hrecording | hinto⟩ := hevolves.recording hmem hrow
    · exact hsame ▸ h.recording before hbefore hrecording
    · rw [← hsame, hnamed before hbefore hinto]
      exact h.pending run hpending
  · exact nomatch hrun
  · exact nomatch hrun
  · exact nomatch hrun

/-- The run could not be marked. -/
theorem lose (h : Recorded store polling started unmarked) (hpending : polling.pending = some run)
    (hafter : after.watched = none) :
    Recorded store after started (unmarked ++ [run.key]) := by
  have hstarted := h.pending run hpending
  refine (⟨h.sound, fun key hmem => ?_, h.recording, fun key hmem => ?_, fun _ hrun => ?_,
    fun _ hrun => ?_, fun _ hrun => ?_⟩ :
      Recorded store .idle started (unmarked ++ [run.key])).goOn rfl hafter
  · rcases h.settled key hmem with hrow | hlost | ⟨run', hrun, rfl⟩
    · exact .inl hrow
    · exact .inr (.inl (List.mem_append_left _ hlost))
    · obtain rfl := Option.some.inj (hpending.symm.trans hrun)
      exact .inr (.inl (List.mem_append_right _ (List.mem_singleton_self _)))
  · rcases List.mem_append.mp hmem with hmem | hmem
    · exact h.lost hmem
    · exact List.mem_singleton.mp hmem ▸ hstarted
  · exact nomatch hrun
  · exact nomatch hrun
  · exact nomatch hrun

end Recorded

/-! ### Runs -/

variable {libraries : StreamLibraries} {monitor after : StreamMonitor}

namespace StreamMonitor

/-- What is known of a monitor. -/
abbrev Known (monitor : StreamMonitor) : Prop :=
  Recorded monitor.store monitor.polling monitor.started monitor.unmarked

/-- The run an event starts a recording for. -/
def starts (monitor : StreamMonitor) : StreamEvent → Option StreamScheduledRun
  | .probed (.live _ .ok) => monitor.polling.probed
  | _ => none

/-- No channel is found on air for a run that is marked as recording, or for an occurrence one of
whose recordings could not be marked. -/
def First (monitor : StreamMonitor) (event : StreamEvent) : Prop :=
  ∀ run ∈ monitor.starts event, run.state ≠ .recording ∧ run.key ∉ monitor.unmarked

theorem Known.planNext (h : monitor.Known) {planner : Nat} {stored : Bool}
    (hstep : monitor.planNext libraries planner stored = some after) :
    after.Known ∧ after.started = monitor.started := by
  unfold StreamMonitor.planNext at hstep
  split at hstep
  · cases hstep
  · obtain rfl := Option.some.inj hstep
    refine ⟨?_, rfl⟩
    cases stored with
    | true => exact h.evolves (expireRuns_sound h.sound _)
    | false => exact h
  · dsimp only at hstep
    split at hstep
    · obtain rfl := Option.some.inj hstep
      exact ⟨h, rfl⟩
    · obtain rfl := Option.some.inj hstep
      exact ⟨h, rfl⟩
    · split at hstep
      next hplanned =>
        obtain rfl := Option.some.inj hstep
        exact ⟨(planRuns_keeps (fun _ _ hnext hstore => Recorded.evolves hstore hnext) h.sound h
          hplanned).2, rfl⟩
      · obtain rfl := Option.some.inj hstep
        exact ⟨h, rfl⟩

theorem Known.takeChannel (h : monitor.Known) (hpending : monitor.polling.pending = none)
    (downloads : List ListedDownload) (rest : List StreamChannel) (channel : StreamChannel)
    (now : Instant) (runsRead schedulesRead : Bool) :
    Recorded monitor.store
      (monitor.takeChannel downloads rest channel now runsRead schedulesRead)
      monitor.started monitor.unmarked := by
  unfold StreamMonitor.takeChannel
  dsimp only
  split
  · exact h.goOn hpending rfl
  split
  · exact h.goOn hpending rfl
  split
  · exact h.goOn hpending rfl
  generalize hactive :
    (if runsRead then monitor.store.activeRun channel.id now else none) = active
  split
  · exact h.goOn hpending rfl
  · cases active with
    | none => exact h.goOn hpending rfl
    | some active =>
      split at hactive
      · exact h.take hpending hactive rfl rfl
      · cases hactive

theorem Known.recordLiveChannel (h : monitor.Known) {downloads : List ListedDownload}
    {rest : List StreamChannel} {channel : StreamChannel}
    {active : Option (StreamScheduledRun × StreamSchedule)}
    (hpolling : monitor.polling = .probing downloads rest channel active) (source : String)
    (replayAvailable : Bool) (start : RecordingStart) :
    (monitor.recordLiveChannel downloads rest source active replayAvailable start).Known ∧
      (monitor.recordLiveChannel downloads rest source active replayAvailable start).started =
        monitor.started ++
          ((monitor.starts (.probed (.live replayAvailable start))).map (·.key)).toList := by
  have hpending : monitor.polling.pending = none := by rw [hpolling]; rfl
  have hprobed : monitor.polling.probed = active.map Prod.fst := by rw [hpolling]; rfl
  have hnone {store : StreamStore} (hstore : Recorded store monitor.polling monitor.started
      monitor.unmarked) : Recorded store (.channels downloads rest) monitor.started
        monitor.unmarked := hstore.goOn hpending rfl
  cases start with
  | failed error stored =>
    unfold StreamMonitor.recordLiveChannel
    cases active with
    | none => exact ⟨hnone h, (List.append_nil _).symm⟩
    | some active =>
      dsimp only
      split
      next hset =>
        exact ⟨hnone (h.evolves (setRunState_sound h.sound (.inl rfl) hset)),
          (List.append_nil _).symm⟩
      next => exact ⟨hnone h, (List.append_nil _).symm⟩
  | ok =>
    rw [starts, hprobed]
    unfold StreamMonitor.recordLiveChannel
    have hnext : Recorded { monitor.store with nextId := monitor.store.nextId + 1 }
        monitor.polling monitor.started monitor.unmarked :=
      h.evolves (unchanged_sound h.sound rfl rfl (Nat.le_succ _))
    cases active with
    | none => exact ⟨hnone hnext, (List.append_nil _).symm⟩
    | some active => exact ⟨hnext.start hprobed rfl rfl, rfl⟩

theorem Known.probed (h : monitor.Known) {downloads : List ListedDownload}
    {rest : List StreamChannel} {channel : StreamChannel}
    {active : Option (StreamScheduledRun × StreamSchedule)} {result : ProbeResult}
    (hpolling : monitor.polling = .probing downloads rest channel active)
    (hstep : monitor.probed libraries downloads rest channel active result = some after) :
    after.Known ∧
      after.started = monitor.started ++ ((monitor.starts (.probed result)).map (·.key)).toList := by
  have hpending : monitor.polling.pending = none := by rw [hpolling]; rfl
  unfold StreamMonitor.probed at hstep
  cases hparse : libraries.parseUrl channel.url with
  | none =>
    rw [hparse] at hstep
    cases result with
    | failed =>
      obtain rfl := Option.some.inj hstep
      exact ⟨h.goOn hpending rfl, (List.append_nil _).symm⟩
    | _ => cases hstep
  | some source =>
    rw [hparse] at hstep
    cases result with
    | live replayAvailable start =>
      obtain rfl := Option.some.inj hstep
      exact @recordLiveChannel { monitor with errors := Function.update monitor.errors channel.id 0 }
        h downloads rest channel active hpolling source replayAvailable start
    | _ =>
      obtain rfl := Option.some.inj hstep
      exact ⟨h.goOn hpending rfl, (List.append_nil _).symm⟩

theorem Known.markRunRecording (h : monitor.Known) {downloads : List ListedDownload}
    {rest : List StreamChannel} {run : StreamScheduledRun} {download : DownloadId}
    {replayUsed : Bool}
    (hpolling : monitor.polling = .marking downloads rest run download replayUsed)
    (read stored : Bool) :
    (monitor.markRunRecording downloads rest run download replayUsed read stored).Known ∧
      (monitor.markRunRecording downloads rest run download replayUsed read stored).started =
        monitor.started := by
  have hpending : monitor.polling.pending = some run := by rw [hpolling]; rfl
  unfold StreamMonitor.markRunRecording
  dsimp only
  split
  next hset => exact ⟨h.mark hpending hset rfl, rfl⟩
  next => exact ⟨h.lose hpending rfl, rfl⟩

theorem Known.edited (h : monitor.Known) {result : Except String StreamStore}
    (hresult : ∀ store, result = .ok store →
      store.Sound ∧ monitor.store.Evolves (fun _ => False) store)
    (hstep : monitor.edited result = some after) :
    after.Known ∧ after.started = monitor.started := by
  cases result with
  | ok store =>
    obtain rfl := Option.some.inj hstep
    exact ⟨h.evolves (hresult store rfl), rfl⟩
  | error => cases hstep

theorem Known.step (h : monitor.Known) {event : StreamEvent}
    (hstep : monitor.step libraries event = some after) :
    after.Known ∧ after.started = monitor.started ++ ((monitor.starts event).map (·.key)).toList := by
  have hsame : after.Known ∧ after.started = monitor.started →
      after.Known ∧ after.started = monitor.started ++ [] := by
    rw [List.append_nil]
    exact id
  cases event with
  | probed result =>
    dsimp only [StreamMonitor.step] at hstep
    split at hstep
    next hpolling => exact h.probed hpolling hstep
    next => cases hstep
  | plan now =>
    obtain rfl := Option.some.inj hstep
    exact hsame ⟨h, rfl⟩
  | planNext planner stored => exact hsame (h.planNext hstep)
  | pollChannels ready =>
    dsimp only [StreamMonitor.step] at hstep
    split at hstep
    next hpolling =>
      obtain rfl := Option.some.inj hstep
      refine hsame ⟨h.goOn (by rw [hpolling]; rfl) ?_, rfl⟩
      cases ready <;> rfl
    next hpolling =>
      obtain rfl := Option.some.inj hstep
      refine hsame ⟨h.goOn (by rw [hpolling]; rfl) ?_, rfl⟩
      cases ready <;> rfl
    next => cases hstep
  | take now runsRead schedulesRead =>
    dsimp only [StreamMonitor.step] at hstep
    split at hstep
    next hpolling =>
      obtain rfl := Option.some.inj hstep
      exact hsame ⟨h.takeChannel (by rw [hpolling]; rfl) .., rfl⟩
    next => cases hstep
  | mark read stored =>
    dsimp only [StreamMonitor.step] at hstep
    split at hstep
    next hpolling =>
      obtain rfl := Option.some.inj hstep
      exact hsame (h.markRunRecording hpolling read stored)
    next => cases hstep
  | restart =>
    obtain rfl := Option.some.inj hstep
    refine hsame ⟨?_, rfl⟩
    dsimp only [Known]
    cases hpending : monitor.polling.pending with
    | none =>
      rw [Option.map_none, Option.toList_none, List.append_nil]
      exact h.goOn hpending rfl
    | some run => exact h.lose hpending rfl
  | createSchedule input =>
    dsimp only [StreamMonitor.step] at hstep
    split at hstep
    · exact hsame (h.edited (fun _ => createSchedule_sound h.sound) hstep)
    · cases hstep
  | updateSchedule id input =>
    dsimp only [StreamMonitor.step] at hstep
    split at hstep
    · exact hsame (h.edited (fun _ => updateSchedule_sound h.sound) hstep)
    · cases hstep
  | deleteSchedule id => exact hsame (h.edited (fun _ => deleteSchedule_sound h.sound) hstep)
  | createChannel url enabled =>
    obtain rfl := Option.some.inj hstep
    exact hsame ⟨h.evolves (unchanged_sound h.sound rfl rfl (Nat.le_succ _)), rfl⟩
  | updateChannel id url enabled =>
    obtain rfl := Option.some.inj hstep
    exact hsame ⟨h.evolves (unchanged_sound h.sound rfl rfl (Nat.le_refl _)), rfl⟩
  | deleteChannel id =>
    obtain rfl := Option.some.inj hstep
    exact hsame ⟨h.evolves (deleteChannel_sound h.sound id), rfl⟩
  | addDownload kind source =>
    obtain rfl := Option.some.inj hstep
    exact hsame ⟨h.evolves (unchanged_sound h.sound rfl rfl (Nat.le_succ _)), rfl⟩
  | setDownload id state =>
    obtain rfl := Option.some.inj hstep
    exact hsame ⟨h, rfl⟩
  | removeDownload id =>
    obtain rfl := Option.some.inj hstep
    exact hsame ⟨h, rfl⟩

/-- A recording is the first of its occurrence exactly when the run is not marked as recording and
no recording of the occurrence is lost. -/
theorem Known.key_notMem (h : monitor.Known) {run : StreamScheduledRun}
    (hprobed : monitor.polling.probed = some run) :
    run.key ∉ monitor.started ↔ run.state ≠ .recording ∧ run.key ∉ monitor.unmarked := by
  rw [Recorded.probed h run hprobed, not_or]

theorem Known.nodup_step (h : monitor.Known) {event : StreamEvent}
    (hnodup : monitor.started.Nodup) (hstep : monitor.step libraries event = some after) :
    after.started.Nodup ↔ monitor.First event := by
  rw [(h.step hstep).2, First]
  cases hstarts : monitor.starts event with
  | none =>
    rw [Option.map_none, Option.toList_none, List.append_nil]
    exact ⟨fun _ run hrun => (nomatch hrun), fun _ => hnodup⟩
  | some run =>
    have hprobed : monitor.polling.probed = some run := by
      unfold starts at hstarts
      split at hstarts
      · exact hstarts
      · cases hstarts
    have hfirst := h.key_notMem hprobed
    constructor
    · intro hafter run' hrun'
      obtain rfl := Option.mem_some_iff.mp hrun'
      exact hfirst.mp fun hmem => (List.nodup_append.mp hafter).2.2 run.key hmem run.key
        (List.mem_singleton_self _) rfl
    · intro hrun
      refine List.nodup_append.mpr ⟨hnodup, List.nodup_singleton _, fun key hmem key' hkey' heq => ?_⟩
      obtain rfl : key = run.key := heq.trans (List.mem_singleton.mp hkey')
      exact hfirst.mpr (hrun run rfl) hmem

end StreamMonitor

/-- Every occurrence is recorded at most once along every run. -/
def RecordedOnce (libraries : StreamLibraries) : Prop :=
  ∀ events, (StreamMonitor.machine libraries).Always (·.started.Nodup) {} events

/-- `UTC`, and URLs as they are. -/
def plainLibraries : StreamLibraries where
  parseUrl := some
  zones name :=
    if name = "UTC" then
      some ⟨fun instant => instant / 86400000, fun date second => .single ((date * 86400 + second) * 1000)⟩
    else none

/-- A user stops the recording of a broadcast, and the next cycle starts another. -/
def stoppedEvents : List StreamEvent :=
  [.createChannel "https://example.org/live" true,
    .createSchedule ⟨0, true, .once 3600000, "UTC", 60, 0, 0, false⟩, .plan 0, .planNext 0 true,
    .pollChannels true, .take 3600000 true true, .probed (.live false .ok), .mark true true,
    .setDownload 3 .cancelled,
    .pollChannels true, .take 3660000 true true, .probed (.live false .ok)]

theorem stopped_recorded_again : ¬RecordedOnce plainLibraries := by
  intro h
  have hrun : ((StreamMonitor.machine plainLibraries).run {} stoppedEvents).map (·.started) =
      some [(1, 3600000), (1, 3600000)] := by decide
  obtain ⟨last, hlast, hstarted⟩ := Option.map_eq_some_iff.mp hrun
  have hnodup := (h stoppedEvents).of_run hlast
  rw [hstarted] at hnodup
  exact absurd hnodup (by decide)

/-- Every occurrence is recorded at most once along a run exactly when no channel is found on air for
a run whose recording has ended, or for an occurrence one of whose recordings could not be marked. -/
theorem recorded_once_iff (libraries : StreamLibraries) (events : List StreamEvent) :
    (StreamMonitor.machine libraries).Always (·.started.Nodup) {} events ↔
      (StreamMonitor.machine libraries).Within StreamMonitor.First {} events :=
  @Machine.always_iff _ _ _ _ StreamMonitor.Known _
    (fun _ _ _ h hstep => (h.step hstep).1) (fun _ _ _ h hnodup hstep => h.nodup_step hnodup hstep)
    _ Recorded.empty List.nodup_nil events

end RDownloader
