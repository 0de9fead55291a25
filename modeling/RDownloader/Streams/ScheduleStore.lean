import RDownloader.Db.ChunkLedger
import RDownloader.Streams.Schedule

/-!
# Schedules and their planned occurrences (`rd-db/src/stream_schedule_store.rs`)

What a statement can do to the planned occurrences is said once (`StreamStore.Evolves`): a row keeps
its occurrence, a new one is of an occurrence that had none, and a row that has left `planned` goes
only with its schedule.
-/

namespace RDownloader

abbrev StreamScheduledRunId := Nat

/-- What the unique index is over. -/
abbrev OccurrenceKey := StreamScheduleId × Instant

inductive ScheduledRunState
  | planned
  | waiting
  | recording
  | completed
  | missed
  | failed
  deriving DecidableEq, Repr

/-- Whether the run still needs attention from the monitor. -/
def ScheduledRunState.isOpen : ScheduledRunState → Bool
  | planned | waiting | recording => true
  | completed | missed | failed => false

/-- Whether nothing has been started for the run, and its window has not closed. -/
def ScheduledRunState.isAhead : ScheduledRunState → Bool
  | planned | waiting => true
  | _ => false

structure StreamScheduledRun where
  id : StreamScheduledRunId
  scheduleId : StreamScheduleId
  channelId : StreamChannelId
  startsAt : Instant
  endsAt : Instant
  state : ScheduledRunState := .planned
  downloadId : Option DownloadId := none
  replayUsed : Bool := false
  error : Option String := none
  deriving DecidableEq, Repr

def StreamScheduledRun.key (run : StreamScheduledRun) : OccurrenceKey := (run.scheduleId, run.startsAt)

structure StreamChannel where
  id : StreamChannelId
  url : String
  enabled : Bool
  deriving DecidableEq, Repr

/-- The tables. -/
structure StreamStore where
  channels : List StreamChannel := []
  schedules : List StreamSchedule := []
  runs : List StreamScheduledRun := []
  /-- No id from here on has been given. -/
  nextId : Nat := 0

namespace StreamStore

variable (store : StreamStore)

def enabledSchedules : List StreamSchedule := store.schedules.filter (·.enabled)

/-- The open runs, oldest first. -/
def openRuns : List StreamScheduledRun :=
  (store.runs.filter (·.state.isOpen)).insertionSort (·.startsAt ≤ ·.startsAt)

def hasChannel (id : StreamChannelId) : Bool := store.channels.any (·.id = id)
def hasSchedule (id : StreamScheduleId) : Bool := store.schedules.any (·.id = id)
def hasRun (key : OccurrenceKey) : Bool := store.runs.any (·.key = key)

def foreignKey : String := "FOREIGN KEY constraint failed"

def createSchedule (input : NewStreamSchedule) : Except String StreamStore :=
  if store.hasChannel input.channelId then
    .ok { store with
      schedules := store.schedules ++ [{ input with id := store.nextId }]
      nextId := store.nextId + 1 }
  else .error foreignKey

/-- Edits a schedule, and removes the occurrences that are only planned. -/
def updateSchedule (id : StreamScheduleId) (input : NewStreamSchedule) : Except String StreamStore :=
  if ¬store.hasSchedule id then .error "stream schedule not found"
  else if store.hasChannel input.channelId then
    .ok { store with
      schedules := store.schedules.map fun schedule =>
        if schedule.id = id then { input with id } else schedule
      runs := store.runs.filter fun run => ¬(run.scheduleId = id ∧ run.state = .planned) }
  else .error foreignKey

def deleteSchedule (id : StreamScheduleId) : Except String StreamStore :=
  if store.hasSchedule id then
    .ok { store with
      runs := store.runs.filter (·.scheduleId ≠ id)
      schedules := store.schedules.filter (·.id ≠ id) }
  else .error "stream schedule not found"

def createChannel (url : String) (enabled : Bool) : StreamStore :=
  { store with
    channels := store.channels ++ [⟨store.nextId, url, enabled⟩]
    nextId := store.nextId + 1 }

def updateChannel (id : StreamChannelId) (url : String) (enabled : Bool) : StreamStore :=
  { store with
    channels := store.channels.map fun channel =>
      if channel.id = id then ⟨id, url, enabled⟩ else channel }

/-- Deletes a channel, its schedules and their runs. -/
def deleteChannel (id : StreamChannelId) : StreamStore :=
  let schedules := store.schedules.filter (·.channelId ≠ id)
  { store with
    channels := store.channels.filter (·.id ≠ id)
    schedules
    runs := store.runs.filter fun run => schedules.any (·.id = run.scheduleId) }

/-- The `INSERT` of one occurrence, which does nothing for one that has a row. -/
def planRun (scheduleId : StreamScheduleId) (channelId : StreamChannelId)
    (planned : StreamStore × Nat) (occurrence : StreamOccurrence) : Except String (StreamStore × Nat) :=
  let store := planned.1
  if store.hasRun (scheduleId, occurrence.startsAt) then .ok planned
  else if store.hasSchedule scheduleId then
    .ok ({ store with
      runs := store.runs ++ [{
        id := store.nextId, scheduleId, channelId
        startsAt := occurrence.startsAt, endsAt := occurrence.endsAt }]
      nextId := store.nextId + 1 }, planned.2 + 1)
  else .error foreignKey

/-- Inserts the occurrences that are not planned yet, and says how many were new. -/
def planRuns (scheduleId : StreamScheduleId) (channelId : StreamChannelId)
    (occurrences : List StreamOccurrence) : Except String (StreamStore × Nat) :=
  occurrences.foldlM (planRun scheduleId channelId) (store, 0)

/-- Moves an open run to a new state. -/
def setRunState (id : StreamScheduledRunId) (state : ScheduledRunState)
    (downloadId : Option DownloadId) (replayUsed : Option Bool) (error : Option String) :
    Except String StreamStore :=
  if store.runs.any fun run => run.id = id ∧ run.state.isOpen then
    .ok { store with
      runs := store.runs.map fun run =>
        if run.id = id ∧ run.state.isOpen then
          { run with
            state
            downloadId := downloadId.or run.downloadId
            replayUsed := replayUsed.getD run.replayUsed
            error }
        else run }
  else .error "scheduled run is not open"

/-- Marks the runs nothing was started for whose window closed before the cutoff as missed. -/
def expireRuns (cutoff : Instant) : StreamStore × Nat :=
  let expired (run : StreamScheduledRun) : Bool := run.state.isAhead ∧ run.endsAt < cutoff
  ({ store with
    runs := store.runs.map fun run => if expired run then { run with state := .missed } else run },
   store.runs.countP expired)

end StreamStore

variable {store next last : StreamStore} {into : StreamScheduledRunId → Prop}
  {input : NewStreamSchedule} {scheduleId : StreamScheduleId} {channelId : StreamChannelId}
  {occurrences : List StreamOccurrence}

/-- What the schema and the ids that are given guarantee. -/
structure StreamStore.Sound (store : StreamStore) : Prop where
  unique : (store.runs.map (·.key)).Nodup
  uniqueId : (store.runs.map (·.id)).Nodup
  owned : ∀ run ∈ store.runs, ∃ schedule ∈ store.schedules, schedule.id = run.scheduleId
  given : ∀ schedule ∈ store.schedules, schedule.id < store.nextId
  givenRun : ∀ run ∈ store.runs, run.id < store.nextId

/-- What became of a row: it is of the same occurrence, and has been closed or, if it is one of
`into`, marked as recording. -/
structure RunEvolves (into : StreamScheduledRunId → Prop) (run next : StreamScheduledRun) : Prop where
  id : next.id = run.id
  key : next.key = run.key
  state : next.state = run.state ∨ next.state.isOpen = false ∨
    (next.state = .recording ∧ into run.id)

/-- What a statement does to the tables. -/
structure StreamStore.Evolves (into : StreamScheduledRunId → Prop) (store next : StreamStore) :
    Prop where
  nextId : store.nextId ≤ next.nextId
  schedules : ∀ schedule ∈ next.schedules,
    (∃ before ∈ store.schedules, before.id = schedule.id) ∨ store.nextId ≤ schedule.id
  origin : ∀ run ∈ next.runs, (∃ before ∈ store.runs, RunEvolves into before run) ∨
    (run.state = .planned ∧ store.nextId ≤ run.id ∧ (∀ before ∈ store.runs, before.key ≠ run.key) ∧
      ((∃ before ∈ store.schedules, before.id = run.scheduleId) ∨ store.nextId ≤ run.scheduleId))
  kept : ∀ run ∈ store.runs, run.state ≠ .planned → (∃ after ∈ next.runs, after.key = run.key) ∨
    ∀ schedule ∈ next.schedules, schedule.id ≠ run.scheduleId

/-- A recording was started for the occurrence and marked: its row is not planned any more, and
stays unless its schedule goes. -/
structure StreamStore.Settled (store : StreamStore) (key : OccurrenceKey) : Prop where
  behind : ∀ run ∈ store.runs, run.key = key → run.state.isAhead = false
  kept : (∃ run ∈ store.runs, run.key = key) ∨
    key.1 < store.nextId ∧ ∀ schedule ∈ store.schedules, schedule.id ≠ key.1

theorem RunEvolves.refl (run : StreamScheduledRun) : RunEvolves into run run := ⟨rfl, rfl, .inl rfl⟩

namespace StreamStore

theorem Evolves.refl (store : StreamStore) : Evolves into store store where
  nextId := Nat.le_refl _
  schedules schedule hmem := .inl ⟨schedule, hmem, rfl⟩
  origin run hmem := .inl ⟨run, hmem, .refl run⟩
  kept run hmem _ := .inl ⟨run, hmem, rfl⟩

theorem hasRun_iff {key : OccurrenceKey} : store.hasRun key ↔ ∃ run ∈ store.runs, run.key = key := by
  simp only [hasRun, List.any_eq_true, decide_eq_true_eq]

theorem hasSchedule_iff {id : StreamScheduleId} :
    store.hasSchedule id ↔ ∃ schedule ∈ store.schedules, schedule.id = id := by
  simp only [hasSchedule, List.any_eq_true, decide_eq_true_eq]

theorem Settled.evolves {key : OccurrenceKey} (h : store.Settled key) (hsound : store.Sound)
    (hevolves : store.Evolves into next) : next.Settled key where
  behind run hmem hkey := by
    rcases hevolves.origin run hmem with ⟨before, hbefore, hrun⟩ | ⟨-, -, hnone, hschedule⟩
    · have hbehind := h.behind before hbefore (hrun.key.symm.trans hkey)
      rcases hrun.state with hstate | hstate | ⟨hstate, -⟩
      · rw [hstate, hbehind]
      · cases hnext : run.state <;> simp_all [ScheduledRunState.isAhead, ScheduledRunState.isOpen]
      · rw [hstate]
        rfl
    · -- A new row is of an occurrence that had none, of a schedule that is there or is new.
      subst hkey
      rcases h.kept with ⟨before, hbefore, hsame⟩ | ⟨hgiven, hgone⟩
      · exact absurd hsame (hnone before hbefore)
      · rcases hschedule with ⟨schedule, hmem, hid⟩ | hfresh
        · exact absurd hid (hgone schedule hmem)
        · exact absurd hgiven (Nat.not_lt_of_le hfresh)
  kept := by
    rcases h.kept with ⟨run, hmem, rfl⟩ | ⟨hgiven, hgone⟩
    · have hstate : run.state ≠ .planned := fun hstate => by
        have hbehind := h.behind run hmem rfl
        rw [hstate] at hbehind
        cases hbehind
      obtain ⟨schedule, hschedule, hid⟩ := hsound.owned run hmem
      have hgiven : run.scheduleId < store.nextId := hid ▸ hsound.given schedule hschedule
      exact (hevolves.kept run hmem hstate).imp_right fun hgone =>
        ⟨lt_of_lt_of_le hgiven hevolves.nextId, hgone⟩
    · refine .inr ⟨lt_of_lt_of_le hgiven hevolves.nextId, fun schedule hmem hid => ?_⟩
      rcases hevolves.schedules schedule hmem with ⟨before, hbefore, hsame⟩ | hfresh
      · exact hgone before hbefore (hsame.trans hid)
      · exact absurd hgiven (Nat.not_lt_of_le (hid ▸ hfresh))

/-- The row with an id is of the same occurrence as long as it is there. -/
theorem Evolves.named {id : StreamScheduledRunId} {key : OccurrenceKey}
    (hevolves : store.Evolves into next) (hid : id < store.nextId)
    (h : ∀ run ∈ store.runs, run.id = id → run.key = key) :
    ∀ run ∈ next.runs, run.id = id → run.key = key := by
  intro run hmem hrun
  rcases hevolves.origin run hmem with ⟨before, hbefore, hsame⟩ | ⟨-, hfresh, -⟩
  · exact hsame.key.trans (h before hbefore (hsame.id.symm.trans hrun))
  · exact absurd hid (Nat.not_lt_of_le (hrun ▸ hfresh))

/-- A row that is marked as recording has been so before, or is one of `into`. -/
theorem Evolves.recording (hevolves : store.Evolves into next) {run : StreamScheduledRun}
    (hmem : run ∈ next.runs) (hstate : run.state = .recording) :
    ∃ before ∈ store.runs, before.id = run.id ∧ before.key = run.key ∧
      (before.state = .recording ∨ into before.id) := by
  rcases hevolves.origin run hmem with ⟨before, hbefore, hsame⟩ | ⟨hplanned, -⟩
  · refine ⟨before, hbefore, hsame.id.symm, hsame.key.symm, ?_⟩
    rcases hsame.state with hbeforeState | hclosed | ⟨-, hinto⟩
    · exact .inl (hbeforeState.symm.trans hstate)
    · rw [hstate] at hclosed
      cases hclosed
    · exact .inr hinto
  · cases hplanned.symm.trans hstate

/-! ### The schedules and the channels -/

theorem createSchedule_sound (hsound : store.Sound)
    (h : store.createSchedule input = .ok next) : next.Sound ∧ store.Evolves into next := by
  unfold createSchedule at h
  split at h
  · obtain rfl := Except.ok.inj h
    refine ⟨⟨hsound.unique, hsound.uniqueId, fun run hmem => ?_, fun schedule hmem => ?_,
        fun run hmem => ?_⟩,
      Nat.le_succ _, fun schedule hmem => ?_, fun run hmem => .inl ⟨run, hmem, .refl run⟩, fun run hmem _ => ?_⟩
    · obtain ⟨schedule, hschedule, hid⟩ := hsound.owned run hmem
      exact ⟨schedule, List.mem_append_left _ hschedule, hid⟩
    · rcases List.mem_append.mp hmem with hmem | hmem
      · exact Nat.lt_succ_of_lt (hsound.given schedule hmem)
      · rw [List.mem_singleton.mp hmem]
        exact Nat.lt_succ_self _
    · exact Nat.lt_succ_of_lt (hsound.givenRun run hmem)
    · rcases List.mem_append.mp hmem with hmem | hmem
      · exact .inl ⟨schedule, hmem, rfl⟩
      · rw [List.mem_singleton.mp hmem]
        exact .inr (Nat.le_refl _)
    · exact .inl ⟨run, hmem, rfl⟩
  · cases h

theorem updateSchedule_sound {id : StreamScheduleId} (hsound : store.Sound)
    (h : store.updateSchedule id input = .ok next) : next.Sound ∧ store.Evolves into next := by
  unfold updateSchedule at h
  split at h
  · cases h
  split at h
  · obtain rfl := Except.ok.inj h
    have hids : ∀ schedule ∈ store.schedules,
        (if schedule.id = id then { input with id } else schedule : StreamSchedule).id = schedule.id :=
      fun schedule _ => by
        split
        · exact Eq.symm ‹_›
        · rfl
    refine ⟨⟨(List.filter_sublist.map _).nodup hsound.unique,
        (List.filter_sublist.map _).nodup hsound.uniqueId, fun run hmem => ?_,
        fun schedule hmem => ?_, fun run hmem => ?_⟩,
      Nat.le_refl _, fun schedule hmem => ?_, fun run hmem => ?_, fun run hmem hstate => ?_⟩
    · obtain ⟨schedule, hschedule, hid⟩ := hsound.owned run (List.mem_of_mem_filter hmem)
      exact ⟨_, List.mem_map_of_mem hschedule, (hids schedule hschedule).trans hid⟩
    · obtain ⟨before, hbefore, rfl⟩ := List.mem_map.mp hmem
      rw [hids before hbefore]
      exact hsound.given before hbefore
    · exact hsound.givenRun run (List.mem_of_mem_filter hmem)
    · obtain ⟨before, hbefore, rfl⟩ := List.mem_map.mp hmem
      exact .inl ⟨before, hbefore, (hids before hbefore).symm⟩
    · exact .inl ⟨run, List.mem_of_mem_filter hmem, .refl run⟩
    · exact .inl ⟨run, List.mem_filter.mpr ⟨hmem, decide_eq_true fun h => hstate h.2⟩, rfl⟩
  · cases h

/-- Schedules that are removed take their runs with them. -/
theorem removed_sound (hsound : store.Sound) {channels : List StreamChannel}
    {schedules : List StreamSchedule} {runs : List StreamScheduledRun}
    (hschedules : schedules ⊆ store.schedules) (hruns : runs.Sublist store.runs)
    (hkept : ∀ run ∈ store.runs, run ∈ runs ↔ ∃ schedule ∈ schedules, schedule.id = run.scheduleId) :
    Sound { store with channels, schedules, runs } ∧
      store.Evolves into { store with channels, schedules, runs } := by
  refine ⟨⟨(hruns.map _).nodup hsound.unique, (hruns.map _).nodup hsound.uniqueId,
      fun run hmem => ?_, fun schedule hmem => hsound.given schedule (hschedules hmem),
      fun run hmem => hsound.givenRun run (hruns.subset hmem)⟩,
    Nat.le_refl _, fun schedule hmem => .inl ⟨schedule, hschedules hmem, rfl⟩,
    fun run hmem => .inl ⟨run, hruns.subset hmem, .refl run⟩, fun run hmem _ => ?_⟩
  · exact (hkept run (hruns.subset hmem)).mp hmem
  · by_cases hrun : run ∈ runs
    · exact .inl ⟨run, hrun, rfl⟩
    · exact .inr fun schedule hschedule hid => hrun ((hkept run hmem).mpr ⟨schedule, hschedule, hid⟩)

theorem deleteSchedule_sound {id : StreamScheduleId} (hsound : store.Sound)
    (h : store.deleteSchedule id = .ok next) : next.Sound ∧ store.Evolves into next := by
  unfold deleteSchedule at h
  split at h
  · obtain rfl := Except.ok.inj h
    refine removed_sound hsound (List.filter_subset_self _) List.filter_sublist fun run hmem => ?_
    have howned := hsound.owned run hmem
    simp only [List.mem_filter, hmem, true_and, decide_eq_true_eq]
    constructor
    · intro hne
      obtain ⟨schedule, hschedule, hid⟩ := howned
      exact ⟨schedule, ⟨hschedule, hid ▸ hne⟩, hid⟩
    · rintro ⟨schedule, ⟨-, hne⟩, hid⟩
      exact hid ▸ hne
  · cases h

theorem deleteChannel_sound (hsound : store.Sound) (id : StreamChannelId) :
    (store.deleteChannel id).Sound ∧ store.Evolves into (store.deleteChannel id) := by
  refine removed_sound hsound (List.filter_subset_self _) List.filter_sublist fun run hmem => ?_
  simp only [List.mem_filter, hmem, true_and, List.any_eq_true, decide_eq_true_eq]

/-- A statement that changes neither schedules nor runs. -/
theorem unchanged_sound (hsound : store.Sound) (hschedules : next.schedules = store.schedules)
    (hruns : next.runs = store.runs) (hnextId : store.nextId ≤ next.nextId) :
    next.Sound ∧ store.Evolves into next := by
  obtain ⟨channels, schedules, runs, nextId⟩ := next
  subst hschedules hruns
  exact ⟨⟨hsound.unique, hsound.uniqueId, hsound.owned,
      fun schedule hmem => lt_of_lt_of_le (hsound.given schedule hmem) hnextId,
      fun run hmem => lt_of_lt_of_le (hsound.givenRun run hmem) hnextId⟩,
    hnextId, fun schedule hmem => .inl ⟨schedule, hmem, rfl⟩,
    fun run hmem => .inl ⟨run, hmem, .refl run⟩, fun run hmem _ => .inl ⟨run, hmem, rfl⟩⟩

/-! ### The occurrences -/

/-- A statement that changes rows in place. -/
theorem mapped_sound (hsound : store.Sound) (f : StreamScheduledRun → StreamScheduledRun)
    (hf : ∀ run, RunEvolves into run (f run)) :
    Sound { store with runs := store.runs.map f } ∧
      store.Evolves into { store with runs := store.runs.map f } := by
  have hkeys : (store.runs.map f).map (·.key) = store.runs.map (·.key) := by
    rw [List.map_map]
    exact List.map_congr_left fun run _ => (hf run).key
  have hids : (store.runs.map f).map (·.id) = store.runs.map (·.id) := by
    rw [List.map_map]
    exact List.map_congr_left fun run _ => (hf run).id
  refine ⟨⟨hkeys ▸ hsound.unique, hids ▸ hsound.uniqueId, fun run hmem => ?_, hsound.given, fun run hmem => ?_⟩,
    Nat.le_refl _, fun schedule hmem => .inl ⟨schedule, hmem, rfl⟩, fun run hmem => ?_, fun run hmem _ => ?_⟩
  · obtain ⟨before, hbefore, rfl⟩ := List.mem_map.mp hmem
    obtain ⟨schedule, hschedule, hid⟩ := hsound.owned before hbefore
    exact ⟨schedule, hschedule, hid.trans (congrArg Prod.fst (hf before).key).symm⟩
  · obtain ⟨before, hbefore, rfl⟩ := List.mem_map.mp hmem
    exact (hf before).id ▸ hsound.givenRun before hbefore
  · obtain ⟨before, hbefore, rfl⟩ := List.mem_map.mp hmem
    exact .inl ⟨before, hbefore, hf before⟩
  · exact .inl ⟨f run, List.mem_map_of_mem hmem, (hf run).key⟩

theorem expireRuns_sound (hsound : store.Sound) (cutoff : Instant) :
    (store.expireRuns cutoff).1.Sound ∧ store.Evolves into (store.expireRuns cutoff).1 := by
  refine mapped_sound hsound _ fun run => ?_
  split
  · exact ⟨rfl, rfl, .inr (.inl rfl)⟩
  · exact .refl run

theorem setRunState_sound {downloadId : Option DownloadId} {replayUsed : Option Bool}
    {error : Option String} {id : StreamScheduledRunId} {state : ScheduledRunState}
    (hsound : store.Sound) (hstate : state.isOpen = false ∨ state = .recording ∧ into id)
    (h : store.setRunState id state downloadId replayUsed error = .ok next) :
    next.Sound ∧ store.Evolves into next := by
  unfold setRunState at h
  split at h
  · obtain rfl := Except.ok.inj h
    refine mapped_sound hsound _ fun run => ?_
    split
    next hrun => exact ⟨rfl, rfl, .inr (hrun.1 ▸ hstate)⟩
    next => exact .refl run
  · cases h

/-- A run that was marked is there, in its new state. -/
theorem setRunState_marked {downloadId : Option DownloadId} {replayUsed : Option Bool}
    {error : Option String} {id : StreamScheduledRunId} {state : ScheduledRunState}
    (h : store.setRunState id state downloadId replayUsed error = .ok next) :
    ∃ run ∈ next.runs, run.id = id ∧ run.state = state := by
  unfold setRunState at h
  split at h
  next hopen =>
    obtain rfl := Except.ok.inj h
    obtain ⟨run, hmem, hrun⟩ := List.any_eq_true.mp hopen
    refine ⟨_, List.mem_map_of_mem hmem, ?_⟩
    rw [if_pos (of_decide_eq_true hrun)]
    exact ⟨(of_decide_eq_true hrun).1, rfl⟩
  · cases h

theorem planRun_sound {planned planned' : StreamStore × Nat} {occurrence : StreamOccurrence}
    (hsound : planned.1.Sound)
    (h : planRun scheduleId channelId planned occurrence = .ok planned') :
    planned'.1.Sound ∧ planned.1.Evolves into planned'.1 := by
  unfold planRun at h
  dsimp only at h
  split at h
  · obtain rfl := Except.ok.inj h
    exact ⟨hsound, .refl _⟩
  split at h
  next hnew hschedule =>
    obtain rfl := Except.ok.inj h
    rw [hasRun_iff] at hnew
    rw [hasSchedule_iff] at hschedule
    have hnone : ∀ run ∈ planned.1.runs, run.key ≠ (scheduleId, occurrence.startsAt) :=
      fun run hmem hkey => hnew ⟨run, hmem, hkey⟩
    refine ⟨⟨?_, ?_, fun run hmem => ?_,
        fun schedule hmem => Nat.lt_succ_of_lt (hsound.given schedule hmem), fun run hmem => ?_⟩,
      Nat.le_succ _, fun schedule hmem => .inl ⟨schedule, hmem, rfl⟩, fun run hmem => ?_, fun run hmem _ => ?_⟩
    · rw [List.map_append, List.nodup_append]
      refine ⟨hsound.unique, List.nodup_singleton _, fun key hkey key' hkey' => ?_⟩
      obtain ⟨run, hmem, rfl⟩ := List.mem_map.mp hkey
      obtain rfl := List.mem_singleton.mp hkey'
      exact hnone run hmem
    · rw [List.map_append, List.nodup_append]
      refine ⟨hsound.uniqueId, List.nodup_singleton _, fun id hid id' hid' => ?_⟩
      obtain ⟨run, hmem, rfl⟩ := List.mem_map.mp hid
      obtain rfl := List.mem_singleton.mp hid'
      exact Nat.ne_of_lt (hsound.givenRun run hmem)
    · rcases List.mem_append.mp hmem with hmem | hmem
      · exact hsound.owned run hmem
      · rw [List.mem_singleton.mp hmem]
        exact hschedule
    · rcases List.mem_append.mp hmem with hmem | hmem
      · exact Nat.lt_succ_of_lt (hsound.givenRun run hmem)
      · rw [List.mem_singleton.mp hmem]
        exact Nat.lt_succ_self _
    · rcases List.mem_append.mp hmem with hmem | hmem
      · exact .inl ⟨run, hmem, .refl run⟩
      · obtain rfl := List.mem_singleton.mp hmem
        exact .inr ⟨rfl, Nat.le_refl _, hnone, .inl hschedule⟩
    · exact .inl ⟨run, List.mem_append_left _ hmem, rfl⟩
  next => cases h

/-- What single statements keep, planning keeps. -/
theorem planRuns_keeps {P : StreamStore → Prop} {count : Nat}
    (hP : ∀ store next, next.Sound ∧ store.Evolves (fun _ => False) next → P store → P next)
    (hsound : store.Sound) (hstore : P store)
    (h : store.planRuns scheduleId channelId occurrences = .ok (next, count)) :
    next.Sound ∧ P next := by
  unfold planRuns at h
  generalize 0 = created at h
  induction occurrences generalizing store created with
  | nil =>
    obtain rfl := congrArg Prod.fst (Except.ok.inj h)
    exact ⟨hsound, hstore⟩
  | cons occurrence rest ih =>
    rw [List.foldlM_cons] at h
    cases hfirst : planRun scheduleId channelId (store, created) occurrence with
    | error error =>
      rw [hfirst] at h
      cases h
    | ok planned =>
      rw [hfirst] at h
      have hplanned : planned.1.Sound ∧ store.Evolves (fun _ => False) planned.1 :=
        planRun_sound hsound hfirst
      exact ih hplanned.1 (hP _ _ hplanned hstore) planned.2 h

/-- The occurrences have rows afterwards. -/
theorem hasRun_planRuns {count created : Nat}
    (h : occurrences.foldlM (planRun scheduleId channelId) (store, created) = .ok (next, count)) :
    (∀ key, store.hasRun key → next.hasRun key) ∧
      ∀ occurrence ∈ occurrences, next.hasRun (scheduleId, occurrence.startsAt) := by
  induction occurrences generalizing store created with
  | nil =>
    obtain rfl := congrArg Prod.fst (Except.ok.inj h)
    exact ⟨fun _ hrun => hrun, List.forall_mem_nil _⟩
  | cons occurrence rest ih =>
    rw [List.foldlM_cons] at h
    cases hfirst : planRun scheduleId channelId (store, created) occurrence with
    | error error =>
      rw [hfirst] at h
      cases h
    | ok planned =>
      rw [hfirst] at h
      obtain ⟨hkeep, hrest⟩ := ih h
      have hhas : (∀ key, store.hasRun key → planned.1.hasRun key) ∧
          planned.1.hasRun (scheduleId, occurrence.startsAt) := by
        unfold planRun at hfirst
        dsimp only at hfirst
        split at hfirst
        next hrun =>
          obtain rfl := Except.ok.inj hfirst
          exact ⟨fun _ hrun => hrun, hrun⟩
        split at hfirst
        · obtain rfl := Except.ok.inj hfirst
          simp only [hasRun, List.any_append, Bool.or_eq_true]
          exact ⟨fun _ hkey => .inl hkey, .inr (List.any_eq_true.mpr
            ⟨_, List.mem_singleton_self _, decide_eq_true rfl⟩)⟩
        · cases hfirst
      exact ⟨fun key hkey => hkeep key (hhas.1 key hkey),
        List.forall_mem_cons.mpr ⟨hkeep _ hhas.2, hrest⟩⟩

/-- Planning a range that is already planned is free of effect. -/
theorem planRuns_again {count : Nat}
    (h : store.planRuns scheduleId channelId occurrences = .ok (next, count)) :
    next.planRuns scheduleId channelId occurrences = .ok (next, 0) := by
  have hhas := (hasRun_planRuns h).2
  clear h
  unfold planRuns
  induction occurrences with
  | nil => rfl
  | cons occurrence rest ih =>
    obtain ⟨hfirst, hrest⟩ := List.forall_mem_cons.mp hhas
    rw [List.foldlM_cons, planRun, if_pos hfirst]
    exact ih hrest

end StreamStore

end RDownloader
