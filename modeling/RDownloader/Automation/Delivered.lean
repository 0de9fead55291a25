import RDownloader.Automation.Hearing

/-!
# Whether a trigger is lost or doubled

The runs of an event are queued once, because an event is taken in once and no row stands under
their keys before. They are lost in two ways: the loop passes an event over that it could have had
from the buffer, and a trim deletes a run that has not ended.
-/

namespace RDownloader

namespace Automation

variable {mayTrigger : EventEnvelope → Bool} {engine after : Engine} {input : NewRun} {now : Instant}

/-- No trigger is lost or doubled. -/
structure Delivered (engine : Engine) : Prop where
  /-- Every event up to the position was taken in or passed over. -/
  heard : ∀ i event, engine.subscribed ≤ i → i < engine.position → engine.sent[i]? = some event →
    (∃ runs, (event, runs) ∈ engine.taken) ∨ ∃ lost, (event, lost) ∈ engine.skipped
  /-- None was passed over that the buffer held and an automation would have run for. -/
  notLost : ∀ skipped ∈ engine.skipped, skipped.2 = false
  /-- A run an event asked for has been queued once, or is next to be. -/
  once : ∀ entry ∈ engine.taken, ∀ run ∈ entry.2,
    run ∈ engine.pending ∨ (engine.queued.map (·.2)).count run.key = 1
  stays : Stays engine.table engine.queued engine.ended

/-! ### The runs that are to be queued -/

structure Intake (engine : Engine) : Prop where
  versions : (engine.versions.map (·.id)).Nodup
  fresh : ∀ i event, engine.position ≤ i → engine.sent[i]? = some event →
    ∀ entry ∈ engine.queued, ∀ version, entry.2 ≠ .event version event.id
  unique : (engine.pending.map (·.key)).Nodup
  new : ∀ run ∈ engine.pending, run.key ∉ engine.queued.map (·.2)
  ofEvent : ∀ run ∈ engine.pending, ∃ version i event, run.key = .event version event.id ∧
    engine.sent[i]? = some event ∧ i < engine.position
  once : ∀ entry ∈ engine.taken, ∀ run ∈ entry.2,
    run ∈ engine.pending ∨ (engine.queued.map (·.2)).count run.key = 1
  keyed : ∀ entry ∈ engine.taken, ∀ run ∈ entry.2, ∃ version event, run.key = .event version event

theorem mem_queueFor {event : EventEnvelope} {run : NewRun}
    (h : run ∈ engine.queueFor mayTrigger event) : ∃ version, run.key = .event version event.id := by
  unfold Engine.queueFor at h
  split at h
  · cases h
  split at h
  · cases h
  · obtain ⟨version, -, rfl⟩ := List.mem_map.mp h
    exact ⟨version.id, rfl⟩

/-- The version in the key of an event. -/
def RunKey.version : RunKey → AutomationVersionId
  | event version _ => version
  | schedule .. => 0

theorem nodup_queueFor (h : (engine.versions.map (·.id)).Nodup) (event : EventEnvelope) :
    ((engine.queueFor mayTrigger event).map (·.key)).Nodup := by
  unfold Engine.queueFor
  split
  · exact List.nodup_nil
  split
  · exact List.nodup_nil
  · refine List.Nodup.of_map RunKey.version ?_
    rw [List.map_map, List.map_map]
    exact (List.filter_sublist.map _).nodup h

namespace Intake

theorem send (h : Intake engine) (hrows : Rows.Of engine) (event : EventEnvelope)
    (hnew : event.id ∉ engine.known) (hposition : engine.position ≤ engine.sent.length) :
    Intake { engine with
      bus := engine.bus.send event
      sent := engine.sent ++ [event]
      known := engine.known ++ [event.id] } := by
  refine { h with fresh := fun i other hfrom hitem entry hentry version hkey => ?_, ofEvent := ?_ }
  · rcases Nat.lt_or_ge i engine.sent.length with hlt | hge
    · rw [List.getElem?_append_left hlt] at hitem
      exact h.fresh i other hfrom hitem entry hentry version hkey
    · have hmem : other ∈ [event] :=
        List.mem_of_getElem? ((List.getElem?_append_right hge).symm.trans hitem)
      rw [List.mem_singleton.mp hmem] at hkey
      exact hnew (hrows.keyed entry hentry version event.id hkey)
  · intro run hrun
    obtain ⟨version, i, other, hkey, hitem, hlt⟩ := h.ofEvent run hrun
    exact ⟨version, i, other, hkey,
      (List.getElem?_append_left (Nat.lt_of_lt_of_le hlt hposition)).trans hitem, hlt⟩

theorem take (h : Intake engine) (hnil : engine.pending = []) {live : Nat}
    {replayed : List EventEnvelope} {event : EventEnvelope}
    (hitem : engine.sent[engine.position]? = some event) :
    Intake (Engine.take mayTrigger { engine with live, replayed } event) where
  versions := h.versions
  fresh i other hfrom hother := h.fresh i other (Nat.le_of_succ_le hfrom) hother
  unique := nodup_queueFor h.versions event
  new run hrun hqueued := by
    obtain ⟨version, hkey⟩ := mem_queueFor hrun
    obtain ⟨entry, hentry, hsame⟩ := List.mem_map.mp hqueued
    exact h.fresh _ event (Nat.le_refl _) hitem entry hentry version (hsame.trans hkey)
  ofEvent run hrun := by
    obtain ⟨version, hkey⟩ := mem_queueFor hrun
    exact ⟨version, engine.position, event, hkey, hitem, Nat.lt_succ_self _⟩
  once entry hentry run hrun := by
    rcases List.mem_append.mp hentry with hentry | hentry
    · refine .inr ((h.once entry hentry run hrun).resolve_left fun hpending => ?_)
      rw [hnil] at hpending
      cases hpending
    · rw [List.mem_singleton.mp hentry] at hrun
      exact .inl hrun
  keyed entry hentry run hrun := by
    rcases List.mem_append.mp hentry with hentry | hentry
    · exact h.keyed entry hentry run hrun
    · rw [List.mem_singleton.mp hentry] at hrun
      exact (mem_queueFor hrun).imp fun _ hkey => ⟨event.id, hkey⟩

/-- The next run of the event in hand is queued. -/
theorem queue (h : Intake engine) (hhears : Hears engine) (hrows : Rows.Of engine)
    {pending : List NewRun} (hpending : engine.pending = input :: pending) :
    Intake ({ engine with pending }.queueRun input now) := by
  have hunique := h.unique
  have hnew := h.new
  have hofEvent := h.ofEvent
  rw [hpending] at hunique hnew hofEvent
  obtain ⟨hfirst, hrest⟩ := List.nodup_cons.mp hunique
  obtain ⟨hinput, hnew⟩ := List.forall_mem_cons.mp hnew
  obtain ⟨⟨version, i, event, hkey, hitem, hlt⟩, hofEvent⟩ := List.forall_mem_cons.mp hofEvent
  have htable : ¬engine.table.hasKey input.key := fun htaken => by
    obtain ⟨row, hrow, hsame⟩ := RunTable.hasKey_iff.mp htaken
    exact hinput (List.mem_map.mpr ⟨_, hrows.listed row hrow, hsame⟩)
  obtain ⟨-, htaken⟩ | ⟨-, heq⟩ := Engine.queueRun_eq { engine with pending } input now
  · exact absurd htaken htable
  rw [heq]
  have hqueued : (engine.queued ++ [(engine.table.nextId, input.key)]).map (·.2) =
      engine.queued.map (·.2) ++ [input.key] := List.map_append
  refine ⟨h.versions, fun j other hfrom hother entry hentry version' hsame => ?_, hrest,
    fun run hrun hmem => ?_, hofEvent, fun entry hentry run hrun => ?_, h.keyed⟩
  · rcases List.mem_append.mp hentry with hentry | hentry
    · exact h.fresh j other hfrom hother entry hentry version' hsame
    · rw [List.mem_singleton.mp hentry, hkey] at hsame
      have hid := (RunKey.event.inj hsame).2
      exact absurd hfrom (Nat.not_le_of_lt (hhears.sent_inj hitem hother hid ▸ hlt))
  · rw [hqueued, List.mem_append, List.mem_singleton] at hmem
    rcases hmem with hmem | hmem
    · exact hnew run hrun hmem
    · exact hfirst (List.mem_map.mpr ⟨run, hrun, hmem⟩)
  · rw [hqueued, List.count_append]
    rcases eq_or_ne run.key input.key with hsame | hother
    · right
      rw [hsame, List.count_eq_zero.mpr hinput, List.count_singleton_self]
    · rw [List.count_singleton, beq_eq_false_iff_ne.mpr hother.symm, if_neg Bool.false_ne_true]
      refine (h.once entry hentry run hrun).imp_left fun hmem => ?_
      rw [hpending] at hmem
      exact (List.mem_cons.mp hmem).resolve_left fun heq => hother (congrArg NewRun.key heq)

/-- A run of the clock is queued. -/
theorem queueDue (h : Intake engine) (automation : AutomationId) (version : AutomationVersionId)
    (slot : String) :
    Intake (engine.queueRun ⟨automation, version, none, .schedule automation slot⟩ now) := by
  obtain ⟨heq, -⟩ | ⟨-, heq⟩ :=
    engine.queueRun_eq ⟨automation, version, none, .schedule automation slot⟩ now
  · exact heq.symm ▸ h
  rw [heq]
  have hqueued (key : RunKey) (hkey : ∃ version event, key = .event version event) :
      ((engine.queued ++ [(engine.table.nextId, RunKey.schedule automation slot)]).map Prod.snd).count key =
        (engine.queued.map (·.2)).count key := by
    obtain ⟨_, _, rfl⟩ := hkey
    rw [List.map_append, List.count_append]
    rfl
  refine { h with fresh := ?_, new := ?_, once := ?_ }
  · intro i event hfrom hitem entry hentry version' hsame
    rcases List.mem_append.mp hentry with hentry | hentry
    · exact h.fresh i event hfrom hitem entry hentry version' hsame
    · rw [List.mem_singleton.mp hentry] at hsame
      cases hsame
  · intro run hrun
    obtain ⟨version', _, event, hkey, -⟩ := h.ofEvent run hrun
    rw [← List.count_eq_zero, hqueued _ ⟨version', event.id, hkey⟩, List.count_eq_zero]
    exact h.new run hrun
  · intro entry hentry run hrun
    rw [hqueued _ (h.keyed entry hentry run hrun)]
    exact h.once entry hentry run hrun

end Intake

/-! ### The runs that are worked on -/

/-- The runs of the sweep that are still to be worked on. -/
def Engine.inHand (engine : Engine) : List AutomationRunId :=
  (engine.executing.map (·.1.id)).toList ++ engine.sweeping.map (·.id)

structure InHand (engine : Engine) : Prop where
  unique : engine.inHand.Nodup
  going : ∀ id ∈ engine.inHand, id ∉ engine.ended ∧ id < engine.table.nextId

theorem Stays.map {table : RunTable} {queued : List (AutomationRunId × RunKey)}
    {ended ended' : List AutomationRunId} (h : Stays table queued ended) (f : Run → Run)
    (hid : ∀ run, (f run).id = run.id) (hended : ended ⊆ ended') :
    Stays { table with rows := table.rows.map f } queued ended' := by
  intro entry hentry
  rcases h entry hentry with hmem | ⟨run, hmem, hsame⟩
  · exact .inl (hended hmem)
  · exact .inr ⟨f run, List.mem_map_of_mem hmem, (hid run).trans hsame⟩

/-! ### Steps -/

structure Tracked (engine : Engine) : Prop where
  hears : Hears engine
  intake : Intake engine
  rows : Rows.Of engine
  inHand : InHand engine

/-- Nothing was passed over that need not be, and no run is gone that has not ended. -/
def Kept (engine : Engine) : Prop :=
  (∀ skipped ∈ engine.skipped, skipped.2 = false) ∧ Stays engine.table engine.queued engine.ended

theorem Tracked.delivered_iff (h : Tracked engine) : Delivered engine ↔ Kept engine :=
  ⟨fun hdelivered => ⟨hdelivered.notLost, hdelivered.stays⟩,
    fun hkept => ⟨h.hears.heard, hkept.1, h.intake.once, hkept.2⟩⟩

/-- The events that the next turn of the loop passes over. -/
def Engine.skips (mayTrigger : EventEnvelope → Bool) (engine : Engine) : List (EventEnvelope × Bool) :=
  match engine.bus.live.recv engine.live, engine.resumed with
  | (.lagged missed, _), none => if engine.replayed = [] then engine.passedOver mayTrigger missed else []
  | _, _ => []

/-- The loop passes over no event that it could have from the buffer and that an automation would
run for, and no trim deletes a run that has not ended. -/
def Engine.Keeps (mayTrigger : EventEnvelope → Bool) (engine : Engine) : EngineEvent → Prop
  | .receive => ∀ skipped ∈ engine.skips mayTrigger, skipped.2 = false
  | .queue now => ∀ run ∈ engine.pending.head?, ∀ row ∈ engine.table.trimmed run now,
      row.state.isFinished
  | .queueDue automation version slot now =>
    ∀ row ∈ engine.table.trimmed ⟨automation, version, none, .schedule automation slot⟩ now,
      row.state.isFinished
  | _ => True

theorem Kept.queueRun (hkept : Kept engine) (hrows : Rows.Of engine) :
    Kept (engine.queueRun input now) ↔
      ∀ row ∈ engine.table.trimmed input now, row.state.isFinished := by
  have hskipped : (engine.queueRun input now).skipped = engine.skipped := by
    obtain ⟨heq, -⟩ | ⟨-, heq⟩ := engine.queueRun_eq input now <;> rw [heq]
  rw [Kept, hskipped, hrows.stays_queueRun hkept.2]
  exact and_iff_right hkept.1

theorem Kept.record (hkept : Kept engine) (run : Run) (state : RunState) (actionIndex attempt : Nat)
    (nextAttemptAt : Option Instant) (message : Option String) :
    Kept (engine.record run state actionIndex attempt nextAttemptAt message) := by
  refine ⟨hkept.1, hkept.2.map _ (fun run => by split <;> rfl) ?_⟩
  change engine.ended ⊆ if state.isFinished then engine.ended ++ [run.id] else engine.ended
  split
  · exact List.subset_append_left ..
  · exact List.Subset.refl _

theorem Kept.advance (hkept : Kept engine) (run : Run) (sweeping : List Run) (actions : Option Nat) :
    Kept (Engine.advance { engine with sweeping } run actions) := by
  have hrecord := @Kept.record { engine with sweeping } hkept run
  cases actions with
  | none => exact hrecord ..
  | some actions =>
    rw [Engine.advance]
    split
    · exact hrecord .running ..
    · exact hrecord ..

theorem Kept.executed (hkept : Kept engine) (run : Run) (actions : Nat)
    (failure : Option (String × (Nat → Int))) (now : Instant) :
    Kept (Engine.executed { engine with executing := none } run actions now failure) := by
  have hrecord := @Kept.record { engine with executing := none } hkept run
  cases failure with
  | none => exact hrecord ..
  | some failure => exact hrecord ..

namespace Tracked

/-- The outcome of an attempt of a run that was in hand. -/
theorem record (h : Tracked engine) {run : Run} {rest : List AutomationRunId}
    (hhand : engine.inHand = run.id :: rest) {before : Engine}
    (hhears : Hears before) (hintake : Intake before) (hrows : Rows.Of before)
    (hended : before.ended = engine.ended) (htable : before.table = engine.table)
    (hbefore : before.inHand = rest) (state : RunState) (actionIndex attempt : Nat)
    (nextAttemptAt : Option Instant) (message : Option String) :
    Tracked (before.record run state actionIndex attempt nextAttemptAt message) := by
  obtain ⟨hunique, hgoing⟩ := h.inHand
  rw [hhand] at hunique hgoing
  obtain ⟨⟨hnotEnded, hgiven⟩, hrest⟩ := List.forall_mem_cons.mp hgoing
  refine ⟨{ hhears with }, { hintake with },
    hrows.record (hended ▸ hnotEnded) (htable ▸ hgiven) .., ⟨?_, fun id hid => ?_⟩⟩
  · exact (hbefore ▸ (List.nodup_cons.mp hunique).2 : before.inHand.Nodup)
  · have hmem : id ∈ rest := hbefore ▸ (hid : id ∈ before.inHand)
    have hid : id < before.table.nextId := htable ▸ (hrest id hmem).2
    refine ⟨?_, hid⟩
    change id ∉ if state.isFinished then before.ended ++ [run.id] else before.ended
    rw [hended]
    split
    · rw [List.mem_append, List.mem_singleton, not_or]
      exact ⟨(hrest id hmem).1, fun heq => (List.nodup_cons.mp hunique).1 (heq ▸ hmem)⟩
    · exact (hrest id hmem).1

/-- The action of the next run of a sweep is executed. -/
theorem execute (h : Tracked engine) {run : Run} {sweeping : List Run}
    (hsweeping : engine.sweeping = run :: sweeping) (hexecuting : engine.executing = none)
    (actions : Nat) :
    Tracked { Engine.record { engine with sweeping } run .running run.actionIndex run.attempt none
      none with executing := some (run, actions) } := by
  have hhand : engine.inHand = run.id :: sweeping.map (·.id) := by
    rw [Engine.inHand, hsweeping, hexecuting]
    rfl
  obtain ⟨hunique, hgoing⟩ := h.inHand
  rw [hhand] at hunique hgoing
  obtain ⟨hnotEnded, hgiven⟩ := hgoing run.id (List.mem_cons_self ..)
  exact ⟨{ h.hears with }, { h.intake with }, h.rows.record hnotEnded hgiven .running .., hunique,
    hgoing⟩

theorem advance (h : Tracked engine) {run : Run} {sweeping : List Run}
    (hsweeping : engine.sweeping = run :: sweeping) (hexecuting : engine.executing = none)
    (actions : Option Nat) : Tracked (Engine.advance { engine with sweeping } run actions) := by
  have hhand : engine.inHand = run.id :: sweeping.map (·.id) := by
    rw [Engine.inHand, hsweeping, hexecuting]
    rfl
  have hhears : Hears { engine with sweeping } := { h.hears with }
  have hrecord := h.record hhand hhears { h.intake with } h.rows rfl rfl
    (by rw [Engine.inHand, hexecuting]; rfl)
  cases actions with
  | none => exact hrecord ..
  | some actions =>
    rw [Engine.advance]
    split
    · exact h.execute hsweeping hexecuting actions
    · exact hrecord ..

theorem executed (h : Tracked engine) {run : Run} {actions : Nat}
    (hexecuting : engine.executing = some (run, actions))
    (failure : Option (String × (Nat → Int))) (now : Instant) :
    Tracked (Engine.executed { engine with executing := none } run actions now failure) := by
  have hhand : engine.inHand = run.id :: engine.sweeping.map (·.id) := by
    rw [Engine.inHand, hexecuting]
    rfl
  have hhears : Hears { engine with executing := none } := { h.hears with }
  have hrecord := h.record hhand hhears { h.intake with } h.rows rfl rfl rfl
  cases failure with
  | none => exact hrecord ..
  | some failure => exact hrecord ..

theorem sweep (h : Tracked engine) (hexecuting : engine.executing = none) (now : Instant) :
    Tracked { engine with sweeping := engine.table.dueRuns now } := by
  have hdue : ∀ run ∈ engine.table.dueRuns now, run ∈ engine.table.rows ∧
      run.state.isFinished = false := by
    intro run hmem
    obtain ⟨hmem, hstate⟩ := List.mem_filter.mp ((List.mem_insertionSort _).mp hmem)
    refine ⟨hmem, ?_⟩
    rcases of_decide_eq_true hstate with hstate | ⟨hstate, -⟩
    · rw [hstate]
      rfl
    · rw [hstate]
      rfl
  have hhand : Engine.inHand { engine with sweeping := engine.table.dueRuns now } =
      (engine.table.dueRuns now).map (·.id) := by
    rw [Engine.inHand, hexecuting]
    rfl
  refine ⟨{ h.hears with }, { h.intake with }, h.rows, ?_, fun id hid => ?_⟩
  · rw [hhand]
    exact ((List.perm_insertionSort _ _).map _).nodup_iff.mpr
      ((List.filter_sublist.map _).nodup h.rows.sound.uniqueId)
  · rw [hhand] at hid
    obtain ⟨run, hmem, rfl⟩ := List.mem_map.mp hid
    obtain ⟨hrow, hgoing⟩ := hdue run hmem
    refine ⟨fun hended => ?_, h.rows.sound.given run hrow⟩
    cases hgoing.symm.trans ((h.rows.finished run hrow).mp hended)

/-- A run is queued. -/
theorem queueRun (hhears : Hears engine) (hrows : Rows.Of engine) (hhand : InHand engine)
    (hintake : Intake (engine.queueRun input now))
    (hkey : ∀ version event, input.key = .event version event → event ∈ engine.known) :
    Tracked (engine.queueRun input now) := by
  refine ⟨?_, hintake, hrows.queueRun hkey, ?_⟩
  · obtain ⟨heq, -⟩ | ⟨-, heq⟩ := engine.queueRun_eq input now
    · exact heq.symm ▸ hhears
    · exact heq.symm ▸ { hhears with }
  · obtain ⟨heq, -⟩ | ⟨-, heq⟩ := engine.queueRun_eq input now
    · exact heq.symm ▸ hhand
    · rw [heq]
      exact ⟨hhand.unique, fun id hid =>
        ⟨(hhand.going id hid).1, Nat.lt_succ_of_lt (hhand.going id hid).2⟩⟩

/-- What one turn of the loop does. -/
theorem receive (h : Tracked engine) (hstep : engine.receive mayTrigger = some after) :
    Tracked after ∧ after.skipped = engine.skipped ++ engine.skips mayTrigger ∧
      after.table = engine.table ∧ after.queued = engine.queued ∧ after.ended = engine.ended := by
  unfold Engine.receive at hstep
  split at hstep
  · cases hstep
  next hready =>
    rw [not_or, not_not, not_not] at hready
    obtain ⟨hwatching, hpending⟩ := hready
    have hwatching : engine.phase ≠ .down := hwatching ▸ nofun
    unfold Engine.skips
    cases hreplayed : engine.replayed with
    | cons event replayed =>
      rw [hreplayed] at hstep
      obtain rfl := Option.some.inj hstep
      obtain ⟨hitem, hholds⟩ := @Follower.Holds.turn_replayed _ engine.reader _ h.hears.holds _ _ hreplayed
      refine ⟨⟨h.hears.take hwatching hitem hholds, h.intake.take hpending hitem, h.rows,
        ⟨h.inHand.unique, h.inHand.going⟩⟩, ?_, rfl, rfl, rfl⟩
      split
      · rw [if_neg (List.cons_ne_nil _ _), List.append_nil]
        rfl
      · exact (List.append_nil _).symm
    | nil =>
      rw [hreplayed] at hstep
      have hposition : engine.position = engine.live := h.hears.holds.position_eq hreplayed
      have hrecv := h.hears.records.live.recv
        (hposition ▸ h.hears.position_le : engine.live ≤ engine.sent.length)
      cases hreceipt : engine.bus.live.recv engine.live with
      | mk receipt live =>
      rw [hreceipt] at hstep hrecv
      cases receipt with
      | got event =>
        obtain rfl := Option.some.inj hstep
        obtain ⟨hitem, rfl⟩ := hrecv
        rw [← hposition] at hitem
        obtain ⟨hlt, -⟩ := List.getElem?_eq_some_iff.mp hitem
        have hholds : (⟨engine.live + 1, engine.live + 1, [], false⟩ : Follower).Holds engine.sent
            (engine.position + 1) := by
          refine ⟨Nat.le_of_eq (congrArg (· + 1) hposition), hposition ▸ hlt, ?_, fun _ => rfl,
            fun h => nomatch h⟩
          dsimp only
          rw [hposition, Nat.sub_self, List.take_zero]
        exact ⟨⟨h.hears.take hwatching hitem hholds, h.intake.take hpending hitem, h.rows,
          ⟨h.inHand.unique, h.inHand.going⟩⟩, (List.append_nil _).symm, rfl, rfl, rfl⟩
      | lagged missed =>
        cases hresumed : engine.resumed with
        | some resumed =>
          obtain ⟨replayed, live'⟩ := resumed
          dsimp only at hstep
          rw [hresumed] at hstep
          obtain rfl := Option.some.inj hstep
          exact ⟨⟨h.hears.resume hwatching hresumed, { h.intake with }, h.rows,
            ⟨h.inHand.unique, h.inHand.going⟩⟩, (List.append_nil _).symm, rfl, rfl, rfl⟩
        | none =>
          dsimp only at hstep
          rw [hresumed] at hstep
          obtain rfl := Option.some.inj hstep
          have hpassed := @Hears.passOver mayTrigger _ h.hears hwatching _ _ hreplayed hresumed hreceipt
          rw [hreplayed] at hpassed
          refine ⟨⟨hpassed, ?_, h.rows, ⟨h.inHand.unique, h.inHand.going⟩⟩, rfl, rfl, rfl, rfl⟩
          exact { h.intake with
            fresh := fun i event hfrom => h.intake.fresh i event (Nat.le_of_add_right_le hfrom)
            ofEvent := fun run hrun =>
              have ⟨version, i, event, hkey, hitem, hlt⟩ := h.intake.ofEvent run hrun
              ⟨version, i, event, hkey, hitem, Nat.lt_add_right _ hlt⟩ }
      | empty => cases hstep

theorem step {maxEvents maxBytes : Nat} {event : EngineEvent} (h : Tracked engine)
    (hstep : engine.step mayTrigger maxEvents maxBytes event = some after) :
    Tracked after ∧ (Kept engine → (Kept after ↔ engine.Keeps mayTrigger event)) := by
  cases event with
  | send event =>
    dsimp only [Engine.step] at hstep
    split at hstep
    · cases hstep
    next hnew =>
      obtain rfl := Option.some.inj hstep
      refine ⟨⟨h.hears.send event hnew, h.intake.send h.rows event hnew h.hears.position_le,
        { h.rows with keyed := ?_ }, ⟨h.inHand.unique, h.inHand.going⟩⟩,
        fun hkept => iff_of_true hkept trivial⟩
      intro entry hentry version event' hkey
      exact List.mem_append_left _ (h.rows.keyed entry hentry version event' hkey)
  | configure versions classify =>
    dsimp only [Engine.step] at hstep
    split at hstep
    next hunique =>
      obtain rfl := Option.some.inj hstep
      exact ⟨⟨{ h.hears with }, { h.intake with versions := hunique }, h.rows,
        ⟨h.inHand.unique, h.inHand.going⟩⟩, fun hkept => iff_of_true hkept trivial⟩
    · cases hstep
  | start =>
    dsimp only [Engine.step] at hstep
    split at hstep
    next hdown =>
      obtain rfl := Option.some.inj hstep
      obtain ⟨-, -, hpending, htaken, -⟩ := h.hears.down hdown
      refine ⟨⟨h.hears.start hdown, { h.intake with
        fresh := fun i event hfrom => h.intake.fresh i event (Nat.le_trans h.hears.position_le hfrom)
        ofEvent := ?_ }, h.rows, ⟨h.inHand.unique, h.inHand.going⟩⟩,
        fun hkept => iff_of_true hkept trivial⟩
      intro run hrun
      rw [hpending] at hrun
      cases hrun
    · cases hstep
  | recover =>
    dsimp only [Engine.step] at hstep
    split at hstep
    · obtain rfl := Option.some.inj hstep
      refine ⟨⟨{ h.hears with down := fun hdown => nomatch hdown }, { h.intake with }, h.rows.recover,
        ⟨h.inHand.unique, h.inHand.going⟩⟩, fun hkept => iff_of_true ⟨hkept.1, ?_⟩ trivial⟩
      exact hkept.2.map _ (fun run => by split <;> rfl) (List.Subset.refl _)
    · cases hstep
  | receive =>
    obtain ⟨hafter, hskipped, htable, hqueued, hended⟩ := h.receive hstep
    refine ⟨hafter, fun hkept => ?_⟩
    rw [Kept, hskipped, htable, hqueued, hended, List.forall_mem_append]
    exact ⟨fun hnext => hnext.1.2, fun hkeeps => ⟨⟨hkept.1, hkeeps⟩, hkept.2⟩⟩
  | queue now =>
    dsimp only [Engine.step] at hstep
    split at hstep
    next run pending hpending =>
      obtain rfl := Option.some.inj hstep
      have hhears : Hears { engine with pending } := { h.hears with
        down := fun hdown => (nomatch hpending.symm.trans (h.hears.down hdown).2.2.1) }
      refine ⟨.queueRun hhears h.rows ⟨h.inHand.unique, h.inHand.going⟩
        (h.intake.queue h.hears h.rows hpending) ?_, fun hkept => ?_⟩
      · intro version id hid
        obtain ⟨_, i, event, hkey, hitem, -⟩ :=
          h.intake.ofEvent run (hpending ▸ List.mem_cons_self ..)
        obtain ⟨-, rfl⟩ := RunKey.event.inj (hkey.symm.trans hid)
        exact h.hears.known event (List.mem_of_getElem? hitem)
      · rw [@Kept.queueRun { engine with pending } run now hkept h.rows, Engine.Keeps, hpending]
        exact ⟨fun htrimmed run' hrun => Option.mem_some_iff.mp hrun ▸ htrimmed,
          fun hkeeps => hkeeps run rfl⟩
    · cases hstep
  | queueDue automation version slot now =>
    obtain rfl := Option.some.inj hstep
    exact ⟨.queueRun h.hears h.rows h.inHand (h.intake.queueDue automation version slot)
      (fun _ _ hkey => (nomatch hkey)), fun hkept => hkept.queueRun h.rows⟩
  | sweep now =>
    dsimp only [Engine.step] at hstep
    split at hstep
    next hready =>
      obtain rfl := Option.some.inj hstep
      exact ⟨h.sweep hready.2.1 now, fun hkept => iff_of_true hkept trivial⟩
    · cases hstep
  | advance actions =>
    dsimp only [Engine.step] at hstep
    split at hstep
    next hsweeping hexecuting =>
      obtain rfl := Option.some.inj hstep
      refine ⟨h.advance hsweeping hexecuting actions, fun hkept => iff_of_true ?_ trivial⟩
      exact Kept.advance hkept ..
    · cases hstep
  | executed failure now =>
    dsimp only [Engine.step] at hstep
    split at hstep
    next hexecuting =>
      obtain rfl := Option.some.inj hstep
      refine ⟨h.executed hexecuting failure now, fun hkept => iff_of_true ?_ trivial⟩
      exact Kept.executed hkept ..
    · cases hstep
  | restart =>
    obtain rfl := Option.some.inj hstep
    refine ⟨⟨.restart engine maxEvents maxBytes, ⟨h.intake.versions, ?_, List.nodup_nil,
      List.forall_mem_nil _, List.forall_mem_nil _, List.forall_mem_nil _, List.forall_mem_nil _⟩,
      h.rows, ⟨List.nodup_nil, List.forall_mem_nil _⟩⟩,
      fun hkept => iff_of_true ⟨List.forall_mem_nil _, hkept.2⟩ trivial⟩
    intro _ _ _ hitem
    cases hitem

end Tracked

/-! ### Whole runs -/

theorem Tracked.of_initial {maxEvents maxBytes : Nat} (h : engine.Initial maxEvents maxBytes) :
    Tracked engine ∧ Delivered engine := by
  obtain ⟨htable, hversions, hprocess, hknown⟩ := h
  have hrows : Rows.Of engine := by
    rw [hprocess]
    refine ⟨htable, fun run hmem => List.mem_map_of_mem hmem, fun entry hentry version event hkey => ?_,
      fun run hmem => ?_, fun id hid => ?_⟩
    · obtain ⟨run, hmem, rfl⟩ := List.mem_map.mp hentry
      exact hknown run hmem version event hkey
    · refine ⟨fun hid => ?_, fun hfinished =>
        List.mem_map_of_mem (List.mem_filter.mpr ⟨hmem, hfinished⟩)⟩
      obtain ⟨other, hother, hsame⟩ := List.mem_map.mp hid
      obtain ⟨hother, hfinished⟩ := List.mem_filter.mp hother
      exact List.inj_on_of_nodup_map htable.uniqueId hother hmem hsame ▸ hfinished
    · obtain ⟨run, hmem, rfl⟩ := List.mem_map.mp hid
      exact htable.given run (List.mem_of_mem_filter hmem)
  have hstays : Stays engine.table engine.queued engine.ended := by
    rw [hprocess]
    intro entry hentry
    obtain ⟨run, hmem, rfl⟩ := List.mem_map.mp hentry
    exact .inr ⟨run, hmem, rfl⟩
  have htracked : Tracked engine := by
    refine ⟨?_, ?_, hrows, ?_⟩
    · rw [hprocess]
      exact { Hears.restart engine maxEvents maxBytes with }
    · rw [hprocess]
      exact ⟨hversions, fun _ _ _ hitem => (nomatch hitem), List.nodup_nil, List.forall_mem_nil _,
        List.forall_mem_nil _, List.forall_mem_nil _, List.forall_mem_nil _⟩
    · rw [hprocess]
      exact ⟨List.nodup_nil, List.forall_mem_nil _⟩
  refine ⟨htracked, htracked.delivered_iff.mpr ⟨?_, hstays⟩⟩
  rw [hprocess]
  exact List.forall_mem_nil _

/-- No trigger is lost or doubled along any run. -/
def AlwaysDelivered (mayTrigger : EventEnvelope → Bool) (maxEvents maxBytes : Nat) : Prop :=
  ∀ engine : Engine, engine.Initial maxEvents maxBytes → ∀ events,
    (Engine.machine mayTrigger maxEvents maxBytes).Always Delivered engine events

/-- A run of an automation that is to be worked on since a second of its own. -/
def waitingRun (second : Nat) : Run where
  automationId := 1
  versionId := 1
  packageId := none
  key := .event 1 second
  id := second
  startedAt := second * 1000

/-- As many runs wait as are kept of an automation. -/
def fullBacklog : Engine where
  bus := .bounded 4096 8388608
  table := { rows := (List.range 200).map waitingRun, nextId := 200 }
  queued := (List.range 200).map fun second => (second, .event 1 second)
  known := List.range 200

theorem fullBacklog_initial : fullBacklog.Initial 4096 8388608 := by
  have hids : fullBacklog.table.rows.map (·.id) = List.range 200 :=
    List.map_map.trans (List.map_id _)
  have hqueued : fullBacklog.queued = fullBacklog.table.rows.map fun run => (run.id, run.key) := by
    change _ = ((List.range 200).map waitingRun).map _
    rw [List.map_map]
    rfl
  have hended : (fullBacklog.table.rows.filter (·.state.isFinished)).map (·.id) = [] := by decide
  refine ⟨⟨hids ▸ List.nodup_range, ?_, fun run hmem => ?_⟩, List.nodup_nil, ?_,
    fun run hmem version event hkey => ?_⟩
  · exact List.map_map.symm ▸ (List.nodup_range.map fun _ _ h => (RunKey.event.inj h).2)
  · exact List.mem_range.mp (hids ▸ List.mem_map_of_mem hmem)
  · rw [hended, ← hqueued]
    rfl
  · obtain ⟨second, hsecond, rfl⟩ := List.mem_map.mp hmem
    exact (RunKey.event.inj hkey).2 ▸ hsecond

/-- One more event of the automation. -/
def backlogEvents : List EngineEvent :=
  [.start, .recover,
    .configure [⟨1, 1, .downloadCompleted, fun _ => true, false⟩]
      fun _ => some ⟨[.downloadCompleted], {}, none⟩,
    .send ⟨200, []⟩, .receive, .queue 200000]

theorem full_backlog_trims : ¬AlwaysDelivered (fun _ => true) 4096 8388608 := by
  intro h
  have hrun : ((Engine.machine (fun _ => true) 4096 8388608).run fullBacklog backlogEvents).map
      (fun engine => (engine.queued.head?, engine.ended, engine.table.rows.any (·.id = 0))) =
      some (some (0, .event 1 0), [], false) := by decide +kernel
  obtain ⟨last, hlast, hfacts⟩ := Option.map_eq_some_iff.mp hrun
  obtain ⟨hqueued, hfacts⟩ := Prod.mk.inj hfacts
  obtain ⟨hended, hrows⟩ := Prod.mk.inj hfacts
  have hdelivered := (h fullBacklog fullBacklog_initial backlogEvents).of_run hlast
  rcases hdelivered.stays _ (List.mem_of_head? hqueued) with hmem | ⟨run, hmem, hid⟩
  · rw [hended] at hmem
    cases hmem
  · exact List.any_eq_false.mp hrows run hmem (decide_eq_true hid)

/-- No trigger is lost or doubled along a run exactly when the loop passes over no event that the
buffer still holds and an automation would run for, and no trim deletes a run that has not ended. -/
theorem always_delivered_iff {maxEvents maxBytes : Nat} (h : engine.Initial maxEvents maxBytes)
    (events : List EngineEvent) :
    (Engine.machine mayTrigger maxEvents maxBytes).Always Delivered engine events ↔
      (Engine.machine mayTrigger maxEvents maxBytes).Within (Engine.Keeps mayTrigger) engine events := by
  obtain ⟨htracked, hdelivered⟩ := Tracked.of_initial h
  refine @Machine.always_iff _ _ _ _ Tracked Delivered (fun _ _ _ h hstep => (h.step hstep).1)
    (fun _ _ _ h hdelivered hstep => ?_) _ htracked hdelivered events
  obtain ⟨hafter, hkept⟩ := h.step hstep
  rw [hafter.delivered_iff]
  exact hkept (h.delivered_iff.mp hdelivered)

theorem full_backlog_worked_off :
    (Engine.machine (fun _ => true) 4096 8388608).Always Delivered fullBacklog
      [.start, .recover, .sweep 200000] :=
  (always_delivered_iff fullBacklog_initial _).mpr
    (.cons trivial rfl (.cons trivial rfl (.cons trivial rfl trivial)))

end Automation

end RDownloader
