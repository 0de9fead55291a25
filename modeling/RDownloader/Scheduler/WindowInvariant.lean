import RDownloader.Scheduler.DownloadWindow

/-!
# The download window keeps its record

The record, the supervisor's lists and the pauses that are in force, after every step.
-/

namespace RDownloader

variable {announced : PackageId → Bool} {redact : String → String}
  {host : String → Option String} {id other : DownloadId}

/-! ## One pause, one resume -/

theorem DownloadTable.wrote_of_pause (announced : PackageId → Bool) (table : DownloadTable)
    (id : DownloadId) :
    (table.pause announced id).2 = table ∨
      ∃ row, table.row? id = some row ∧
        Wrote announced table id (setState .paused none) (table.pause announced id).2 := by
  rw [DownloadTable.pause]
  cases hrow : table.row? id with
  | none => exact .inl rfl
  | some row =>
    dsimp only
    split
    · cases hmoved : table.transition announced id .paused with
      | error refusal => exact .inl rfl
      | ok next =>
        obtain ⟨-, -, -, hwrote⟩ := wrote_of_transition hmoved
        exact .inr ⟨row, rfl, hwrote⟩
    · exact .inl rfl

/-- What a pause does to the queue. -/
structure Scheduler.Pauses (announced : PackageId → Bool) (scheduler : Scheduler) (id : DownloadId)
    (next : Scheduler) : Prop where
  tokens : ∀ other, (next.active.tokens other).isSome = (scheduler.active.tokens other).isSome
  others : ∀ other, other ≠ id → next.active.reasons other = scheduler.active.reasons other
  reason : (scheduler.active.tokens id).isSome → next.active.reasons id = some .paused
  table : next.table = scheduler.table ∨
    scheduler.active.tokens id = none ∧ ∃ row, scheduler.table.row? id = some row ∧
      DownloadTable.Wrote announced scheduler.table id (DownloadTable.setState .paused none)
        next.table

theorem Scheduler.pauses (announced : PackageId → Bool) (scheduler : Scheduler) (id : DownloadId) :
    scheduler.Pauses announced id (scheduler.pause announced id).2 := by
  rw [Scheduler.pause]
  have hinserted : (scheduler.active.insertReason id .paused).tokens = scheduler.active.tokens := rfl
  dsimp only
  rw [hinserted]
  cases htoken : scheduler.active.tokens id with
  | some token =>
    refine ⟨fun other => ?_, fun other hne => if_neg hne, fun _ => if_pos rfl, .inl rfl⟩
    by_cases hid : other = id <;>
      simp [ActiveState.cancelToken, ActiveState.insertReason, hid]
  | none =>
    refine ⟨fun other => rfl, fun other hne => ?_, fun h => ?_, ?_⟩
    · exact (if_neg fun h => hne h.1).trans (if_neg hne)
    · rw [htoken] at h
      cases h
    · exact (scheduler.table.wrote_of_pause announced id).imp_right fun h => ⟨htoken, h⟩

/-- What a resume does to the queue. -/
structure Scheduler.Resumes (announced : PackageId → Bool) (scheduler : Scheduler)
    (id : DownloadId) (next : Scheduler) : Prop where
  tokens : next.active.tokens = scheduler.active.tokens
  reasons : ∀ other, (scheduler.active.tokens other).isSome →
    next.active.reasons other = scheduler.active.reasons other
  table : next.table = scheduler.table ∨ ∃ row, scheduler.table.row? id = some row ∧
    row.state.canTransitionTo .queued ∧
    DownloadTable.Wrote announced scheduler.table id (DownloadTable.setState .queued none) next.table
  paused : scheduler.table.paused id → scheduler.active.isHeld id = false →
    next.table.paused id = false

/-- A resume of a row that nothing has stopped since it was paused is one transition. -/
theorem DownloadTable.resume_of_calm {table : DownloadTable}
    (hcalm : ∀ row, table.row? id = some row → row.Calm) :
    (table.resume announced id).2 =
      match table.transition announced id .queued with
      | .error _ => table
      | .ok next => next := by
  have hstand : table.standDownSiblingsOf announced id = (.ok (), table) := by
    rw [standDownSiblingsOf]
    cases hrow : table.row? id with
    | none => rfl
    | some row =>
      refine if_pos (.inr fun hskipped => ?_)
      have hstopped := (hcalm row hrow).state
      rw [hskipped] at hstopped
      cases hstopped
  have hfailed : (table.row? id).any (·.state = .failed) = false := by
    cases hrow : table.row? id with
    | none => rfl
    | some row =>
      refine decide_eq_false fun hfailed => ?_
      have hstopped := (hcalm row hrow).state
      rw [hfailed] at hstopped
      cases hstopped
  simp only [DownloadTable.resume, hstand, hfailed, Bool.false_eq_true, if_false]
  cases table.transition announced id .queued <;> rfl

theorem Scheduler.resumes {scheduler : Scheduler}
    (hcalm : ∀ row, scheduler.table.row? id = some row → row.Calm) :
    scheduler.Resumes announced id (scheduler.resume announced id).2 := by
  rw [Scheduler.resume]
  by_cases hheld : scheduler.active.isHeld id
  · rw [if_pos hheld]
    exact ⟨rfl, fun _ _ => rfl, .inl rfl, fun _ hfree => absurd hheld (Bool.eq_false_iff.mp hfree)⟩
  · rw [if_neg hheld]
    have hreasons : ∀ other, (scheduler.active.tokens other).isSome →
        (scheduler.active.releaseStopGuard id).reasons other = scheduler.active.reasons other := by
      intro other htoken
      refine if_neg fun h => ?_
      rw [← h.1, Option.isNone_iff_eq_none] at h
      rw [h.2] at htoken
      cases htoken
    have hresume := @DownloadTable.resume_of_calm announced id _ hcalm
    refine ⟨rfl, hreasons, ?_, fun hpaused _ => ?_⟩
    · cases hmoved : scheduler.table.transition announced id .queued with
      | error refusal =>
        rw [hmoved] at hresume
        exact .inl hresume
      | ok next =>
        rw [hmoved] at hresume
        obtain ⟨row, hrow, hmove, hwrote⟩ := DownloadTable.wrote_of_transition hmoved
        refine .inr ⟨row, hrow, hmove, ?_⟩
        change DownloadTable.Wrote announced scheduler.table id _
          (scheduler.table.resume announced id).2
        rw [hresume]
        exact hwrote
    · obtain ⟨row, hrow, hstate⟩ := DownloadTable.paused_eq_true.mp hpaused
      have hmove : row.state.canTransitionTo .queued := by rw [hstate]; rfl
      obtain ⟨next, hmoved⟩ := @DownloadTable.transition_of_canTransition scheduler.table id
        announced row .queued none hrow hmove
      have hmoved : scheduler.table.transition announced id .queued = .ok next := hmoved
      rw [hmoved] at hresume
      obtain ⟨-, -, -, hwrote⟩ := DownloadTable.wrote_of_transition hmoved
      have hqueued := hwrote.row?_self hrow rfl
      change (scheduler.table.resume announced id).2.paused id = false
      rw [hresume, DownloadTable.paused, hqueued]
      rfl

/-! ## Reasons of running attempts -/

namespace Queue

variable {queue next : Queue} {event : QueueEvent}

/-- A running attempt keeps the reason it is to stop for until another is given. -/
structure Steady (queue : Queue) (event : QueueEvent) (next : Queue) : Prop where
  manned : next.Manned
  reasons : ∀ id, (queue.attempts id).isSome → (next.attempts id).isSome →
    (∀ reason, event ≠ .request id reason) →
    next.active.reasons id = queue.active.reasons id

theorem Manned.attemptStep {event : AttemptEvent} {attempt : FileAttempt} (h : queue.Manned)
    (hattempt : queue.attempts id = some attempt)
    (hstep : queue.attemptStep announced redact host id attempt event = some next) :
    queue.Steady (.attempt id event) next := by
  by_cases hleave : event = .leave
  · subst hleave
    obtain ⟨file, phase, ended⟩ := attempt
    cases phase with
    | finished =>
      cases hstep
      refine ⟨h.leave id, fun other _ hruns _ => ?_⟩
      by_cases hid : other = id
      · simp [setWanted, setAttempt, hid] at hruns
      · simp [setWanted, setAttempt, ActiveState.giveBack, hid]
    | _ => cases hstep
  · obtain ⟨target, -, hframed⟩ := attemptStep_framed hleave hstep
    exact ⟨h.framed hattempt hframed, fun other _ _ _ => by rw [hframed.active]⟩

theorem Manned.step (h : queue.Manned)
    (hstep : queue.step announced redact host event = some next) : queue.Steady event next := by
  cases event with
  | claim file =>
    have hstep : (if queue.shutdown ∨ queue.active.untouchable file.id ∨
        ¬ (file.state = .queued ∨ file.state = .retryWait) then none
      else some (Queue.setAttempt { queue with active := queue.active.startToken file.id } file.id
        (some { file, phase := .claimed }))) = some next := hstep
    split at hstep
    · cases hstep
    · cases hstep
      exact ⟨h.claim file, fun _ _ _ _ => rfl⟩
  | attempt id event =>
    rw [Queue.step] at hstep
    split at hstep
    · next attempt hattempt => exact h.attemptStep hattempt hstep
    · cases hstep
  | request id reason =>
    have hstep : (if (queue.active.tokens id).isSome then
        some (Queue.setWanted
          { queue with active := (queue.active.insertReason id reason).cancelToken id } id
          (some reason))
      else some { queue with active := (queue.active.insertReason id reason).cancelToken id }) =
        some next := hstep
    have htokens other := isSome_tokens_asked queue.active id other reason
    have hreasons : ∀ other, (∀ asked, QueueEvent.request id reason ≠ .request other asked) →
        ((queue.active.insertReason id reason).cancelToken id).reasons other =
          queue.active.reasons other := by
      refine fun other hother => if_neg ?_
      rintro rfl
      exact hother reason rfl
    split at hstep <;> cases hstep <;>
      exact ⟨fun other => (htokens other).trans (h other), fun other _ _ => hreasons other⟩
  | release id =>
    cases hstep
    refine ⟨h, fun other hruns _ _ => if_neg fun hidle => ?_⟩
    obtain ⟨rfl, hidle⟩ := hidle
    rw [← h other, ← Option.not_isNone, hidle] at hruns
    cases hruns
  | hold id =>
    have hstep : (if (queue.active.tokens id).isSome then none
      else some { queue with active := queue.active.takeHold id }) = some next := hstep
    split at hstep
    · cases hstep
    · cases hstep
      exact ⟨h, fun _ _ _ _ => rfl⟩
  | letGo id =>
    cases hstep
    exact ⟨h, fun _ _ _ _ => rfl⟩
  | write id state cause =>
    rw [Queue.step] at hstep
    split at hstep <;> cases hstep <;> exact ⟨h, fun _ _ _ _ => rfl⟩
  | retry id autoRetry =>
    rw [Queue.step] at hstep
    split at hstep <;> cases hstep <;> exact ⟨h, fun _ _ _ _ => rfl⟩
  | resume id =>
    rw [Queue.step] at hstep
    split at hstep <;> cases hstep <;> exact ⟨h, fun _ _ _ _ => rfl⟩
  | shutDown =>
    cases hstep
    exact ⟨fun other => Option.isSome_map.trans (h other), fun _ _ _ _ => rfl⟩

end Queue

/-! ## The invariant -/

namespace WindowRun

variable {run next : WindowRun} {before after : Queue} {asked : DownloadId → Option Pauser}
  {kindOf : DownloadId → DownloadKind} {ignoresRanges : String → Bool}

theorem settlePauser_some {p : Pauser} (h : settlePauser before after asked id = some p) :
    after.table.paused id ∨ after.working id ∧ (after.attempts id).isSome := by
  rw [settlePauser] at h
  split at h
  · next hpaused => exact .inl hpaused
  · split at h
    · cases h
    · split at h
      · next hruns => exact .inr (Bool.and_eq_true_iff.mp hruns)
      · cases h

/-- A pause of the window after a step is one it has asked for. -/
theorem settlePauser_window (h : settlePauser before after asked id = some .window) :
    asked id = some .window ∧ (before.table.paused id → after.table.paused id) := by
  rw [settlePauser] at h
  split at h
  · next hpaused =>
    refine ⟨?_, fun _ => hpaused⟩
    split at h
    · exact h
    · cases hasked : asked id with
      | none => rw [hasked] at h; cases h
      | some pauser => rw [hasked] at h; exact h
  · split at h
    · cases h
    · next hpaused =>
      split at h
      · exact ⟨h, fun hbefore => absurd hbefore hpaused⟩
      · cases h

theorem settlePauser_of_paused (hpaused : after.table.paused id)
    (hasked : asked id = some .window) :
    settlePauser before after asked id = some .window := by
  rw [settlePauser, if_pos hpaused, hasked]
  exact ite_self _

/-- What the supervisor has in hand fits the store. -/
def Informed (run : WindowRun) : Prop :=
  match run.phase with
  | .look step _ | .choose step _ | .chooseReason step .. | .recordHold step =>
    step.stored = run.record
  | .lookReason step file _ => step.stored = run.record ∧
    (file.state ≠ .paused → ¬ file.state.isWorking → run.pauser file.id ≠ some .window)
  | .pause step rest => ∀ id ∈ rest, id ∈ step.stopping
  | .idle | .resume .. | .forget _ => True

structure Inv (run : WindowRun) : Prop where
  manned : run.queue.Manned
  /-- A pause in force is on the row or on an attempt that is still at work. -/
  known : ∀ id pauser, run.pauser id = some pauser → run.queue.table.paused id ∨
    run.queue.working id ∧ (run.queue.attempts id).isSome
  reason : ∀ id, run.pauser id = some .window → ¬ run.queue.table.paused id →
    run.queue.active.reasons id = some .paused
  hands : ∀ id ∈ run.hands, run.queue.table.paused id → run.pauser id = some .window
  letting : ∀ id ∈ run.letting, ∀ row, run.queue.table.row? id = some row → row.Calm
  /-- The supervisor has lost no file the window has paused or asked to pause. -/
  found : ∀ id, run.pauser id = some .window →
    id ∈ run.firm ∨ id ∈ run.letting ∧ run.queue.table.paused id
  recorded : ∀ id, id ∈ run.firm ∨ id ∈ run.letting → id ∈ run.record
  informed : run.Informed
  own : ∀ lift ∈ run.lifts, lift.Moves → lift.pauser = some .window
  lifted : ∀ lift ∈ run.lifts, ∀ row, lift.after = some row → row.state ≠ .paused

theorem Fresh.inv (h : run.Fresh) : run.Inv := by
  obtain ⟨hidle, hrecord, hphase, hpauser, hlifts⟩ := h
  have hnone : ∀ id, run.pauser id ≠ some .window := by
    intro id hwindow
    rw [hpauser] at hwindow
    split at hwindow <;> cases hwindow
  refine ⟨fun id => ?_, fun id pauser hasked => .inl ?_, fun id hwindow => absurd hwindow (hnone id),
    fun id hid => ?_, fun id hid => ?_, fun id hwindow => absurd hwindow (hnone id), fun id hid => ?_,
    ?_, fun lift hlift => ?_, fun lift hlift => ?_⟩
  · rw [hidle.tokens, hidle.attempts]
    rfl
  · rw [hpauser] at hasked
    split at hasked
    · assumption
    · cases hasked
  · rw [hands, hphase, hrecord] at hid
    cases hid
  · rw [letting, hphase] at hid
    cases hid
  · rw [firm, letting, hphase] at hid
    exact hid.resolve_right (List.not_mem_nil)
  · rw [Informed, hphase]
    trivial
  · rw [hlifts] at hlift
    cases hlift
  · rw [hlifts] at hlift
    cases hlift

theorem record_subset_hands (run : WindowRun) : ∀ id ∈ run.record, id ∈ run.hands := by
  intro id hid
  rw [hands]
  split
  · exact List.mem_append_left _ hid
  · exact List.mem_append_left _ hid
  · exact List.mem_append_left _ hid
  · exact List.mem_append_left _ hid
  · exact List.mem_append_left _ hid
  · exact hid

theorem Inv.promised (h : run.Inv) : run.Promised where
  own := h.own
  lifted := h.lifted
  recorded id _ hwindow := h.recorded id ((h.found id hwindow).imp_right (·.1))
  passed step hphase id _ hwindow := by
    have hfound := h.found id hwindow
    rw [WindowRun.firm, WindowRun.letting, hphase] at hfound
    exact hfound.resolve_right fun h => nomatch h.1

/-! ## What others do -/

theorem askedBy_request (run : WindowRun) (target id : DownloadId) (reason : StopReason) :
    run.askedBy (.request target reason) id =
      if id = target ∧ (run.queue.active.tokens id).isSome ∧ ¬ run.queue.table.paused id then
        if reason = .paused then (run.pauser id).or (some .other)
        else if run.queue.noticesPause id then run.pauser id
        else none
      else run.pauser id := rfl

theorem askedBy_window {event : QueueEvent} (h : run.askedBy event id = some .window) :
    run.pauser id = some .window := by
  cases event with
  | request target reason =>
    rw [askedBy_request] at h
    split at h
    · split at h
      · cases hpauser : run.pauser id with
        | none => rw [hpauser] at h; cases h
        | some p => rw [hpauser] at h; exact h
      · split at h
        · exact h
        · cases h
    · exact h
  | _ => exact h

theorem askedBy_of_paused {event : QueueEvent} (hpaused : run.queue.table.paused id) :
    run.askedBy event id = run.pauser id := by
  cases event with
  | request target reason =>
    exact if_neg fun h => h.2.2 hpaused
  | _ => rfl

/-- A request writes no row. -/
theorem request_table {queue : Queue} {target : DownloadId} {reason : StopReason}
    (hstep : run.queue.step announced redact host (.request target reason) = some queue) :
    queue.table = run.queue.table := by
  rw [Queue.step] at hstep
  split at hstep <;> cases hstep <;> rfl

/-- The window's request to a running attempt stands after whatever anybody else does. -/
theorem reason_of_step {event : QueueEvent} {queue : Queue} (h : run.Inv)
    (hsteady : run.queue.Steady event queue)
    (hstep : run.queue.step announced redact host event = some queue)
    (hbefore : ¬ run.queue.table.paused id) (hruns : (queue.attempts id).isSome)
    (hasked : run.askedBy event id = some .window)
    (hnoticed : run.supersedes event = false) :
    queue.active.reasons id = some .paused := by
  have hwindow := askedBy_window hasked
  have hreason := h.reason id hwindow hbefore
  have hattempt : (run.queue.attempts id).isSome :=
    ((h.known id _ hwindow).resolve_left hbefore).2
  by_cases hrequest : ∃ reason, event = .request id reason
  · obtain ⟨reason, rfl⟩ := hrequest
    have htoken : (run.queue.active.tokens id).isSome := (h.manned id).trans hattempt
    rw [askedBy_request, if_pos ⟨rfl, htoken, hbefore⟩] at hasked
    split at hasked
    · next hreasonPaused =>
      subst hreasonPaused
      cases (if_pos htoken).symm.trans hstep
      exact if_pos rfl
    · next hne =>
      split at hasked
      · next hstopping =>
        rw [supersedes, hstopping, hwindow] at hnoticed
        simp [hne] at hnoticed
      · cases hasked
  · push Not at hrequest
    rw [hsteady.reasons id hattempt hruns hrequest]
    exact hreason

theorem Inv.queue {event : QueueEvent} {queue : Queue} (h : run.Inv)
    (hallowed : run.Undisturbed announced redact host (.queue event))
    (hstep : run.queue.step announced redact host event = some queue) :
    (run.advance queue (run.askedBy event) run.phase).Inv := by
  have hsteady := h.manned.step hstep
  obtain ⟨hrely, hnoticed⟩ := hallowed
  obtain ⟨hpauses, hcalm⟩ := hrely queue hstep
  refine ⟨hsteady.manned, fun id p => settlePauser_some, fun id hwindow hpaused => ?_,
    fun id hid hpaused => ?_, hcalm, fun id hwindow => ?_, h.recorded, ?_, h.own, h.lifted⟩
  · obtain ⟨hasked, hkept⟩ := settlePauser_window hwindow
    have hruns := ((settlePauser_some hwindow).resolve_left hpaused).2
    exact reason_of_step h hsteady hstep (fun hbefore => hpaused (hkept hbefore)) hruns hasked
      hnoticed
  · refine settlePauser_of_paused hpaused ?_
    by_cases hbefore : run.queue.table.paused id
    · rw [askedBy_of_paused hbefore]
      exact h.hands id hid hbefore
    · have hwindow := hpauses id hid hpaused hbefore
      cases event with
      | request target reason => exact absurd (request_table hstep ▸ hpaused) hbefore
      | _ => exact hwindow
  · obtain ⟨hasked, hkept⟩ := settlePauser_window hwindow
    exact (h.found id (askedBy_window hasked)).imp_right fun ⟨hid, hpaused⟩ =>
      ⟨hid, hkept hpaused⟩
  · have hinformed := h.informed
    obtain ⟨_, _, phase, _, _⟩ := run
    cases phase with
    | lookReason step file unseen =>
      refine ⟨hinformed.1, fun hstate hresting hwindow => ?_⟩
      exact hinformed.2 hstate hresting (askedBy_window (settlePauser_window hwindow).1)
    | _ => exact hinformed

theorem Inv.crash (h : run.Inv) :
    (run.advance (run.queue.restart announced) run.pauser .idle).Inv := by
  have hwindow : ∀ {id}, settlePauser run.queue (run.queue.restart announced) run.pauser id =
      some .window → run.pauser id = some .window := fun h => (settlePauser_window h).1
  have hsome : ∀ {id p}, settlePauser run.queue (run.queue.restart announced) run.pauser id =
      some p → (run.queue.restart announced).table.paused id :=
    fun h => (settlePauser_some h).resolve_right fun h => nomatch h.2
  refine ⟨fun _ => rfl, fun id p hasked => .inl (hsome hasked),
    fun id hasked hpaused => absurd (hsome hasked) hpaused, fun id hid hpaused => ?_,
    fun id hid => (List.not_mem_nil hid).elim, fun id hasked => .inl ?_,
    fun id hid => hid.resolve_right List.not_mem_nil, trivial, h.own, h.lifted⟩
  · refine settlePauser_of_paused hpaused (h.hands id (record_subset_hands run id hid) ?_)
    exact (DownloadTable.paused_recoverInterrupted run.queue.table id) ▸ hpaused
  · exact h.recorded id ((h.found id (hwindow hasked)).imp_right (·.1))

/-! ## What the supervisor does -/

theorem known_row (h : run.Inv) {p : Pauser} (hpauser : run.pauser id = some p) :
    ∃ row, run.queue.table.row? id = some row ∧ (row.state = .paused ∨ row.state.isWorking) := by
  rcases h.known id p hpauser with hpaused | ⟨hworking, -⟩
  · obtain ⟨row, hrow, hstate⟩ := DownloadTable.paused_eq_true.mp hpaused
    exact ⟨row, hrow, .inl hstate⟩
  · rw [Queue.working] at hworking
    cases hrow : run.queue.table.row? id with
    | none => rw [hrow] at hworking; cases hworking
    | some row => rw [hrow] at hworking; exact ⟨row, rfl, .inr hworking⟩

section
variable {step : WindowStep} {file : DownloadRow} {unseen : List DownloadId}

theorem letting_of_paused (hphase : run.phase = .lookReason step file unseen)
    (hstate : file.state = .paused) : run.letting = file.id :: step.released := by
  rw [letting, hphase]
  exact if_pos hstate

theorem letting_of_not_paused (hphase : run.phase = .lookReason step file unseen)
    (hstate : file.state ≠ .paused) : run.letting = step.released := by
  rw [letting, hphase]
  exact if_neg hstate

theorem firm_of_paused (hphase : run.phase = .lookReason step file unseen)
    (hstate : file.state = .paused) : run.firm = unseen ++ step.kept := by
  rw [firm, hphase]
  exact if_pos hstate

theorem firm_of_not_paused (hphase : run.phase = .lookReason step file unseen)
    (hstate : file.state ≠ .paused) : run.firm = file.id :: (unseen ++ step.kept) := by
  rw [firm, hphase]
  exact if_neg hstate

end

theorem classify_of_paused {step : WindowStep} {file : DownloadRow} (hstate : file.state = .paused)
    (stopping : Bool) :
    classify kindOf step file stopping =
      if holds kindOf step.closed file then { step with kept := step.kept ++ [file.id] }
      else { step with released := step.released ++ [file.id] } := by
  rw [classify, hstate]

theorem classify_of_not_paused {step : WindowStep} {file : DownloadRow}
    (hstate : file.state ≠ .paused) (stopping : Bool) :
    classify kindOf step file stopping =
      if file.state.isWorking && stopping then { step with kept := step.kept ++ [file.id] }
      else step := by
  rw [classify.eq_def]
  split
  · next hpaused => exact absurd hpaused hstate
  · rfl

theorem Inv.begin (h : run.Inv) (hphase : run.phase = .idle) (running : List DownloadId)
    (closed : PackageId → Bool) :
    Inv { run with phase := .look { stored := run.record, running, closed } run.record } := by
  obtain ⟨queue, record, phase, pauser, lifts⟩ := run
  subst hphase
  refine ⟨h.manned, h.known, h.reason, fun id hid => h.hands id ?_, h.letting,
    fun id hwindow => .inl ?_, fun id hid => ?_, rfl, h.own, h.lifted⟩
  · exact (List.mem_append.mp hid).resolve_right List.not_mem_nil
  · exact List.mem_append_left _
      ((h.found id hwindow).resolve_right fun hid => List.not_mem_nil hid.1)
  · rcases hid with hid | hid
    · exact (List.mem_append.mp hid).resolve_right List.not_mem_nil
    · cases hid

theorem Inv.look {step : WindowStep} {unseen : List DownloadId} (h : run.Inv)
    (hphase : run.phase = .look step unseen)
    (hproceed : run.proceed announced kindOf ignoresRanges = some next) : next.Inv := by
  have hknown := fun id => @known_row id run h
  obtain ⟨queue, record, phase, pauser, lifts⟩ := run
  subst hphase
  cases unseen with
  | nil =>
    cases hproceed
    exact ⟨h.manned, h.known, h.reason, h.hands, h.letting, h.found, h.recorded, h.informed, h.own,
      h.lifted⟩
  | cons first unseen =>
    rw [proceed] at hproceed
    dsimp only at hproceed
    cases hrow : queue.table.row? first with
    | none =>
      rw [hrow] at hproceed
      cases hproceed
      refine ⟨h.manned, h.known, h.reason, h.hands, h.letting, fun id hwindow => ?_,
        fun id hid => h.recorded id (hid.imp_left (List.mem_cons_of_mem _)), h.informed, h.own,
        h.lifted⟩
      refine (h.found id hwindow).imp_left fun hid => (List.mem_cons.mp hid).resolve_left ?_
      rintro rfl
      obtain ⟨row, hknownRow, -⟩ := hknown id hwindow
      cases hrow.symm.trans hknownRow
    | some file =>
      rw [hrow] at hproceed
      cases hproceed
      obtain rfl : file.id = first := DownloadTable.row?_id hrow
      by_cases hstate : file.state = .paused
      · have hpaused : queue.table.paused file.id :=
          DownloadTable.paused_eq_true.mpr ⟨file, hrow, hstate⟩
        have hcalm : file.Calm := ⟨by rw [hstate]; rfl,
          DownloadRow.awaiting_of_not_verifying (by rw [hstate]; nofun)⟩
        refine ⟨h.manned, h.known, h.reason, h.hands, fun id hid row hother => ?_,
          fun id hwindow => ?_, fun id hid => ?_, ⟨h.informed, fun hne => absurd hstate hne⟩, h.own,
          h.lifted⟩
        · rw [letting_of_paused rfl hstate] at hid
          rcases List.mem_cons.mp hid with rfl | hid
          · cases hrow.symm.trans hother
            exact hcalm
          · exact h.letting id hid row hother
        · rw [firm_of_paused rfl hstate, letting_of_paused rfl hstate]
          rcases h.found id hwindow with hid | ⟨hid, hpausedId⟩
          · rcases List.mem_cons.mp hid with rfl | hid
            · exact .inr ⟨List.mem_cons_self .., hpaused⟩
            · exact .inl hid
          · exact .inr ⟨List.mem_cons_of_mem _ hid, hpausedId⟩
        · rw [firm_of_paused rfl hstate, letting_of_paused rfl hstate] at hid
          rcases hid with hid | hid
          · exact h.recorded id (.inl (List.mem_cons_of_mem _ hid))
          · rcases List.mem_cons.mp hid with rfl | hid
            · exact h.recorded file.id (.inl (List.mem_cons_self ..))
            · exact h.recorded id (.inr hid)
      · refine ⟨h.manned, h.known, h.reason, h.hands, fun id hid => ?_, fun id hwindow => ?_,
          fun id hid => ?_, ⟨h.informed, fun _ hresting hwindow => ?_⟩, h.own, h.lifted⟩
        · rw [letting_of_not_paused rfl hstate] at hid
          exact h.letting id hid
        · rw [firm_of_not_paused rfl hstate, letting_of_not_paused rfl hstate]
          exact h.found id hwindow
        · rw [firm_of_not_paused rfl hstate, letting_of_not_paused rfl hstate] at hid
          exact h.recorded id hid
        · obtain ⟨row, hother, hrowState⟩ := hknown file.id hwindow
          cases hrow.symm.trans hother
          exact hrowState.elim hstate hresting

theorem Inv.lookReason {step : WindowStep} {file : DownloadRow} {unseen : List DownloadId}
    (h : run.Inv) (hphase : run.phase = .lookReason step file unseen)
    (hallowed : run.Undisturbed announced redact host .proceed)
    (hproceed : run.proceed announced kindOf ignoresRanges = some next) : next.Inv := by
  obtain ⟨queue, record, phase, pauser, lifts⟩ := run
  subst hphase
  cases hproceed
  obtain ⟨hstored, hread⟩ := h.informed
  have hnext : ∀ step' : WindowStep, step'.stored = step.stored → step'.stopping = step.stopping →
      (∀ id ∈ step'.released, ∀ row, queue.table.row? id = some row → row.Calm) →
      (∀ id, pauser id = some .window → id ∈ unseen ++ step'.kept ∨
        id ∈ step'.released ∧ queue.table.paused id) →
      (∀ id, id ∈ unseen ++ step'.kept ∨ id ∈ step'.released → id ∈ record) →
      Inv ⟨queue, record, .look step' unseen, pauser, lifts⟩ := by
    intro step' hsame hstopping hcalm hkept hsubset
    refine ⟨h.manned, h.known, h.reason, fun id hid => h.hands id ?_, hcalm, hkept, hsubset,
      hsame.trans hstored, h.own, h.lifted⟩
    have hid : id ∈ record ++ step'.stopping := hid
    rw [hstopping] at hid
    exact hid
  have hletting := h.letting
  have hfound := h.found
  have hrecorded := h.recorded
  by_cases hstate : file.state = .paused
  · rw [letting_of_paused rfl hstate] at hletting
    rw [firm_of_paused rfl hstate, letting_of_paused rfl hstate] at hfound hrecorded
    simp only [List.mem_append, List.mem_cons] at hfound hrecorded
    rw [classify_of_paused hstate]
    split
    · refine hnext _ rfl rfl (fun id hid => hletting id (List.mem_cons_of_mem _ hid))
        (fun id hwindow => ?_) fun id hid => ?_
      · simp only [List.mem_append, List.mem_singleton]
        have := hfound id hwindow
        tauto
      · simp only [List.mem_append, List.mem_singleton] at hid
        have := hrecorded id
        tauto
    · refine hnext _ rfl rfl (fun id hid => hletting id ?_) (fun id hwindow => ?_) fun id hid => ?_
      · exact (List.mem_append.mp hid).elim (List.mem_cons_of_mem _)
          fun hid => List.mem_singleton.mp hid ▸ List.mem_cons_self ..
      · simp only [List.mem_append, List.mem_singleton]
        have := hfound id hwindow
        tauto
      · simp only [List.mem_append, List.mem_singleton] at hid
        have := hrecorded id
        tauto
  · rw [letting_of_not_paused rfl hstate] at hletting
    rw [firm_of_not_paused rfl hstate, letting_of_not_paused rfl hstate] at hfound hrecorded
    simp only [List.mem_append, List.mem_cons] at hfound hrecorded
    rw [classify_of_not_paused hstate]
    split
    · refine hnext _ rfl rfl hletting (fun id hwindow => ?_) fun id hid => ?_
      · simp only [List.mem_append, List.mem_singleton]
        have := hfound id hwindow
        tauto
      · simp only [List.mem_append, List.mem_singleton] at hid
        have := hrecorded id
        tauto
    · next hdropped =>
      -- a file in the window's pause is working under its reason, or has been paused meanwhile
      have hfree : pauser file.id ≠ some .window := by
        intro hwindow
        by_cases hworking : file.state.isWorking
        · rw [hworking, Bool.true_and, decide_eq_true_eq] at hdropped
          exact hdropped (h.reason file.id hwindow (hallowed hworking hdropped))
        · exact hread hstate hworking hwindow
      refine hnext _ rfl rfl hletting (fun id hwindow => ?_) fun id hid => ?_
      · have hne : id ≠ file.id := by
          rintro rfl
          exact hfree hwindow
        simp only [List.mem_append]
        have := hfound id hwindow
        tauto
      · simp only [List.mem_append] at hid
        have := hrecorded id
        tauto

theorem Inv.choose {step : WindowStep} {unseen : List DownloadId} (h : run.Inv)
    (hphase : run.phase = .choose step unseen)
    (hproceed : run.proceed announced kindOf ignoresRanges = some next) : next.Inv := by
  obtain ⟨queue, record, phase, pauser, lifts⟩ := run
  subst hphase
  have hkept : ∀ unseen, Inv ⟨queue, record, .choose step unseen, pauser, lifts⟩ := fun unseen =>
    ⟨h.manned, h.known, h.reason, h.hands, h.letting, h.found, h.recorded, h.informed, h.own,
      h.lifted⟩
  cases unseen with
  | nil =>
    cases hproceed
    exact ⟨h.manned, h.known, h.reason, h.hands, h.letting, h.found, h.recorded, h.informed, h.own,
      h.lifted⟩
  | cons first unseen =>
    rw [proceed] at hproceed
    dsimp only at hproceed
    split at hproceed
    · cases hproceed
      exact hkept unseen
    · split at hproceed
      · cases hproceed
        exact hkept unseen
      · cases hproceed
        exact ⟨h.manned, h.known, h.reason, h.hands, h.letting, h.found, h.recorded, h.informed,
          h.own, h.lifted⟩

theorem Inv.chooseReason {step : WindowStep} {file : DownloadRow} {unseen : List DownloadId}
    (h : run.Inv) (hphase : run.phase = .chooseReason step file unseen)
    (hallowed : run.Undisturbed announced redact host .proceed)
    (hproceed : run.proceed announced kindOf ignoresRanges = some next) : next.Inv := by
  obtain ⟨queue, record, phase, pauser, lifts⟩ := run
  subst hphase
  rw [proceed] at hproceed
  dsimp only at hproceed
  split at hproceed
  · cases hproceed
    exact ⟨h.manned, h.known, h.reason, h.hands, h.letting, h.found, h.recorded, h.informed, h.own,
      h.lifted⟩
  · next hreason =>
    cases hproceed
    refine ⟨h.manned, h.known, h.reason, fun id hid hpaused => ?_, h.letting, h.found, h.recorded,
      h.informed, h.own, h.lifted⟩
    have hid : id ∈ record ++ (step.stopping ++ [file.id]) := hid
    rw [← List.append_assoc] at hid
    rcases List.mem_append.mp hid with hid | hid
    · exact h.hands id hid hpaused
    · obtain rfl := List.mem_singleton.mp hid
      exact absurd hpaused (hallowed (Option.not_isSome_iff_eq_none.mp hreason))

theorem Inv.recordHold {step : WindowStep} (h : run.Inv) (hphase : run.phase = .recordHold step)
    (hproceed : run.proceed announced kindOf ignoresRanges = some next) : next.Inv := by
  obtain ⟨queue, record, phase, pauser, lifts⟩ := run
  subst hphase
  cases hproceed
  obtain rfl : step.stored = record := h.informed
  have hrecord : (if step.stopping = [] then step.stored else step.stored ++ step.stopping) =
      step.stored ++ step.stopping := by
    split
    · next hnone => rw [hnone, List.append_nil]
    · rfl
  rw [hrecord]
  refine ⟨h.manned, h.known, h.reason, h.hands, h.letting, fun id hwindow => ?_, fun id hid => ?_,
    fun id hid => hid, h.own, h.lifted⟩
  · exact (h.found id hwindow).imp_left (List.mem_append_left _)
  · rcases hid with hid | hid
    · rcases List.mem_append.mp hid with hid | hid
      · exact List.mem_append_left _ (h.recorded id (.inl hid))
      · exact List.mem_append_right _ hid
    · exact List.mem_append_left _ (h.recorded id (.inr hid))

theorem Inv.forget {step : WindowStep} (h : run.Inv) (hphase : run.phase = .forget step)
    (hproceed : run.proceed announced kindOf ignoresRanges = some next) : next.Inv := by
  obtain ⟨queue, record, phase, pauser, lifts⟩ := run
  subst hphase
  cases hproceed
  have hsubset : ∀ id, id ∈ step.kept ++ step.stopping → id ∈ record :=
    fun id hid => h.recorded id (.inl hid)
  have hfound : ∀ id, pauser id = some .window → id ∈ step.kept ++ step.stopping :=
    fun id hwindow => (h.found id hwindow).resolve_right fun hid => List.not_mem_nil hid.1
  split
  · exact ⟨h.manned, h.known, h.reason, h.hands, h.letting,
      fun id hwindow => .inl (hsubset id (hfound id hwindow)),
      fun id hid => hid.resolve_right List.not_mem_nil, trivial, h.own, h.lifted⟩
  · exact ⟨h.manned, h.known, h.reason, fun id hid => h.hands id (hsubset id hid), h.letting,
      fun id hwindow => .inl (hfound id hwindow), fun id hid => hid.resolve_right List.not_mem_nil,
      trivial, h.own, h.lifted⟩

/-- A calm row is still calm once another one has been written, and once it is paused or queued. -/
theorem calm_of_wrote {table last : DownloadTable} {target : DownloadId}
    {state : DownloadState}
    (hwrote : DownloadTable.Wrote announced table target (DownloadTable.setState state none) last)
    (htarget : ∃ row, table.row? target = some row) (hstate : state = .paused ∨ state = .queued)
    (hcalm : ∀ row, table.row? id = some row → row.Calm) (row : DownloadRow)
    (hrow : last.row? id = some row) : row.Calm := by
  by_cases hid : id = target
  · subst hid
    obtain ⟨old, hold⟩ := htarget
    have hnot : (DownloadTable.setState state none old).state ≠ .verifying := by
      rcases hstate with rfl | rfl <;> nofun
    have hself := hwrote.row?_self hold (DownloadRow.awaiting_of_not_verifying hnot)
    obtain rfl := Option.some.inj (hself.symm.trans hrow)
    refine ⟨?_, DownloadRow.awaiting_of_not_verifying hnot⟩
    rcases hstate with rfl | rfl <;> rfl
  · cases hold : table.row? id with
    | none =>
      have hsome := hwrote.isSome_row? id
      rw [hrow, hold] at hsome
      cases hsome
    | some old =>
      have hother := hwrote.row?_other hid hold (hcalm old hold).decided
      obtain rfl := Option.some.inj (hother.symm.trans hrow)
      exact hcalm _ hold

theorem Inv.pause {step : WindowStep} {first : DownloadId} {rest : List DownloadId} (h : run.Inv)
    (hphase : run.phase = .pause step (first :: rest)) :
    (run.advance (run.queue.windowPause announced first) (run.askedByWindow first)
      (.pause step rest)).Inv := by
  have hpauses := run.queue.toScheduler.pauses announced first
  have hstopping : first ∈ step.stopping := by
    have hinformed := h.informed
    rw [Informed, hphase] at hinformed
    exact hinformed first (List.mem_cons_self ..)
  have hletting : run.letting = step.released := by rw [WindowRun.letting, hphase]
  have hfirm : run.firm = step.kept ++ step.stopping := by rw [WindowRun.firm, hphase]
  have hhands : run.hands = run.record := by rw [WindowRun.hands, hphase]
  have hothers : ∀ id, id ≠ first →
      (run.queue.windowPause announced first).table.paused id = run.queue.table.paused id := by
    intro id hne
    rcases hpauses.table with htable | ⟨-, row, -, hwrote⟩
    · exact congrArg (DownloadTable.paused · id) htable
    · exact hwrote.paused_other hne
  have hasked : ∀ id, id ≠ first → run.askedByWindow first id = run.pauser id :=
    fun id hne => if_neg fun h => hne h.1
  refine ⟨fun id => (hpauses.tokens id).trans (h.manned id), fun id p => settlePauser_some,
    fun id hwindow hpaused => ?_, fun id hid hpaused => ?_, fun id hid row hrow => ?_,
    fun id hwindow => ?_, fun id hid => ?_, ?_, h.own, h.lifted⟩
  · obtain ⟨haskedId, hkept⟩ := settlePauser_window hwindow
    have hruns := ((settlePauser_some hwindow).resolve_left hpaused).2
    by_cases hid : id = first
    · subst hid
      exact hpauses.reason ((h.manned id).trans hruns)
    · rw [hasked id hid] at haskedId
      exact (hpauses.others id hid).trans
        (h.reason id haskedId fun hbefore => hpaused (hkept hbefore))
  · have hid : id ∈ run.hands := hhands ▸ hid
    refine settlePauser_of_paused hpaused ?_
    by_cases hbefore : run.queue.table.paused id
    · have hwindow := h.hands id hid hbefore
      rw [askedByWindow, hwindow]
      exact ite_self _
    · by_cases hfirst : id = first
      · subst hfirst
        rcases hpauses.table with htable | ⟨hidle, -⟩
        · exact absurd (htable ▸ hpaused) hbefore
        · rw [askedByWindow, if_pos ⟨rfl, hbefore⟩]
          cases hpauser : run.pauser id with
          | none => rfl
          | some p =>
            have hruns := ((h.known id p hpauser).resolve_left hbefore).2
            rw [← h.manned, hidle] at hruns
            cases hruns
      · exact absurd (hothers id hfirst ▸ hpaused) hbefore
  · have hid : id ∈ run.letting := hletting ▸ hid
    rcases hpauses.table with htable | ⟨-, row, hfirst, hwrote⟩
    · exact h.letting id hid row (htable ▸ hrow)
    · exact calm_of_wrote hwrote ⟨_, hfirst⟩ (.inl rfl) (h.letting id hid) _ hrow
  · obtain ⟨haskedId, hkept⟩ := settlePauser_window hwindow
    by_cases hid : id = first
    · subst hid
      exact .inl (List.mem_append_right _ hstopping)
    · rw [hasked id hid] at haskedId
      have hfound := h.found id haskedId
      rw [hfirm, hletting] at hfound
      exact hfound.imp_right fun ⟨hmem, hpaused⟩ => ⟨hmem, hkept hpaused⟩
  · have hrecorded := h.recorded id
    rw [hfirm, hletting] at hrecorded
    exact hrecorded hid
  · have hinformed := h.informed
    rw [Informed, hphase] at hinformed
    exact fun id hid => hinformed id (List.mem_cons_of_mem _ hid)

/-- Of the states that nothing has stopped a file in, a resume leaves only `paused`. -/
theorem queued_of_canTransitionTo (state : DownloadState) :
    state.canTransitionTo .queued → state.isStopped = false → state ≠ .paused → state = .queued := by
  cases state <;> decide

/-- A resume of a calm row moves it out of a pause or leaves its state as it is. -/
theorem resume_of_calm {queue : Scheduler}
    (hresumes : run.queue.toScheduler.Resumes announced id queue)
    (hcalm : ∀ row, run.queue.table.row? id = some row → row.Calm)
    (hfree : run.queue.table.paused id → run.queue.active.isHeld id = false) :
    queue.table.paused id = false ∧ (run.queue.table.paused id = false →
      (queue.table.row? id).map (·.state) = (run.queue.table.row? id).map (·.state)) := by
  by_cases hbefore : run.queue.table.paused id
  · exact ⟨hresumes.paused hbefore (hfree hbefore), fun h => absurd hbefore (Bool.eq_false_iff.mp h)⟩
  · rcases hresumes.table with htable | ⟨row, hrow, hmove, hwrote⟩
    · rw [htable]
      exact ⟨Bool.eq_false_iff.mpr hbefore, fun _ => rfl⟩
    · have hqueued := hwrote.row?_self hrow rfl
      have hstate : row.state = .queued :=
        queued_of_canTransitionTo row.state hmove (hcalm row hrow).state fun h =>
          hbefore (DownloadTable.paused_eq_true.mpr ⟨row, hrow, h⟩)
      rw [DownloadTable.paused, hqueued, hrow]
      exact ⟨rfl, fun _ => congrArg some hstate.symm⟩

theorem Inv.resume {step : WindowStep} {first : DownloadId} {rest : List DownloadId} {lift : Lift}
    (h : run.Inv) (hphase : run.phase = .resume step (first :: rest))
    (hfree : run.queue.table.paused first → run.queue.active.isHeld first = false)
    (hlift : lift = ⟨run.pauser first, run.queue.table.row? first,
      (run.queue.windowResume announced first).table.row? first⟩) :
    Inv { run.advance (run.queue.windowResume announced first) run.pauser (.resume step rest) with
      lifts := lift :: run.lifts } := by
  have hletting : run.letting = first :: rest := by rw [WindowRun.letting, hphase]
  have hfirm : run.firm = step.kept ++ step.stopping := by rw [WindowRun.firm, hphase]
  have hhands : run.hands = run.record := by rw [WindowRun.hands, hphase]
  have hfirst : first ∈ run.letting := hletting ▸ List.mem_cons_self ..
  have hcalm := h.letting first hfirst
  have hresumes := @Scheduler.resumes announced first run.queue.toScheduler hcalm
  obtain ⟨hresumed, hstays⟩ := resume_of_calm hresumes hcalm hfree
  have hothers : ∀ id, id ≠ first →
      (run.queue.windowResume announced first).table.paused id = run.queue.table.paused id := by
    intro id hne
    rcases hresumes.table with htable | ⟨row, -, -, hwrote⟩
    · exact congrArg (DownloadTable.paused · id) htable
    · exact hwrote.paused_other hne
  have hbefore : ∀ id, (run.queue.windowResume announced first).table.paused id →
      id ≠ first ∧ run.queue.table.paused id := by
    intro id hpaused
    have hne : id ≠ first := by
      rintro rfl
      exact absurd hpaused (Bool.eq_false_iff.mp hresumed)
    exact ⟨hne, hothers id hne ▸ hpaused⟩
  refine ⟨fun id => ?_, fun id p => settlePauser_some, fun id hwindow hpaused => ?_,
    fun id hid hpaused => ?_, fun id hid row hrow => ?_, fun id hwindow => ?_, fun id hid => ?_,
    trivial, fun entry hentry hmoves => ?_, fun entry hentry row hafter => ?_⟩
  · exact (congrArg (fun tokens => (tokens id).isSome) hresumes.tokens).trans (h.manned id)
  · obtain ⟨hasked, hkept⟩ := settlePauser_window hwindow
    have hruns := ((settlePauser_some hwindow).resolve_left hpaused).2
    exact (hresumes.reasons id ((h.manned id).trans hruns)).trans
      (h.reason id hasked fun hbefore => hpaused (hkept hbefore))
  · exact settlePauser_of_paused hpaused (h.hands id (hhands ▸ hid) (hbefore id hpaused).2)
  · have hid : id ∈ run.letting := hletting ▸ List.mem_cons_of_mem _ hid
    rcases hresumes.table with htable | ⟨row, hold, -, hwrote⟩
    · exact h.letting id hid row (htable ▸ hrow)
    · exact calm_of_wrote hwrote ⟨_, hold⟩ (.inr rfl) (h.letting id hid) _ hrow
  · obtain ⟨hasked, hkept⟩ := settlePauser_window hwindow
    have hfound := h.found id hasked
    rw [hfirm, hletting] at hfound
    refine hfound.imp_right fun ⟨hmem, hpausedId⟩ => ⟨?_, hkept hpausedId⟩
    exact (List.mem_cons.mp hmem).resolve_left (hbefore id (hkept hpausedId)).1
  · have hrecorded := h.recorded id
    rw [hfirm, hletting] at hrecorded
    exact hrecorded (hid.imp_right (List.mem_cons_of_mem _))
  · rcases List.mem_cons.mp hentry with rfl | hentry
    · subst hlift
      by_cases hpaused : run.queue.table.paused first
      · exact h.hands first (hhands ▸ h.recorded first (.inr hfirst)) hpaused
      · exact absurd (hstays (Bool.eq_false_iff.mpr hpaused)).symm hmoves
    · exact h.own entry hentry hmoves
  · rcases List.mem_cons.mp hentry with rfl | hentry
    · subst hlift
      exact fun hstate => absurd (DownloadTable.paused_eq_true.mpr ⟨row, hafter, hstate⟩)
        (Bool.eq_false_iff.mp hresumed)
    · exact h.lifted entry hentry row hafter

theorem Inv.fail (h : run.Inv) (hallowed : run.Undisturbed announced redact host .fails)
    (hfail : run.fail = some next) : next.Inv := by
  have hidle : Inv { run with phase := .idle } :=
    ⟨h.manned, h.known, h.reason, fun id hid => h.hands id (record_subset_hands run id hid),
      fun id hid => (List.not_mem_nil hid).elim,
      fun id hwindow => .inl (h.recorded id ((h.found id hwindow).imp_right (·.1))),
      fun id hid => hid.resolve_right List.not_mem_nil, trivial, h.own, h.lifted⟩
  obtain ⟨queue, record, phase, pauser, lifts⟩ := run
  cases phase with
  | idle | lookReason | chooseReason => cases hfail
  | look step unseen | choose step unseen =>
    cases unseen with
    | nil => cases hfail
    | cons =>
      cases hfail
      exact hidle
  | recordHold step =>
    by_cases hnone : step.stopping = []
    · cases (if_pos hnone).symm.trans hfail
    · cases (if_neg hnone).symm.trans hfail
      exact hidle
  | forget step =>
    by_cases hsame : step.kept ++ step.stopping = step.stored
    · cases (if_pos hsame).symm.trans hfail
    · cases (if_neg hsame).symm.trans hfail
      exact hidle
  | pause step rest =>
    cases rest with
    | nil => cases hfail
    | cons first rest =>
      cases hfail
      exact ⟨h.manned, h.known, h.reason, h.hands, h.letting, h.found, h.recorded,
        fun id hid => h.informed id (List.mem_cons_of_mem _ hid), h.own, h.lifted⟩
  | resume step rest =>
    cases rest with
    | nil => cases hfail
    | cons first rest =>
      cases hfail
      refine ⟨h.manned, h.known, h.reason, h.hands,
        fun id hid => h.letting id (List.mem_cons_of_mem _ hid), fun id hwindow => ?_,
        fun id hid => h.recorded id (hid.imp_right (List.mem_cons_of_mem _)), trivial,
        fun entry hentry hmoves => ?_, fun entry hentry row hafter => ?_⟩
      · refine (h.found id hwindow).imp_right fun ⟨hmem, hpaused⟩ => ⟨?_, hpaused⟩
        refine (List.mem_cons.mp hmem).resolve_left ?_
        rintro rfl
        exact hallowed hpaused
      · rcases List.mem_cons.mp hentry with rfl | hentry
        · exact absurd rfl hmoves
        · exact h.own entry hentry hmoves
      · rcases List.mem_cons.mp hentry with rfl | hentry
        · exact fun hstate =>
            hallowed (DownloadTable.paused_eq_true.mpr ⟨row, hafter, hstate⟩)
        · exact h.lifted entry hentry row hafter

theorem Inv.proceed (h : run.Inv) (hallowed : run.Undisturbed announced redact host .proceed)
    (hproceed : run.proceed announced kindOf ignoresRanges = some next) : next.Inv := by
  cases hphase : run.phase with
  | idle =>
    rw [WindowRun.proceed, hphase] at hproceed
    cases hproceed
  | look => exact h.look hphase hproceed
  | lookReason => exact h.lookReason hphase hallowed hproceed
  | choose => exact h.choose hphase hproceed
  | chooseReason => exact h.chooseReason hphase hallowed hproceed
  | recordHold => exact h.recordHold hphase hproceed
  | pause step rest =>
    cases rest with
    | nil =>
      obtain ⟨queue, record, phase, pauser, lifts⟩ := run
      subst hphase
      cases hproceed
      exact ⟨h.manned, h.known, h.reason, h.hands, h.letting, h.found, h.recorded, trivial, h.own,
        h.lifted⟩
    | cons first rest =>
      rw [WindowRun.proceed, hphase] at hproceed
      cases hproceed
      exact h.pause hphase
  | resume step rest =>
    cases rest with
    | nil =>
      obtain ⟨queue, record, phase, pauser, lifts⟩ := run
      subst hphase
      cases hproceed
      exact ⟨h.manned, h.known, h.reason, h.hands, h.letting, h.found, h.recorded, trivial, h.own,
        h.lifted⟩
    | cons first rest =>
      rw [Undisturbed, hphase] at hallowed
      rw [WindowRun.proceed, hphase] at hproceed
      cases hproceed
      exact h.resume hphase hallowed rfl
  | forget => exact h.forget hphase hproceed

theorem Inv.step {event : WindowEvent} (h : run.Inv)
    (hallowed : run.Undisturbed announced redact host event)
    (hstep : run.step announced redact host kindOf ignoresRanges event = some next) : next.Inv := by
  cases event with
  | queue event =>
    obtain ⟨queue, hqueue, rfl⟩ := Option.map_eq_some_iff.mp hstep
    exact h.queue hallowed hqueue
  | crash =>
    cases hstep
    exact h.crash
  | begin running closed =>
    rw [WindowRun.step] at hstep
    split at hstep
    · next hidle =>
      split at hstep
      · split at hstep <;> cases hstep
        · exact h
        · exact h.begin hidle running closed
      · cases hstep
    · rw [if_neg fun h => Bool.false_ne_true h.1] at hstep
      cases hstep
  | proceed => exact h.proceed hallowed hstep
  | fails => exact h.fail hallowed hstep

/-- In every state of every undisturbed run the window has resumed nothing but what it had paused,
and finds all that is still in its pause. -/
theorem promised_of_undisturbed (announced : PackageId → Bool) (redact : String → String)
    (host : String → Option String) (kindOf : DownloadId → DownloadKind)
    (ignoresRanges : String → Bool) (run : WindowRun)
    (h : (machine announced redact host kindOf ignoresRanges).Reaches
      (Undisturbed announced redact host) run) : run.Promised :=
  (h.invariant Inv (fun _ => Fresh.inv) fun _ _ _ hinv hallowed hstep =>
    hinv.step hallowed hstep).promised

/-! ## A pause between two steps -/

/-- One queued file. -/
def oneWindow : WindowRun where
  queue := Queue.oneFile
  record := []
  phase := .idle
  pauser _ := none

theorem oneWindow_fresh : oneWindow.Fresh where
  idle := Queue.oneFile_idle
  record := rfl
  phase := rfl
  pauser id := by
    have hpaused : Queue.oneFile.table.paused id = false := by
      rw [DownloadTable.paused, DownloadTable.row?]
      by_cases hid : (1 : Nat) = id <;> simp [Queue.oneFile, hid]
    exact (if_neg (Bool.eq_false_iff.mp hpaused)).symm
  lifts := rfl

/-- The supervisor of FTP transfers, in a queue of hosts that name nothing. -/
def ftpMachine : Machine WindowRun WindowEvent :=
  machine (fun _ => false) (fun text => text) (fun _ => none) (fun _ => .ftp) fun _ => false

/-- The file is claimed, and the window asks it to pause while it is being resolved. -/
def windowAsks : List WindowEvent :=
  [.queue (.claim { id := 1, packageId := 1, state := .queued }), .queue (.attempt 1 .resolve),
    .begin [1] (fun _ => true)] ++ List.replicate 9 .proceed

/-- The attempt notices that and pauses the file. -/
def attemptPauses : List WindowEvent :=
  [.queue (.attempt 1 .notice), .queue (.attempt 1 .stop), .queue (.attempt 1 .leave)]

/-- The window is open again: the recorded file is looked at and resumed. -/
def windowResumes : List WindowEvent :=
  .begin [] (fun _ => false) :: List.replicate 9 .proceed

/-- Somebody resumes the file and pauses it again. -/
def userPauses : List WindowEvent :=
  [.queue (.resume 1), .queue (.request 1 .paused), .queue (.write 1 .paused none),
    .queue (.release 1)]

/-- The state of the file and the record. -/
def outcome (run : WindowRun) : Option DownloadState × List DownloadId :=
  ((run.queue.table.row? 1).map (·.state), run.record)

/-- Whose pauses have been lifted, and how the rows moved. -/
def liftsOf (run : WindowRun) :
    List (Option Pauser × Option DownloadState × Option DownloadState) :=
  run.lifts.map fun lift => (lift.pauser, lift.before.map (·.state), lift.after.map (·.state))

/-- The end of a window resumes a file that somebody has paused since, where nobody looked at it in
between. -/
theorem userPause_lifted :
    ∃ run, ftpMachine.Reaches Machine.anything run ∧ ¬ run.Promised ∧
      run.outcome = (some .queued, []) := by
  have hruns : (ftpMachine.run oneWindow
      (windowAsks ++ attemptPauses ++ userPauses ++ windowResumes)).map outcome =
        some (some .queued, []) := by decide +kernel
  have hlifts : (ftpMachine.run oneWindow
      (windowAsks ++ attemptPauses ++ userPauses ++ windowResumes)).map liftsOf =
        some [(some .other, some .paused, some .queued)] := by decide +kernel
  obtain ⟨run, hrun, houtcome⟩ := Option.map_eq_some_iff.mp hruns
  rw [hrun] at hlifts
  refine ⟨run, .run (.initial oneWindow_fresh) hrun, fun hpromised => ?_, houtcome⟩
  obtain ⟨lift, hlift, hmoved⟩ := List.map_eq_singleton_iff.mp (Option.some.inj hlifts)
  obtain ⟨hpauser, hmoved⟩ := Prod.mk.inj hmoved
  obtain ⟨hbefore, hafter⟩ := Prod.mk.inj hmoved
  have hmoves : lift.Moves := by
    rw [Lift.Moves, hbefore, hafter]
    exact fun h => nomatch h
  have hwindow := hpromised.own lift (hlift ▸ List.mem_singleton.mpr rfl) hmoves
  cases hwindow.symm.trans hpauser

/-- A file that pauses between the supervisor's look at its row and at its stop reason stays paused,
off the record. -/
theorem windowPause_forgotten :
    ∃ run, ftpMachine.Reaches Machine.anything run ∧ ¬ run.Promised ∧
      run.outcome = (some .paused, []) := by
  have hruns : (ftpMachine.run oneWindow
      (windowAsks ++ [.begin [1] fun _ => true, .proceed] ++ attemptPauses ++
        List.replicate 8 .proceed)).map (fun run => (run.outcome, run.pauser 1)) =
        some ((some .paused, []), some .window) := by decide +kernel
  obtain ⟨run, hrun, houtcome⟩ := Option.map_eq_some_iff.mp hruns
  obtain ⟨houtcome, hpauser⟩ := Prod.mk.inj houtcome
  refine ⟨run, .run (.initial oneWindow_fresh) hrun, fun hpromised => ?_, houtcome⟩
  obtain ⟨hstate, hrecord⟩ := Prod.mk.inj houtcome
  have hpaused : run.queue.table.paused 1 := by
    obtain ⟨row, hrow, hstate⟩ := Option.map_eq_some_iff.mp hstate
    exact DownloadTable.paused_eq_true.mpr ⟨row, hrow, hstate⟩
  have hrecorded := hpromised.recorded 1 hpaused hpauser
  rw [hrecord] at hrecorded
  cases hrecorded

/-- What the attempt and the supervisor do on their own is undisturbed. -/
theorem cycle_undisturbed :
    ftpMachine.Within (Undisturbed (fun _ => false) (fun text => text) fun _ => none) oneWindow
      (windowAsks ++ attemptPauses ++ windowResumes) := by
  decide +kernel

/-- The window pauses the file and resumes it once it is open again. -/
theorem promised_of_undisturbed_cycle :
    ∃ run : WindowRun, run.outcome = (some .queued, []) ∧
      run.liftsOf = [(some .window, some .paused, some .queued)] ∧ run.Promised := by
  have hruns : (ftpMachine.run oneWindow (windowAsks ++ attemptPauses ++ windowResumes)).map
      outcome = some (some .queued, []) := by decide +kernel
  have hlifts : (ftpMachine.run oneWindow (windowAsks ++ attemptPauses ++ windowResumes)).map
      liftsOf = some [(some .window, some .paused, some .queued)] := by decide +kernel
  obtain ⟨run, hrun, houtcome⟩ := Option.map_eq_some_iff.mp hruns
  rw [hrun] at hlifts
  exact ⟨run, houtcome, Option.some.inj hlifts, promised_of_undisturbed _ _ _ _ _ run
    ((Machine.Reaches.initial oneWindow_fresh).within cycle_undisturbed hrun)⟩

end WindowRun
end RDownloader
