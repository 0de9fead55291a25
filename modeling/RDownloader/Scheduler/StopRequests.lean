import RDownloader.Db.DownloadWrites
import RDownloader.Scheduler.Attempts

/-!
# Stop requests

A stop asked of a running file is carried out or outrun by completion, as long as the attempt meets
no failure after it.
-/

namespace RDownloader

/-- The row is what the stop asks for, or the file is complete. -/
def StopReason.Honoured (reason : StopReason) (row : DownloadRow) : Prop :=
  row.state = .completed ∨ match reason with
    | .paused => row.state = .paused
    | .cancelled => row.state = .cancelled
    | .blocked cause => row.state = .blocked ∧ row.blockReason = some cause

/-- The row carries the reason of a held-back verdict. -/
def DownloadRow.HeldBack (row : DownloadRow) : Prop :=
  ∃ failure, row.lastError = some failure ∧ failure.code = some awaitingPar2

/-- The row is one the attempt's next write is made for. -/
def AttemptPhase.Going (phase : AttemptPhase) (file row : DownloadRow) : Prop :=
  match phase with
  | .claimed => row.state.canTransitionTo (if file.state = .retryWait then .queued else .resolving)
  | .requeued => row.state = .queued
  | .resolving => row.state = .resolving
  | .downloading => row.state = .downloading
  | .verifying => row.state = .verifying ∧ ¬ row.HeldBack
  | .stopping _ => row.state = .resolving ∨ row.state = .downloading
  | _ => False

/-- The attempt can only end as the stop asks, or complete, unless something goes wrong. -/
def AttemptPhase.Heads (phase : AttemptPhase) (file : DownloadRow) (reason : StopReason)
    (row : DownloadRow) : Prop :=
  (reason.Honoured row ∨ phase.Going file row) ∧
    match phase with
    | .stopping read => read = reason
    | .failing _ _ | .recording _ | .promoting _ => False
    | _ => True

namespace Queue

/-- No stop request is lost: the row an attempt leaves honours the stop its file was last asked
for. -/
def StopsKept (queue : Queue) : Prop :=
  ∀ id attempt reason, queue.attempts id = some attempt → attempt.phase = .finished →
    queue.wanted id = some reason →
      ∃ row, queue.table.row? id = some row ∧ reason.Honoured row

/-- Nothing goes wrong for a stop that was asked for. -/
def Undisturbed (queue : Queue) : QueueEvent → Prop
  | .attempt id event =>
    match event with
    | .meet _ | .err _ _ | .detach _ => queue.wanted id = none
    | .block cause => ∀ reason, queue.wanted id = some reason → reason = .blocked cause
    | .verify => queue.wanted id = none ∨
        ∀ row, queue.table.row? id = some row → ¬ row.HeldBack
    | .promote => ∀ attempt target, queue.attempts id = some attempt →
        attempt.phase = .promoting target → queue.wanted target = none
    | _ => True
  | .request id reason =>
    ∀ attempt, queue.attempts id = some attempt →
      ∃ row, queue.table.row? id = some row ∧ attempt.phase.Heads attempt.file reason row
  | .write id _ _ | .retry id _ => queue.wanted id = none
  | _ => True

end Queue

/-! ## Rows -/

theorem DownloadRow.awaiting_of_not_verifying {row : DownloadRow} (h : row.state ≠ .verifying) :
    row.awaiting = none := by
  rw [DownloadRow.awaiting, if_neg h]

theorem DownloadRow.awaiting_of_not_heldBack {row : DownloadRow} (h : ¬ row.HeldBack) :
    row.awaiting = none := by
  rw [DownloadRow.awaiting]
  split
  · cases herror : row.lastError with
    | none => rfl
    | some failure =>
      have hcode : failure.code ≠ some awaitingPar2 := fun hcode => h ⟨failure, herror, hcode⟩
      rw [Option.filter_some, if_neg (by simpa using hcode)]
      rfl
  · rfl

theorem StopReason.Honoured.resting {reason : StopReason} {row : DownloadRow}
    (h : reason.Honoured row) :
    row.state = .completed ∨ row.state = .paused ∨ row.state = .cancelled ∨
      row.state = .blocked := by
  rcases h with h | h
  · exact .inl h
  · cases reason with
    | paused => exact .inr (.inl h)
    | cancelled => exact .inr (.inr (.inl h))
    | blocked => exact .inr (.inr (.inr h.1))

theorem StopReason.Honoured.awaiting {reason : StopReason} {row : DownloadRow}
    (h : reason.Honoured row) : row.awaiting = none := by
  apply DownloadRow.awaiting_of_not_verifying
  rcases h.resting with h | h | h | h <;> rw [h] <;> nofun

theorem AttemptPhase.Heads.awaiting {phase : AttemptPhase} {file row : DownloadRow}
    {reason : StopReason} (h : phase.Heads file reason row) : row.awaiting = none := by
  obtain ⟨h | h, -⟩ := h
  · exact h.awaiting
  · cases phase with
    | verifying => exact DownloadRow.awaiting_of_not_heldBack h.2
    | claimed =>
      apply DownloadRow.awaiting_of_not_verifying
      intro hstate
      have h : row.state.canTransitionTo
        (if file.state = .retryWait then .queued else .resolving) := h
      rw [hstate] at h
      split at h <;> cases h
    | requeued =>
      apply DownloadRow.awaiting_of_not_verifying
      rw [show row.state = .queued from h]
      nofun
    | resolving =>
      apply DownloadRow.awaiting_of_not_verifying
      rw [show row.state = .resolving from h]
      nofun
    | downloading =>
      apply DownloadRow.awaiting_of_not_verifying
      rw [show row.state = .downloading from h]
      nofun
    | stopping =>
      apply DownloadRow.awaiting_of_not_verifying
      rcases h with h | h <;> rw [h] <;> nofun
    | failing | recording | promoting | erred | finished => cases h

namespace Queue

variable {announced : PackageId → Bool} {redact : String → String}
  {host : String → Option String}
  {queue next : Queue} {id : DownloadId} {attempt : FileAttempt} {reason : StopReason}
  {row : DownloadRow}

/-! ## What an attempt makes of its own row -/

/-- The file is held by an attempt that heads for the stop. -/
def Kept (queue : Queue) (id : DownloadId) (reason : StopReason) : Prop :=
  ∃ attempt row, queue.attempts id = some attempt ∧ queue.table.row? id = some row ∧
    attempt.phase.Heads attempt.file reason row

theorem enter_kept {phase : AttemptPhase} (hrow : queue.table.row? id = some row)
    (hheads : phase.Heads attempt.file reason row) :
    (queue.enter id attempt phase).Kept id reason :=
  ⟨{ attempt with phase }, row, if_pos rfl, hrow, hheads⟩

theorem fault_kept {failure : Failure} {panicked : Bool} (hrow : queue.table.row? id = some row)
    (hhonoured : reason.Honoured row) :
    (queue.fault id attempt failure panicked).Kept id reason := by
  apply enter_kept hrow
  split <;> exact ⟨.inl hhonoured, trivial⟩

theorem written_kept {answer : Except Refusal DownloadTable} {phase : AttemptPhase}
    (hrow : queue.table.row? id = some row)
    (hok : ∀ table, answer = .ok table →
      ∃ row, table.row? id = some row ∧ phase.Heads attempt.file reason row)
    (herror : ∀ refusal, answer = .error refusal → reason.Honoured row) :
    (queue.written id attempt answer phase).Kept id reason := by
  cases answer with
  | ok table =>
    obtain ⟨row', hrow', hheads⟩ := hok table rfl
    exact enter_kept hrow' hheads
  | error refusal => exact fault_kept hrow (herror refusal rfl)

/-- A transition of the attempt: it is refused only for a row that rests as the stop asks. -/
theorem transition_kept {state : DownloadState} {cause : Option String} {phase : AttemptPhase}
    (hrow : queue.table.row? id = some row)
    (hmove : reason.Honoured row ∨ row.state.canTransitionTo state)
    (hheads : phase.Heads attempt.file reason (DownloadTable.setState state cause row)) :
    (queue.written id attempt (queue.table.transitionWithReason announced id state cause)
      phase).Kept id reason := by
  apply written_kept hrow
  · intro table hok
    obtain ⟨row', hrow', -, hwrote⟩ := DownloadTable.wrote_of_transition hok
    obtain rfl := Option.some.inj (hrow.symm.trans hrow')
    exact ⟨_, hwrote.row?_self hrow hheads.awaiting, hheads⟩
  · intro refusal herror
    rcases hmove with hhonoured | hmove
    · exact hhonoured
    · obtain ⟨table, hok⟩ := DownloadTable.transition_of_canTransition hrow hmove
      cases hok.symm.trans herror

theorem stop_kept (hrow : queue.table.row? id = some row)
    (hheads : (AttemptPhase.stopping reason).Heads attempt.file reason row) :
    (queue.written id attempt (writeStop announced queue.table id reason) .finished).Kept id
      reason := by
  have hmove : ∀ state, state = .paused ∨ state = .cancelled ∨ state = .blocked →
      reason.Honoured row ∨ row.state.canTransitionTo state := by
    intro state hstate
    rcases hheads.1 with h | h
    · exact .inl h
    · right
      rcases h with h | h <;> rcases hstate with rfl | rfl | rfl <;> rw [h] <;> rfl
  cases reason with
  | paused => exact transition_kept hrow (hmove _ (.inl rfl)) ⟨.inl (.inr rfl), trivial⟩
  | cancelled =>
    exact transition_kept hrow (hmove _ (.inr (.inl rfl))) ⟨.inl (.inr rfl), trivial⟩
  | blocked cause =>
    exact transition_kept hrow (hmove _ (.inr (.inr rfl))) ⟨.inl (.inr ⟨rfl, rfl⟩), trivial⟩

theorem complete_kept (hrow : queue.table.row? id = some row)
    (hheads : AttemptPhase.verifying.Heads attempt.file reason row) :
    (queue.written id attempt (queue.table.completeDownload announced id) .finished).Kept id
      reason := by
  apply written_kept hrow
  · intro table hok
    obtain ⟨row', hrow', -, hwrote⟩ := DownloadTable.wrote_of_completeDownload hok
    have hcompleted : (setCompleted row).awaiting = none :=
      DownloadRow.awaiting_of_not_verifying nofun
    exact ⟨_, hwrote.row?_self hrow hcompleted, .inl (.inl rfl), trivial⟩
  · intro refusal herror
    rcases hheads.1 with h | h
    · exact h
    · rw [DownloadTable.completeDownload, hrow] at herror
      dsimp only at herror
      rw [h.1] at herror
      cases herror

/-- One step of an attempt that heads for the stop. -/
theorem attemptStep_kept {event : AttemptEvent} (hrow : queue.table.row? id = some row)
    (hheads : attempt.phase.Heads attempt.file reason row)
    (hattempt : queue.attempts id = some attempt)
    (hreason : queue.active.reasons id = some reason) (hwanted : queue.wanted id = some reason)
    (hallowed : queue.Undisturbed (.attempt id event)) (hevent : event ≠ .leave)
    (hstep : queue.attemptStep announced redact host id attempt event = some next) :
    next.Kept id reason := by
  have hnever : queue.wanted id ≠ none := by rw [hwanted]; nofun
  obtain ⟨file, phase, ended⟩ := attempt
  cases event with
  | requeue =>
    cases phase with
    | claimed =>
      by_cases hwait : file.state = .retryWait
      · cases (if_pos hwait).symm.trans hstep
        refine transition_kept hrow (hheads.1.imp_right fun hmove => ?_) ⟨.inr rfl, trivial⟩
        simpa [AttemptPhase.Going, hwait] using hmove
      · cases (if_neg hwait).symm.trans hstep
    | _ => cases hstep
  | resolve =>
    cases phase with
    | claimed =>
      by_cases hwait : file.state = .retryWait
      · cases (if_pos hwait).symm.trans hstep
      · cases (if_neg hwait).symm.trans hstep
        refine transition_kept hrow (hheads.1.imp_right fun hmove => ?_) ⟨.inr rfl, trivial⟩
        simpa [AttemptPhase.Going, hwait] using hmove
    | requeued =>
      cases hstep
      refine transition_kept hrow (hheads.1.imp_right fun hmove => ?_) ⟨.inr rfl, trivial⟩
      rw [show row.state = .queued from hmove]
      rfl
    | _ => cases hstep
  | download =>
    cases phase with
    | resolving =>
      cases hstep
      refine transition_kept hrow (hheads.1.imp_right fun hmove => ?_) ⟨.inr rfl, trivial⟩
      rw [show row.state = .resolving from hmove]
      rfl
    | _ => cases hstep
  | verify =>
    cases phase with
    | downloading =>
      cases hstep
      refine transition_kept hrow (hheads.1.imp_right fun hmove => ?_)
        ⟨.inr ⟨rfl, hallowed.resolve_left hnever row hrow⟩, trivial⟩
      rw [show row.state = .downloading from hmove]
      rfl
    | _ => cases hstep
  | complete =>
    cases phase with
    | verifying =>
      cases hstep
      exact complete_kept hrow hheads
    | _ => cases hstep
  | detach | meet | err => exact absurd hallowed hnever
  | block cause =>
    obtain rfl : reason = .blocked cause := hallowed reason hwanted
    cases phase with
    | resolving =>
      cases hstep
      refine transition_kept hrow (hheads.1.imp_right fun hmove => ?_)
        ⟨.inl (.inr ⟨rfl, rfl⟩), trivial⟩
      rw [show row.state = .resolving from hmove]
      rfl
    | downloading =>
      cases hstep
      refine transition_kept hrow (hheads.1.imp_right fun hmove => ?_)
        ⟨.inl (.inr ⟨rfl, rfl⟩), trivial⟩
      rw [show row.state = .downloading from hmove]
      rfl
    | verifying =>
      cases hstep
      refine transition_kept hrow (hheads.1.imp_right fun hmove => ?_)
        ⟨.inl (.inr ⟨rfl, rfl⟩), trivial⟩
      rw [show row.state = .verifying from hmove.1]
      rfl
    | _ => cases hstep
  | notice =>
    have hnoticed : queue.noticed id = .stopping reason := by
      rw [noticed, hreason]
    cases phase with
    | resolving =>
      by_cases htoken : queue.active.tokens id = some true
      · cases (if_pos htoken).symm.trans hstep
        rw [hnoticed]
        exact enter_kept hrow ⟨hheads.1.imp_right .inl, rfl⟩
      · cases (if_neg htoken).symm.trans hstep
    | downloading =>
      by_cases htoken : queue.active.tokens id = some true
      · cases (if_pos htoken).symm.trans hstep
        rw [hnoticed]
        exact enter_kept hrow ⟨hheads.1.imp_right .inr, rfl⟩
      · cases (if_neg htoken).symm.trans hstep
    | _ => cases hstep
  | stop =>
    cases phase with
    | stopping read =>
      obtain rfl : read = reason := hheads.2
      cases hstep
      exact stop_kept hrow hheads
    | _ => cases hstep
  | refresh | decide =>
    cases phase with
    | failing => exact hheads.2.elim
    | _ => cases hstep
  | record =>
    cases phase with
    | recording => exact hheads.2.elim
    | _ => cases hstep
  | promote =>
    cases phase with
    | promoting => exact hheads.2.elim
    | _ => cases hstep
  | look =>
    cases phase with
    | erred failure panicked =>
      have hhonoured : reason.Honoured row := hheads.1.resolve_right fun h => h
      have hresting : ¬ (row.state.isWorking ∨
          panicked ∧ (row.state = .queued ∨ row.state = .retryWait)) := by
        rcases hhonoured.resting with h | h | h | h <;> simp [h, DownloadState.isWorking]
      have hfinished : queue.attemptStep announced redact host id
          ⟨file, .erred failure panicked, ended⟩ .look =
          some (queue.enter id ⟨file, .erred failure panicked, true⟩ .finished) := by
        rw [attemptStep, hrow]
        exact if_neg hresting
      cases hfinished.symm.trans hstep
      exact enter_kept hrow ⟨.inl hhonoured, trivial⟩
    | _ => cases hstep
  | leave => exact absurd rfl hevent

/-! ## What an attempt leaves alone -/

/-- The step changes the attempt of `id` and at most the row of `target`. -/
structure Framed (announced : PackageId → Bool) (queue : Queue) (id target : DownloadId)
    (next : Queue) : Prop where
  active : next.active = queue.active
  wanted : next.wanted = queue.wanted
  others : ∀ other, other ≠ id → next.attempts other = queue.attempts other
  held : (next.attempts id).isSome
  table : next.table = queue.table ∨
    ∃ f, DownloadTable.Wrote announced queue.table target f next.table

theorem enter_framed (phase : AttemptPhase) (target : DownloadId) :
    Framed announced queue id target (queue.enter id attempt phase) where
  active := rfl
  wanted := rfl
  others _ hne := if_neg hne
  held := (congrArg Option.isSome (if_pos rfl)).trans rfl
  table := .inl rfl

theorem written_framed {target : DownloadId} {answer : Except Refusal DownloadTable}
    (phase : AttemptPhase)
    (hwrote : ∀ table, answer = .ok table →
      ∃ f, DownloadTable.Wrote announced queue.table target f table) :
    Framed announced queue id target (queue.written id attempt answer phase) := by
  cases answer with
  | ok table =>
    have hentered := @enter_framed announced { queue with table } id attempt phase target
    exact ⟨hentered.active, hentered.wanted, hentered.others, hentered.held,
      .inr (hwrote table rfl)⟩
  | error refusal => exact enter_framed _ target

theorem transition_framed {target : DownloadId} {state : DownloadState} {cause : Option String}
    (phase : AttemptPhase) :
    Framed announced queue id target
      (queue.written id attempt (queue.table.transitionWithReason announced target state cause)
        phase) := by
  refine written_framed phase fun table hok => ?_
  obtain ⟨row, -, -, hwrote⟩ := DownloadTable.wrote_of_transition hok
  exact ⟨_, hwrote⟩

theorem attemptStep_framed {event : AttemptEvent} (hevent : event ≠ .leave)
    (hstep : queue.attemptStep announced redact host id attempt event = some next) :
    ∃ target, (target = id ∨ event = .promote ∧ attempt.phase = .promoting target) ∧
      Framed announced queue id target next := by
  obtain ⟨file, phase, ended⟩ := attempt
  cases event with
  | requeue =>
    cases phase with
    | claimed =>
      by_cases hwait : file.state = .retryWait
      · cases (if_pos hwait).symm.trans hstep
        exact ⟨id, .inl rfl, transition_framed _⟩
      · cases (if_neg hwait).symm.trans hstep
    | _ => cases hstep
  | resolve =>
    cases phase with
    | claimed =>
      by_cases hwait : file.state = .retryWait
      · cases (if_pos hwait).symm.trans hstep
      · cases (if_neg hwait).symm.trans hstep
        exact ⟨id, .inl rfl, transition_framed _⟩
    | requeued =>
      cases hstep
      exact ⟨id, .inl rfl, transition_framed _⟩
    | _ => cases hstep
  | download | verify | detach | block =>
    cases phase with
    | resolving | downloading | verifying =>
      cases hstep
      try exact ⟨id, .inl rfl, transition_framed _⟩
    | _ => cases hstep
  | complete =>
    cases phase with
    | verifying =>
      cases hstep
      refine ⟨id, .inl rfl, written_framed _ fun table hok => ?_⟩
      obtain ⟨row, -, -, hwrote⟩ := DownloadTable.wrote_of_completeDownload hok
      exact ⟨_, hwrote⟩
    | _ => cases hstep
  | notice =>
    cases phase with
    | resolving | downloading =>
      by_cases htoken : queue.active.tokens id = some true
      · cases (if_pos htoken).symm.trans hstep
        exact ⟨id, .inl rfl, enter_framed _ id⟩
      · cases (if_neg htoken).symm.trans hstep
    | _ => cases hstep
  | stop =>
    cases phase with
    | stopping reason =>
      cases hstep
      cases reason <;> exact ⟨id, .inl rfl, transition_framed _⟩
    | _ => cases hstep
  | meet =>
    cases phase with
    | resolving | downloading | verifying =>
      cases hstep
      exact ⟨id, .inl rfl, enter_framed _ id⟩
    | _ => cases hstep
  | refresh due =>
    cases phase with
    | failing failure row =>
      by_cases hrefused : ended ∨
          ¬ (failure.category = .authRequired ∨ failure.category = .accountInvalid)
      · cases (if_pos hrefused).symm.trans hstep
      · cases (if_neg hrefused).symm.trans hstep
        exact ⟨id, .inl rfl, enter_framed _ id⟩
    | _ => cases hstep
  | decide =>
    cases phase with
    | failing =>
      cases hstep
      exact ⟨id, .inl rfl, enter_framed _ id⟩
    | _ => cases hstep
  | record =>
    cases phase with
    | recording =>
      cases hstep
      refine ⟨id, .inl rfl, written_framed _ fun table hok => ?_⟩
      exact ⟨_, DownloadTable.wrote_of_recordFailure hok⟩
    | _ => cases hstep
  | promote =>
    cases phase with
    | promoting target =>
      cases hstep
      exact ⟨target, .inr ⟨rfl, rfl⟩, transition_framed _⟩
    | _ => cases hstep
  | err =>
    cases phase with
    | erred | finished => cases hstep
    | _ =>
      cases hstep
      exact ⟨id, .inl rfl, enter_framed _ id⟩
  | look =>
    cases phase with
    | erred failure panicked =>
      rw [attemptStep] at hstep
      dsimp only at hstep
      split at hstep
      · cases hstep
        exact ⟨id, .inl rfl, enter_framed _ id⟩
      · split at hstep <;> cases hstep <;> exact ⟨id, .inl rfl, enter_framed _ id⟩
    | _ => cases hstep
  | leave => exact absurd rfl hevent

/-! ## Runs -/

/-- A file has a token as long as it has an attempt. -/
def Manned (queue : Queue) : Prop :=
  ∀ id, (queue.active.tokens id).isSome = (queue.attempts id).isSome

theorem Manned.framed {target : DownloadId} (h : queue.Manned)
    (hattempt : queue.attempts id = some attempt)
    (hframed : Framed announced queue id target next) : next.Manned := by
  intro other
  rw [hframed.active, h]
  by_cases hid : other = id
  · rw [hid, hattempt, hframed.held]
    rfl
  · rw [hframed.others other hid]

theorem Manned.leave (h : queue.Manned) (id : DownloadId) :
    (({ queue with active := queue.active.giveBack id }.setAttempt id none).setWanted id
      none).Manned := by
  intro other
  by_cases hid : other = id
  · simp [setWanted, setAttempt, ActiveState.giveBack, hid]
  · simpa [setWanted, setAttempt, ActiveState.giveBack, hid] using h other

theorem Manned.claim (h : queue.Manned) (file : DownloadRow) :
    (Queue.setAttempt { queue with active := queue.active.startToken file.id } file.id
      (some { file, phase := .claimed })).Manned := by
  intro other
  by_cases hid : other = file.id
  · simp [setAttempt, ActiveState.startToken, hid]
  · simpa [setAttempt, ActiveState.startToken, hid] using h other

/-- Asking for a stop gives no token and takes none. -/
theorem isSome_tokens_asked (active : ActiveState) (id other : DownloadId) (asked : StopReason) :
    (((active.insertReason id asked).cancelToken id).tokens other).isSome =
      (active.tokens other).isSome := by
  by_cases hid : other = id
  · simp [ActiveState.cancelToken, ActiveState.insertReason, hid]
  · simp [ActiveState.cancelToken, ActiveState.insertReason, hid]

/-- Every stop that was asked for has its reason and an attempt that heads for it. -/
structure Answering (queue : Queue) : Prop where
  tokens : ∀ id, (queue.active.tokens id).isSome = (queue.attempts id).isSome
  reasons : ∀ id reason, queue.wanted id = some reason → queue.active.reasons id = some reason
  kept : ∀ id reason, queue.wanted id = some reason → queue.Kept id reason

theorem Answering.token (h : queue.Answering) (hwanted : queue.wanted id = some reason) :
    (queue.active.tokens id).isSome := by
  obtain ⟨attempt, row, hattempt, -⟩ := h.kept id reason hwanted
  rw [h.tokens, hattempt]
  rfl

theorem Kept.congr (h : queue.Kept id reason) (hattempts : next.attempts id = queue.attempts id)
    (htable : next.table = queue.table) : next.Kept id reason := by
  rw [Kept, hattempts, htable]
  exact h

theorem Kept.wrote {other : DownloadId} {f : DownloadRow → DownloadRow} (h : queue.Kept id reason)
    (hattempts : next.attempts id = queue.attempts id)
    (hwrote : DownloadTable.Wrote announced queue.table other f next.table) (hne : id ≠ other) :
    next.Kept id reason := by
  obtain ⟨attempt, row, hattempt, hrow, hheads⟩ := h
  exact ⟨attempt, row, hattempts.trans hattempt, hwrote.row?_other hne hrow hheads.awaiting,
    hheads⟩

/-- A write to the row of a file no stop is wanted of. -/
theorem Answering.wrote {other : DownloadId} {f : DownloadRow → DownloadRow} (h : queue.Answering)
    (hother : queue.wanted other = none) {table : DownloadTable}
    (hwrote : DownloadTable.Wrote announced queue.table other f table) :
    ({ queue with table } : Queue).Answering where
  tokens := h.tokens
  reasons := h.reasons
  kept id reason hwanted := by
    refine (h.kept id reason hwanted).wrote rfl hwrote ?_
    rintro rfl
    cases hother.symm.trans hwanted

theorem Answering.forget (h : queue.Answering) (id : DownloadId) :
    (queue.setWanted id none).Answering where
  tokens := h.tokens
  reasons other reason hwanted := by
    by_cases hid : other = id
    · cases (if_pos hid).symm.trans hwanted
    · exact h.reasons other reason ((if_neg hid).symm.trans hwanted)
  kept other reason hwanted := by
    by_cases hid : other = id
    · cases (if_pos hid).symm.trans hwanted
    · exact h.kept other reason ((if_neg hid).symm.trans hwanted)

theorem Answering.step_attempt {event : AttemptEvent} (h : queue.Answering)
    (hallowed : queue.Undisturbed (.attempt id event)) (hevent : event ≠ .leave)
    (hattempt : queue.attempts id = some attempt)
    (hstep : queue.attemptStep announced redact host id attempt event = some next) :
    next.Answering := by
  obtain ⟨target, htarget, hframed⟩ := attemptStep_framed hevent hstep
  have htargetWanted : ∀ other reason, other ≠ id → queue.wanted other = some reason →
      other ≠ target := by
    rintro other reason hne hwanted rfl
    rcases htarget with rfl | ⟨rfl, hphase⟩
    · exact hne rfl
    · cases (hallowed attempt other hattempt hphase).symm.trans hwanted
  refine ⟨Manned.framed h.tokens hattempt hframed, fun other reason hwanted => ?_,
    fun other reason hwanted => ?_⟩
  · rw [hframed.active]
    exact h.reasons other reason (hframed.wanted ▸ hwanted)
  · rw [hframed.wanted] at hwanted
    by_cases hid : other = id
    · subst hid
      obtain ⟨attempt', row, hattempt', hrow, hheads⟩ := h.kept other reason hwanted
      obtain rfl := Option.some.inj (hattempt.symm.trans hattempt')
      exact attemptStep_kept hrow hheads hattempt (h.reasons other reason hwanted) hwanted hallowed
        hevent hstep
    · have hkept := h.kept other reason hwanted
      rcases hframed.table with htable | ⟨f, hwrote⟩
      · exact hkept.congr (hframed.others other hid) htable
      · exact hkept.wrote (hframed.others other hid) hwrote
          (htargetWanted other reason hid hwanted)

theorem Answering.leave (h : queue.Answering) (id : DownloadId) :
    (({ queue with active := queue.active.giveBack id }.setAttempt id none).setWanted id
      none).Answering := by
  refine ⟨Manned.leave h.tokens id, fun other reason hwanted => ?_,
    fun other reason hwanted => ?_⟩
  · by_cases hid : other = id
    · cases (if_pos hid).symm.trans hwanted
    · have hwanted := (if_neg hid).symm.trans hwanted
      simpa [setWanted, setAttempt, ActiveState.giveBack, hid] using h.reasons other reason hwanted
  · by_cases hid : other = id
    · cases (if_pos hid).symm.trans hwanted
    · exact (h.kept other reason ((if_neg hid).symm.trans hwanted)).congr (if_neg hid) rfl

theorem Answering.claim (h : queue.Answering) {file : DownloadRow}
    (hfree : queue.active.untouchable file.id = false) :
    (Queue.setAttempt { queue with active := queue.active.startToken file.id } file.id
      (some { file, phase := .claimed })).Answering := by
  have hidle : queue.active.tokens file.id = none := by
    simp only [ActiveState.untouchable, Bool.or_eq_false_iff] at hfree
    simpa using hfree.1.1
  have hne : ∀ id reason, queue.wanted id = some reason → id ≠ file.id := by
    rintro id reason hwanted rfl
    have htoken := h.token hwanted
    rw [hidle] at htoken
    cases htoken
  refine ⟨Manned.claim h.tokens file, h.reasons, fun other reason hwanted => ?_⟩
  exact (h.kept other reason hwanted).congr (if_neg (hne other reason hwanted)) rfl

theorem Answering.request (h : queue.Answering) {asked : StopReason}
    (hallowed : queue.Undisturbed (.request id asked))
    (hstep : queue.step announced redact host (.request id asked) = some next) :
    next.Answering := by
  have htokens other := isSome_tokens_asked queue.active id other asked
  by_cases htoken : (queue.active.tokens id).isSome
  · cases (if_pos htoken).symm.trans hstep
    refine ⟨fun other => (htokens other).trans (h.tokens other), fun other reason hwanted => ?_,
      fun other reason hwanted => ?_⟩
    · by_cases hid : other = id
      · cases (if_pos hid).symm.trans hwanted
        exact if_pos hid
      · exact (if_neg hid).trans (h.reasons other reason ((if_neg hid).symm.trans hwanted))
    · by_cases hid : other = id
      · cases (if_pos hid).symm.trans hwanted
        subst hid
        obtain ⟨attempt, hattempt⟩ := Option.isSome_iff_exists.mp (h.tokens other ▸ htoken)
        obtain ⟨row, hrow, hheads⟩ := hallowed attempt hattempt
        exact ⟨attempt, row, hattempt, hrow, hheads⟩
      · exact (h.kept other reason ((if_neg hid).symm.trans hwanted)).congr rfl rfl
  · cases (if_neg htoken).symm.trans hstep
    refine ⟨fun other => (htokens other).trans (h.tokens other), fun other reason hwanted => ?_,
      fun other reason hwanted => (h.kept other reason hwanted).congr rfl rfl⟩
    have hid : other ≠ id := by
      rintro rfl
      exact htoken (h.token hwanted)
    exact (if_neg hid).trans (h.reasons other reason hwanted)

theorem Answering.resume (h : queue.Answering)
    (hstep : queue.step announced redact host (.resume id) = some next) : next.Answering := by
  rw [Queue.step] at hstep
  have hforgot := h.forget id
  have hnone : (queue.setWanted id none).wanted id = none := if_pos rfl
  rw [DownloadTable.queueAgain] at hstep
  split at hstep
  · next hqueued =>
    cases hstep
    split at hqueued
    · next table hretried =>
      cases hqueued
      split at hretried
      · exact hforgot.wrote hnone (DownloadTable.wrote_of_requeueFailed hretried)
      · cases hretried
    · split at hqueued
      · cases hqueued
      · next table hmoved =>
        cases hqueued
        obtain ⟨row, -, -, hwrote⟩ := DownloadTable.wrote_of_transition hmoved
        exact hforgot.wrote hnone hwrote
  · next hrefused =>
    cases hstep
    split at hrefused
    · cases hrefused
    · split at hrefused <;> cases hrefused
      exact h

theorem Answering.step {event : QueueEvent} (h : queue.Answering)
    (hallowed : queue.Undisturbed event)
    (hstep : queue.step announced redact host event = some next) : next.Answering := by
  cases event with
  | claim file =>
    have hstep : (if queue.shutdown ∨ queue.active.untouchable file.id ∨
        ¬ (file.state = .queued ∨ file.state = .retryWait) then none
      else some (Queue.setAttempt { queue with active := queue.active.startToken file.id } file.id
        (some { file, phase := .claimed }))) = some next := hstep
    split at hstep
    · cases hstep
    · next hfree =>
      cases hstep
      apply h.claim
      simp only [not_or, Bool.not_eq_true] at hfree
      exact hfree.2.1
  | attempt id event =>
    rw [Queue.step] at hstep
    split at hstep
    · next attempt hattempt =>
      by_cases hleave : event = .leave
      · subst hleave
        obtain ⟨file, phase, ended⟩ := attempt
        cases phase with
        | finished =>
          cases hstep
          exact h.leave id
        | _ => cases hstep
      · exact h.step_attempt hallowed hleave hattempt hstep
    · cases hstep
  | request id reason => exact h.request hallowed hstep
  | release id =>
    cases hstep
    refine ⟨h.tokens, fun other reason hwanted => ?_, h.kept⟩
    have htoken := h.token hwanted
    rw [← h.reasons other reason hwanted]
    refine if_neg fun hidle => ?_
    obtain ⟨rfl, hidle⟩ := hidle
    rw [Option.isNone_iff_eq_none] at hidle
    rw [hidle] at htoken
    cases htoken
  | hold id =>
    have hstep : (if (queue.active.tokens id).isSome then none
      else some { queue with active := queue.active.takeHold id }) = some next := hstep
    split at hstep
    · cases hstep
    · cases hstep
      exact ⟨h.tokens, h.reasons, h.kept⟩
  | letGo id =>
    cases hstep
    exact ⟨h.tokens, h.reasons, h.kept⟩
  | write id state cause =>
    rw [Queue.step] at hstep
    split at hstep
    · next table hmoved =>
      cases hstep
      obtain ⟨row, -, -, hwrote⟩ := DownloadTable.wrote_of_transition hmoved
      exact h.wrote hallowed hwrote
    · cases hstep
      exact h
  | retry id autoRetry =>
    rw [Queue.step] at hstep
    split at hstep
    · next table hretried =>
      cases hstep
      exact h.wrote hallowed (DownloadTable.wrote_of_requeueFailed hretried)
    · cases hstep
      exact h
  | resume id => exact h.resume hstep
  | shutDown =>
    cases hstep
    refine ⟨fun id => ?_, h.reasons, h.kept⟩
    rw [← h.tokens]
    exact Option.isSome_map

theorem Idle.answering (h : queue.Idle) : queue.Answering where
  tokens id := by rw [h.tokens, h.attempts]; rfl
  reasons id reason hwanted := by cases (h.wanted id).symm.trans hwanted
  kept id reason hwanted := by cases (h.wanted id).symm.trans hwanted

theorem Answering.stopsKept (h : queue.Answering) : queue.StopsKept := by
  intro id attempt reason hattempt hfinished hwanted
  obtain ⟨attempt', row, hattempt', hrow, hheads, -⟩ := h.kept id reason hwanted
  obtain rfl := Option.some.inj (hattempt.symm.trans hattempt')
  rw [hfinished] at hheads
  exact ⟨row, hrow, hheads.resolve_right fun h => h⟩

/-- Where nothing goes wrong for it, no stop request is lost in any state of any run. -/
theorem stopsKept_of_reaches (announced : PackageId → Bool) (redact : String → String)
    (host : String → Option String) (queue : Queue)
    (h : (machine announced redact host).Reaches Undisturbed queue) : queue.StopsKept :=
  Answering.stopsKept (h.invariant Answering (fun _ => Idle.answering)
    fun _ _ _ hanswering hallowed hstep => hanswering.step hallowed hstep)

/-- One queued file and nobody running. -/
def oneFile : Queue where
  table := { rows := [{ id := 1, packageId := 1, state := .queued }], keyed := by decide }
  active := { tokens := fun _ => none, reasons := fun _ => none, held := fun _ => 0 }
  attempts _ := none
  shutdown := false
  wanted _ := none

theorem oneFile_idle : oneFile.Idle where
  tokens _ := rfl
  attempts _ := rfl
  wanted _ := rfl

/-- The file is transferring when a pause is asked for. -/
def askedToPause : List QueueEvent :=
  [.claim { id := 1, packageId := 1, state := .queued }, .attempt 1 .resolve, .attempt 1 .download,
    .request 1 .paused]

/-- The attempt notices the pause. -/
def pausedRun : List QueueEvent :=
  askedToPause ++ [.attempt 1 .notice, .attempt 1 .stop]

/-- The connection breaks before the attempt notices the pause. -/
def brokenRun : List QueueEvent :=
  askedToPause ++ [.attempt 1 (.meet (transientFailure "connection reset")),
    .attempt 1 (.decide 8 60), .attempt 1 .record]

/-- The queue of hosts that name nothing, whose texts hold nothing to redact. -/
def quietMachine : Machine Queue QueueEvent :=
  machine (fun _ => false) (fun text => text) fun _ => none

/-- What has become of the one file: its state, the stop that is wanted, and whether its attempt has
ended. -/
def outcome (queue : Queue) : Option DownloadState × Option StopReason × Option Bool :=
  ((queue.table.row? 1).map (·.state), queue.wanted 1,
    (queue.attempts 1).map fun attempt => attempt.phase matches .finished)

theorem outcome_eq {state : DownloadState}
    (h : queue.outcome = (some state, some reason, some true)) :
    (∃ row, queue.table.row? 1 = some row ∧ row.state = state) ∧ queue.wanted 1 = some reason ∧
      ∃ attempt, queue.attempts 1 = some attempt ∧ attempt.phase = .finished := by
  simp only [outcome, Prod.mk.injEq, Option.map_eq_some_iff] at h
  obtain ⟨hrow, hwanted, attempt, hattempt, hphase⟩ := h
  refine ⟨hrow, hwanted, attempt, hattempt, ?_⟩
  cases hcase : attempt.phase with
  | finished => rfl
  | _ => rw [hcase] at hphase; cases hphase

/-- A pause accepted while the file transfers ends in a retry, where the connection breaks before
the attempt notices it. -/
theorem pause_lost :
    ∃ queue : Queue, quietMachine.Reaches Machine.anything queue ∧
      queue.outcome = (some .retryWait, some .paused, some true) ∧ ¬ queue.StopsKept := by
  have hruns : (quietMachine.run oneFile brokenRun).map outcome =
      some (some .retryWait, some .paused, some true) := by decide +kernel
  obtain ⟨queue, hrun, houtcome⟩ := Option.map_eq_some_iff.mp hruns
  refine ⟨queue, Machine.Reaches.run (.initial oneFile_idle) hrun, houtcome, fun hkept => ?_⟩
  obtain ⟨⟨row, hrow, hstate⟩, hwanted, attempt, hattempt, hphase⟩ := outcome_eq houtcome
  obtain ⟨row', hrow', hhonoured⟩ := hkept 1 attempt .paused hattempt hphase hwanted
  obtain rfl := Option.some.inj (hrow.symm.trans hrow')
  rcases hhonoured with h | h <;> cases hstate.symm.trans h

theorem pausedRun_undisturbed :
    quietMachine.Within Undisturbed oneFile pausedRun := by
  refine fun claimed h => ⟨trivial, ?_⟩
  cases h
  refine fun resolving h => ⟨trivial, ?_⟩
  cases h
  refine fun downloading h => ⟨trivial, ?_⟩
  cases h
  refine fun asked h => ⟨fun attempt hattempt => ?_, ?_⟩
  · cases hattempt
    exact ⟨_, rfl, .inr rfl, trivial⟩
  · cases h
    refine fun stopping h => ⟨trivial, ?_⟩
    cases h
    exact fun stopped h => ⟨trivial, trivial⟩

/-- A pause that the attempt notices leaves the file paused. -/
theorem stopsKept_of_reaches_pausedRun :
    ∃ queue : Queue,
      queue.outcome = (some .paused, some .paused, some true) ∧ queue.StopsKept := by
  have hruns : (quietMachine.run oneFile pausedRun).map outcome =
      some (some .paused, some .paused, some true) := by decide +kernel
  obtain ⟨queue, hrun, houtcome⟩ := Option.map_eq_some_iff.mp hruns
  exact ⟨queue, houtcome, stopsKept_of_reaches _ _ _ queue
    ((Machine.Reaches.initial oneFile_idle).within pausedRun_undisturbed hrun)⟩

end Queue
end RDownloader
