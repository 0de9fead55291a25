import RDownloader.RemoteJobs.SubmitLimit

/-!
# What a remote job that ended keeps

The store refuses a write that names a state the row may not reach. A refusal that waits names no
state: it is written whatever the row's state is by then, and it puts its own code, message and next
poll time over those the row ended with.
-/

namespace RDownloader

open RemoteJobStore

namespace RemoteJobs

variable {jobs next : RemoteJobs} {rows rows' : List RemoteJob} {job row row' : RemoteJob}
  {input : AdvanceRemoteJob} {id : RemoteJobId} {now clock : Instant}
  {accounts : List JobAccountId} {queue : List RemoteJob} {at_ : Driving}

/-- What a row ended with is what it still says, unless the job has been discarded since. -/
def StaysEnded (row row' : RemoteJob) : Prop :=
  row'.remoteId = row.remoteId ∧
    ((row'.state = row.state ∧ row'.code = row.code ∧ row'.message = row.message ∧
        row'.nextPollAt = row.nextPollAt) ∨
      (row.state ≠ .discarded ∧ row'.state = .discarded ∧
        row'.code = some "remote_job.discarded" ∧ row'.nextPollAt = none))

/-- Every job that has ended stays as it ended. -/
def KeepsEnded (jobs next : RemoteJobs) : Prop :=
  ∀ row ∈ jobs.rows, row.state.isTerminal → ∀ row' ∈ next.rows, row'.id = row.id →
    StaysEnded row row'

/-- No refusal that waits is written to a row that has ended meanwhile. -/
def InTime (jobs : RemoteJobs) : RemoteJobEvent → Prop
  | .written _ => match jobs.sweep with
    | .driving _ _ _ (.writing job input) => input.state = none → input.code.isSome →
        ∀ row ∈ jobs.rows, row.id = job.id → row.state.isTerminal = false
    | _ => True
  | _ => True

/-- The kinds of writes the sweep makes. -/
inductive Written (input : AdvanceRemoteJob) : Prop
  | moves (next : RemoteJobState) (hstate : input.state = some next) (hnext : next ≠ .discarded)
      (hends : next.isTerminal → input.nextPollAt = some none)
  | checked (h : input = { adoptionChecked := true })
  | waits (code message : String) (due : Instant)
      (h : input =
        { code := some (some code), message := some (some message), nextPollAt := some (some due) })

theorem written_fail (code message : String) : Written (failWrite code message) :=
  .moves .failed rfl (by decide) fun _ => rfl

theorem written_refuse (job : RemoteJob) (refusal : JobRefusal) (now clock : Instant) :
    Written (refuseWrite job refusal now clock) := by
  rw [refuseWrite]
  split
  · exact written_fail ..
  · exact .waits _ _ _ rfl

theorem written_submitted (job : RemoteJob) (answer : Except JobRefusal RemoteJobHandle)
    (now clock : Instant) : Written (submittedWrite job answer now clock) := by
  cases answer with
  | ok handle => exact .moves .preparing rfl (by decide) nofun
  | error refusal => exact written_refuse ..

theorem written_adopted (job : RemoteJob) (answer : Except JobRefusal (Option RemoteJobHandle))
    (now clock : Instant) : Written (adoptedWrite job answer now clock) := by
  cases answer with
  | error refusal => exact written_refuse ..
  | ok held =>
    cases held with
    | none => exact .checked rfl
    | some handle => exact .moves .preparing rfl (by decide) nofun

theorem written_settle {outcome : PollOutcome}
    (h : settleWrite job outcome now clock = some input) : Written input := by
  cases outcome with
  | preparing | awaitingChoice | working =>
    obtain rfl := Option.some.inj h
    exact .moves _ rfl (by decide) nofun
  | ready => cases h
  | refused refusal =>
    obtain rfl := Option.some.inj h
    exact written_refuse ..

/-! ## What a step does to the rows -/

inductive RowsChange (jobs : RemoteJobs) (event : RemoteJobEvent) (next : RemoteJobs) : Prop
  | kept (hrows : next.rows ⊆ jobs.rows)
  | added (row : RemoteJob) (hrows : next.rows = jobs.rows ++ [row]) (hnew : row.id ∉ jobs.claimed)
      (hstate : row.state = .submitting)
  | counted (id : RemoteJobId) (clock : Instant)
      (hrows : next.rows = afterAdvance jobs.rows id { countSubmitAttempt := true } clock)
  | requested (request : JobRequest) (clock : Instant)
      (hrows : next.rows = afterAdvance jobs.rows request.job (request.write clock) clock)
  | driven (now : Instant) (accounts : List JobAccountId) (queue : List RemoteJob) (job : RemoteJob)
      (input : AdvanceRemoteJob) (clock : Instant) (hevent : event = .written clock)
      (hsweep : jobs.sweep = .driving now accounts queue (.writing job input))
      (hrows : next.rows = afterAdvance jobs.rows job.id input clock)

variable {event : RemoteJobEvent}

theorem rowsChange_of_eq (hrows : next.rows = jobs.rows) : RowsChange jobs event next :=
  .kept (by rw [hrows]; exact List.Subset.refl _)

theorem rowsChange_of_drive (hsweep : jobs.sweep = .driving now accounts queue at_)
    (hstep : jobs.drive now accounts queue at_ event = some next) : RowsChange jobs event next := by
  unfold RemoteJobs.drive at hstep
  split at hstep
  case h_2 job clock =>
    refine .counted job.id clock ?_
    split at hstep
    · rename_i hadvance
      obtain rfl := Option.some.inj hstep
      rw [afterAdvance, hadvance]
    · rename_i hadvance
      obtain rfl := Option.some.inj hstep
      rw [afterAdvance, hadvance]
      rfl
  case h_13 job input clock =>
    obtain rfl := Option.some.inj hstep
    exact .driven now accounts queue job input clock rfl hsweep rfl
  all_goals
    repeat' split at hstep
  all_goals cases hstep
  all_goals exact rowsChange_of_eq rfl

theorem rowsChange_of_sweepStep (hstep : jobs.sweepStep event = some next) :
    RowsChange jobs event next := by
  unfold RemoteJobs.sweepStep at hstep
  split at hstep
  case h_6 hsweep => exact rowsChange_of_drive hsweep hstep
  all_goals
    repeat' split at hstep
  all_goals cases hstep
  all_goals exact rowsChange_of_eq rfl

theorem rowsChange_of_step (hstep : jobs.step event = some next) : RowsChange jobs event next := by
  cases event with
  | claims claimed now =>
    rw [RemoteJobs.step] at hstep
    split at hstep
    · cases hstep
    · rename_i hnew
      split at hstep
      · rename_i hclaim
        obtain rfl := Option.some.inj hstep
        obtain ⟨rfl, -⟩ := claim_eq_ok hclaim
        exact .added (claimed.row now) rfl hnew rfl
      · obtain rfl := Option.some.inj hstep
        exact rowsChange_of_eq rfl
  | accountAdded | stopped =>
    obtain rfl := Option.some.inj hstep
    exact rowsChange_of_eq rfl
  | accountDeleted | forget =>
    obtain rfl := Option.some.inj hstep
    exact .kept List.filter_sublist.subset
  | choose | discard =>
    rw [RemoteJobs.step] at hstep
    split at hstep <;> obtain rfl := Option.some.inj hstep <;> exact rowsChange_of_eq rfl
  | taken request now =>
    rw [RemoteJobs.step] at hstep
    split at hstep
    · obtain rfl := Option.some.inj hstep
      exact .requested request now rfl
    · cases hstep
  | refused request =>
    rw [RemoteJobs.step] at hstep
    split at hstep
    · obtain rfl := Option.some.inj hstep
      exact rowsChange_of_eq rfl
    · cases hstep
  | _ => exact rowsChange_of_sweepStep hstep

/-! ## What a write does to a row that ended -/

theorem staysEnded_refl (row : RemoteJob) : StaysEnded row row := ⟨rfl, .inl ⟨rfl, rfl, rfl, rfl⟩⟩

/-- A row after a write is as it was, or it has been written as its state allows. -/
theorem after_write (hnodup : (rows.map (·.id)).Nodup) (hrow : row ∈ rows)
    (hrow' : row' ∈ afterAdvance rows id input clock) (hid : row'.id = row.id) :
    row' = row ∨ row.id = id ∧ row' = row.advanced input clock ∧
      ∀ next, input.state = some next → row.state.mayAdvanceTo next := by
  rcases mem_afterAdvance hrow' with hmem | ⟨current, hmem, hcurrent, rfl, hadvance⟩
  · exact .inl (List.inj_on_of_nodup_map hnodup hmem hrow hid)
  · obtain rfl : current = row := List.inj_on_of_nodup_map hnodup hmem hrow hid
    obtain ⟨found, hfound, hstate, -, -⟩ := advance_eq_ok hadvance
    obtain rfl : current = found :=
      Option.some.inj ((fetch_of_mem hnodup hmem).symm.trans (hcurrent ▸ hfound))
    exact .inr ⟨hcurrent, rfl, hstate⟩

/-- A state that a row which ended may still reach is `discarded`. -/
theorem eq_discarded (hended : row.state.isTerminal)
    (hstate : ∀ next, input.state = some next → row.state.mayAdvanceTo next)
    {state : RemoteJobState} (hinput : input.state = some state) : state = .discarded :=
  RemoteJobState.mayAdvanceTo_of_isTerminal hended (hstate state hinput)

theorem staysEnded_counted (row : RemoteJob) (clock : Instant) :
    StaysEnded row (row.advanced { countSubmitAttempt := true } clock) :=
  ⟨rfl, .inl ⟨rfl, rfl, rfl, rfl⟩⟩

theorem staysEnded_request {request : JobRequest} (hended : row.state.isTerminal)
    (hstate : ∀ next, (request.write clock).state = some next → row.state.mayAdvanceTo next) :
    StaysEnded row (row.advanced (request.write clock) clock) := by
  cases request with
  | choose id chosen => cases eq_discarded hended hstate rfl
  | discard id =>
    refine ⟨rfl, .inr ⟨fun hdiscarded => ?_, rfl, rfl, rfl⟩⟩
    have := hstate .discarded rfl
    rw [hdiscarded] at this
    cases this

/-- A write of the sweep leaves a row that ended as it is, but for a refusal that waits. -/
theorem staysEnded_written (h : Written input) (hended : row.state.isTerminal)
    (hstate : ∀ next, input.state = some next → row.state.mayAdvanceTo next)
    (hwaits : input.state = none → input.code.isSome → False) :
    StaysEnded row (row.advanced input clock) := by
  cases h with
  | moves next hinput hnext => exact absurd (eq_discarded hended hstate hinput) hnext
  | checked h =>
    subst h
    exact ⟨rfl, .inl ⟨rfl, rfl, rfl, rfl⟩⟩
  | waits code message due h =>
    subst h
    exact (hwaits rfl rfl).elim

/-! ## Every step -/

/-- The sweep makes only such writes, and a row that ended is not asked about. -/
structure Settled (jobs : RemoteJobs) : Prop where
  sound : jobs.Sound
  written : ∀ now accounts queue job input,
    jobs.sweep = .driving now accounts queue (.writing job input) → Written input
  ended : ∀ row ∈ jobs.rows, row.state.isTerminal → row.nextPollAt = none

/-- What the sweep is about to write is one of its writes. -/
theorem written_of_drive (hsweep : jobs.sweep = .driving now accounts queue at_)
    (hstep : jobs.drive now accounts queue at_ event = some next) {now' accounts' queue' job' input'}
    (hnext : next.sweep = .driving now' accounts' queue' (.writing job' input')) :
    Written input' := by
  unfold RemoteJobs.drive at hstep
  split at hstep
  case h_3 | h_4 | h_5 =>
    cases hstep
    cases hnext
    exact written_refuse ..
  case h_7 =>
    cases hstep
    cases hnext
    exact written_submitted ..
  case h_9 =>
    cases hstep
    cases hnext
    exact written_adopted ..
  case h_11 =>
    split at hstep
    · rename_i hsettle
      cases hstep
      cases hnext
      exact written_settle hsettle
    · cases hstep
      cases hnext
  case h_12 =>
    split at hstep
    · cases hstep
      cases hnext
    · split at hstep
      · cases hstep
        cases hnext
        exact .moves .ready rfl (by decide) fun _ => rfl
      · cases hstep
        cases hnext
  all_goals
    repeat' split at hstep
  all_goals cases hstep
  all_goals cases hnext

theorem written_of_start {job' : RemoteJob} (h : Driving.start job = .writing job' input) :
    Written input := by
  rw [Driving.start] at h
  cases hfirst : job.submitStep with
  | submit | adopt => simp [hfirst] at h
  | giveUp =>
    simp only [hfirst, Driving.writing.injEq] at h
    exact h.2 ▸ written_fail ..
  | poll =>
    simp only [hfirst] at h
    cases hhandle : handleOf job with
    | none =>
      simp only [hhandle, Driving.writing.injEq] at h
      exact h.2 ▸ written_fail ..
    | some handle => simp [hhandle] at h

theorem written_of_sweepStep (hstep : jobs.sweepStep event = some next)
    (hnext : next.sweep = .driving now accounts queue (.writing job input)) : Written input := by
  unfold RemoteJobs.sweepStep at hstep
  split at hstep
  case h_5 =>
    split at hstep
    · cases hstep
      cases hnext
    · split at hstep
      · cases hstep
        simp only [JobSweep.driving.injEq] at hnext
        exact written_of_start hnext.2.2.2
      · cases hstep
        cases hnext
        exact written_fail ..
  case h_6 hsweep => exact written_of_drive hsweep hstep hnext
  all_goals
    repeat' split at hstep
  all_goals cases hstep
  all_goals cases hnext

theorem Settled.written_step (h : Settled jobs) (hstep : jobs.step event = some next)
    (hnext : next.sweep = .driving now accounts queue (.writing job input)) : Written input := by
  have hkeep : next.sweep = jobs.sweep → Written input :=
    fun hsame => h.written now accounts queue job input (hsame ▸ hnext)
  cases event with
  | accountAdded | accountDeleted | forget =>
    cases hstep
    exact hkeep rfl
  | stopped =>
    cases hstep
    cases hnext
  | claims | choose | discard | taken | refused =>
    rw [RemoteJobs.step] at hstep
    repeat' split at hstep
    all_goals cases hstep
    all_goals exact hkeep rfl
  | _ => exact written_of_sweepStep hstep hnext

theorem Settled.ended_step (h : Settled jobs) (hallowed : InTime jobs event)
    (hchange : RowsChange jobs event next) :
    ∀ row ∈ next.rows, row.state.isTerminal → row.nextPollAt = none := by
  intro row' hrow' hended
  -- A write of a state sets the time with it, and one that sets none leaves the state.
  have hwrite : ∀ {id input clock}, row' ∈ afterAdvance jobs.rows id input clock →
      ((∃ state, input.state = some state ∧ (state.isTerminal → input.nextPollAt = some none)) ∨
        (input.state = none ∧ (input.nextPollAt = none ∨
          ∀ row ∈ jobs.rows, row.id = id → row.state.isTerminal = false))) →
      row'.nextPollAt = none := by
    intro id input clock hmem hinput
    rcases mem_afterAdvance hmem with hmem | ⟨current, hcurrent, hid, rfl, -⟩
    · exact h.ended row' hmem hended
    · rcases hinput with ⟨state, hstate, htime⟩ | ⟨hstate, htime | hopen⟩
      · simp only [RemoteJob.advanced, hstate, Option.getD_some] at hended ⊢
        rw [htime hended]
        rfl
      · simp only [RemoteJob.advanced, hstate, htime, Option.getD_none] at hended ⊢
        exact h.ended current hcurrent hended
      · simp only [RemoteJob.advanced, hstate, Option.getD_none] at hended
        rw [hopen current hcurrent hid] at hended
        cases hended
  cases hchange with
  | kept hrows => exact h.ended row' (hrows hrow') hended
  | added row hrows hnew hstate =>
    rw [hrows] at hrow'
    rcases List.mem_append.mp hrow' with hmem | hmem
    · exact h.ended row' hmem hended
    · obtain rfl := List.mem_singleton.mp hmem
      rw [hstate] at hended
      cases hended
  | counted id clock hrows => exact hwrite (hrows ▸ hrow') (.inr ⟨rfl, .inl rfl⟩)
  | requested request clock hrows =>
    refine hwrite (hrows ▸ hrow') (.inl ?_)
    cases request with
    | choose id chosen => exact ⟨.working, rfl, nofun⟩
    | discard id => exact ⟨.discarded, rfl, fun _ => rfl⟩
  | driven now accounts queue job input clock hevent hsweep hrows =>
    refine hwrite (hrows ▸ hrow') ?_
    subst hevent
    rw [InTime, hsweep] at hallowed
    cases h.written now accounts queue job input hsweep with
    | moves state hstate _ hends => exact .inl ⟨state, hstate, hends⟩
    | checked hinput =>
      subst hinput
      exact .inr ⟨rfl, .inl rfl⟩
    | waits code message due hinput =>
      subst hinput
      exact .inr ⟨rfl, .inr (hallowed rfl rfl)⟩

theorem Settled.step (h : Settled jobs) (hallowed : InTime jobs event)
    (hstep : jobs.step event = some next) : Settled next where
  sound := h.sound.step hstep
  written _ _ _ _ _ hnext := h.written_step hstep hnext
  ended := h.ended_step hallowed (rowsChange_of_step hstep)

/-- A refusal that waits is written whatever the state of its row is. -/
theorem mem_afterAdvance_waits (hnodup : (rows.map (·.id)).Nodup) (hrow : row ∈ rows)
    (hstate : input.state = none) (hremote : input.remoteId = none) (clock : Instant) :
    row.advanced input clock ∈ afterAdvance rows row.id input clock := by
  have hadvance : advance rows row.id input clock =
      .ok (rows.map fun other => if other.id = row.id then other.advanced input clock else other) := by
    simp [advance, fetch_of_mem hnodup hrow, hstate, hremote]
  rw [afterAdvance, hadvance]
  exact List.mem_map.mpr ⟨row, hrow, if_pos rfl⟩

/-- A refusal that waits puts its own time over that of a row that ended. -/
theorem not_staysEnded_waits {code message : String} {due : Instant} (hnone : row.nextPollAt = none) :
    ¬StaysEnded row (row.advanced
      { code := some (some code), message := some (some message), nextPollAt := some (some due) }
      clock) := by
  rintro ⟨-, ⟨-, -, -, htime⟩ | ⟨hstate, hdiscarded, -⟩⟩
  · rw [hnone] at htime
    cases htime
  · exact hstate hdiscarded

/-- A step keeps what rows ended with exactly when it writes no refusal that waits to one of them. -/
theorem keepsEnded_iff (h : Settled jobs) (hstep : jobs.step event = some next) :
    KeepsEnded jobs next ↔ InTime jobs event := by
  have hchange := rowsChange_of_step hstep
  constructor
  · intro hkeeps
    cases event with
    | written clock =>
      rw [InTime]
      split
      · rename_i now accounts queue job input hsweep
        have hrows : next.rows = afterAdvance jobs.rows job.id input clock := by
          simp only [RemoteJobs.step, RemoteJobs.sweepStep, hsweep, RemoteJobs.drive,
            Option.some.injEq] at hstep
          rw [← hstep]
        intro hstate hcode row hrow hid
        cases h.written _ _ _ _ _ hsweep with
        | moves state hinput =>
          rw [hstate] at hinput
          cases hinput
        | checked hinput =>
          subst hinput
          cases hcode
        | waits code message due hinput =>
          subst hinput
          by_contra hended
          have hended : row.state.isTerminal := by simpa using hended
          have hmem := mem_afterAdvance_waits h.sound.nodup hrow hstate rfl clock
          rw [hid, ← hrows] at hmem
          exact not_staysEnded_waits (h.ended row hrow hended) (hkeeps row hrow hended _ hmem rfl)
      · trivial
    | _ => trivial
  · intro hallowed row hrow hended row' hrow' hid
    have hnodup := h.sound.nodup
    cases hchange with
    | kept hrows =>
      rw [List.inj_on_of_nodup_map hnodup (hrows hrow') hrow hid]
      exact staysEnded_refl row
    | added new hrows hnew =>
      rw [hrows] at hrow'
      rcases List.mem_append.mp hrow' with hmem | hmem
      · rw [List.inj_on_of_nodup_map hnodup hmem hrow hid]
        exact staysEnded_refl row
      · obtain rfl := List.mem_singleton.mp hmem
        exact absurd (h.sound.claimed row hrow) (hid ▸ hnew)
    | counted id clock hrows =>
      rcases after_write hnodup hrow (hrows ▸ hrow') hid with rfl | ⟨-, rfl, -⟩
      · exact staysEnded_refl _
      · exact staysEnded_counted row clock
    | requested request clock hrows =>
      rcases after_write hnodup hrow (hrows ▸ hrow') hid with rfl | ⟨-, rfl, hstate⟩
      · exact staysEnded_refl _
      · exact staysEnded_request hended hstate
    | driven now accounts queue job input clock hevent hsweep hrows =>
      rcases after_write hnodup hrow (hrows ▸ hrow') hid with rfl | ⟨hjob, rfl, hstate⟩
      · exact staysEnded_refl _
      · refine staysEnded_written (h.written _ _ _ _ _ hsweep) hended hstate fun hnone hcode => ?_
        subst hevent
        rw [InTime, hsweep] at hallowed
        rw [hallowed hnone hcode row hrow hjob] at hended
        cases hended

theorem settled_initial (h : machine.initial jobs) : Settled jobs where
  sound := sound_of_reaches (.initial h)
  written now accounts queue job input hsweep := by
    obtain rfl : jobs = {} := h
    cases hsweep
  ended := by
    obtain rfl : jobs = {} := h
    exact List.forall_mem_nil _

/-- Along a run every job that ended stays as it ended exactly as long as no refusal that waits is
written to a row that has ended meanwhile. -/
theorem ended_stays_iff (events : List RemoteJobEvent) :
    machine.Along KeepsEnded {} events ↔ machine.Within InTime {} events := by
  have hinv : ∀ state event next, Settled state → InTime state event →
      machine.step state event = some next → Settled next :=
    fun _ _ _ hsettled hallowed hstep => hsettled.step hallowed hstep
  have hexact : ∀ state event next, Settled state → machine.step state event = some next →
      (KeepsEnded state next ↔ InTime state event) :=
    fun _ _ _ hsettled hstep => keepsEnded_iff hsettled hstep
  exact Machine.along_iff hinv hexact (settled_initial rfl) events

/-- A job is polled, and while the answer is under way it is discarded at the provider. -/
def lateRefusal : List RemoteJobEvent :=
  let claimed := magnetClaim.row 0
  let named := (claimed.advanced { countSubmitAttempt := true } 1).advanced
    (namedWrite ⟨"ABC", 1, none⟩ false 0) 2
  [.accountAdded 1, .claims magnetClaim 0,
    .tick 0 [claimed], .accountsRead, .next, .sourceRead, .attemptCounted 1, .called,
    .submitAnswered (.ok ⟨"ABC", 1, none⟩) 2, .written 2, .next,
    .tick 60000 [named], .accountsRead, .next, .called,
    .discard 7 true, .taken (.discard 7) 60100,
    .pollAnswered (.refused ⟨"provider.unavailable", "try again", true, some 30⟩) "debrid" 60200]

/-- Written after the discard, the refusal puts its code and a next poll time over the row's. -/
theorem refused_after_discard : ∃ jobs next, machine.run {} lateRefusal = some jobs ∧
    machine.step jobs (.written 60200) = some next ∧
    jobs.rows.map (fun row => (row.state, row.code, row.nextPollAt)) =
      [(.discarded, some "remote_job.discarded", none)] ∧
    next.rows.map (fun row => (row.state, row.code, row.nextPollAt)) =
      [(.discarded, some "provider.unavailable", some 90000)] ∧ ¬KeepsEnded jobs next := by
  refine ⟨_, _, rfl, rfl, rfl, rfl, fun hkeeps => ?_⟩
  obtain ⟨-, ⟨-, hcode, -⟩ | ⟨hstate, -⟩⟩ :=
    hkeeps _ (List.mem_singleton_self _) rfl _ (List.mem_singleton_self _) rfl
  · exact absurd hcode (by decide)
  · exact hstate rfl

end RemoteJobs

end RDownloader
