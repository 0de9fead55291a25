import RDownloader.Db.PackageRows
import RDownloader.Lib.Machine
import RDownloader.Scheduler.RetryTimes

/-!
# The retry budget of a download (`failures.rs`, `retry.rs`, `writer_jobs.rs`)

One row through any sequence of failed attempts and of the writes between them. A retry spends the
budget, and a wait for a hoster's limit one of its own; the failure that ends the download and the
one refresh of its link are counted beside the retries, and a fresh start clears both counters.
-/

namespace RDownloader

/-- What `record_error` hands to `record_failure`: `takenOver` is the verdict of a mirror whose turn
moves on, or of a group that ran out. -/
def recorded (failure : Failure) (limitWaits : Nat) (retryAt : Option Nat)
    (takenOver : Option Failure) : Failure × Option Nat :=
  match takenOver with
  | some verdict => (verdict, none)
  | none =>
    (if retryAt.isNone && limitWaitsSpent failure limitWaits then
      failure.limitWaitsExhausted limitWaits else failure, retryAt)

/-- The consecutive limit waits `record_error` reads: only a limit reads them. -/
def DownloadRow.limitWaitsOf (row : DownloadRow) (failure : Failure) : Nat :=
  if failure.category.isLimit then row.limitWaits else 0

theorem handOver_recorded (host : String → Option String) (file : DownloadRow)
    (downloads : List DownloadRow) (failure : Failure) (retryAt : Option Nat) :
    ∃ takenOver, let verdict := handOver host file downloads failure retryAt
      (verdict.failure, verdict.retryAt) =
        match takenOver with
        | some final => (final, none)
        | none => (failure, retryAt) := by
  unfold handOver
  split
  · exact ⟨some _, rfl⟩
  · split
    · exact ⟨none, rfl⟩
    · exact ⟨some _, rfl⟩

/-- Whatever mirrors a file has, its failed attempt is recorded with the retry its budget has left
or, where the turn moves on, with none. -/
theorem recordError_recorded {table : DownloadTable} {file : DownloadRow}
    (host : String → Option String) (hfile : table.row? file.id = some file) (failure : Failure)
    (maxRetries due : Nat) :
    ∃ takenOver, let verdict := recordError host table file failure maxRetries due
      (verdict.failure, verdict.retryAt) = recorded failure (file.limitWaitsOf failure)
        (if mayRetry failure file.retryCount (file.limitWaitsOf failure) maxRetries then some due
          else none) takenOver := by
  have hwaits : (if failure.category.isLimit then
      ((table.row? file.id).map (·.limitWaits)).getD 0 else 0) = file.limitWaitsOf failure := by
    rw [hfile]
    rfl
  unfold recordError recorded
  dsimp only
  rw [hwaits]
  generalize (if mayRetry failure file.retryCount (file.limitWaitsOf failure) maxRetries then
    some due else none) = retryAt
  generalize (if retryAt.isNone && limitWaitsSpent failure (file.limitWaitsOf failure) then
    failure.limitWaitsExhausted (file.limitWaitsOf failure) else failure) = final
  split
  · exact handOver_recorded host file (table.inPackage file.packageId) final retryAt
  · exact ⟨none, rfl⟩

namespace DownloadTable

/-- The columns of `reset_row`: everything a transfer produced is cleared. -/
def resetRow (row : DownloadRow) : DownloadRow :=
  { row with
    state := .queued, committedBytes := 0, totalBytes := none, retryCount := 0, nextRetryAt := none
    lastError := none, limitWaits := 0, autoRetryRounds := 0 }

end DownloadTable

/-- `retry_count` and `limit_waits` stand as they were. -/
def DownloadRow.SameCounters (row next : DownloadRow) : Prop :=
  row.retryCount = next.retryCount ∧ row.limitWaits = next.limitWaits
  deriving Decidable

/-- Only a recorded failure and a fresh start name a counter. -/
theorem RowWrite.sameCounters_columns {write : RowWrite} (redact : String → String)
    (row : DownloadRow) (hfailure : ∀ failure retryAt, write ≠ .recordFailure failure retryAt)
    (hrequeue : ∀ autoRetry, write ≠ .requeue autoRetry) :
    row.SameCounters (write.columns redact row) := by
  cases write with
  | transition | complete => exact ⟨rfl, rfl⟩
  | recordFailure failure retryAt => exact absurd rfl (hfailure failure retryAt)
  | requeue autoRetry => exact absurd rfl (hrequeue autoRetry)

theorem DownloadRow.sameCounters_decide (row : DownloadRow) (missing : Nat) (hasPar2 : Bool) :
    row.SameCounters (row.decide missing hasPar2) := by
  cases hasPar2 <;> exact ⟨rfl, rfl⟩

/-- A row, its claim on the refresh of its link, and what its count has been spent on since its last
fresh start: retries, failures without one, refreshes. -/
structure RetryRun where
  row : DownloadRow
  /-- `resolver_refresh_count`. -/
  refreshed : Bool := false
  retries : Nat := 0
  endings : Nat := 0
  refreshes : Nat := 0
  deriving DecidableEq

/-- An instant as `next_retry_at` holds it; the clock is past the epoch. -/
def Instant.seconds (due : Instant) : Nat := (due / 1000).toNat

/-- What can happen to a row. Times are in milliseconds, those of the row in seconds. -/
inductive RetryEvent where
  /-- `record_error`. `seed` is the sub-second part of the clock. -/
  | fail (failure : Failure) (schedule : RetrySchedule) (latest now : Instant) (seed : Nat)
      (takenOver : Option Failure)
  /-- The one refresh of `record_http_error`, which tries again at once. -/
  | refresh (failure : Failure) (now : Instant)
  /-- Any other statement, none of which names a counter. -/
  | other (row : DownloadRow)
  | requeue (autoRetry : Bool)
  | reset

namespace RetryRun

/-- The download as it enters the queue. -/
def Fresh (run : RetryRun) : Prop :=
  run.row.retryCount = 0 ∧ run.row.limitWaits = 0 ∧ run.refreshed = false ∧ run.retries = 0 ∧
    run.endings = 0 ∧ run.refreshes = 0

section
variable (redact : String → String)

/-- A failure is written, and the tally of what it counts as. -/
def record (run : RetryRun) (failure : Failure) (retryAt : Option Nat) : RetryRun :=
  { run with
    row := setFailure (failure.redacted redact) retryAt run.row
    retries := run.retries + (retryAt.isSome && !failure.category.isLimit).toNat
    endings := run.endings + retryAt.isNone.toNat }

/-- One event; `none` where it cannot happen or its arithmetic overflows. -/
def step (run : RetryRun) : RetryEvent → Option RetryRun
  | .fail failure schedule latest now seed takenOver =>
    let limitWaits := run.row.limitWaitsOf failure
    (retryAt failure run.row.retryCount limitWaits schedule latest now seed).map fun due =>
      let (failure, due) := recorded failure limitWaits (due.map Instant.seconds) takenOver
      run.record redact failure due
  | .refresh failure now =>
    if (failure.category = .authRequired ∨ failure.category = .accountInvalid) ∧
        run.refreshed = false then
      some { run with
        row := setFailure (failure.redacted redact) (some now.seconds) run.row
        refreshed := true, refreshes := run.refreshes + 1 }
    else none
  | .other row => if run.row.SameCounters row then some { run with row } else none
  | .requeue autoRetry =>
    if run.row.state = .failed then
      some { run with
        row := (RowWrite.requeue autoRetry).columns redact run.row
        retries := 0, endings := 0, refreshes := 0 }
    else none
  | .reset =>
    some { row := DownloadTable.resetRow run.row }

def machine : Machine RetryRun RetryEvent where
  initial := Fresh
  step := step redact

end

/-- No failure meets a schedule of more retries than the maximum. -/
def Kept (maxRetries : Nat) (_ : RetryRun) : RetryEvent → Prop
  | .fail _ schedule _ _ _ _ => schedule.maxRetries ≤ maxRetries
  | _ => True

instance (maxRetries : Nat) (run : RetryRun) :
    (event : RetryEvent) → Decidable (Kept maxRetries run event)
  | .fail _ schedule _ _ _ _ => inferInstanceAs (Decidable (schedule.maxRetries ≤ maxRetries))
  | .refresh .. | .other _ | .requeue _ | .reset => .isTrue trivial

/-- What the counters of a row are made of. -/
structure Spent (maxRetries : Nat) (run : RetryRun) : Prop where
  retries : run.retries ≤ maxRetries
  attempts : run.row.retryCount = run.retries + run.endings + run.refreshes
  refreshes : run.refreshes ≤ run.refreshed.toNat
  limitWaits : run.row.limitWaits ≤ maxLimitWaits

variable {redact : String → String} {maxRetries : Nat} {run next : RetryRun}

theorem spent_of_fresh (h : run.Fresh) : run.Spent maxRetries := by
  obtain ⟨hcount, hwaits, -, hretries, hendings, hrefreshes⟩ := h
  exact ⟨by omega, by omega, by omega, by rw [hwaits]; exact Nat.zero_le _⟩

@[simp] theorem setFailure_retryCount (failure : Failure) (retryAt : Option Nat)
    (row : DownloadRow) : (setFailure failure retryAt row).retryCount =
      row.retryCount + (!(retryAt.isSome && failure.category.isLimit)).toNat := rfl

@[simp] theorem setFailure_limitWaits (failure : Failure) (retryAt : Option Nat)
    (row : DownloadRow) : (setFailure failure retryAt row).limitWaits =
      if retryAt.isSome && failure.category.isLimit then row.limitWaits + 1 else 0 := rfl

/-- A recorded failure is one of the three: a retry, a wait for a limit, an ending. -/
theorem Spent.record {failure : Failure} {due : Option Nat} (h : run.Spent maxRetries)
    (hretry : due.isSome → failure.category.isLimit = false → run.row.retryCount < maxRetries)
    (hwait : due.isSome → failure.category.isLimit = true → run.row.limitWaits < maxLimitWaits) :
    Spent maxRetries (run.record redact failure due) := by
  obtain ⟨hretries, hattempts, hrefreshes, hwaits⟩ := h
  cases due with
  | none =>
    exact ⟨hretries, by simp [RetryRun.record]; omega, hrefreshes,
      by simp [RetryRun.record]⟩
  | some due =>
    cases hlimit : failure.category.isLimit with
    | false =>
      have hleft := hretry rfl hlimit
      refine ⟨?_, ?_, hrefreshes, ?_⟩
      all_goals simp [RetryRun.record, Failure.redacted, hlimit]
      all_goals omega
    | true =>
      have hleft := hwait rfl hlimit
      refine ⟨?_, ?_, hrefreshes, ?_⟩
      all_goals simp [RetryRun.record, Failure.redacted, hlimit]
      all_goals omega

/-- A time that `retry_at` names is one its budget had left. -/
theorem mayRetry_of_due {failure : Failure} {schedule : RetrySchedule} {latest now due : Instant}
    {seed previousAttempts limitWaits : Nat}
    (h : retryAt failure previousAttempts limitWaits schedule latest now seed = some (some due)) :
    mayRetry failure previousAttempts limitWaits schedule.maxRetries = true := by
  obtain ⟨delay, -, -, heq⟩ :=
    retryAt_eq failure previousAttempts limitWaits schedule latest now seed
  rw [heq, Option.some_inj] at h
  by_contra hnot
  rw [if_neg hnot] at h
  cases h

theorem Spent.fail {failure : Failure} {schedule : RetrySchedule} {latest now : Instant} {seed : Nat}
    {takenOver : Option Failure} (h : run.Spent maxRetries) (hle : schedule.maxRetries ≤ maxRetries)
    (hstep : run.step redact (.fail failure schedule latest now seed takenOver) = some next) :
    next.Spent maxRetries := by
  obtain ⟨due, hdue, rfl⟩ := Option.map_eq_some_iff.mp hstep
  cases takenOver with
  | some verdict => exact h.record (fun h => nomatch h) fun h => nomatch h
  | none =>
    cases due with
    | none => exact h.record (fun h => nomatch h) fun h => nomatch h
    | some due =>
      have hleft := mayRetry_of_due hdue
      unfold mayRetry DownloadRow.limitWaitsOf at hleft
      simp only [Bool.and_eq_true] at hleft
      obtain ⟨⟨-, hbudget⟩, -⟩ := hleft
      refine h.record (fun _ hlimit => ?_) fun _ hlimit => ?_
      · have hlimit : failure.category.isLimit = false := hlimit
        rw [hlimit] at hbudget
        exact Nat.lt_of_lt_of_le (of_decide_eq_true hbudget) hle
      · have hlimit : failure.category.isLimit = true := hlimit
        rw [hlimit] at hbudget
        exact of_decide_eq_true hbudget

theorem Spent.step {event : RetryEvent} (h : run.Spent maxRetries) (hkept : Kept maxRetries run event)
    (hstep : run.step redact event = some next) : next.Spent maxRetries := by
  cases event with
  | fail failure schedule latest now seed takenOver => exact h.fail hkept hstep
  | refresh failure now =>
    obtain ⟨⟨hauth, hrefreshed⟩, heq⟩ := Option.ite_none_right_eq_some.mp hstep
    obtain rfl := Option.some.inj heq
    have hlimit : failure.category.isLimit = false := by
      rcases hauth with h | h <;> rw [h] <;> rfl
    obtain ⟨hretries, hattempts, hrefreshes, -⟩ := h
    rw [hrefreshed] at hrefreshes
    refine ⟨hretries, ?_, Nat.succ_le_succ hrefreshes, ?_⟩
    all_goals simp [Failure.redacted, hlimit]
    omega
  | other row =>
    obtain ⟨⟨hcount, hwaits⟩, heq⟩ := Option.ite_none_right_eq_some.mp hstep
    obtain rfl := Option.some.inj heq
    exact ⟨h.retries, hcount.symm.trans h.attempts, h.refreshes, hwaits ▸ h.limitWaits⟩
  | requeue autoRetry =>
    obtain ⟨-, heq⟩ := Option.ite_none_right_eq_some.mp hstep
    obtain rfl := Option.some.inj heq
    exact ⟨Nat.zero_le _, rfl, Nat.zero_le _, Nat.zero_le _⟩
  | reset =>
    obtain rfl := Option.some.inj hstep
    exact spent_of_fresh ⟨rfl, rfl, rfl, rfl, rfl, rfl⟩

/-- What `retry_at` answers for any failure: it never overflows, and names a time only where the
budget has a retry left. -/
theorem retryAt_within (failure : Failure) (previousAttempts limitWaits : Nat)
    (schedule : RetrySchedule) (latest now : Instant) (seed : Nat) :
    ∃ due, retryAt failure previousAttempts limitWaits schedule latest now seed = some due ∧
      ∀ time ∈ due, now ≤ time ∧
        time ≤ now + retryCap failure.category previousAttempts schedule := by
  obtain ⟨delay, hcap, -, heq⟩ :=
    retryAt_eq failure previousAttempts limitWaits schedule latest now seed
  refine ⟨_, heq, fun time htime => ?_⟩
  split at htime
  · obtain ⟨-, rfl⟩ := Instant.checkedAdd_eq_some.mp htime
    exact ⟨Int.le_add_of_nonneg_right (Int.natCast_nonneg delay),
      Int.add_le_add_left (Int.ofNat_le.mpr hcap) now⟩
  · cases htime

theorem Spent.of_reaches (h : (machine redact).Reaches (Kept maxRetries) run) :
    run.Spent maxRetries :=
  h.invariant (Spent maxRetries) (fun _ hfresh => spent_of_fresh hfresh)
    fun _ _ _ hspent hkept hstep => hspent.step hkept hstep

/-- Between two fresh starts a download is retried no more often than the maximum, in any order of
failures and of other writes. Its count also holds the failures that ended it and the one refresh of
its link. Waits for a limit stay under their own cap, and whatever failure comes next, the time it
names lies between now and the longest wait, and nothing on the way overflows. -/
theorem retries_within_budget (h : (machine redact).Reaches (Kept maxRetries) run) :
    run.retries ≤ maxRetries ∧
      run.row.retryCount = run.retries + run.endings + run.refreshes ∧ run.refreshes ≤ 1 ∧
      run.row.limitWaits ≤ maxLimitWaits ∧
      ∀ failure schedule latest now seed takenOver,
        (∃ next, run.step redact (.fail failure schedule latest now seed takenOver) = some next) ∧
        ∃ due, retryAt failure run.row.retryCount (run.row.limitWaitsOf failure) schedule latest now
            seed = some due ∧
          ∀ time ∈ due, now ≤ time ∧
            time ≤ now + retryCap failure.category run.row.retryCount schedule ∧
            retryCap failure.category run.row.retryCount schedule ≤ longestWait schedule ∧
            mayRetry failure run.row.retryCount (run.row.limitWaitsOf failure)
              schedule.maxRetries = true := by
  have hspent := Spent.of_reaches h
  refine ⟨hspent.retries, hspent.attempts,
    Nat.le_trans hspent.refreshes (Bool.toNat_le _), hspent.limitWaits, ?_⟩
  intro failure schedule latest now seed takenOver
  obtain ⟨due, hdue, hwithin⟩ := retryAt_within failure run.row.retryCount
    (run.row.limitWaitsOf failure) schedule latest now seed
  refine ⟨⟨_, Option.map_eq_some_iff.mpr ⟨due, hdue, rfl⟩⟩, due, hdue, fun time htime => ?_⟩
  obtain rfl := Option.mem_def.mp htime
  exact ⟨(hwithin time rfl).1, (hwithin time rfl).2, retryCap_le _ _ _, mayRetry_of_due hdue⟩

/-- Two timeouts and the limit between them: one retry of one, and a count of two. -/
theorem retries_within_budget_two :
    let schedule : RetrySchedule := { maxRetries := 1, middleAttempts := 0, longWaitMinutes := 60 }
    let timeout : Failure := .new (.transient none) "timed out"
    let limit : Failure := .new (.rateLimited (some 30)) "one at a time"
    let events : List RetryEvent := [
      .fail timeout schedule 1000000 1000 7 none, .fail limit schedule 1000000 9000 8 none,
      .fail timeout schedule 1000000 99000 9 none]
    ∃ run, (machine id).run { row := { id := 1, packageId := 1, state := .downloading } } events =
        some run ∧ run.retries = 1 ∧ run.row.retryCount = 2 ∧ run.retries ≤ 1 := by
  intro schedule timeout limit events
  have hcounts : ((machine id).run { row := { id := 1, packageId := 1, state := .downloading } }
      events).map (fun run => (run.retries, run.row.retryCount)) = some (1, 2) := by decide +kernel
  obtain ⟨run, hrun, heq⟩ := Option.map_eq_some_iff.mp hcounts
  obtain ⟨hretries, hcount⟩ := Prod.mk.inj heq
  have hkept : ∀ event ∈ events, ∀ run : RetryRun, run.Kept 1 event := by
    simp [events, Kept, schedule]
  have hreached : (machine id).Reaches (Kept 1) run :=
    .within (.initial ⟨rfl, rfl, rfl, rfl, rfl, rfl⟩) (.of_forall hkept _) hrun
  exact ⟨run, hrun, hretries, hcount, (retries_within_budget hreached).1⟩

/-- The failure that ends a download counts as well: past the last retry its count is one more than
the maximum. -/
theorem count_past_maximum :
    ∃ run, (machine id).Reaches (Kept 1) run ∧ 1 < run.row.retryCount := by
  let schedule : RetrySchedule := { maxRetries := 1, middleAttempts := 0, longWaitMinutes := 60 }
  let timeout : Failure := .new (.transient none) "timed out"
  let events : List RetryEvent :=
    [.fail timeout schedule 1000000 1000 7 none, .fail timeout schedule 1000000 99000 9 none]
  have htwo : ((machine id).run { row := { id := 1, packageId := 1, state := .downloading } }
      events).map (·.row.retryCount) = some 2 := by decide +kernel
  obtain ⟨run, hrun, hcount⟩ := Option.map_eq_some_iff.mp htwo
  have hkept : ∀ event ∈ events, ∀ run : RetryRun, run.Kept 1 event := by
    simp [events, Kept, schedule]
  have hreached : (machine id).Reaches (Kept 1) run :=
    .within (.initial ⟨rfl, rfl, rfl, rfl, rfl, rfl⟩) (.of_forall hkept _) hrun
  exact ⟨run, hreached, by omega⟩

end RetryRun
end RDownloader
