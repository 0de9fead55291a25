import RDownloader.Core.Timing
import RDownloader.Scheduler.Failures

/-!
# When a failed attempt is tried again (`rd-scheduler/src/retry.rs`)

The wait of a retry: the backoff with its spread, or the wait the failure asks for when that is
longer. `mayRetry` says whether there is one; `retryAt_eq` that nothing else decides, and that no
arithmetic on the way overflows.
-/

namespace RDownloader

/-- Failed attempts in a row on the seconds-long backoff. -/
def fastRetries : Nat := 5

/-- Hold-off when a hoster reports an IP limit without naming a duration, in seconds. -/
def defaultIpBlock : Nat := 15 * 60

/-- Hold-off for a rate or daily limit the hoster put no duration on, in seconds. -/
def defaultRateLimitWait : Nat := 60 * 60

/-- The longest wait the exponential backoff alone reaches, in milliseconds. -/
def maxBackoff : Nat := 5 * 60 * 1000

/-- The first wait of the middle stage, in milliseconds. -/
def middleWait : Nat := 60 * 1000

/-- The configured retry budget and stages. -/
structure RetrySchedule where
  maxRetries : Nat
  middleAttempts : Nat
  longWaitMinutes : Nat
  deriving DecidableEq, Repr

def fastBackoffMs (previousAttempts : Nat) : Nat :=
  exponentialBackoff previousAttempts 1000 maxBackoff

namespace RetrySchedule

/-- The long wait, in milliseconds. -/
def longWait (schedule : RetrySchedule) : Nat := saturatingMul schedule.longWaitMinutes 60000

/-- The wait before the next attempt of a failure that is no hoster's limit, unspread. -/
def backoffMs (schedule : RetrySchedule) (previousAttempts : Nat) : Nat :=
  if previousAttempts < fastRetries then fastBackoffMs previousAttempts
  else
    let step := previousAttempts - fastRetries
    if step < schedule.middleAttempts then exponentialBackoff step middleWait schedule.longWait
    else schedule.longWait

end RetrySchedule

namespace FailureKind

/-- Optional delay supplied by the remote side, in seconds. -/
def retryAfter : FailureKind → Option Nat
  | .transient retryAfterSeconds | .rateLimited retryAfterSeconds | .ipBlocked retryAfterSeconds =>
    retryAfterSeconds
  | _ => none

/-- The wait the failure itself calls for, in seconds. -/
def serverWait (category : FailureKind) : Nat :=
  match category.retryAfter.map clampRetryAfter, category with
  | some delay, _ => delay
  | none, .ipBlocked _ => defaultIpBlock
  | none, .rateLimited _ => defaultRateLimitWait
  | none, _ => 0

end FailureKind

/-- The backoff of a failure; a limit has its own waits. -/
def backoffOf (category : FailureKind) (previousAttempts : Nat) (schedule : RetrySchedule) : Nat :=
  if category.isLimit then fastBackoffMs previousAttempts
  else schedule.backoffMs previousAttempts

/-- The wait before the retry in milliseconds; `none` where the arithmetic overflows. -/
def retryDelay (category : FailureKind) (previousAttempts : Nat) (schedule : RetrySchedule)
    (seed : Nat) : Option Nat :=
  let backoffMs := min (backoffOf category previousAttempts schedule) i64Max
  (jitter backoffMs retryJitterPercent seed).map fun spread =>
    let calculated := (saturatedI64 (backoffMs + spread)).toNat
    max calculated (category.serverWait * 1000)

/-- Next retry time for a retryable failure, if its budget has one left; `none` where the arithmetic
overflows. `seed` is the sub-second part of the clock. -/
def retryAt (failure : Failure) (previousAttempts limitWaits : Nat) (schedule : RetrySchedule)
    (latest now : Instant) (seed : Nat) : Option (Option Instant) :=
  let category := failure.category
  if !category.isRetryable || schedule.maxRetries = 0 then some none
  else if if category.isLimit then maxLimitWaits ≤ limitWaits
      else schedule.maxRetries ≤ previousAttempts then some none
  else if category = .captchaFailed && maxCaptchaAttempts ≤ previousAttempts then some none
  else (retryDelay category previousAttempts schedule seed).map fun delay =>
    -- `from_std`, which refuses what is past a signed word
    if delay ≤ i64Max then now.checkedAdd latest delay else none

/-! ## The wait is bounded -/

/-- The longest wait of a failure: its backoff with the whole spread, or what it calls for. -/
def retryCap (category : FailureKind) (previousAttempts : Nat) (schedule : RetrySchedule) : Nat :=
  let backoff := backoffOf category previousAttempts schedule
  max (backoff + backoff * retryJitterPercent / 100) (category.serverWait * 1000)

theorem clampRetryAfter_le (seconds : Nat) : clampRetryAfter seconds ≤ maxRetryAfterSeconds := by
  unfold clampRetryAfter
  split
  · exact Nat.le_refl _
  · omega

/-- Whatever a server or a plugin asks for, the wait it gets is a day at the most. -/
theorem serverWait_le (category : FailureKind) : category.serverWait ≤ maxRetryAfterSeconds := by
  unfold FailureKind.serverWait
  split
  · next delay hdelay =>
    obtain ⟨seconds, -, rfl⟩ := Option.map_eq_some_iff.mp hdelay
    exact clampRetryAfter_le seconds
  · decide
  · decide
  · exact Nat.zero_le _

theorem fastBackoffMs_le (previousAttempts : Nat) : fastBackoffMs previousAttempts ≤ maxBackoff :=
  Nat.min_le_right _ _

/-- The stages keep to the longer of the exponential backoff's ceiling and the long wait. -/
theorem backoffOf_le (category : FailureKind) (previousAttempts : Nat) (schedule : RetrySchedule) :
    backoffOf category previousAttempts schedule ≤ max maxBackoff schedule.longWait := by
  have hfast := fastBackoffMs_le previousAttempts
  unfold backoffOf RetrySchedule.backoffMs
  split
  · exact Nat.le_trans hfast (Nat.le_max_left _ _)
  · split
    · exact Nat.le_trans hfast (Nat.le_max_left _ _)
    · dsimp only
      split
      · exact Nat.le_trans (Nat.min_le_right _ _) (Nat.le_max_right _ _)
      · exact Nat.le_max_right _ _

/-- The longest wait a schedule leads to: its stages with the whole spread, or a day. -/
def longestWait (schedule : RetrySchedule) : Nat :=
  let backoff := max maxBackoff schedule.longWait
  max (backoff + backoff * retryJitterPercent / 100) (maxRetryAfterSeconds * 1000)

theorem retryCap_le (category : FailureKind) (previousAttempts : Nat) (schedule : RetrySchedule) :
    retryCap category previousAttempts schedule ≤ longestWait schedule := by
  have hbackoff := backoffOf_le category previousAttempts schedule
  have hserver := serverWait_le category
  unfold retryCap longestWait
  dsimp only
  generalize backoffOf category previousAttempts schedule = backoff at hbackoff
  generalize max maxBackoff schedule.longWait = ceiling at hbackoff
  have hspread : backoff * retryJitterPercent / 100 ≤ ceiling * retryJitterPercent / 100 :=
    Nat.div_le_div_right (Nat.mul_le_mul_right _ hbackoff)
  exact Nat.max_le.mpr ⟨Nat.le_trans (Nat.add_le_add hbackoff hspread) (Nat.le_max_left _ _),
    Nat.le_trans (Nat.mul_le_mul_right _ hserver) (Nat.le_max_right _ _)⟩

/-- The wait lies between what the failure calls for and its cap, whatever the seed. -/
theorem retryDelay_spec (category : FailureKind) (previousAttempts : Nat)
    (schedule : RetrySchedule) (seed : Nat) :
    ∃ delay, retryDelay category previousAttempts schedule seed = some delay ∧
      category.serverWait * 1000 ≤ delay ∧ delay ≤ retryCap category previousAttempts schedule ∧
      delay ≤ i64Max := by
  have hserver := serverWait_le category
  have hday : maxRetryAfterSeconds * 1000 ≤ i64Max := by decide
  generalize hbackoff : backoffOf category previousAttempts schedule = backoff
  obtain ⟨spread, hspread, hlow, hhigh⟩ :=
    jitter_spec (min backoff i64Max) retryJitterPercent seed
  have hscale : min backoff i64Max * retryJitterPercent / 100 ≤ backoff * retryJitterPercent / 100 :=
    Nat.div_le_div_right (Nat.mul_le_mul_right _ (Nat.min_le_left _ _))
  have hcalculated : (saturatedI64 ((min backoff i64Max : Nat) + spread)).toNat ≤
      min (backoff + backoff * retryJitterPercent / 100) i64Max := by
    unfold saturatedI64
    omega
  rw [retryDelay, hbackoff]
  dsimp only
  rw [hspread, Option.map_some]
  rw [Nat.le_min] at hcalculated
  refine ⟨_, rfl, Nat.le_max_right _ _, ?_, ?_⟩
  · rw [retryCap, hbackoff]
    exact Nat.max_le.mpr
      ⟨Nat.le_trans hcalculated.1 (Nat.le_max_left _ _), Nat.le_max_right _ _⟩
  · exact Nat.max_le.mpr
      ⟨hcalculated.2, Nat.le_trans (Nat.mul_le_mul_right _ hserver) hday⟩

/-- Only `mayRetry` decides whether there is a retry, short of the last instant there is. -/
theorem retryAt_eq (failure : Failure) (previousAttempts limitWaits : Nat)
    (schedule : RetrySchedule) (latest now : Instant) (seed : Nat) :
    ∃ delay, delay ≤ retryCap failure.category previousAttempts schedule ∧
      failure.category.serverWait * 1000 ≤ delay ∧
      retryAt failure previousAttempts limitWaits schedule latest now seed =
        some (if mayRetry failure previousAttempts limitWaits schedule.maxRetries then
          now.checkedAdd latest delay else none) := by
  obtain ⟨delay, hdelay, hlow, hcap, hword⟩ :=
    retryDelay_spec failure.category previousAttempts schedule seed
  refine ⟨delay, hcap, hlow, ?_⟩
  unfold retryAt mayRetry
  dsimp only
  rw [hdelay, Option.map_some, if_pos hword]
  generalize now.checkedAdd latest delay = due
  grind

end RDownloader
