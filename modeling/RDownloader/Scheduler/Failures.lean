import RDownloader.Scheduler.Mirrors

/-!
# What a failed attempt leads to (`rd-scheduler/src/failures.rs`, `retry.rs`)

Whether a failure is retried, whether the mirror group's turn moves on, and the failure that is
recorded.
-/

namespace RDownloader

/-- Consecutive waits for a hoster's limit before the download fails after all. -/
def maxLimitWaits : Nat := 48

/-- Attempts allowed for a rejected captcha. -/
def maxCaptchaAttempts : Nat := 2

/-- Whether `retry_at` names a time. -/
def mayRetry (failure : Failure) (previousAttempts limitWaits maxRetries : Nat) : Bool :=
  failure.category.isRetryable && maxRetries ≠ 0 &&
    (if failure.category.isLimit then limitWaits < maxLimitWaits
      else previousAttempts < maxRetries) &&
    !(failure.category = .captchaFailed && maxCaptchaAttempts ≤ previousAttempts)

/-- Whether a limit failure ended the download because its limit waits ran out. -/
def limitWaitsSpent (failure : Failure) (limitWaits : Nat) : Bool :=
  failure.category.isLimit && maxLimitWaits ≤ limitWaits

namespace Failure

def withReasonCode (failure : Failure) : Option String → Failure
  | some code => failure.withParam "reason_code" code
  | none => failure

/-- The failure of a download whose limit waits ran out: the class is kept. -/
def limitWaitsExhausted (original : Failure) (waits : Nat) : Failure :=
  (((coded original.category "download.limit_waits_exhausted"
      ("the hoster's limit was still in place after " ++ toString waits ++ " waits: " ++
        original.message)).withParam "waits" (toString waits)).withParam "reason"
          original.message).withReasonCode original.code

/-- The failure a mirror carries once it has been given up and another one has taken over. -/
def handover (original : Failure) (tookOver : String) : Failure :=
  (((coded original.category handoverCode
      ("this mirror was given up and " ++ tookOver ++ " took over: " ++
        original.message)).withParam "mirror" tookOver).withParam "reason"
          original.message).withReasonCode original.code

/-- The verdict of a group that has run out of mirrors. -/
def exhausted (leader : Failure) (members : Nat) : Failure :=
  let reason := (leader.params.lookup "reason").getD leader.message
  let code := (leader.params.lookup "reason_code").or leader.code
  (((coded leader.category exhaustedCode
      ("all " ++ toString members ++ " mirrors of this file failed; the chosen one reported: " ++
        reason)).withParam "mirrors" (toString members)).withParam "reason"
          reason).withReasonCode code

end Failure

/-- What `record_error` decides to write: the failure, the time of the retry, and the mirror that
takes over. -/
structure Verdict where
  failure : Failure
  retryAt : Option Nat
  next : Option DownloadRow

section
variable (host : String → Option String)

/-- `hand_over`, up to its writes. -/
def handOver (file : DownloadRow) (downloads : List DownloadRow) (failure : Failure)
    (retryAt : Option Nat) : Verdict :=
  match bestCandidate ((siblings file downloads).filter (·.state = .skipped)) with
  | some next =>
    { failure := failure.handover ((host next.source).getD "another mirror"), retryAt := none
      next := some next }
  | none =>
    match retryAt with
    | some due => { failure, retryAt := some due, next := none }
    | none =>
      { failure := ((leader file downloads).lastError.getD failure).exhausted
          ((siblings file downloads).length + 1)
        retryAt := none, next := none }

/-- `record_error`, up to its writes: `file` is the row it was given, `due` the time a retry would
get. -/
def recordError (table : DownloadTable) (file : DownloadRow) (failure : Failure)
    (maxRetries due : Nat) : Verdict :=
  let limitWaits := if failure.category.isLimit then
    ((table.row? file.id).map (·.limitWaits)).getD 0 else 0
  let retryAt := if mayRetry failure file.retryCount limitWaits maxRetries then some due else none
  let failure := if retryAt.isNone && limitWaitsSpent failure limitWaits then
    failure.limitWaitsExhausted limitWaits else failure
  if file.mirrorGroup.isSome && handsOver failure retryAt then
    handOver host file (table.inPackage file.packageId) failure retryAt
  else { failure, retryAt, next := none }

end
end RDownloader
