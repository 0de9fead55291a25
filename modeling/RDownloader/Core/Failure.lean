/-!
# Failures (`rd-plugin-types/src/error.rs`) and how a transfer ends (`rd-http/src/engine.rs`)
-/

namespace RDownloader

inductive FailureKind where
  | transient (retryAfterSeconds : Option Nat)
  | permanent
  | offline
  | authRequired
  | accountInvalid
  | rateLimited (retryAfterSeconds : Option Nat)
  | needsCaptcha
  | unsupported
  | ipBlocked (retryAfterSeconds : Option Nat)
  | captchaFailed
  deriving DecidableEq, Repr

/-- Whether the scheduler may retry this class automatically. -/
def FailureKind.isRetryable : FailureKind → Bool
  | .transient _ | .offline | .rateLimited _ | .ipBlocked _ | .captchaFailed => true
  | _ => false

/-- Whether the hoster imposed a limit rather than an attempt going wrong. -/
def FailureKind.isLimit : FailureKind → Bool
  | .rateLimited _ | .ipBlocked _ => true
  | _ => false

structure Failure where
  category : FailureKind
  message : String
  code : Option String := none
  params : List (String × String) := []
  deriving DecidableEq, Repr

namespace Failure

/-- A failure without a translation code. -/
def new (category : FailureKind) (message : String) : Failure :=
  { category, message }

/-- A failure carrying a stable translation code. -/
def coded (category : FailureKind) (code message : String) : Failure :=
  { category, message, code := some code }

def withParam (failure : Failure) (key value : String) : Failure :=
  { failure with params := failure.params ++ [(key, value)] }

/-- `redact_failure`: category and code stay. `redact` is `redact_text`. -/
def redacted (redact : String → String) (failure : Failure) : Failure :=
  { failure with
    message := redact failure.message
    params := failure.params.map fun (key, value) => (key, redact value) }

end Failure

/-- Failures requiring scheduler policy rather than blind retries. -/
inductive HttpDownloadError where
  | rangeIgnored
  | remoteChanged
  | failure (failure : Failure)
  | internal (message : String)
  /-- The transfer failed on this machine, not at the hoster. -/
  | local (message : String)
  deriving DecidableEq, Repr

inductive DownloadOutcome where
  | complete | paused
  deriving DecidableEq, Repr

end RDownloader
