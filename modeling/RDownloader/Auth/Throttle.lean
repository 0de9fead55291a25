import RDownloader.Core.Words

/-!
# The sign-in throttle

Failures are counted for each throttle key, and an admitted attempt counts against its key until it
is handed back. A second count, over all keys, only ever slows attempts down.
-/

namespace RDownloader

/-- `Duration::MAX`, in nanoseconds. -/
def durationMax : Nat := (2 ^ 64 - 1) * 1000000000 + 999999999

inductive IpAddr
  | v4 (address : BitVec 32)
  | v6 (address : BitVec 128)
  deriving DecidableEq, Repr

namespace IpAddr

/-- An IPv4-mapped IPv6 address is the IPv4 address it stands for. -/
def unmap : IpAddr → IpAddr
  | v6 address => if address >>> 32 = 0xffff then v4 (address.setWidth 32) else v6 address
  | v4 address => v4 address

/-- The key an address is counted under: an IPv6 address by its /64, anything else as itself. -/
def key (address : IpAddr) : IpAddr :=
  match unmap address with
  | v6 address => v6 (address &&& ~~~(BitVec.ofNat 128 u64Max))
  | v4 address => v4 address

end IpAddr

/-- Durations and instants are in nanoseconds. -/
structure ThrottleSettings where
  failuresBeforeLockout : Nat := 5
  baseLockout : Nat := 15 * 1000000000
  maxLockout : Nat := 15 * 60 * 1000000000
  failuresBeforeGlobalDelay : Nat := 20
  globalDelayStep : Nat := 250 * 1000000
  maxGlobalDelay : Nat := 2 * 1000000000
  window : Nat := 60 * 60 * 1000000000
  deriving DecidableEq, Repr

/-- `IN_FLIGHT_RETRY`. -/
def inFlightRetry : Nat := 1000000000

inductive Decision
  | proceed (delay : Nat)
  | locked (retryAfter : Nat)
  deriving DecidableEq, Repr

structure FailedAttempts where
  failures : Nat
  lockedUntil : Option Nat
  lastSeen : Nat
  deriving DecidableEq, Repr

structure LoginThrottle where
  settings : ThrottleSettings
  byAddress : IpAddr → Option FailedAttempts := fun _ => none
  inFlight : IpAddr → Nat := fun _ => 0
  globalFailures : Nat := 0
  globalLastSeen : Option Nat := none

/-- `u32::saturating_add` of one. -/
def saturatingSucc (n : Nat) : Nat := min (n + 1) u32Max

/-- The doubled lockout, capped. -/
def lockoutFor (overLimit : Nat) (settings : ThrottleSettings) : Nat :=
  let shift := min (overLimit - 1) 20
  min (min (settings.baseLockout * 2 ^ shift) durationMax) settings.maxLockout

namespace FailedAttempts

variable (attempts : FailedAttempts) (settings : ThrottleSettings) (now : Nat)

def isLocked : Bool := attempts.lockedUntil.any (now < ·)

/-- What `expire` keeps. -/
def isKept : Bool := attempts.isLocked now || now - attempts.lastSeen < settings.window

/-- One more failure. -/
def failed : FailedAttempts :=
  let failures := saturatingSucc attempts.failures
  { failures
    lastSeen := now
    lockedUntil :=
      if settings.failuresBeforeLockout < failures then
        some (now + lockoutFor (failures - settings.failuresBeforeLockout) settings)
      else attempts.lockedUntil }

end FailedAttempts

namespace LoginThrottle

def new (settings : ThrottleSettings) : LoginThrottle := { settings }

variable (throttle : LoginThrottle)

def globalDelay : Nat :=
  let settings := throttle.settings
  if throttle.globalFailures ≤ settings.failuresBeforeGlobalDelay then 0
  else
    let surplus := throttle.globalFailures - settings.failuresBeforeGlobalDelay
    min (min (settings.globalDelayStep * surplus) durationMax) settings.maxGlobalDelay

def expire (now : Nat) : LoginThrottle :=
  let window := throttle.settings.window
  let quiet := throttle.globalLastSeen.any fun last => window ≤ now - last
  { throttle with
    byAddress := fun address => (throttle.byAddress address).filter (·.isKept throttle.settings now)
    globalFailures := if quiet then 0 else throttle.globalFailures
    globalLastSeen := if quiet then none else throttle.globalLastSeen }

def check (address : IpAddr) (now : Nat) : LoginThrottle × Decision :=
  let throttle := throttle.expire now
  match (throttle.byAddress address.key).bind (·.lockedUntil) with
  | some until_ =>
    if now < until_ then (throttle, .locked (until_ - now))
    else (throttle, .proceed throttle.globalDelay)
  | none => (throttle, .proceed throttle.globalDelay)

/-- How many attempts of a key may be in flight at once. -/
def allowed (key : IpAddr) : Nat :=
  let failures := (throttle.byAddress key).elim 0 (·.failures)
  max (saturatingSucc throttle.settings.failuresBeforeLockout - failures) 1

def setInFlight (key : IpAddr) (pending : Nat) : LoginThrottle :=
  { throttle with
    inFlight := fun other => if other = key then pending else throttle.inFlight other }

def setAttempts (key : IpAddr) (attempts : Option FailedAttempts) : LoginThrottle :=
  { throttle with
    byAddress := fun other => if other = key then attempts else throttle.byAddress other }

def admitAttempt (address : IpAddr) (now : Nat) : LoginThrottle × Decision :=
  match throttle.check address now with
  | (throttle, .locked retryAfter) => (throttle, .locked retryAfter)
  | (throttle, .proceed delay) =>
    let key := address.key
    let pending := throttle.inFlight key
    if throttle.allowed key ≤ pending then (throttle, .locked inFlightRetry)
    else (throttle.setInFlight key (pending + 1), .proceed delay)

def release (address : IpAddr) : LoginThrottle :=
  throttle.setInFlight address.key (throttle.inFlight address.key - 1)

def recordFailure (address : IpAddr) (now : Nat) : LoginThrottle × Decision :=
  let throttle := throttle.expire now
  let attempts := (throttle.byAddress address.key).getD ⟨0, none, now⟩
  let throttle := throttle.setAttempts address.key (some (attempts.failed throttle.settings now))
  check
    { throttle with
      globalFailures := saturatingSucc throttle.globalFailures
      globalLastSeen := some now }
    address.key now

def recordSuccess (address : IpAddr) (now : Nat) : LoginThrottle :=
  { (throttle.expire now).setAttempts address.key none with
    globalFailures := 0
    globalLastSeen := some now }

end LoginThrottle

/-- A call of the throttle. -/
inductive ThrottleCall
  | check (address : IpAddr) (now : Nat)
  | admitAttempt (address : IpAddr) (now : Nat)
  | release (address : IpAddr)
  | recordFailure (address : IpAddr) (now : Nat)
  | recordSuccess (address : IpAddr) (now : Nat)
  deriving DecidableEq, Repr

namespace ThrottleCall

def key : ThrottleCall → IpAddr
  | check address _ | admitAttempt address _ | release address | recordFailure address _
  | recordSuccess address _ => address.key

def instant? : ThrottleCall → Option Nat
  | check _ now | admitAttempt _ now | recordFailure _ now | recordSuccess _ now => some now
  | release _ => none

end ThrottleCall

namespace LoginThrottle

def call (throttle : LoginThrottle) : ThrottleCall → LoginThrottle × Option Decision
  | .check address now => (throttle.check address now).map id some
  | .admitAttempt address now => (throttle.admitAttempt address now).map id some
  | .release address => (throttle.release address, none)
  | .recordFailure address now => (throttle.recordFailure address now).map id some
  | .recordSuccess address now => (throttle.recordSuccess address now, none)

/-- The calls, each with what it answered. -/
def answers (throttle : LoginThrottle) : List ThrottleCall → List (ThrottleCall × Option Decision)
  | [] => []
  | call :: calls => (call, (throttle.call call).2) :: answers (throttle.call call).1 calls

end LoginThrottle

end RDownloader
