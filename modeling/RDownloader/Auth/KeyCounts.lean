import RDownloader.Auth.Throttle
import Mathlib.Data.List.Basic

/-!
# What the throttle holds about one key

The failures and the pending attempts of a key, and what the calls for addresses of that key make
of them. `LoginThrottle.counts_call_own` and `LoginThrottle.counts_call_other` connect them to the
throttle: a call for another key does nothing to them but let what has gone quiet expire.
-/

namespace RDownloader

theorem IpAddr.key_key (address : IpAddr) : address.key.key = address.key := by
  unfold key
  cases hunmap : address.unmap with
  | v4 => rfl
  | v6 bits =>
    have hmasked : (bits &&& ~~~(BitVec.ofNat 128 u64Max)) >>> 32 ≠ 0xffff := by
      intro h
      have hbit := congrArg (·.getLsbD 0) h
      simp [u64Max] at hbit
    have hunmapped : unmap (v6 (bits &&& ~~~(BitVec.ofNat 128 u64Max))) =
        v6 (bits &&& ~~~(BitVec.ofNat 128 u64Max)) := if_neg hmasked
    simp only [hunmapped, BitVec.and_assoc, BitVec.and_self]

def Decision.retryAfter? : Decision → Option Nat
  | .proceed _ => none
  | .locked retryAfter => some retryAfter

structure KeyCounts where
  attempts : Option FailedAttempts := none
  pending : Nat := 0
  deriving DecidableEq, Repr

/-- What is forgotten stays forgotten. -/
theorem FailedAttempts.isKept_of_le {attempts : FailedAttempts} {settings : ThrottleSettings}
    {now later : Nat} (hle : now ≤ later) (h : attempts.isKept settings later) :
    attempts.isKept settings now := by
  simp only [isKept, isLocked, Bool.or_eq_true, Option.any_eq_true, decide_eq_true_eq] at h ⊢
  rcases h with ⟨until_, huntil, hlater⟩ | hquiet
  · exact .inl ⟨until_, huntil, Nat.lt_of_le_of_lt hle hlater⟩
  · right
    omega

namespace KeyCounts

variable (settings : ThrottleSettings) (counts : KeyCounts) (now : Nat)

def expire : KeyCounts :=
  { counts with attempts := counts.attempts.filter (·.isKept settings now) }

/-- How long the key is locked for. -/
def locked? : Option Nat :=
  ((counts.attempts.bind (·.lockedUntil)).filter (now < ·)).map (· - now)

def failures : Nat := counts.attempts.elim 0 (·.failures)

def allowed : Nat :=
  max (saturatingSucc settings.failuresBeforeLockout - counts.failures) 1

def admitAttempt : KeyCounts × Option Nat :=
  match counts.locked? now with
  | some retryAfter => (counts, some retryAfter)
  | none =>
    if counts.allowed settings ≤ counts.pending then (counts, some inFlightRetry)
    else ({ counts with pending := counts.pending + 1 }, none)

def recordFailure : KeyCounts :=
  { counts with
    attempts := some ((counts.attempts.getD ⟨0, none, now⟩).failed settings now) }

/-- What a call for an address of the key makes of the counts, and how long it is locked for. -/
def call : ThrottleCall → KeyCounts × Option Nat
  | .check _ now => (counts.expire settings now, (counts.expire settings now).locked? now)
  | .admitAttempt _ now => (counts.expire settings now).admitAttempt settings now
  | .release _ => ({ counts with pending := counts.pending - 1 }, none)
  | .recordFailure _ now =>
    let counts := ((counts.expire settings now).recordFailure settings now).expire settings now
    (counts, counts.locked? now)
  | .recordSuccess _ now => ({ counts.expire settings now with attempts := none }, none)

/-- What a call for another key makes of them. -/
def pass (call : ThrottleCall) : KeyCounts :=
  call.instant?.elim counts (counts.expire settings)

variable {counts}

theorem expire_expire {later : Nat} (hle : now ≤ later) :
    (counts.expire settings now).expire settings later = counts.expire settings later := by
  unfold expire
  congr 1
  rw [Option.filter_filter]
  refine congrArg (Option.filter · counts.attempts) (funext fun attempts => ?_)
  cases hkept : attempts.isKept settings later with
  | false => exact Bool.and_false _
  | true => simp [FailedAttempts.isKept_of_le hle hkept]

end KeyCounts

namespace LoginThrottle

variable (throttle : LoginThrottle) {key : IpAddr} {address : IpAddr}

def counts (key : IpAddr) : KeyCounts := ⟨throttle.byAddress key, throttle.inFlight key⟩

@[simp] theorem counts_expire (now : Nat) :
    (throttle.expire now).counts key = (throttle.counts key).expire throttle.settings now := rfl

@[simp] theorem settings_expire (now : Nat) : (throttle.expire now).settings = throttle.settings := rfl

theorem counts_setInFlight (pending : Nat) (other : IpAddr) :
    (throttle.setInFlight key pending).counts other =
      if other = key then { throttle.counts other with pending } else throttle.counts other := by
  by_cases h : other = key <;> simp [counts, setInFlight, h]

theorem counts_setAttempts (attempts : Option FailedAttempts) (other : IpAddr) :
    (throttle.setAttempts key attempts).counts other =
      if other = key then { throttle.counts other with attempts } else throttle.counts other := by
  by_cases h : other = key <;> simp [counts, setAttempts, h]

theorem check_fst (now : Nat) : (throttle.check address now).1 = throttle.expire now := by
  unfold check
  dsimp only
  repeat' split
  all_goals rfl

theorem check_retryAfter? (now : Nat) : (throttle.check address now).2.retryAfter? =
    ((throttle.expire now).counts address.key).locked? now := by
  unfold check KeyCounts.locked?
  dsimp only [counts]
  split
  case h_1 until_ huntil =>
    rw [huntil]
    by_cases h : now < until_ <;> simp [h, Option.filter, Decision.retryAfter?]
  case h_2 huntil =>
    rw [huntil]
    rfl

/-- The admission, over what has not expired by then. -/
theorem admitAttempt_eq (now : Nat) : throttle.admitAttempt address now =
    match (throttle.check address now).2 with
    | .locked retryAfter => (throttle.expire now, .locked retryAfter)
    | .proceed delay =>
      if ((throttle.expire now).counts address.key).allowed (throttle.expire now).settings ≤
          ((throttle.expire now).counts address.key).pending then
        (throttle.expire now, .locked inFlightRetry)
      else
        ((throttle.expire now).setInFlight address.key
          (((throttle.expire now).counts address.key).pending + 1), .proceed delay) := by
  have hfst : (throttle.check address now).1 = throttle.expire now := throttle.check_fst now
  rw [admitAttempt, ← hfst]
  obtain ⟨expired, decision⟩ := throttle.check address now
  cases decision <;> rfl

theorem admitAttempt_own (now : Nat) :
    (throttle.admitAttempt address now).1.counts address.key =
        (((throttle.counts address.key).expire throttle.settings now).admitAttempt throttle.settings now).1 ∧
      (throttle.admitAttempt address now).2.retryAfter? =
        (((throttle.counts address.key).expire throttle.settings now).admitAttempt
          throttle.settings now).2 := by
  have hlocked : (throttle.check address now).2.retryAfter? =
      ((throttle.expire now).counts address.key).locked? now := throttle.check_retryAfter? now
  rw [counts_expire] at hlocked
  rw [admitAttempt_eq, KeyCounts.admitAttempt, ← hlocked, counts_expire, settings_expire]
  cases (throttle.check address now).2 with
  | locked retryAfter => exact ⟨rfl, rfl⟩
  | proceed delay =>
    dsimp only [Decision.retryAfter?]
    split
    · exact ⟨rfl, rfl⟩
    · exact ⟨by rw [counts_setInFlight, if_pos rfl]; rfl, rfl⟩

theorem admitAttempt_other (hother : key ≠ address.key) (now : Nat) :
    (throttle.admitAttempt address now).1.counts key =
      (throttle.counts key).expire throttle.settings now := by
  rw [admitAttempt_eq]
  cases (throttle.check address now).2 with
  | locked retryAfter => rfl
  | proceed delay =>
    dsimp only
    split
    · rfl
    · rw [counts_setInFlight, if_neg hother]
      rfl

theorem settings_check (now : Nat) : (throttle.check address now).1.settings = throttle.settings := by
  rw [check_fst]
  rfl

theorem settings_call (call : ThrottleCall) :
    (throttle.call call).1.settings = throttle.settings := by
  cases call with
  | check address now => exact throttle.settings_check now
  | admitAttempt address now =>
    change (throttle.admitAttempt address now).1.settings = _
    rw [admitAttempt_eq]
    cases (throttle.check address now).2 with
    | locked retryAfter => rfl
    | proceed delay =>
      dsimp only
      split <;> rfl
  | release address => rfl
  | recordFailure address now => exact settings_check _ now
  | recordSuccess address now => rfl

/-- A call for an address of the key does to the counts what it does to the throttle. -/
theorem counts_call_own (call : ThrottleCall) :
    (throttle.call call).1.counts call.key =
        ((throttle.counts call.key).call throttle.settings call).1 ∧
      (throttle.call call).2.bind (·.retryAfter?) =
        ((throttle.counts call.key).call throttle.settings call).2 := by
  cases call with
  | check address now =>
    refine ⟨?_, throttle.check_retryAfter? now⟩
    change (throttle.check address now).1.counts _ = _
    rw [check_fst]
    rfl
  | admitAttempt address now => exact throttle.admitAttempt_own now
  | release address =>
    refine ⟨?_, rfl⟩
    change (throttle.setInFlight _ _).counts _ = _
    rw [counts_setInFlight]
    exact if_pos rfl
  | recordFailure address now =>
    change (check _ _ now).1.counts address.key = _ ∧ (check _ _ now).2.retryAfter? = _
    rw [check_fst, check_retryAfter?, IpAddr.key_key, counts_expire]
    change ((setAttempts _ _ _).counts address.key).expire _ now = _ ∧
      (((setAttempts _ _ _).counts address.key).expire _ now).locked? now = _
    rw [counts_setAttempts, if_pos rfl]
    exact ⟨rfl, rfl⟩
  | recordSuccess address now =>
    refine ⟨?_, rfl⟩
    change (setAttempts _ _ _).counts address.key = _
    rw [counts_setAttempts]
    exact if_pos rfl

theorem counts_call_other {call : ThrottleCall} (hother : key ≠ call.key) :
    (throttle.call call).1.counts key = (throttle.counts key).pass throttle.settings call := by
  cases call with
  | check address now =>
    change (throttle.check address now).1.counts key = _
    rw [check_fst]
    rfl
  | admitAttempt address now => exact throttle.admitAttempt_other hother now
  | release address =>
    change (throttle.setInFlight _ _).counts key = _
    rw [counts_setInFlight]
    exact if_neg hother
  | recordFailure address now =>
    change (check _ _ now).1.counts key = _
    rw [check_fst, counts_expire]
    change ((setAttempts _ _ _).counts key).expire throttle.settings now = _
    rw [counts_setAttempts, if_neg (show key ≠ address.key from hother), counts_expire]
    exact KeyCounts.expire_expire _ _ (Nat.le_refl now)
  | recordSuccess address now =>
    change (setAttempts _ _ _).counts key = _
    rw [counts_setAttempts]
    exact if_neg hother

end LoginThrottle

end RDownloader
