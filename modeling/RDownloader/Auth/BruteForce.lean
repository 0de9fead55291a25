import RDownloader.Auth.OwnCalls
import RDownloader.Lib.Machine
import Mathlib.Data.List.Induction
import Mathlib.Data.List.Pairwise

/-!
# How many guesses a key has

An attack fails on purpose from the addresses of one key, with as many attempts at once as it likes,
each of which records its failure before it is handed back. As long as the key is not quiet for the
length of the window, its failures add up as though nothing was ever forgotten
(`KeyCounts.remembered`), whatever the calls for other keys do in between.
-/

namespace RDownloader

/-- The throttle, and what the attack on it has come to. -/
structure Attack where
  throttle : LoginThrottle
  clock : Nat := 0
  admitted : Nat := 0
  released : Nat := 0
  /-- The instants of the failures recorded, the oldest first. -/
  failures : List Nat := []

namespace Attack

variable (settings : ThrottleSettings) (key : IpAddr)

/-- What the call of the key adds, when it is answered so. -/
def tally (attack : Attack) : ThrottleCall → Option Decision → Attack
  | .admitAttempt .., some (.proceed _) => { attack with admitted := attack.admitted + 1 }
  | .recordFailure _ now, _ => { attack with failures := attack.failures ++ [now] }
  | .release _, _ => { attack with released := attack.released + 1 }
  | _, _ => attack

def after (attack : Attack) (call : ThrottleCall) : Attack :=
  let (throttle, answer) := attack.throttle.call call
  let attack := { attack with throttle, clock := call.instant?.getD attack.clock }
  if call.key = key then attack.tally call answer else attack

/-- Whether the key has been quiet for the length of the window. -/
def Quiet (attack : Attack) (now : Nat) : Prop :=
  ∃ last ∈ attack.failures.getLast?, settings.window ≤ now - last

/-- An attempt in flight records its failure, and one that has recorded it is handed back. -/
def Due (attack : Attack) : ThrottleCall → Prop
  | .recordFailure .. => attack.failures.length < attack.admitted
  | .release _ => attack.released < attack.failures.length
  | .recordSuccess .. => False
  | .check .. | .admitAttempt .. => True

/-- The calls of an attack that gives the key no quiet period. For other keys, any call. -/
def Fails (attack : Attack) (call : ThrottleCall) : Prop :=
  (∀ instant ∈ call.instant?, attack.clock ≤ instant) ∧
    (call.key = key → attack.Due call ∧ ∀ instant ∈ call.instant?, ¬attack.Quiet settings instant)

instance (attack : Attack) (now : Nat) : Decidable (attack.Quiet settings now) :=
  inferInstanceAs (Decidable (∃ last ∈ attack.failures.getLast?, settings.window ≤ now - last))

instance (attack : Attack) : DecidablePred attack.Due
  | .recordFailure .. | .release _ => Nat.decLt ..
  | .recordSuccess .. => .isFalse id
  | .check .. | .admitAttempt .. => .isTrue trivial

instance (attack : Attack) : DecidablePred (attack.Fails settings key) :=
  fun _ => inferInstanceAs (Decidable (And ..))

def machine : Machine Attack ThrottleCall where
  initial attack := attack = { throttle := .new settings }
  step attack call := some (attack.after key call)

end Attack

namespace KeyCounts

variable (settings : ThrottleSettings)

/-- The attempts after failures at these instants, if nothing was ever forgotten. -/
def remembered (failures : List Nat) : Option FailedAttempts :=
  failures.foldl (fun attempts now => some ((attempts.getD ⟨0, none, now⟩).failed settings now)) none

variable {settings} {failures : List Nat} {now : Nat}

theorem remembered_append : remembered settings (failures ++ [now]) =
    some (((remembered settings failures).getD ⟨0, none, now⟩).failed settings now) := by
  rw [remembered, List.foldl_append]
  rfl

/-- The count of so many failures. -/
def counted (failures : Nat) : Nat := min failures u32Max

theorem saturatingSucc_counted (failures : Nat) :
    saturatingSucc (counted failures) = counted (failures + 1) := by
  unfold saturatingSucc counted
  omega

theorem remembered_eq : remembered settings (failures ++ [now]) = some
    { failures := counted (failures.length + 1)
      lockedUntil :=
        if settings.failuresBeforeLockout < counted (failures.length + 1) then
          some (now + lockoutFor (counted (failures.length + 1) - settings.failuresBeforeLockout)
            settings)
        else none
      lastSeen := now } := by
  induction failures using List.reverseRecOn generalizing now with
  | nil => rfl
  | append_singleton failures last ih =>
    have hgrows : counted (failures.length + 1) ≤ counted (failures.length + 1 + 1) := by
      unfold counted
      omega
    rw [remembered_append, ih, List.length_append, List.length_singleton]
    simp only [Option.getD_some, FailedAttempts.failed, saturatingSucc_counted]
    by_cases hover : settings.failuresBeforeLockout < counted (failures.length + 1 + 1)
    · rw [if_pos hover, if_pos hover]
    · rw [if_neg hover, if_neg hover,
        if_neg fun h => hover (Nat.lt_of_lt_of_le h hgrows)]

theorem failures_remembered (pending : Nat) :
    (⟨remembered settings failures, pending⟩ : KeyCounts).failures = counted failures.length := by
  rcases List.eq_nil_or_concat failures with rfl | ⟨earlier, last, rfl⟩
  · rfl
  · rw [List.concat_eq_append, KeyCounts.failures, remembered_eq, List.length_append]
    rfl

/-- What is not quiet is remembered. -/
theorem expire_remembered {pending : Nat}
    (h : ∀ last ∈ failures.getLast?, now - last < settings.window) :
    (⟨remembered settings failures, pending⟩ : KeyCounts).expire settings now =
      ⟨remembered settings failures, pending⟩ := by
  rcases List.eq_nil_or_concat failures with rfl | ⟨earlier, last, rfl⟩
  · rfl
  · rw [List.concat_eq_append] at h ⊢
    have hrecent := h last (List.getLast?_concat ..)
    rw [expire, remembered_eq]
    simp [Option.filter, FailedAttempts.isKept, hrecent]

theorem admitAttempt_fst (counts : KeyCounts) : (counts.admitAttempt settings now).1 =
    if (counts.admitAttempt settings now).2 = none then { counts with pending := counts.pending + 1 }
    else counts := by
  rw [admitAttempt]
  cases counts.locked? now with
  | some retryAfter => rfl
  | none =>
    dsimp only
    split <;> rfl

/-- An attempt is admitted when the lockout of the last failure is over and there is room. -/
theorem admitAttempt_none {counts : KeyCounts} (h : (counts.admitAttempt settings now).2 = none) :
    (∀ attempts ∈ counts.attempts, ∀ until_ ∈ attempts.lockedUntil, until_ ≤ now) ∧
      counts.pending < counts.allowed settings := by
  rw [admitAttempt] at h
  cases hlocked : counts.locked? now with
  | some retryAfter =>
    rw [hlocked] at h
    cases h
  | none =>
    rw [hlocked] at h
    dsimp only at h
    split at h
    · cases h
    case isFalse hroom =>
      refine ⟨fun attempts hattempts until_ huntil => ?_, Nat.lt_of_not_le hroom⟩
      rw [Option.mem_def] at hattempts huntil
      rw [locked?, hattempts, Option.bind_some, huntil, Option.map_eq_none_iff] at hlocked
      simpa [Option.filter] using hlocked

end KeyCounts

theorem lockoutFor_mono {overLimit further : Nat} (settings : ThrottleSettings)
    (hle : min overLimit 21 ≤ further) :
    lockoutFor overLimit settings ≤ lockoutFor further settings := by
  have hshift : min (overLimit - 1) 20 ≤ min (further - 1) 20 := by omega
  have hdoubled := Nat.mul_le_mul_left settings.baseLockout
    (Nat.pow_le_pow_right Nat.two_pos hshift)
  unfold lockoutFor
  dsimp only
  omega

namespace Attack

variable {settings : ThrottleSettings} {key : IpAddr} {attack : Attack}

/-- What the throttle would hold about the key if it never forgot. -/
def unforgotten (settings : ThrottleSettings) (attack : Attack) : KeyCounts :=
  ⟨KeyCounts.remembered settings attack.failures, attack.admitted - attack.released⟩

/-- The throttle counts what the attack has come to. -/
structure Counted (settings : ThrottleSettings) (key : IpAddr) (attack : Attack) : Prop where
  settings_eq : attack.throttle.settings = settings
  counts : (attack.throttle.counts key).expire settings attack.clock =
    (attack.unforgotten settings).expire settings attack.clock
  released_le : attack.released ≤ attack.failures.length
  failures_le : attack.failures.length ≤ attack.admitted
  past : ∀ instant ∈ attack.failures, instant ≤ attack.clock
  sorted : attack.failures.Pairwise (· ≤ ·)

theorem after_own {call : ThrottleCall} (hown : call.key = key) : attack.after key call =
    { attack with
      throttle := (attack.throttle.call call).1
      clock := call.instant?.getD attack.clock }.tally call (attack.throttle.call call).2 :=
  if_pos hown

theorem after_other {call : ThrottleCall} (hother : key ≠ call.key) : attack.after key call =
    { attack with
      throttle := (attack.throttle.call call).1
      clock := call.instant?.getD attack.clock } :=
  if_neg hother.symm

theorem Fails.clock_le {call : ThrottleCall} (hfails : Fails settings key attack call) :
    attack.clock ≤ call.instant?.getD attack.clock := by
  cases hinstant : call.instant? with
  | none => exact Nat.le_refl _
  | some instant => exact hfails.1 instant hinstant

theorem unforgotten_expire {now : Nat} (h : ¬attack.Quiet settings now) :
    (attack.unforgotten settings).expire settings now = attack.unforgotten settings :=
  KeyCounts.expire_remembered fun last hlast => Nat.lt_of_not_le fun hle => h ⟨last, hlast, hle⟩

/-- What the throttle holds about the key after a call for it, over what it would hold if it never
forgot. -/
theorem Counted.call_own (h : Counted settings key attack) {call : ThrottleCall}
    (hown : call.key = key) (hfails : Fails settings key attack call) :
    (((attack.throttle.call call).1.counts key).expire settings (call.instant?.getD attack.clock) =
      ((attack.unforgotten settings).call settings call).1.expire settings
        (call.instant?.getD attack.clock)) ∧
    (attack.throttle.call call).2.bind (·.retryAfter?) =
      ((attack.unforgotten settings).call settings call).2 := by
  obtain ⟨hcounts, hverdict⟩ := attack.throttle.counts_call_own call
  obtain ⟨hnext, hanswer⟩ := KeyCounts.call_congr h.counts hfails.1
  rw [hown, h.settings_eq] at hcounts hverdict
  exact ⟨by rw [hcounts, hnext], by rw [hverdict, hanswer]⟩

theorem Counted.admitAttempt_retryAfter? (h : Counted settings key attack) {address : IpAddr} {now : Nat}
    (hown : address.key = key) (hfails : Fails settings key attack (.admitAttempt address now)) :
    (attack.throttle.admitAttempt address now).2.retryAfter? =
      ((attack.unforgotten settings).admitAttempt settings now).2 := by
  have hverdict := (@call_own _ _ _ h (.admitAttempt address now) hown hfails).2
  rwa [KeyCounts.call, unforgotten_expire ((hfails.2 hown).2 now rfl)] at hverdict

theorem Counted.after (h : Counted settings key attack) {call : ThrottleCall}
    (hfails : Fails settings key attack call) : Counted settings key (attack.after key call) := by
  have hsettings := (attack.throttle.settings_call call).trans h.settings_eq
  have hclock := hfails.clock_le
  have hpast : ∀ instant ∈ attack.failures, instant ≤ call.instant?.getD attack.clock :=
    fun instant hmem => Nat.le_trans (h.past instant hmem) hclock
  by_cases hown : call.key = key
  · obtain ⟨hcounts, hverdict⟩ := h.call_own hown hfails
    obtain ⟨hdue, hloud⟩ := hfails.2 hown
    rw [after_own hown]
    cases call with
    | check address now =>
      exact ⟨hsettings, hcounts.trans (KeyCounts.expire_expire _ _ (Nat.le_refl now)),
        h.released_le, h.failures_le, hpast, h.sorted⟩
    | admitAttempt address now =>
      have hpending : attack.admitted - attack.released + 1 =
          attack.admitted + 1 - attack.released :=
        (Nat.sub_add_comm (Nat.le_trans h.released_le h.failures_le)).symm
      have hadmitted := h.admitAttempt_retryAfter? hown hfails
      rw [KeyCounts.call, unforgotten_expire (hloud now rfl), KeyCounts.admitAttempt_fst, ← hadmitted] at hcounts
      change Counted settings key (tally _ _ (some (attack.throttle.admitAttempt address now).2))
      cases hanswer : (attack.throttle.admitAttempt address now).2 with
      | proceed delay =>
        rw [hanswer] at hcounts
        refine ⟨hsettings, hcounts.trans ?_, h.released_le, Nat.le_succ_of_le h.failures_le, hpast,
          h.sorted⟩
        simp only [Decision.retryAfter?, if_true, unforgotten, tally, hpending]
      | locked retryAfter =>
        rw [hanswer] at hcounts
        exact ⟨hsettings, hcounts, h.released_le, h.failures_le, hpast, h.sorted⟩
    | release address =>
      refine ⟨hsettings, hcounts.trans ?_, hdue, h.failures_le, hpast, h.sorted⟩
      simp only [KeyCounts.call, unforgotten, tally, Nat.sub_sub]
    | recordFailure address now =>
      have hrecorded : (attack.unforgotten settings).recordFailure settings now =
          ⟨KeyCounts.remembered settings (attack.failures ++ [now]),
            attack.admitted - attack.released⟩ := by
        rw [KeyCounts.remembered_append]
        rfl
      have hlast : (attack.failures ++ [now]).length = attack.failures.length + 1 :=
        List.length_append
      rw [KeyCounts.call, unforgotten_expire (hloud now rfl), hrecorded] at hcounts
      refine ⟨hsettings, hcounts.trans (KeyCounts.expire_expire _ _ (Nat.le_refl now)),
        Nat.le_trans h.released_le (hlast ▸ Nat.le_succ _), hlast ▸ hdue, ?_, ?_⟩
      · exact List.forall_mem_append.mpr ⟨hpast, List.forall_mem_singleton.mpr (Nat.le_refl now)⟩
      · exact List.pairwise_append.mpr ⟨h.sorted, List.pairwise_singleton .., fun instant hmem _ hlast =>
          List.mem_singleton.mp hlast ▸ hpast instant hmem⟩
    | recordSuccess address now => exact hdue.elim
  · rw [after_other (Ne.symm hown)]
    refine ⟨hsettings, ?_, h.released_le, h.failures_le, hpast, h.sorted⟩
    change ((attack.throttle.call call).1.counts key).expire _ _ = _
    rw [attack.throttle.counts_call_other (Ne.symm hown), h.settings_eq, KeyCounts.expire_pass]
    exact KeyCounts.expire_congr h.counts hclock

theorem Counted.of_reaches
    (hreach : (machine settings key).Reaches (Fails settings key) attack) :
    Counted settings key attack := by
  refine hreach.invariant _ ?_ ?_
  · rintro _ rfl
    exact ⟨rfl, rfl, Nat.le_refl 0, Nat.le_refl 0, List.forall_mem_nil _, .nil⟩
  · intro attack call next h hfails hstep
    obtain rfl := Option.some.inj hstep
    exact h.after hfails

/-- The last failure beyond the limit locks the key until its lockout is over. -/
theorem locked_until (hne : attack.failures ≠ [])
    (hlocked : settings.failuresBeforeLockout < KeyCounts.counted attack.failures.length) :
    ∃ attempts ∈ (attack.unforgotten settings).attempts,
      some (attack.failures.getLast hne + lockoutFor
        (KeyCounts.counted attack.failures.length - settings.failuresBeforeLockout) settings) =
      attempts.lockedUntil := by
  have hsplit := List.dropLast_append_getLast hne
  have hlength : attack.failures.dropLast.length + 1 = attack.failures.length := by
    rw [List.length_dropLast]
    exact Nat.sub_add_cancel (List.length_pos_iff.mpr hne)
  have hremembered := @KeyCounts.remembered_eq settings attack.failures.dropLast
    (attack.failures.getLast hne)
  rw [hsplit, hlength] at hremembered
  exact ⟨_, hremembered, (if_pos hlocked).symm⟩

/-- Before the first lockout an attack has one attempt more than the failures that are let pass.
After `k + 1` failures more, the next attempt waits for a lockout doubled `k` times, and is alone. -/
theorem guesses_bounded (hreach : (machine settings key).Reaches (Fails settings key) attack)
    (hcounter : settings.failuresBeforeLockout + 21 ≤ u32Max) {address : IpAddr} {now delay : Nat}
    (hown : address.key = key) (hfails : Fails settings key attack (.admitAttempt address now))
    (hadmitted : (attack.throttle.admitAttempt address now).2 = .proceed delay) :
    (attack.failures.length ≤ settings.failuresBeforeLockout →
      attack.admitted ≤ settings.failuresBeforeLockout) ∧
    ∀ k failed, attack.failures[settings.failuresBeforeLockout + k]? = some failed →
      failed + min (min (settings.baseLockout * 2 ^ min k 20) durationMax) settings.maxLockout ≤ now ∧
        attack.admitted = attack.released := by
  have h := Counted.of_reaches hreach
  have hnone := h.admitAttempt_retryAfter? hown hfails
  rw [hadmitted] at hnone
  obtain ⟨hover, hroom⟩ := KeyCounts.admitAttempt_none hnone.symm
  have hpending : attack.admitted - attack.released < max (saturatingSucc
      settings.failuresBeforeLockout - KeyCounts.counted attack.failures.length) 1 := by
    rwa [KeyCounts.allowed, unforgotten, KeyCounts.failures_remembered] at hroom
  have hreleased := h.released_le
  have hfailures := h.failures_le
  have hsucc : saturatingSucc settings.failuresBeforeLockout = settings.failuresBeforeLockout + 1 :=
    Nat.min_eq_left (by omega)
  have hcounted : KeyCounts.counted attack.failures.length = min attack.failures.length u32Max := rfl
  refine ⟨fun hfew => by omega, fun k failed hfailed => ?_⟩
  obtain ⟨hlt, rfl⟩ := List.getElem?_eq_some_iff.mp hfailed
  refine ⟨?_, by omega⟩
  have hlocked : settings.failuresBeforeLockout < KeyCounts.counted attack.failures.length := by
    omega
  have hne : attack.failures ≠ [] := List.ne_nil_of_length_pos (Nat.zero_lt_of_lt hlt)
  obtain ⟨attempts, hattempts, huntil⟩ := locked_until hne hlocked
  have hlast : attack.failures[settings.failuresBeforeLockout + k] ≤
      attack.failures.getLast hne := h.sorted.rel_getLast (List.getElem_mem hlt)
  have hlonger : lockoutFor (k + 1) settings ≤ lockoutFor
      (KeyCounts.counted attack.failures.length - settings.failuresBeforeLockout) settings :=
    lockoutFor_mono settings (by omega)
  exact Nat.le_trans (Nat.add_le_add hlast hlonger) (hover attempts hattempts _ huntil.symm)

/-- With one failure let pass, the attempt after the second failure waits for fifteen seconds. -/
theorem guesses_bounded_second :
    let settings : ThrottleSettings := { failuresBeforeLockout := 1 }
    let address := IpAddr.v4 7
    let attack := [.admitAttempt address 0, .admitAttempt address 1, .recordFailure address 2,
      .recordFailure address 3, .release address, .release address].foldl
        (Attack.after address.key) { throttle := .new settings }
    (attack.failures.length ≤ 1 → attack.admitted ≤ 1) ∧
      ∀ k failed, attack.failures[1 + k]? = some failed →
        failed + min (min (settings.baseLockout * 2 ^ min k 20) durationMax) settings.maxLockout ≤
            16 * 1000000000 ∧
          attack.admitted = attack.released :=
  have hwithin : (machine { failuresBeforeLockout := 1 } (IpAddr.v4 7).key).Within
      (Fails { failuresBeforeLockout := 1 } (IpAddr.v4 7).key) { throttle := .new _ }
      [.admitAttempt (.v4 7) 0, .admitAttempt (.v4 7) 1, .recordFailure (.v4 7) 2, .recordFailure (.v4 7) 3,
        .release (.v4 7), .release (.v4 7)] := by decide
  guesses_bounded (.within (.initial rfl) hwithin rfl) (by decide) rfl (by decide)
    (rfl : _ = Decision.proceed 0)

end Attack

end RDownloader
