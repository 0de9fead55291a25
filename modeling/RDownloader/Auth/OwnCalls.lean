import RDownloader.Auth.KeyCounts

/-!
# Failing on purpose locks out nobody else

Whether an attempt is locked, and for how long, follows from the calls for its own key: the calls
for other keys only bring forward what would have expired anyway. What they do share is a delay
with a ceiling.
-/

namespace RDownloader

/-- No call is of an earlier instant than one before it. -/
def Chronological (calls : List ThrottleCall) : Prop :=
  (calls.filterMap (·.instant?)).Pairwise (· ≤ ·)

instance (calls : List ThrottleCall) : Decidable (Chronological calls) :=
  inferInstanceAs (Decidable (List.Pairwise ..))

/-- How long each call for an address of the key was told to be locked for. -/
def LoginThrottle.verdicts (throttle : LoginThrottle) (key : IpAddr) (calls : List ThrottleCall) :
    List (ThrottleCall × Option Nat) :=
  ((throttle.answers calls).filter (·.1.key = key)).map fun answer =>
    (answer.1, answer.2.bind (·.retryAfter?))

namespace KeyCounts

variable {settings : ThrottleSettings} {counts other : KeyCounts} {now : Nat}

/-- The same, by the counts of the key alone. -/
def verdicts (settings : ThrottleSettings) (counts : KeyCounts) :
    List ThrottleCall → List (ThrottleCall × Option Nat)
  | [] => []
  | call :: calls =>
    (call, (counts.call settings call).2) :: verdicts settings (counts.call settings call).1 calls

theorem expire_congr {later : Nat} (hsame : counts.expire settings now = other.expire settings now)
    (hle : now ≤ later) : counts.expire settings later = other.expire settings later := by
  rw [← expire_expire settings now hle, hsame, expire_expire settings now hle]

/-- From counts that will be the same once they have expired, a call leads to such counts, and
answers the same. -/
theorem call_congr {call : ThrottleCall} (hsame : counts.expire settings now = other.expire settings now)
    (hlater : ∀ instant ∈ call.instant?, now ≤ instant) :
    ((counts.call settings call).1.expire settings (call.instant?.getD now) =
      (other.call settings call).1.expire settings (call.instant?.getD now)) ∧
    (counts.call settings call).2 = (other.call settings call).2 := by
  cases call with
  | release address =>
    refine ⟨?_, rfl⟩
    obtain ⟨hattempts, hpending⟩ := KeyCounts.mk.inj hsame
    simp only [call, expire, ThrottleCall.instant?, Option.getD_none, hattempts, hpending]
  | check address instant | admitAttempt address instant | recordFailure address instant
  | recordSuccess address instant =>
    simp only [call, expire_congr hsame (hlater instant rfl), and_self]

theorem expire_pass (call : ThrottleCall) :
    (counts.pass settings call).expire settings (call.instant?.getD now) =
      counts.expire settings (call.instant?.getD now) := by
  unfold pass
  cases call.instant? with
  | none => rfl
  | some instant => exact expire_expire settings instant (Nat.le_refl instant)

end KeyCounts

theorem Chronological.cons {now : Nat} {call : ThrottleCall} {calls : List ThrottleCall}
    (h : (now :: (call :: calls).filterMap (·.instant?)).Pairwise (· ≤ ·)) :
    (∀ instant ∈ call.instant?, now ≤ instant) ∧
      (call.instant?.getD now :: calls.filterMap (·.instant?)).Pairwise (· ≤ ·) := by
  rw [List.filterMap_cons] at h
  cases hinstant : call.instant? with
  | none =>
    rw [hinstant] at h
    exact ⟨nofun, h⟩
  | some instant =>
    rw [hinstant] at h
    obtain ⟨hnow, hrest⟩ := List.pairwise_cons.mp h
    refine ⟨fun _ hmem => ?_, hrest⟩
    obtain rfl := Option.mem_some_iff.mp hmem
    exact hnow _ (List.mem_cons_self ..)

namespace LoginThrottle

variable {settings : ThrottleSettings} {throttle : LoginThrottle} {key : IpAddr}

/-- What the throttle answers for a key is what the counts of the key answer. -/
theorem verdicts_eq {counts : KeyCounts} {now : Nat} {calls : List ThrottleCall}
    (hordered : (now :: calls.filterMap (·.instant?)).Pairwise (· ≤ ·))
    (hsame : (throttle.counts key).expire throttle.settings now =
      counts.expire throttle.settings now) :
    throttle.verdicts key calls = counts.verdicts throttle.settings (calls.filter (·.key = key)) := by
  induction calls generalizing throttle counts now with
  | nil => rfl
  | cons call calls ih =>
    obtain ⟨hlater, hrest⟩ := Chronological.cons hordered
    have hsettings := throttle.settings_call call
    unfold verdicts answers
    by_cases hown : call.key = key
    · obtain ⟨hcounts, hverdict⟩ := throttle.counts_call_own call
      obtain ⟨hnext, hanswer⟩ := KeyCounts.call_congr hsame hlater
      rw [hown] at hcounts hverdict
      rw [List.filter_cons_of_pos (by simpa using hown), List.filter_cons_of_pos (by simpa using hown),
        List.map_cons, KeyCounts.verdicts, hverdict, hanswer]
      congr 1
      rw [← hsettings]
      refine ih hrest ?_
      rw [hsettings, hcounts, hnext]
    · have hcounts := throttle.counts_call_other (Ne.symm hown)
      rw [List.filter_cons_of_neg (by simpa using hown), List.filter_cons_of_neg (by simpa using hown),
        ← hsettings]
      refine ih hrest ?_
      rw [hsettings, hcounts, KeyCounts.expire_pass]
      refine KeyCounts.expire_congr hsame ?_
      cases hinstant : call.instant? with
      | none => exact Nat.le_refl now
      | some instant => exact hlater instant hinstant

theorem globalDelay_le (throttle : LoginThrottle) :
    throttle.globalDelay ≤ throttle.settings.maxGlobalDelay := by
  unfold globalDelay
  dsimp only
  split
  · exact Nat.zero_le _
  · exact Nat.min_le_right ..

theorem check_delay_le {address : IpAddr} {now delay : Nat}
    (h : (throttle.check address now).2 = .proceed delay) :
    delay ≤ throttle.settings.maxGlobalDelay := by
  have hdelay : delay = (throttle.expire now).globalDelay := by
    unfold check at h
    dsimp only at h
    split at h
    · split at h
      · cases h
      · exact (Decision.proceed.inj h).symm
    · exact (Decision.proceed.inj h).symm
  rw [hdelay]
  exact globalDelay_le _

theorem call_delay_le {call : ThrottleCall} {delay : Nat}
    (h : (throttle.call call).2 = some (.proceed delay)) :
    delay ≤ throttle.settings.maxGlobalDelay := by
  cases call with
  | check address now => exact check_delay_le (Option.some.inj h)
  | admitAttempt address now =>
    have hadmitted : (throttle.admitAttempt address now).2 = .proceed delay := Option.some.inj h
    rw [admitAttempt_eq] at hadmitted
    cases hcheck : (throttle.check address now).2 with
    | locked retryAfter =>
      rw [hcheck] at hadmitted
      cases hadmitted
    | proceed paid =>
      rw [hcheck] at hadmitted
      dsimp only at hadmitted
      split at hadmitted
      · cases hadmitted
      · obtain rfl := Decision.proceed.inj hadmitted
        exact check_delay_le hcheck
  | release address => cases h
  | recordFailure address now =>
    have hcheck : (check _ address.key now).2 = .proceed delay := Option.some.inj h
    have hle := check_delay_le hcheck
    exact hle
  | recordSuccess address now => cases h

theorem answers_delay_le {calls : List ThrottleCall} {answer : ThrottleCall × Option Decision}
    {delay : Nat} (hmem : answer ∈ throttle.answers calls)
    (h : answer.2 = some (.proceed delay)) : delay ≤ throttle.settings.maxGlobalDelay := by
  induction calls generalizing throttle with
  | nil => cases hmem
  | cons call calls ih =>
    rcases List.mem_cons.mp hmem with rfl | hmem
    · exact call_delay_le h
    · rw [← throttle.settings_call call]
      exact ih hmem

/-- The calls for other keys change nothing of what the attempts of a key are told, and no attempt
is asked to wait for longer than the global delay can be. -/
theorem locked_by_own_calls {calls others : List ThrottleCall} (hcalls : Chronological calls)
    (hothers : Chronological others)
    (hown : calls.filter (·.key = key) = others.filter (·.key = key)) :
    (new settings).verdicts key calls = (new settings).verdicts key others ∧
      ∀ answer ∈ (new settings).answers calls, ∀ delay, answer.2 = some (.proceed delay) →
        delay ≤ settings.maxGlobalDelay := by
  have hfrom {calls : List ThrottleCall} (h : Chronological calls) :
      (0 :: calls.filterMap (·.instant?)).Pairwise (· ≤ ·) :=
    List.pairwise_cons.mpr ⟨fun _ _ => Nat.zero_le _, h⟩
  refine ⟨?_, fun answer hmem delay h => answers_delay_le hmem h⟩
  rw [verdicts_eq (hfrom hcalls) rfl, verdicts_eq (hfrom hothers) rfl, hown]

/-- A stranger who fails six times does not lock out the owner. -/
theorem locked_by_own_calls_stranger :
    let stranger := (List.range 6).map fun i => ThrottleCall.recordFailure (.v4 1) i
    let owner := [ThrottleCall.admitAttempt (.v4 2) 6]
    (new {}).verdicts (.v4 2) (stranger ++ owner) = (new {}).verdicts (.v4 2) owner ∧
      ∀ answer ∈ (new {}).answers (stranger ++ owner), ∀ delay,
        answer.2 = some (.proceed delay) → delay ≤ 2 * 1000000000 :=
  locked_by_own_calls (by decide) (by decide) (by decide)

end LoginThrottle

end RDownloader
