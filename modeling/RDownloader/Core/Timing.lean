import RDownloader.Core.Dates
import RDownloader.Core.Words

/-!
# Delays (`rd-core/src/timing.rs`)

The backoff, the spread and the ceiling on a wait some other party chose. Machine words are numbers
with the saturation or the wrap the source asks for; an instant past the last one is `none`.
-/

namespace RDownloader

/-- `MAX_RETRY_AFTER_SECONDS`: a day. -/
def maxRetryAfterSeconds : Nat := 24 * 60 * 60

def clampRetryAfter (seconds : Nat) : Nat :=
  if maxRetryAfterSeconds < seconds then maxRetryAfterSeconds else seconds

/-- In percent of the delay. -/
def retryJitterPercent : Nat := 10

/-- `base · 2^attempt`, capped at `max`. -/
def exponentialBackoff (attempt base max : Nat) : Nat :=
  min (saturatingMul base (2 ^ min attempt 32)) max

/-- `checked_add_signed`, with `latest` the last instant there is. -/
def Instant.checkedAdd (now latest : Instant) (delay : Nat) : Option Instant :=
  if now + delay ≤ latest then some (now + delay) else none

theorem Instant.checkedAdd_eq_some {now latest due : Instant} {delay : Nat} :
    Instant.checkedAdd now latest delay = some due ↔ now + delay ≤ latest ∧ due = now + delay := by
  unfold Instant.checkedAdd
  split
  · next h => simp [h, eq_comm]
  · next h => simp [h]

theorem Instant.checkedAdd_eq_none {now latest : Instant} {delay : Nat} :
    Instant.checkedAdd now latest delay = none ↔ latest < now + delay := by
  unfold Instant.checkedAdd
  split
  · next h => simpa using h
  · next h => simpa using h

/-! ## The spread -/

/-- A signed word; `none` where the arithmetic overflows it. -/
def checkedI64 (n : Int) : Option Int := if -2 ^ 63 ≤ n ∧ n ≤ i64Max then some n else none

/-- A signed word, where the arithmetic saturates. -/
def saturatedI64 (n : Int) : Int := max (-2 ^ 63) (min n i64Max)

/-- The seed, multiplied and turned so that neighbours land far apart. -/
def mixed (seed : Nat) : Nat :=
  ((BitVec.ofNat 64 seed * 0x9E3779B97F4A7C15#64).rotateLeft 31 * 0xBF58476D1CE4E5B9#64).toNat

/-- A deterministic offset within ±`percent` of `delay`. -/
def jitter (delay : Int) (percent seed : Nat) : Option Int :=
  let span := (saturatedI64 (delay * percent)).tdiv 100
  if span ≤ 0 then some 0
  else
    let width := (saturatedI64 (saturatedI64 (span * 2) + 1)).toNat
    let magnitude := mixed seed % width
    let magnitude := if magnitude ≤ i64Max then magnitude else 0
    checkedI64 (magnitude - span)

theorem saturatedI64_natCast (n : Nat) : saturatedI64 n = (min n i64Max : Nat) := by
  unfold saturatedI64
  omega

/-- The spread never overflows and stays within the percentage, whatever the seed. -/
theorem jitter_spec (delay percent seed : Nat) :
    ∃ offset : Int, jitter delay percent seed = some offset ∧
      -(delay * percent / 100 : Nat) ≤ offset ∧ offset ≤ (delay * percent / 100 : Nat) := by
  have hspan : (saturatedI64 ((delay : Int) * percent)).tdiv 100 =
      (min (delay * percent) i64Max / 100 : Nat) := by
    rw [← Int.natCast_mul, saturatedI64_natCast]
    exact (Int.ofNat_tdiv _ 100).symm
  have hle : min (delay * percent) i64Max / 100 ≤ delay * percent / 100 :=
    Nat.div_le_div_right (Nat.min_le_left _ _)
  have hword : min (delay * percent) i64Max / 100 ≤ i64Max / 100 :=
    Nat.div_le_div_right (Nat.min_le_right _ _)
  unfold jitter
  rw [hspan]
  generalize min (delay * percent) i64Max / 100 = span at hle hword
  dsimp only
  split
  · exact ⟨0, rfl, by omega, by omega⟩
  · have hwidth : (saturatedI64 (saturatedI64 ((span : Int) * 2) + 1)).toNat = span * 2 + 1 := by
      have hdouble : ((span : Int) * 2) = (span * 2 : Nat) := rfl
      rw [hdouble, saturatedI64_natCast, ← Int.natCast_succ, saturatedI64_natCast, Int.toNat_natCast]
      unfold i64Max at hword ⊢
      omega
    have hmagnitude : mixed seed % (span * 2 + 1) ≤ span * 2 :=
      Nat.le_of_lt_succ (Nat.mod_lt _ (Nat.succ_pos _))
    have hfits : mixed seed % (span * 2 + 1) ≤ i64Max := by
      unfold i64Max at hword ⊢
      omega
    rw [hwidth, if_pos hfits, checkedI64, if_pos]
    · exact ⟨_, rfl, by omega, by omega⟩
    · unfold i64Max at hword hfits ⊢
      omega

end RDownloader
