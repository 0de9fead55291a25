import Mathlib.Algebra.Ring.Periodic
import Mathlib.Order.Bounds.Defs

/-!
# The weekly profile schedule (`rd-limits/src/schedule.rs`)

Instants are in nanoseconds from the epoch, and the zone of a schedule has one offset from UTC, in
whole minutes.
The profile is then one of the minute of the week, so a walk by minutes over more than a
week finds the next switch.
-/

namespace RDownloader

abbrev BandwidthProfileId := Nat

def WeeklySchedule.nanosPerMinute : Int := 60 * 10 ^ 9
def WeeklySchedule.minutesPerDay : Int := 24 * 60
def WeeklySchedule.lookaheadDays : Int := 8

/-- Days a window applies to, as a Monday-first bitmask. -/
structure DaySet where
  mask : UInt8
  deriving DecidableEq, Repr

namespace DaySet

/-- Weekdays are counted from Monday. -/
def contains (days : DaySet) (weekday : Nat) : Bool := days.mask.toNat.testBit weekday

def isEmpty (days : DaySet) : Bool := days.mask &&& 0b01111111 = 0

end DaySet

/-- `Weekday::pred`. -/
def weekdayPred (weekday : Nat) : Nat := (weekday + 6) % 7

/-- Whether a weekly window covers a local weekday and minute; one that wraps belongs to the day it
starts on. -/
def coversLocal (days : DaySet) (startMinute endMinute : Nat) (weekday minute : Nat) : Bool :=
  if days.isEmpty then false
  else if startMinute < endMinute then
    days.contains weekday && (startMinute ≤ minute && minute < endMinute)
  else
    (days.contains weekday && startMinute ≤ minute) ||
      (days.contains (weekdayPred weekday) && minute < endMinute)

/-- One time window that activates a profile. -/
structure ScheduleWindow where
  /-- As it is written. -/
  id : String
  profileId : BandwidthProfileId
  days : DaySet
  startMinute : Nat
  endMinute : Nat
  priority : Int
  enabled : Bool
  deriving DecidableEq, Repr

namespace ScheduleWindow

def covers (window : ScheduleWindow) (weekday minute : Nat) : Bool :=
  window.enabled &&
    coversLocal window.days window.startMinute window.endMinute weekday minute

/-- Which of two windows that overlap is picked: priority first, then the later start, then the
id. -/
def order (left right : ScheduleWindow) : Ordering :=
  (compare left.priority right.priority).then
    ((compare left.startMinute right.startMinute).then (compare left.id right.id))

end ScheduleWindow

/-- `Iterator::max_by`: of several largest the last. -/
def maxBy (order : α → α → Ordering) : List α → Option α
  | [] => none
  | first :: rest =>
    some (rest.foldl (fun best next => if order best next = .gt then best else next) first)

/-- The whole schedule. -/
structure WeeklySchedule where
  /-- Minutes that local time is ahead of UTC. -/
  timezone : Int
  defaultProfileId : Option BandwidthProfileId
  windows : List ScheduleWindow
  deriving DecidableEq, Repr

namespace WeeklySchedule

/-- The weekday and minute of a local minute from the epoch, which was a Thursday. -/
def positionOf (minute : Int) : Nat × Nat :=
  (((minute / minutesPerDay + 3) % 7).toNat, (minute % minutesPerDay).toNat)

/-- The local weekday and minute of an instant. -/
def localPosition (timezone : Int) (now : Int) : Nat × Nat :=
  positionOf ((now + timezone * nanosPerMinute) / nanosPerMinute)

variable (schedule : WeeklySchedule)

/-- The profile of a weekday and minute. -/
def activeIn (position : Nat × Nat) : Option BandwidthProfileId :=
  ((maxBy ScheduleWindow.order
    (schedule.windows.filter (·.covers position.1 position.2))).map (·.profileId)).or
      schedule.defaultProfileId

/-- The profile active at `now`. -/
def activeAt (now : Int) : Option BandwidthProfileId :=
  schedule.activeIn (localPosition schedule.timezone now)

/-- The loop of `next_switch_after`; each pass goes one minute on, and `fuel` is the minutes of the
horizon. -/
def walk (current : Option BandwidthProfileId) (deadline : Int) :
    Nat → Int → Option Int
  | 0, _ => none
  | fuel + 1, cursor =>
    if cursor < deadline then
      let cursor := cursor + nanosPerMinute
      if schedule.activeAt cursor ≠ current then some cursor else walk current deadline fuel cursor
    else none

/-- The next instant at which `activeAt` changes its answer. -/
def nextSwitchAfter (now : Int) : Option Int :=
  -- A minute of the cursor and the instant may be the same one, so there is one more pass.
  schedule.walk (schedule.activeAt now) (now + lookaheadDays * minutesPerDay * nanosPerMinute)
    ((lookaheadDays * minutesPerDay).toNat + 1) (now / nanosPerMinute * nanosPerMinute)

variable {schedule}

/-- The profile in a UTC minute. -/
def inMinute (schedule : WeeklySchedule) (minute : Int) : Option BandwidthProfileId :=
  schedule.activeIn (positionOf (minute + schedule.timezone))

theorem activeAt_eq (schedule : WeeklySchedule) (now : Int) :
    schedule.activeAt now = schedule.inMinute (now / nanosPerMinute) := by
  rw [activeAt, localPosition, Int.add_mul_ediv_right _ _ (by decide), inMinute]

theorem activeAt_minute (schedule : WeeklySchedule) (minute : Int) :
    schedule.activeAt (minute * nanosPerMinute) = schedule.inMinute minute := by
  rw [activeAt_eq, Int.mul_ediv_cancel _ (by decide)]

/-- A week has the same positions as the one before. -/
theorem inMinute_periodic (schedule : WeeklySchedule) :
    Function.Periodic schedule.inMinute (7 * minutesPerDay) := by
  intro minute
  have hposition : positionOf (minute + 7 * minutesPerDay + schedule.timezone) =
      positionOf (minute + schedule.timezone) := by
    unfold positionOf minutesPerDay
    congr 2 <;> omega
  rw [inMinute, inMinute, hposition]

/-- A profile that stays the same for the minutes of a week stays the same for good. -/
theorem inMinute_const {current : Option BandwidthProfileId} {first : Int}
    (h : ∀ k : Nat, k < 7 * minutesPerDay → schedule.inMinute (first + k) = current)
    (minute : Int) : schedule.inMinute minute = current := by
  have hmod := Int.emod_add_mul_ediv (minute - first) (7 * minutesPerDay)
  have hnonneg : 0 ≤ (minute - first) % (7 * minutesPerDay) := Int.emod_nonneg _ (by decide)
  have hlt : (minute - first) % (7 * minutesPerDay) < 7 * minutesPerDay :=
    Int.emod_lt_of_pos _ (by decide)
  have hshift := schedule.inMinute_periodic.int_mul ((minute - first) / (7 * minutesPerDay))
    (first + (minute - first) % (7 * minutesPerDay))
  have hsplit : first + (minute - first) % (7 * minutesPerDay) +
      (minute - first) / (7 * minutesPerDay) * (7 * minutesPerDay) = minute := by
    rw [Int.add_assoc, Int.mul_comm ((minute - first) / _), hmod]
    omega
  rw [Int.cast_id, hsplit] at hshift
  have hk := h ((minute - first) % (7 * minutesPerDay)).toNat (by omega)
  rw [Int.toNat_of_nonneg hnonneg] at hk
  exact hshift.trans hk

/-- A walk from a minute on returns the first other minute before the deadline. -/
theorem walk_spec {current : Option BandwidthProfileId} {deadline : Int} (fuel : Nat)
    (minute : Int) :
    match schedule.walk current deadline fuel (minute * nanosPerMinute) with
    | some switch => ∃ k : Nat, switch = (minute + (k : Int) + 1) * nanosPerMinute ∧
        schedule.inMinute (minute + k + 1) ≠ current ∧
        ∀ j < k, schedule.inMinute (minute + j + 1) = current
    | none => ∀ k < fuel, (minute + (k : Int)) * nanosPerMinute < deadline →
        schedule.inMinute (minute + k + 1) = current := by
  induction fuel generalizing minute with
  | zero => exact fun k hk => absurd hk (Nat.not_lt_zero k)
  | succ fuel ih =>
    have hnext : minute * nanosPerMinute + nanosPerMinute = (minute + 1) * nanosPerMinute := by
      rw [Int.add_mul, Int.one_mul]
    rw [walk]
    dsimp only
    rw [hnext, activeAt_minute]
    split
    next switch hwalk =>
      split at hwalk
      next hbefore =>
        split at hwalk
        next hother =>
          refine ⟨0, ?_, ?_, fun j hj => absurd hj (Nat.not_lt_zero j)⟩
          · rw [← Option.some.inj hwalk, Int.natCast_zero, Int.add_zero]
          · rw [Int.natCast_zero, Int.add_zero]
            exact hother
        next hsame =>
          have hlater := ih (minute + 1)
          rw [hwalk] at hlater
          obtain ⟨k, hswitch, hother, hfirst⟩ := hlater
          have hk : minute + 1 + (k : Int) + 1 = minute + ((k + 1 : Nat) : Int) + 1 := by omega
          refine ⟨k + 1, hk ▸ hswitch, hk ▸ hother, fun j hj => ?_⟩
          cases j with
          | zero =>
            rw [Int.natCast_zero, Int.add_zero]
            exact not_not.mp hsame
          | succ j =>
            have hj' : minute + 1 + (j : Int) + 1 = minute + ((j + 1 : Nat) : Int) + 1 := by omega
            exact hj' ▸ hfirst j (Nat.lt_of_succ_lt_succ hj)
      next => cases hwalk
    next hwalk =>
      intro k hk hdeadline
      split at hwalk
      next hbefore =>
        split at hwalk
        next => cases hwalk
        next hsame =>
          cases k with
          | zero =>
            rw [Int.natCast_zero, Int.add_zero]
            exact not_not.mp hsame
          | succ k =>
            have hlater := ih (minute + 1)
            rw [hwalk] at hlater
            have hk' : minute + 1 + (k : Int) = minute + ((k + 1 : Nat) : Int) := by omega
            have hresult := hlater k (Nat.lt_of_succ_lt_succ hk) (hk' ▸ hdeadline)
            rwa [hk'] at hresult
      next hafter =>
        -- Every later minute is after the deadline, too.
        have hle : minute * nanosPerMinute ≤ (minute + k) * nanosPerMinute :=
          Int.mul_le_mul_of_nonneg_right (by omega) (by decide)
        exact absurd (Int.lt_of_le_of_lt hle hdeadline) hafter

/-- The next switch is the least later instant with another profile, and there is none only if the
profile never changes. -/
theorem nextSwitchAfter_spec (schedule : WeeklySchedule) (now : Int) :
    match schedule.nextSwitchAfter now with
    | some switch =>
      IsLeast { later | now < later ∧ schedule.activeAt later ≠ schedule.activeAt now } switch
    | none => ∀ other, schedule.activeAt other = schedule.activeAt now := by
  have hwalk := @walk_spec schedule (schedule.activeAt now)
    (now + lookaheadDays * minutesPerDay * nanosPerMinute)
    ((lookaheadDays * minutesPerDay).toNat + 1) (now / nanosPerMinute)
  have hnow := schedule.activeAt_eq now
  have hpos : 0 < nanosPerMinute := by decide
  have hfloor := Int.ediv_mul_le now (Int.ne_of_gt hpos)
  have hceil : now < (now / nanosPerMinute + 1) * nanosPerMinute :=
    Int.lt_ediv_add_one_mul_self now hpos
  rw [← nextSwitchAfter] at hwalk
  split
  next switch hswitch =>
    rw [hswitch] at hwalk
    obtain ⟨k, rfl, hother, hfirst⟩ := hwalk
    refine ⟨⟨?_, ?_⟩, fun later hlater => ?_⟩
    · exact Int.lt_of_lt_of_le hceil (Int.mul_le_mul_of_nonneg_right (by omega) (Int.le_of_lt hpos))
    · rwa [activeAt_minute]
    · obtain ⟨hlt, hne⟩ := hlater
      have hge : now / nanosPerMinute ≤ later / nanosPerMinute :=
        Int.ediv_le_ediv hpos (Int.le_of_lt hlt)
      rw [activeAt_eq] at hne
      rw [← Int.le_ediv_iff_mul_le hpos]
      generalize now / nanosPerMinute = first at *
      generalize later / nanosPerMinute = last at *
      refine Int.not_lt.mp fun hearly => ?_
      obtain ⟨j, rfl⟩ := Int.exists_add_of_le hge
      cases j with
      | zero =>
        rw [Int.natCast_zero, Int.add_zero, hnow] at hne
        exact hne rfl
      | succ j =>
        have hj : first + (j : Int) + 1 = first + ((j + 1 : Nat) : Int) := by omega
        exact hne (hj ▸ hfirst j (by omega))
  next hnone =>
    rw [hnone] at hwalk
    intro other
    rw [activeAt_eq]
    refine @inMinute_const schedule _ (now / nanosPerMinute + 1) (fun k hk => ?_) _
    have hhorizon : (k : Int) < lookaheadDays * minutesPerDay :=
      Int.lt_trans hk (by decide : 7 * minutesPerDay < lookaheadDays * minutesPerDay)
    have hk' : now / nanosPerMinute + 1 + (k : Int) = now / nanosPerMinute + k + 1 :=
      Int.add_right_comm ..
    rw [hk']
    refine hwalk k (by omega) ?_
    have hbound := Int.mul_lt_mul_of_pos_right hhorizon hpos
    rw [Int.add_mul]
    omega

end WeeklySchedule

end RDownloader
