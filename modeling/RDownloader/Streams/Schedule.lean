import RDownloader.Core.Dates
import Mathlib.Data.List.Destutter
import Mathlib.Data.List.Sort

/-!
# Livestream schedules (`rd-core/src/stream_schedule.rs`, `rd-stream/src/schedule.rs`)

When a schedule says to watch a channel, and the occurrences that come of it. A local time stays a
local time, so the occurrences depend on the time zones, of which only this much is used: the local
date of an instant and the instants of a local time.
-/

namespace RDownloader

abbrev StreamChannelId := Nat
abbrev StreamScheduleId := Nat

def minutesPerDay : Nat := 24 * 60
def maxWindowMinutes : Nat := 24 * 60
def maxRollMinutes : Nat := 120
def planningHorizonDays : Nat := 14

/-- `Duration::minutes`. -/
def minutes (n : Nat) : Int := n * 60000

/-- `Duration::days`. -/
def wholeDays (n : Nat) : Int := minutes (n * minutesPerDay)

/-- When a schedule fires. -/
inductive ScheduleKind
  | once (start : Instant)
  | weekly (days : List Nat) (startMinute : Nat)
  deriving DecidableEq, Repr

structure NewStreamSchedule where
  channelId : StreamChannelId
  enabled : Bool
  kind : ScheduleKind
  timezone : String
  windowMinutes : Nat
  leadMinutes : Nat
  trailMinutes : Nat
  replayFromStart : Bool
  deriving DecidableEq, Repr

structure StreamSchedule extends NewStreamSchedule where
  id : StreamScheduleId
  deriving DecidableEq, Repr

inductive ScheduleError
  | unknownTimezone
  | noDays
  | invalidDay
  | startOutOfRange
  | windowOutOfRange
  | rollOutOfRange
  deriving DecidableEq, Repr

inductive LocalResult
  | single (instant : Instant)
  | ambiguous (first second : Instant)
  | none
  deriving DecidableEq, Repr

/-- A time zone. Days are counted from the first of January 1970. -/
structure Zone where
  dateNaive : Instant → Int
  fromLocalDatetime : Int → Nat → LocalResult

/-- How a time zone is parsed. -/
abbrev Zones := String → Option Zone

/-- One concrete occurrence, in UTC. -/
structure StreamOccurrence where
  startsAt : Instant
  endsAt : Instant
  deriving DecidableEq, Repr

namespace StreamOccurrence

/-- The interval that is watched, widened by the lead and trail. -/
def watchWindow (occurrence : StreamOccurrence) (schedule : StreamSchedule) : Instant × Instant :=
  (occurrence.startsAt - minutes schedule.leadMinutes, occurrence.endsAt + minutes schedule.trailMinutes)

def overlaps (occurrence : StreamOccurrence) (since horizon : Instant) : Bool :=
  since ≤ occurrence.endsAt ∧ occurrence.startsAt ≤ horizon

end StreamOccurrence

def isWatching (schedule : StreamSchedule) (occurrence : StreamOccurrence) (now : Instant) : Bool :=
  (occurrence.watchWindow schedule).1 ≤ now ∧ now ≤ (occurrence.watchWindow schedule).2

/-- Checks the fields of a schedule and resolves its time zone. -/
def NewStreamSchedule.validate (zones : Zones) (schedule : NewStreamSchedule) :
    Except ScheduleError Zone :=
  match zones schedule.timezone with
  | none => .error .unknownTimezone
  | some zone =>
    if schedule.windowMinutes = 0 ∨ maxWindowMinutes < schedule.windowMinutes then
      .error .windowOutOfRange
    else if maxRollMinutes < schedule.leadMinutes ∨ maxRollMinutes < schedule.trailMinutes then
      .error .rollOutOfRange
    else
      match schedule.kind with
      | .once _ => .ok zone
      | .weekly days startMinute =>
        if days = [] then .error .noDays
        else if days.any fun day => ¬(1 ≤ day ∧ day ≤ 7) then .error .invalidDay
        else if minutesPerDay ≤ startMinute then .error .startOutOfRange
        else .ok zone

/-- The ISO weekday, Monday being 1. -/
def dayNumber (date : Int) : Nat := ((date + 3) % 7).toNat + 1

/-- The instant of a local time: the first of two, and none for one that does not exist. -/
def localStart (zone : Zone) (date : Int) (startMinute : Nat) : Option Instant :=
  if startMinute * 60 < 86400 then
    match zone.fromLocalDatetime date (startMinute * 60) with
    | .single start => some start
    | .ambiguous first _ => some first
    | .none => none
  else none

/-- The dates from `first` to `last`. -/
def datesBetween (first last : Int) : List Int :=
  (List.range (last + 1 - first).toNat).map (first + ·)

/-- `sort_by_key` and `dedup_by_key` by the start. -/
def sortedByStart (found : List StreamOccurrence) : List StreamOccurrence :=
  (found.insertionSort (·.startsAt ≤ ·.startsAt)).destutter (·.startsAt ≠ ·.startsAt)

/-- Every occurrence whose window overlaps the range. -/
def occurrences (zones : Zones) (schedule : StreamSchedule) (since horizon : Instant) :
    Except ScheduleError (List StreamOccurrence) :=
  (schedule.validate zones).map fun zone =>
    let window := minutes schedule.windowMinutes
    match schedule.kind with
    | .once start =>
      [(⟨start, start + window⟩ : StreamOccurrence)].filter (·.overlaps since horizon)
    | .weekly days startMinute =>
      -- A day early: an occurrence that began yesterday can still be running.
      let first := zone.dateNaive (since - window - wholeDays 1)
      let last := zone.dateNaive horizon
      let dates := (datesBetween first last).filter fun date => days.contains (dayNumber date)
      let found := dates.filterMap fun date =>
        (localStart zone date startMinute).map fun start => (⟨start, start + window⟩ : StreamOccurrence)
      sortedByStart (found.filter (·.overlaps since horizon))

/-- What is in order and has no two equal neighbours is strictly in order. -/
theorem isChain_lt {found : List StreamOccurrence} (hle : found.Pairwise (·.startsAt ≤ ·.startsAt))
    (hne : found.IsChain (·.startsAt ≠ ·.startsAt)) : found.IsChain (·.startsAt < ·.startsAt) := by
  induction hne with
  | nil => exact .nil
  | singleton => exact .singleton _
  | cons_cons hfirst _ ih =>
    obtain ⟨hbefore, hrest⟩ := List.pairwise_cons.mp hle
    exact .cons_cons (lt_of_le_of_ne (hbefore _ (List.mem_cons_self ..)) hfirst) (ih hrest)

theorem pairwise_sortedByStart (found : List StreamOccurrence) :
    (sortedByStart found).Pairwise (·.startsAt < ·.startsAt) := by
  have hle : (sortedByStart found).Pairwise (·.startsAt ≤ ·.startsAt) :=
    (List.pairwise_insertionSort _ found).sublist (List.destutter_sublist ..)
  have hne : (sortedByStart found).IsChain (·.startsAt ≠ ·.startsAt) := List.isChain_destutter ..
  have hstarts : ((sortedByStart found).map (·.startsAt)).IsChain (· < ·) :=
    (List.isChain_map _).mpr (isChain_lt hle hne)
  exact List.pairwise_map.mp hstarts.pairwise

/-- A schedule has one occurrence for each start, also on the night that has an hour twice. -/
theorem occurrences_pairwise {zones : Zones} {schedule : StreamSchedule} {since horizon : Instant}
    {found : List StreamOccurrence} (h : occurrences zones schedule since horizon = .ok found) :
    found.Pairwise (·.startsAt < ·.startsAt) := by
  unfold occurrences at h
  cases hzone : schedule.validate zones with
  | error error =>
    rw [hzone] at h
    cases h
  | ok zone =>
    rw [hzone] at h
    obtain rfl := Except.ok.inj h
    dsimp only
    cases schedule.kind with
    | once start => exact (List.pairwise_singleton _ _).sublist List.filter_sublist
    | weekly days startMinute => exact pairwise_sortedByStart _

end RDownloader
