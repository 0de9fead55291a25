import Mathlib.Order.Bounds.Defs
import RDownloader.Core.Lines

/-!
# When a time-triggered automation is due (`rd-automation/src/schedule.rs`)

A slot is named by its wall-clock time: one is due for a while after its instant, and the next one is
looked for by steps from the slot the clock stands in. Times are counted in nanoseconds from the
first of January 1970, instants in UTC and local times on the wall clock.
-/

namespace RDownloader

namespace Automation

/-- `Duration::seconds`. -/
def seconds (n : Int) : Int := n * 1000000000

/-- `Duration::minutes`. -/
def minutes (n : Int) : Int := seconds (n * 60)

def day : Int := minutes 1440

/-- `GRACE_SECONDS`. -/
def graceSeconds : Int := 120

/-- `MAX_CRON_LEN`. -/
def maxCronLen : Nat := 120

/-- `MAX_INTERVAL_MINUTES`. -/
def maxIntervalMinutes : Nat := 1440

/-! ## Time zones -/

/-- The instants of a local time. -/
inductive MappedLocalTime
  | single (instant : Int)
  | ambiguous (first last : Int)
  | none
  deriving DecidableEq, Repr

def MappedLocalTime.earliest : MappedLocalTime → Option Int
  | single instant => some instant
  | ambiguous first _ => some first
  | none => Option.none

/-- A time zone: the instants of a local time are those that show it. -/
structure TimeZone where
  /-- `with_timezone` and `naive_local`. -/
  naiveLocal : Int → Int
  fromLocalDatetime : Int → MappedLocalTime
  of_single : ∀ time instant, fromLocalDatetime time = .single instant →
    ∀ shown, naiveLocal shown = time ↔ shown = instant
  of_ambiguous : ∀ time first last, fromLocalDatetime time = .ambiguous first last →
    first < last ∧ ∀ shown, naiveLocal shown = time ↔ shown = first ∨ shown = last
  of_none : ∀ time, fromLocalDatetime time = .none → ∀ shown, naiveLocal shown ≠ time

/-- When a time-triggered automation runs. -/
inductive Schedule
  /-- Every so many minutes, counted from midnight. -/
  | interval (minutes : Nat)
  | cron (expression : Text)
  deriving DecidableEq, Repr

/-- One due slot: the instant, and the wall-clock time that names it. -/
structure Slot where
  instant : Int
  time : Int
  deriving DecidableEq, Repr

/-- What the cron library makes of an expression: the first occurrence behind an instant. -/
abbrev CronParser := Text → Option (Int → Option Int)

variable (parser : CronParser) (zone : TimeZone)

/-- `parse_cron`: five fields or an alias, no seconds, no years. -/
def parseCron (expression : Text) : Option (Int → Option Int) :=
  let expression := Text.trimmed expression
  if expression = [] ∨ maxCronLen < Text.byteLength expression then none else parser expression

/-! ## Slots -/

/-- A wall-clock time floored to a multiple of so many minutes counted from midnight. -/
def floorMinutes (time : Int) (every : Nat) : Int :=
  let every : Int := (max 1 (min every maxIntervalMinutes) : Nat)
  let midnight := time - time % day
  let sinceMidnight := (time - midnight) / minutes 1
  midnight + minutes (sinceMidnight - sinceMidnight % every)

/-- The interval slot at or before an instant. -/
def intervalSlotAtOrBefore (every : Nat) (now : Int) : Option Slot :=
  let time := floorMinutes (zone.naiveLocal now) every
  (zone.fromLocalDatetime time).earliest.map fun instant => ⟨instant, time⟩

/-- The newest occurrence up to an instant; the rounds only guard against the parser. -/
def newestOccurrence (next : Int → Option Int) (now : Int) : Nat → Int → Option Int → Option Int
  | 0, _, newest => newest
  | rounds + 1, cursor, newest =>
    match next cursor with
    | none => newest
    | some found =>
      if now < found then newest else newestOccurrence next now rounds found (some found)

namespace Schedule

/-- The newest slot in the window of the grace before an instant. -/
def dueSlot (schedule : Schedule) (now : Int) : Option Slot :=
  let windowStart := now - seconds graceSeconds
  let slot := match schedule with
    | interval every => intervalSlotAtOrBefore zone every now
    | cron expression =>
      (parseCron parser expression).bind fun next =>
        (newestOccurrence next now 8 windowStart none).map fun instant =>
          ⟨instant, zone.naiveLocal instant⟩
  slot.filter fun slot => windowStart < slot.instant ∧ slot.instant ≤ now

/-- The loop of `next_after`: the first of the following steps that begins later. -/
def steps (after step : Int) : Nat → Int → Option Int
  | 0, _ => none
  | tries + 1, time =>
    match (zone.fromLocalDatetime (time + step)).earliest with
    | some instant => if after < instant then some instant else steps after step tries (time + step)
    | none => steps after step tries (time + step)

/-- The first slot after an instant, for the editor's dry run. -/
def nextAfter (schedule : Schedule) (after : Int) : Option Int :=
  match schedule with
  | interval every =>
    steps zone after (minutes (max every 1 : Nat)) 4 (floorMinutes (zone.naiveLocal after) every)
  | cron expression => (parseCron parser expression).bind fun next => next after

end Schedule

end Automation

end RDownloader
