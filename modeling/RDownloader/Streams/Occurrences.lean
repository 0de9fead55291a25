import Mathlib.Order.Bounds.Defs
import RDownloader.Streams.ScheduleStore

/-!
# Which occurrences a schedule has (`rd-stream/src/schedule.rs`)

A weekly schedule has an occurrence on every selected day whose start time exists there. The scan
runs over local dates and the overlap is decided in UTC; as local dates never move backwards, no
date outside the scan has an occurrence that overlaps.
-/

namespace RDownloader

/-- `NaiveDateTime`: days from the first of January 1970, and milliseconds from midnight. -/
abbrev LocalTime := Int × Nat

/-- What the library says of a zone whose local date never moves backwards: the instants of a local
time are those that show it, in order where there are two. -/
structure Zone.Lawful (zone : Zone) (localTime : Instant → LocalTime) : Prop where
  date : ∀ instant, zone.dateNaive instant = (localTime instant).1
  single : ∀ date second start, second < 86400 → zone.fromLocalDatetime date second = .single start →
    ∀ instant, localTime instant = (date, second * 1000) ↔ instant = start
  ambiguous : ∀ date second first last, second < 86400 →
    zone.fromLocalDatetime date second = .ambiguous first last → first < last ∧
      ∀ instant, localTime instant = (date, second * 1000) ↔ instant = first ∨ instant = last
  none : ∀ date second, second < 86400 → zone.fromLocalDatetime date second = .none →
    ∀ instant, localTime instant ≠ (date, second * 1000)
  forwards : ∀ earlier later, earlier ≤ later → zone.dateNaive earlier ≤ zone.dateNaive later

/-- Whether the window of an occurrence meets a range, its ends included. -/
def StreamOccurrence.Meets (occurrence : StreamOccurrence) (range : Instant × Instant) : Prop :=
  range.1 ≤ occurrence.endsAt ∧ occurrence.startsAt ≤ range.2

variable {zones : Zones} {zone : Zone} {localTime : Instant → LocalTime}
  {schedule : StreamSchedule} {days : List Nat} {startMinute windowMinutes : Nat}
  {since horizon start : Instant} {date : Int} {occurrence : StreamOccurrence}

/-! ## Starts -/

namespace StreamStore

variable {store next : StreamStore} {scheduleId : StreamScheduleId}

/-- The rows after planning: those before, and rows of occurrences that were planned. -/
structure PlansOnly (scheduleId : StreamScheduleId) (P : StreamOccurrence → Prop)
    (store next : StreamStore) : Prop where
  kept : ∀ run ∈ store.runs, run ∈ next.runs
  planned : ∀ run ∈ next.runs, run ∈ store.runs ∨
    run.scheduleId = scheduleId ∧ P ⟨run.startsAt, run.endsAt⟩

variable {P : StreamOccurrence → Prop}

theorem PlansOnly.refl (store : StreamStore) : PlansOnly scheduleId P store store :=
  ⟨fun _ => id, fun _ => .inl⟩

theorem PlansOnly.trans {last : StreamStore} (h : PlansOnly scheduleId P store next)
    (h' : PlansOnly scheduleId P next last) : PlansOnly scheduleId P store last where
  kept run hmem := h'.kept run (h.kept run hmem)
  planned run hmem := (h'.planned run hmem).elim (h.planned run) .inr

theorem PlansOnly.mono {Q : StreamOccurrence → Prop} (h : PlansOnly scheduleId P store next)
    (hle : ∀ occurrence, P occurrence → Q occurrence) : PlansOnly scheduleId Q store next :=
  ⟨h.kept, fun run hmem => (h.planned run hmem).imp_right fun hrun => ⟨hrun.1, hle _ hrun.2⟩⟩

end StreamStore

end RDownloader
