import RDownloader.Core.Words

/-!
# Daily and monthly traffic budgets (`rd-limits/src/budget.rs`)

Counters are keyed by the period they belong to. A counter is rolled onto the current period
before bytes land in it, and the bytes come from an odometer: the difference between the total
now and the total at the last sample.
-/

namespace RDownloader

inductive BudgetKind where
  | daily | monthly
  deriving DecidableEq, Repr

/-- The keys the schedule gives the current day and month. -/
structure PeriodKeys where
  day : String
  month : String
  deriving DecidableEq, Repr

def PeriodKeys.key (keys : PeriodKeys) : BudgetKind → String
  | .daily => keys.day
  | .monthly => keys.month

/-- One period's byte counter. -/
structure BudgetPeriod where
  key : String := ""
  usedBytes : Nat := 0
  deriving DecidableEq, Repr

/-- The state of both counters of one profile. -/
structure BudgetState where
  daily : BudgetPeriod := {}
  monthly : BudgetPeriod := {}
  /-- Total committed bytes at the last sample. -/
  lastTotalBytes : Nat := 0
  deriving DecidableEq, Repr

structure BudgetLimits where
  dailyBytes : Option Nat := none
  monthlyBytes : Option Nat := none
  deriving DecidableEq, Repr

structure BudgetExceeded where
  period : BudgetKind
  usedBytes : Nat
  limitBytes : Nat
  deriving DecidableEq, Repr

namespace BudgetPeriod

/-- One counter rolled onto the period `key`, with `bytes` added. -/
def record (period : BudgetPeriod) (key : String) (bytes : Nat) : BudgetPeriod :=
  let period := if period.key = key then period else { key, usedBytes := 0 }
  { period with usedBytes := saturatingAdd period.usedBytes bytes }

/-- What the counter shows in the period `key`: a counter of another period reads as empty. -/
def usedIn (period : BudgetPeriod) (key : String) : Nat :=
  if period.key = key then period.usedBytes else 0

theorem record_usedIn (period : BudgetPeriod) (current : String) :
    (period.record current bytes).usedIn current = saturatingAdd (period.usedIn current) bytes := by
  by_cases h : period.key = current <;> simp [record, usedIn, h]

theorem usedBytes_record_unused (key : String) : (record {} key 0).usedBytes = 0 := by
  unfold record
  split <;> rfl

theorem record_record (period : BudgetPeriod) (key : String) (bytes : Nat) :
    (period.record key bytes).record key 0 = period.record key bytes := by
  have hkey : (period.record key bytes).key = key := by
    unfold record
    split
    · next h => exact h
    · rfl
  have hused : saturatingAdd (period.record key bytes).usedBytes 0 =
      (period.record key bytes).usedBytes := by
    unfold record saturatingAdd
    dsimp only
    omega
  rw [record, if_pos hkey, hused]

end BudgetPeriod

namespace BudgetState

def period (state : BudgetState) : BudgetKind → BudgetPeriod
  | .daily => state.daily
  | .monthly => state.monthly

/-- Rolls the counters onto `day` and `month` and adds `bytes`. -/
def record (state : BudgetState) (day month : String) (bytes : Nat) : BudgetState :=
  { state with
    daily := state.daily.record day bytes
    monthly := state.monthly.record month bytes }

/-- Bytes to add from a new total, ignoring a total that shrank; the sample moves in any case. -/
def deltaFromTotal (state : BudgetState) (totalBytes : Nat) : Nat × BudgetState :=
  (totalBytes - state.lastTotalBytes, { state with lastTotalBytes := totalBytes })

/-- One period's verdict: used up when a limit is set and reached. -/
def exhaustedIn (state : BudgetState) (kind : BudgetKind) (limit : Option Nat) :
    Option BudgetExceeded :=
  limit.bind fun limit =>
    let used := (state.period kind).usedBytes
    if used ≥ limit then some { period := kind, usedBytes := used, limitBytes := limit } else none

/-- Which budget is exhausted right now; the daily one is reported first. -/
def exhausted (state : BudgetState) (limits : BudgetLimits) : Option BudgetExceeded :=
  (state.exhaustedIn .daily limits.dailyBytes).or (state.exhaustedIn .monthly limits.monthlyBytes)

theorem record_usedIn (state : BudgetState) (keys : PeriodKeys) (kind : BudgetKind) :
    ((state.record keys.day keys.month bytes).period kind).usedIn (keys.key kind) =
      saturatingAdd ((state.period kind).usedIn (keys.key kind)) bytes := by
  cases kind <;> exact BudgetPeriod.record_usedIn _ _

/-- Rolling counters onto the period they were just rolled onto changes nothing. -/
theorem record_record (budget : BudgetState) (day month : String) (bytes : Nat) :
    (budget.record day month bytes).record day month 0 = budget.record day month bytes := by
  unfold record
  rw [BudgetPeriod.record_record, BudgetPeriod.record_record]

/-- A profile that has used nothing has used up a budget of nothing, and no other. -/
theorem exhausted_unused (limits : BudgetLimits) (keys : PeriodKeys) :
    (record {} keys.day keys.month 0).exhausted limits = none ↔
      limits.dailyBytes ≠ some 0 ∧ limits.monthlyBytes ≠ some 0 := by
  have hkind (kind : BudgetKind) (limit : Option Nat) :
      (record {} keys.day keys.month 0).exhaustedIn kind limit = none ↔
        limit ≠ some 0 := by
    have hused : ((record {} keys.day keys.month 0).period kind).usedBytes = 0 := by
      cases kind <;> exact BudgetPeriod.usedBytes_record_unused _
    unfold exhaustedIn
    dsimp only
    rw [hused]
    cases limit with
    | none => simp
    | some limit => simp
  rw [exhausted, Option.or_eq_none_iff, hkind, hkind]

end BudgetState
end RDownloader
