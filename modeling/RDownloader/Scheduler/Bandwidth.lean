import RDownloader.Limits.Budget
import RDownloader.Lib.Counting

/-!
# Counting traffic (`rd-scheduler/src/bandwidth.rs`, `rd-db/src/bandwidth_store.rs`)

One supervision tick reloads the counters from the database and then records what the odometer,
the committed bytes of all rows, has moved since the stored baseline. The baseline lives in the
database, in every counter in memory and in the odometer itself. The model keeps all three, and
what of them survives a restart is the database alone.
-/

namespace RDownloader

/-- One row of `bandwidth_budget_counters`: the column is a signed 64-bit integer. -/
structure CounterRow where
  periodKey : String
  usedBytes : Nat
  fits : usedBytes ≤ i64Max

/-- `i64::try_from(period.used_bytes).unwrap_or(i64::MAX)` beside the period's key. -/
def CounterRow.ofPeriod (period : BudgetPeriod) : CounterRow where
  periodKey := period.key
  usedBytes := min period.usedBytes i64Max
  fits := Nat.min_le_right ..

def CounterRow.toPeriod (row : CounterRow) : BudgetPeriod :=
  { key := row.periodKey, usedBytes := row.usedBytes }

theorem CounterRow.usedIn_le (row : CounterRow) : row.toPeriod.usedIn current ≤ i64Max := by
  unfold BudgetPeriod.usedIn
  split
  · exact row.fits
  · exact Nat.zero_le _

/-- A counter read back is the one stored, clipped to the column. -/
theorem CounterRow.usedIn_ofPeriod (period : BudgetPeriod) (current : String) :
    (ofPeriod period).toPeriod.usedIn current = min (period.usedIn current) i64Max := by
  by_cases h : period.key = current <;> simp [BudgetPeriod.usedIn, toPeriod, ofPeriod, h]

structure BandwidthProfile (ProfileId : Type) where
  id : ProfileId
  budgetLimits : BudgetLimits := {}

variable {ProfileId : Type}

/-- What the database keeps: the counter rows and the setting `bandwidth.total_baseline`, `none`
when it is absent or unreadable. -/
structure BandwidthDb (ProfileId : Type) where
  counters : ProfileId → BudgetKind → Option CounterRow := fun _ _ => none
  baseline : Option Nat := none

/-- `Database::bandwidth_budgets`: a profile has counters once one of its rows exists. The last
sample is no column, so it reads as zero. -/
def BandwidthDb.budgetStates (db : BandwidthDb ProfileId) (id : ProfileId) : Option BudgetState :=
  if (db.counters id .daily).isNone ∧ (db.counters id .monthly).isNone then none else
  some {
    daily := ((db.counters id .daily).map CounterRow.toPeriod).getD {}
    monthly := ((db.counters id .monthly).map CounterRow.toPeriod).getD {} }

/-- `committed_bytes_total`: the odometer. -/
def committedBytesTotal (rows : List Nat) : Nat := rows.sum

/-- What the database says one profile was charged in one period. -/
def BandwidthDb.charged (db : BandwidthDb ProfileId) (id : ProfileId) (kind : BudgetKind)
    (current : String) : Nat :=
  (db.counters id kind).elim 0 fun row => row.toPeriod.usedIn current

section
variable {id : ProfileId}
namespace BandwidthDb

theorem charged_le (db : BandwidthDb ProfileId) (id : ProfileId) (kind : BudgetKind)
    (current : String) : db.charged id kind current ≤ i64Max := by
  unfold charged
  cases db.counters id kind with
  | none => exact Nat.zero_le _
  | some row => exact row.usedIn_le

/-- The counters a reload finds show what the database charged. -/
theorem budgetStates_usedIn (db : BandwidthDb ProfileId) {budget : BudgetState}
    (h : db.budgetStates id = some budget) :
    (budget.period kind).usedIn current = db.charged id kind current := by
  simp only [budgetStates] at h
  split at h
  · cases h
  · obtain rfl := Option.some.inj h
    cases kind <;> simp only [BudgetState.period, charged]
    · cases db.counters id .daily <;> simp [BudgetPeriod.usedIn]
    · cases db.counters id .monthly <;> simp [BudgetPeriod.usedIn]

theorem charged_of_budgetStates_none (db : BandwidthDb ProfileId)
    (h : db.budgetStates id = none) : db.charged id kind current = 0 := by
  simp only [budgetStates, ite_eq_left_iff, reduceCtorEq, imp_false, Decidable.not_not,
    Option.isNone_iff_eq_none] at h
  cases kind <;> simp [charged, h]

/-- The counters of a profile as a tick finds them, before the odometer is read. -/
def sampled (db : BandwidthDb ProfileId) (id : ProfileId) (total : Nat) : BudgetState :=
  match db.budgetStates id with
  | some budget => { budget with lastTotalBytes := db.baseline.getD budget.lastTotalBytes }
  | none => { lastTotalBytes := db.baseline.getD total }

theorem sampled_usedIn (db : BandwidthDb ProfileId) (id : ProfileId) (total : Nat)
    (kind : BudgetKind) (current : String) :
    ((db.sampled id total).period kind).usedIn current = db.charged id kind current := by
  unfold sampled
  split
  · next h => rw [← db.budgetStates_usedIn h]; cases kind <;> rfl
  · next h =>
    rw [db.charged_of_budgetStates_none h]
    cases kind <;> simp [BudgetState.period, BudgetPeriod.usedIn]

theorem sampled_lastTotalBytes {db : BandwidthDb ProfileId} {mark : Nat}
    (h : db.baseline = some mark) (id : ProfileId) (total : Nat) :
    (db.sampled id total).lastTotalBytes = mark := by
  unfold sampled; split <;> simp [h]

end BandwidthDb
end

inductive BudgetEvent (ProfileId : Type) where
  | exhausted (profile : ProfileId) (exceeded : BudgetExceeded)
  | available (profile : Option ProfileId)

/-- The part of the scheduler's memory that budgets use. -/
structure BandwidthState (ProfileId : Type) where
  profiles : List (BandwidthProfile ProfileId) := []
  active : Option ProfileId := none
  budgets : ProfileId → Option BudgetState := fun _ => none
  exceeded : Option BudgetExceeded := none
  announced : List (ProfileId × String) := []

section
variable [DecidableEq ProfileId]

/-- `store_budget_state`: both counters in one transaction. -/
def BandwidthDb.storeBudgetState (db : BandwidthDb ProfileId) (id : ProfileId)
    (state : BudgetState) : BandwidthDb ProfileId :=
  { db with counters := fun id' kind =>
      if id' = id then some (.ofPeriod (state.period kind)) else db.counters id' kind }

namespace BandwidthState

def activeProfile (state : BandwidthState ProfileId) : Option (BandwidthProfile ProfileId) :=
  state.active.bind fun id => state.profiles.find? (·.id = id)

/-- What the stored counters say about a profile's budget, without counting anything. -/
def exhaustedNow (state : BandwidthState ProfileId) (profile : BandwidthProfile ProfileId)
    (keys : PeriodKeys) : Option BudgetExceeded :=
  (state.budgets profile.id).bind fun budget =>
    (budget.record keys.day keys.month 0).exhausted profile.budgetLimits

/-- Sets the gate to `next`. Only an edge is announced, once per profile and period. -/
def settleExceeded (state : BandwidthState ProfileId) (profile : Option ProfileId)
    (next : Option BudgetExceeded) (keys : PeriodKeys) :
    Option (BudgetEvent ProfileId) × BandwidthState ProfileId :=
  let previous := state.exceeded
  let announced := state.announced.filter fun (_, period) => period = keys.day ∨ period = keys.month
  let state := { state with exceeded := next, announced }
  match previous, next, profile with
  | _, some next, some profile =>
    let entry := (profile, keys.key next.period)
    if entry ∈ announced then (none, state) else
    (some (.exhausted profile next), { state with announced := entry :: announced })
  | some _, none, profile => (some (.available profile), state)
  | _, _, _ => (none, state)

end BandwidthState

/-- What one supervision tick finds outside: the profiles, the profile the schedule or a switch
by hand puts in force, the period keys at the two moments it reads the clock, and the committed
bytes of the download rows. -/
structure BandwidthTick (ProfileId : Type) where
  profiles : List (BandwidthProfile ProfileId)
  activeAt : Option ProfileId
  reloadKeys : PeriodKeys
  recordKeys : PeriodKeys
  committedBytes : List Nat
  /-- The program was restarted since the tick before: its memory is empty. -/
  restarted : Bool := false

namespace BandwidthTick

def total (tick : BandwidthTick ProfileId) : Nat := committedBytesTotal tick.committedBytes

/-- The tick counts for the profile `id`, into the period `key` of one kind. -/
def CountsFor (tick : BandwidthTick ProfileId) (id : ProfileId) (kind : BudgetKind)
    (key : String) : Prop :=
  tick.activeAt = some id ∧ (∃ profile ∈ tick.profiles, profile.id = id) ∧
    tick.recordKeys.key kind = key

end BandwidthTick

/-- The database and the memory of the running program. -/
structure BandwidthService (ProfileId : Type) where
  db : BandwidthDb ProfileId := {}
  state : BandwidthState ProfileId := {}

namespace BandwidthService

/-- `reload_bandwidth` and the `apply_active_profile` it ends with: the counters come from the
database, and every one takes the stored baseline for its last sample when there is one. -/
def reloadBandwidth (service : BandwidthService ProfileId) (tick : BandwidthTick ProfileId) :
    BandwidthService ProfileId :=
  let budgets id := (service.db.budgetStates id).map fun budget =>
    match service.db.baseline with
    | some baseline => { budget with lastTotalBytes := baseline }
    | none => budget
  let state := { service.state with profiles := tick.profiles, budgets, active := tick.activeAt }
  let next := state.activeProfile.bind fun profile => state.exhaustedNow profile tick.reloadKeys
  { service with state := (state.settleExceeded state.active next tick.reloadKeys).2 }

/-- `record_bandwidth_budget`: adds the traffic since the last sample to the active profile's
counters. -/
def recordBandwidthBudget (service : BandwidthService ProfileId)
    (tick : BandwidthTick ProfileId) : BandwidthService ProfileId :=
  let db := service.db
  let total := tick.total
  match service.state.activeProfile with
  | none => { service with db := { db with baseline := some total } }
  | some profile =>
    let keys := tick.recordKeys
    let budget := (service.state.budgets profile.id).getD
      { lastTotalBytes := db.baseline.getD total }
    let (delta, budget) := budget.deltaFromTotal total
    let budget := budget.record keys.day keys.month delta
    let exceeded := budget.exhausted profile.budgetLimits
    let budgets id := if id = profile.id then some budget else service.state.budgets id
    let state := { service.state with budgets }
    let state := (state.settleExceeded (some profile.id) exceeded keys).2
    -- A tick that moved nothing stores no counter, and a baseline only when there is none.
    if delta = 0 then
      { db := if db.baseline.isNone then { db with baseline := some total } else db, state }
    else
      { db := { db.storeBudgetState profile.id budget with baseline := some total }, state }

/-- One supervision tick. -/
def superviseBandwidth (service : BandwidthService ProfileId) (tick : BandwidthTick ProfileId) :
    BandwidthService ProfileId :=
  let service := if tick.restarted then { service with state := {} } else service
  (service.reloadBandwidth tick).recordBandwidthBudget tick

/-- A run of ticks, first to last. -/
def superviseAll (service : BandwidthService ProfileId) (ticks : List (BandwidthTick ProfileId)) :
    BandwidthService ProfileId :=
  ticks.foldl superviseBandwidth service

end BandwidthService

/-! ## What one tick does -/

variable {id : ProfileId}

namespace BandwidthState

/-- The gate touches nothing but itself and the list of what was announced. -/
theorem settleExceeded_frame (state : BandwidthState ProfileId) :
    ∃ exceeded announced, (state.settleExceeded profile next keys).2 =
      { state with exceeded, announced } := by
  simp only [settleExceeded]
  split
  · split <;> exact ⟨_, _, rfl⟩
  · exact ⟨_, _, rfl⟩
  · exact ⟨_, _, rfl⟩

@[simp] theorem settleExceeded_budgets (state : BandwidthState ProfileId) :
    (state.settleExceeded profile next keys).2.budgets = state.budgets := by
  obtain ⟨_, _, h⟩ := settleExceeded_frame state; rw [h]

@[simp] theorem settleExceeded_activeProfile (state : BandwidthState ProfileId) :
    (state.settleExceeded profile next keys).2.activeProfile = state.activeProfile := by
  obtain ⟨_, _, h⟩ := settleExceeded_frame state; rw [h]; rfl

end BandwidthState

namespace BandwidthDb

theorem storeBudgetState_charged (db : BandwidthDb ProfileId) (budget : BudgetState) :
    (db.storeBudgetState id budget).charged id kind current =
      min ((budget.period kind).usedIn current) i64Max := by
  simp only [charged, storeBudgetState, if_true, Option.elim, CounterRow.usedIn_ofPeriod]

end BandwidthDb

namespace BandwidthTick

/-- The profile a tick measures: the one in force, while it exists. -/
def activeProfile (tick : BandwidthTick ProfileId) : Option (BandwidthProfile ProfileId) :=
  tick.activeAt.bind fun id => tick.profiles.find? (·.id = id)

theorem CountsFor.activeProfile {tick : BandwidthTick ProfileId}
    (h : tick.CountsFor id kind current) :
    ∃ profile, tick.activeProfile = some profile ∧ profile.id = id := by
  obtain ⟨hactive, ⟨profile, hmem, hid⟩, -⟩ := h
  simp only [BandwidthTick.activeProfile, hactive, Option.bind_some]
  cases hfind : tick.profiles.find? (·.id = id) with
  | none => simpa [hid] using List.find?_eq_none.mp hfind profile hmem
  | some found => exact ⟨found, rfl, by simpa using List.find?_some hfind⟩

end BandwidthTick

namespace BandwidthService

@[simp] theorem reloadBandwidth_db (service : BandwidthService ProfileId) :
    (service.reloadBandwidth tick).db = service.db := rfl

@[simp] theorem reloadBandwidth_activeProfile (service : BandwidthService ProfileId) :
    (service.reloadBandwidth tick).state.activeProfile = tick.activeProfile := by
  simp only [reloadBandwidth, BandwidthState.settleExceeded_activeProfile]; rfl

/-- The counters the reload leaves in memory are those of the database, sampled at the stored
baseline. -/
theorem reloadBandwidth_sampled (service : BandwidthService ProfileId) (total : Nat) :
    ((service.reloadBandwidth tick).state.budgets id).getD
      { lastTotalBytes := service.db.baseline.getD total } = service.db.sampled id total := by
  simp only [reloadBandwidth, BandwidthState.settleExceeded_budgets, BandwidthDb.sampled]
  cases service.db.budgetStates id with
  | none => rfl
  | some budget => cases service.db.baseline <;> rfl

theorem superviseBandwidth_eq (service : BandwidthService ProfileId) :
    service.superviseBandwidth tick =
      (reloadBandwidth { service with state := if tick.restarted then {} else service.state }
        tick).recordBandwidthBudget tick := by
  unfold superviseBandwidth; split <;> rfl

theorem superviseBandwidth_idle (service : BandwidthService ProfileId)
    (h : tick.activeProfile = none) :
    (service.superviseBandwidth tick).db =
      { service.db with baseline := some tick.total } := by
  rw [superviseBandwidth_eq]
  simp only [recordBandwidthBudget, reloadBandwidth_activeProfile, h, reloadBandwidth_db]

/-- What recording stores for the profile in force, from the counters it finds. -/
theorem recordBandwidthBudget_active (service : BandwidthService ProfileId)
    (h : service.state.activeProfile = some profile)
    (hbudget : (service.state.budgets profile.id).getD
      { lastTotalBytes := service.db.baseline.getD tick.total } = budget) :
    (service.recordBandwidthBudget tick).db =
      if tick.total - budget.lastTotalBytes = 0 then
        { service.db with baseline := some (service.db.baseline.getD tick.total) }
      else
        { service.db.storeBudgetState profile.id
            ({ budget with lastTotalBytes := tick.total }.record tick.recordKeys.day
              tick.recordKeys.month (tick.total - budget.lastTotalBytes)) with
          baseline := some tick.total } := by
  simp only [recordBandwidthBudget, h, hbudget, BudgetState.deltaFromTotal]
  split
  · obtain ⟨⟨counters, _ | mark⟩, state⟩ := service <;> rfl
  · rfl

theorem superviseBandwidth_active (service : BandwidthService ProfileId)
    (h : tick.activeProfile = some profile) :
    let budget := service.db.sampled profile.id tick.total
    (service.superviseBandwidth tick).db =
      if tick.total - budget.lastTotalBytes = 0 then
        { service.db with baseline := some (service.db.baseline.getD tick.total) }
      else
        { service.db.storeBudgetState profile.id
            ({ budget with lastTotalBytes := tick.total }.record tick.recordKeys.day
              tick.recordKeys.month (tick.total - budget.lastTotalBytes)) with
          baseline := some tick.total } := by
  rw [superviseBandwidth_eq]
  exact recordBandwidthBudget_active _ ((reloadBandwidth_activeProfile _).trans h)
    (reloadBandwidth_sampled _ _)

/-- Every tick leaves a baseline at or above the odometer it read. -/
theorem superviseBandwidth_baseline (service : BandwidthService ProfileId)
    (tick : BandwidthTick ProfileId) :
    ∃ baseline, (service.superviseBandwidth tick).db.baseline = some baseline ∧
      tick.total ≤ baseline := by
  cases hactive : tick.activeProfile with
  | none => exact ⟨_, by rw [superviseBandwidth_idle service hactive], Nat.le_refl _⟩
  | some profile =>
    rw [superviseBandwidth_active service hactive]
    split
    · next hdelta =>
      refine ⟨_, rfl, ?_⟩
      cases hbase : service.db.baseline with
      | none => simp
      | some baseline =>
        rw [BandwidthDb.sampled_lastTotalBytes hbase profile.id tick.total] at hdelta
        simp only [Option.getD_some]
        omega
    · exact ⟨_, rfl, Nat.le_refl _⟩

/-- One tick that counts for a profile charges it what the odometer shows above the stored
baseline, which moves forward only. -/
theorem superviseBandwidth_counts (service : BandwidthService ProfileId)
    (hcounts : tick.CountsFor id kind current) (hbase : service.db.baseline = some baseline) :
    (service.superviseBandwidth tick).db.charged id kind current =
        min (service.db.charged id kind current + (tick.total - baseline)) i64Max ∧
      (service.superviseBandwidth tick).db.baseline = some (max baseline tick.total) := by
  obtain ⟨profile, hactive, rfl⟩ := hcounts.activeProfile
  have hkey := hcounts.2.2
  have hle := service.db.charged_le profile.id kind current
  have hmark := BandwidthDb.sampled_lastTotalBytes hbase profile.id tick.total
  have hused := service.db.sampled_usedIn profile.id tick.total kind current
  rw [superviseBandwidth_active service hactive, hmark]
  generalize service.db.sampled profile.id tick.total = budget at hmark hused ⊢
  split
  · next hdelta =>
    refine ⟨?_, ?_⟩
    · rw [hdelta, Nat.add_zero, Nat.min_eq_left hle]; rfl
    · simp only [hbase, Option.getD_some]
      exact congrArg some (by omega)
  · next hdelta =>
    refine ⟨?_, ?_⟩
    · calc
        _ = min ((({ budget with lastTotalBytes := tick.total }.record tick.recordKeys.day
              tick.recordKeys.month (tick.total - baseline)).period kind).usedIn current)
              i64Max := service.db.storeBudgetState_charged _
        _ = min (saturatingAdd (service.db.charged profile.id kind current)
              (tick.total - baseline)) i64Max := by
          rw [← hkey, BudgetState.record_usedIn, hkey, ← hused]; cases kind <;> rfl
        _ = min (service.db.charged profile.id kind current + (tick.total - baseline)) i64Max :=
          min_saturatingAdd ..
    · exact congrArg some (by omega)

/-! ## A run of ticks -/

/-- Over ticks that all count for one profile and period, the profile is charged what the odometer
shows above a mark that moves forward only. -/
theorem superviseAll_charged (service : BandwidthService ProfileId)
    (hcounts : ∀ tick ∈ ticks, tick.CountsFor id kind current)
    (hbase : service.db.baseline = some baseline) :
    (service.superviseAll ticks).db.charged id kind current =
      min (service.db.charged id kind current + Odometer.excess baseline (ticks.map (·.total)))
        i64Max := by
  induction ticks generalizing service baseline with
  | nil => exact (Nat.min_eq_left (service.db.charged_le id kind current)).symm
  | cons tick ticks ih =>
    obtain ⟨hcharged, hmark⟩ :=
      superviseBandwidth_counts service (hcounts tick (List.mem_cons_self ..)) hbase
    have hrest := ih _ (fun t ht => hcounts t (List.mem_cons_of_mem _ ht)) hmark
    simp only [superviseAll, List.foldl_cons, List.map_cons, Odometer.excess] at hrest ⊢
    rw [hrest, hcharged]
    omega

/-! ## Every byte -/

/-- A profile in force at every tick of a period is charged the increases of the odometer exactly
when the odometer never rises from below the stored baseline and the sum fits the column. -/
theorem superviseAll_charged_iff (service : BandwidthService ProfileId)
    (first : BandwidthTick ProfileId) (ticks : List (BandwidthTick ProfileId))
    (id : ProfileId) (kind : BudgetKind) (current : String)
    (hcounts : ∀ tick ∈ ticks, tick.CountsFor id kind current) :
    let before := (service.superviseBandwidth first).db
    let after := ((service.superviseBandwidth first).superviseAll ticks).db
    let increases := Odometer.increases first.total (ticks.map (·.total))
    after.charged id kind current = before.charged id kind current + increases ↔
      Odometer.RisesFromMark (before.baseline.getD 0) first.total (ticks.map (·.total)) ∧
        before.charged id kind current + increases ≤ i64Max := by
  obtain ⟨baseline, hbase, hle⟩ := superviseBandwidth_baseline service first
  have hcharged := superviseAll_charged _ hcounts hbase
  have hfits := (service.superviseBandwidth first).db.charged_le id kind current
  have hexcess : Odometer.excess baseline (ticks.map (·.total)) ≤
      Odometer.increases first.total (ticks.map (·.total)) := Odometer.excess_le_increases hle
  simp only [hbase, Option.getD_some, hcharged, ← Odometer.excess_eq_increases_iff hle]
  omega

end BandwidthService
end

/-- A tick of a profile without limits, with one row of `committed` bytes. -/
def dayTick (committed : Nat) : BandwidthTick Unit where
  profiles := [{ id := () }]
  activeAt := some ()
  reloadKeys := { day := "2026-09-03", month := "2026-09" }
  recordKeys := { day := "2026-09-03", month := "2026-09" }
  committedBytes := [committed]

theorem dayTick_countsFor (committed : Nat) : (dayTick committed).CountsFor () .daily "2026-09-03" :=
  ⟨rfl, ⟨_, List.mem_singleton.mpr rfl, rfl⟩, rfl⟩

namespace BandwidthService

theorem superviseAll_charged_rising :
    let before := (superviseBandwidth {} (dayTick 1000)).db
    let after := ((superviseBandwidth {} (dayTick 1000)).superviseAll [dayTick 1200, dayTick 1500]).db
    after.charged () .daily "2026-09-03" = before.charged () .daily "2026-09-03" + 500 :=
  (superviseAll_charged_iff {} (dayTick 1000) [dayTick 1200, dayTick 1500] () .daily "2026-09-03"
    (by simp [dayTick_countsFor])).mpr (by decide)

/-- The odometer falls from 1000 to 200 and rises to 300: the increase is charged to nobody, since
the tick that saw the fall stored no baseline. -/
theorem superviseAll_loses_increase_after_shrink :
    let before := (superviseBandwidth {} (dayTick 1000)).db
    let after := ((superviseBandwidth {} (dayTick 1000)).superviseAll [dayTick 200, dayTick 300]).db
    Odometer.increases 1000 [200, 300] = 100 ∧
      after.charged () .daily "2026-09-03" = before.charged () .daily "2026-09-03" := by
  decide

end BandwidthService

end RDownloader
