import RDownloader.Core.Dates
import RDownloader.Lib.Machine
import RDownloader.Scheduler.Bandwidth

/-!
# The budget gate (`rd-scheduler/src/bandwidth.rs`)

Two steps set the gate that holds new transfers back: applying the active profile, which reads the
counters, and recording traffic, which moves them. Over any sequence of both, an exhausted budget is
announced once a period. The gate shows what the usage of the active profile comes to, short of one
case: a budget of nothing, which is used up before there is a counter to say so.
-/

namespace RDownloader

/-! ## Periods -/

/-- `day_key` and `month_key` of the date the clock shows in the schedule's zone. -/
def PeriodKeys.ofDate (today : NaiveDate) : PeriodKeys where
  day := String.ofList today.toText
  month := String.ofList today.monthText

/-- A period is over once: no date between two dates of one period lies outside it. -/
theorem PeriodKeys.key_ofDate_between {a b c : NaiveDate} (hab : a ≤ b) (hbc : b ≤ c)
    (h : (ofDate a).key kind = (ofDate c).key kind) :
    (ofDate b).key kind = (ofDate c).key kind := by
  cases kind with
  | daily =>
    obtain rfl := NaiveDate.toText_inj (String.ofList_injective h)
    rw [NaiveDate.le_antisymm hab hbc]
  | monthly =>
    obtain ⟨hyear, hmonth⟩ := NaiveDate.monthText_inj (String.ofList_injective h)
    rw [NaiveDate.le_iff] at hab hbc
    have hsame : b.year = c.year ∧ b.month = c.month := by omega
    have htext : b.monthText = c.monthText := by
      rw [NaiveDate.monthText, NaiveDate.monthText, NaiveDate.yearText, NaiveDate.yearText,
        hsame.1, hsame.2]
    exact congrArg String.ofList htext

/-! ## The two steps -/

variable {ProfileId : Type} [DecidableEq ProfileId]

namespace BandwidthState

/-- `apply_active_profile`, on what the scheduler remembers. -/
def applyActiveProfile (state : BandwidthState ProfileId) (activeAt : Option ProfileId)
    (keys : PeriodKeys) : Option (BudgetEvent ProfileId) × BandwidthState ProfileId :=
  let state := { state with active := activeAt }
  let next := state.activeProfile.bind fun profile => state.exhaustedNow profile keys
  state.settleExceeded activeAt next keys

/-- `record_bandwidth_budget`, on what the scheduler remembers. -/
def recordBudget (state : BandwidthState ProfileId) (baseline : Option Nat) (total : Nat)
    (keys : PeriodKeys) : Option (BudgetEvent ProfileId) × BandwidthState ProfileId :=
  match state.activeProfile with
  | none => (none, state)
  | some profile =>
    let budget := (state.budgets profile.id).getD { lastTotalBytes := baseline.getD total }
    let (delta, budget) := budget.deltaFromTotal total
    let budget := budget.record keys.day keys.month delta
    let budgets id := if id = profile.id then some budget else state.budgets id
    ({ state with budgets }).settleExceeded (some profile.id)
      (budget.exhausted profile.budgetLimits) keys

/-- What a profile has used in the current period; without a counter it has used nothing. -/
def usage (state : BandwidthState ProfileId) (profile : BandwidthProfile ProfileId)
    (keys : PeriodKeys) : BudgetState :=
  ((state.budgets profile.id).getD {}).record keys.day keys.month 0

/-- What the usage of the active profile comes to. -/
def verdict (state : BandwidthState ProfileId) (keys : PeriodKeys) : Option BudgetExceeded :=
  state.activeProfile.bind fun profile =>
    (state.usage profile keys).exhausted profile.budgetLimits

end BandwidthState

namespace BandwidthService

/-- A tick of the supervision takes the two steps in turn. -/
theorem reloadBandwidth_state (service : BandwidthService ProfileId)
    (tick : BandwidthTick ProfileId) :
    ∃ budgets, (service.reloadBandwidth tick).state =
      (({ service.state with profiles := tick.profiles, budgets }).applyActiveProfile tick.activeAt
        tick.reloadKeys).2 :=
  ⟨_, rfl⟩

theorem recordBandwidthBudget_state (service : BandwidthService ProfileId)
    (tick : BandwidthTick ProfileId) :
    (service.recordBandwidthBudget tick).state =
      (service.state.recordBudget service.db.baseline tick.total tick.recordKeys).2 := by
  unfold recordBandwidthBudget BandwidthState.recordBudget
  cases service.state.activeProfile with
  | none => rfl
  | some profile =>
    dsimp only
    split <;> rfl

end BandwidthService

/-! ## Runs -/

/-- One exhausted budget that was announced. -/
structure Announcement (ProfileId : Type) where
  profile : ProfileId
  period : BudgetKind
  key : String
  deriving DecidableEq

/-- The exhaustion an event announces; a budget that is back notifies nobody. -/
def BudgetEvent.announcement (keys : PeriodKeys) :
    BudgetEvent ProfileId → Option (Announcement ProfileId)
  | exhausted profile exceeded =>
    some { profile, period := exceeded.period, key := keys.key exceeded.period }
  | available _ => none

/-- The memory, the date of the last step, and what was announced, newest first. -/
structure GateRun (ProfileId : Type) where
  state : BandwidthState ProfileId := {}
  today : NaiveDate
  announcements : List (Announcement ProfileId) := []

/-- A step, with what it finds outside. -/
inductive GateEvent (ProfileId : Type) where
  /-- The profile in force is applied, after a reload of the profiles and counters. -/
  | apply (profiles : List (BandwidthProfile ProfileId))
      (budgets : ProfileId → Option BudgetState) (activeAt : Option ProfileId) (today : NaiveDate)
  /-- The odometer is sampled, above the stored baseline. -/
  | record (baseline : Option Nat) (total : Nat) (today : NaiveDate)

namespace GateEvent

def today : GateEvent ProfileId → NaiveDate
  | apply _ _ _ today | record _ _ today => today

def take (state : BandwidthState ProfileId) :
    GateEvent ProfileId → Option (BudgetEvent ProfileId) × BandwidthState ProfileId
  | apply profiles budgets activeAt today =>
    ({ state with profiles, budgets }).applyActiveProfile activeAt (.ofDate today)
  | record baseline total today => state.recordBudget baseline total (.ofDate today)

end GateEvent

namespace GateRun

/-- One step; the clock does not go back. -/
def step (run : GateRun ProfileId) (event : GateEvent ProfileId) : Option (GateRun ProfileId) :=
  if run.today ≤ event.today then
    let (sent, state) := event.take run.state
    some {
      state, today := event.today
      announcements :=
        (sent.bind (·.announcement (.ofDate event.today))).toList ++ run.announcements }
  else none

def machine (ProfileId : Type) [DecidableEq ProfileId] :
    Machine (GateRun ProfileId) (GateEvent ProfileId) where
  initial run := ∃ today, run = { today }
  step := step

/-- The gate dispatch sees is what the usage of the active profile comes to. -/
def Agrees (run : GateRun ProfileId) : Prop :=
  run.state.exceeded = run.state.verdict (.ofDate run.today)

/-- No budget of nothing is applied before it has a counter. -/
def Counted (_ : GateRun ProfileId) : GateEvent ProfileId → Prop
  | .apply profiles budgets activeAt _ =>
    ∀ profile, (activeAt.bind fun id => profiles.find? (·.id = id)) = some profile →
      (budgets profile.id).isSome ∨
        profile.budgetLimits.dailyBytes ≠ some 0 ∧ profile.budgetLimits.monthlyBytes ≠ some 0
  | .record .. => True

end GateRun

/-! ## What is announced -/

namespace BandwidthState

variable {state : BandwidthState ProfileId} {keys : PeriodKeys}

/-- Setting the gate announces an exhaustion only where it is not held as announced, and holds it
from then on. Nothing else changes but the periods that are over. -/
theorem settleExceeded_spec (state : BandwidthState ProfileId) (profile : Option ProfileId)
    (next : Option BudgetExceeded) (keys : PeriodKeys) :
    let settled := state.settleExceeded profile next keys
    let current := state.announced.filter fun (_, period) => period = keys.day ∨ period = keys.month
    settled.2.exceeded = next ∧ settled.2.profiles = state.profiles ∧
      settled.2.active = state.active ∧ settled.2.budgets = state.budgets ∧
      match settled.1.bind (·.announcement keys) with
      | some entry =>
        entry.key = keys.key entry.period ∧ (entry.profile, entry.key) ∉ current ∧
          settled.2.announced = (entry.profile, entry.key) :: current
      | none => settled.2.announced = current := by
  unfold settleExceeded
  dsimp only
  cases hprevious : state.exceeded <;> cases next <;> cases profile
  case some.some.some | none.some.some =>
    dsimp only
    split
    · exact ⟨rfl, rfl, rfl, rfl, rfl⟩
    · next hnew => exact ⟨rfl, rfl, rfl, rfl, rfl, hnew, rfl⟩
  all_goals exact ⟨rfl, rfl, rfl, rfl, rfl⟩

end BandwidthState

namespace GateRun

variable {run next : GateRun ProfileId} {event : GateEvent ProfileId}

/-- What was announced was due then, and is held for as long as its period lasts. -/
structure Told (run : GateRun ProfileId) : Prop where
  nodup : run.announcements.Nodup
  dated : ∀ entry ∈ run.announcements,
    ∃ date ≤ run.today, (PeriodKeys.ofDate date).key entry.period = entry.key
  held : ∀ entry ∈ run.announcements, (PeriodKeys.ofDate run.today).key entry.period = entry.key →
    (entry.profile, entry.key) ∈ run.state.announced

omit [DecidableEq ProfileId] in
/-- A later date that is still in the period of an announcement finds it held. -/
theorem Told.later {entry : Announcement ProfileId} {today : NaiveDate} (h : run.Told)
    (hle : run.today ≤ today) (hmem : entry ∈ run.announcements)
    (hkey : (PeriodKeys.ofDate today).key entry.period = entry.key) :
    (entry.profile, entry.key) ∈ run.state.announced := by
  obtain ⟨date, hdate, hentry⟩ := h.dated entry hmem
  have hnow := PeriodKeys.key_ofDate_between hdate hle (hentry.trans hkey.symm)
  exact h.held entry hmem (hnow.trans hkey)

theorem key_eq_day_or_month (keys : PeriodKeys) (kind : BudgetKind) :
    keys.key kind = keys.day ∨ keys.key kind = keys.month := by
  cases kind
  · exact .inl rfl
  · exact .inr rfl

/-- The gate is set: what was told stays told, and what is announced was not. -/
theorem Told.settle {profile : Option ProfileId} {exceeded : Option BudgetExceeded}
    {today : NaiveDate} (h : run.Told) (hle : run.today ≤ today) (state : BandwidthState ProfileId)
    (hannounced : state.announced = run.state.announced) :
    let keys := PeriodKeys.ofDate today
    let settled := state.settleExceeded profile exceeded keys
    Told {
      state := settled.2, today
      announcements := (settled.1.bind (·.announcement keys)).toList ++ run.announcements } := by
  intro keys settled
  obtain ⟨-, -, -, -, hsent⟩ := state.settleExceeded_spec profile exceeded keys
  have hcurrent (entry : Announcement ProfileId) (hmem : entry ∈ run.announcements)
      (hkey : keys.key entry.period = entry.key) : (entry.profile, entry.key) ∈
        state.announced.filter fun (_, period) => period = keys.day ∨ period = keys.month := by
    refine List.mem_filter.mpr ⟨hannounced ▸ h.later hle hmem hkey, decide_eq_true ?_⟩
    rw [← hkey]
    exact key_eq_day_or_month keys entry.period
  have hdated (entry : Announcement ProfileId) (hmem : entry ∈ run.announcements) :
      ∃ date ≤ today, (PeriodKeys.ofDate date).key entry.period = entry.key := by
    obtain ⟨date, hdate, hkey⟩ := h.dated entry hmem
    exact ⟨date, NaiveDate.le_trans hdate hle, hkey⟩
  cases hentry : settled.1.bind (·.announcement keys) with
  | none =>
    rw [hentry] at hsent
    exact ⟨h.nodup, hdated, fun entry hmem hkey => hsent ▸ hcurrent entry hmem hkey⟩
  | some new =>
    rw [hentry] at hsent
    obtain ⟨hkey, hnew, hsent⟩ := hsent
    refine ⟨List.nodup_cons.mpr ⟨fun hmem => hnew (hcurrent new hmem hkey.symm), h.nodup⟩, ?_, ?_⟩
    · intro entry hmem
      rcases List.mem_cons.mp hmem with rfl | hmem
      · exact ⟨today, NaiveDate.le_refl today, hkey.symm⟩
      · exact hdated entry hmem
    · intro entry hmem hentryKey
      rcases List.mem_cons.mp hmem with rfl | hmem
      · exact hsent ▸ List.mem_cons_self ..
      · exact hsent ▸ List.mem_cons_of_mem _ (hcurrent entry hmem hentryKey)

theorem Told.step (h : run.Told) (hstep : run.step event = some next) : next.Told := by
  obtain ⟨hle, heq⟩ := Option.ite_none_right_eq_some.mp hstep
  obtain rfl := Option.some.inj heq
  cases event with
  | apply profiles budgets activeAt today =>
    exact h.settle hle { run.state with profiles, budgets, active := activeAt } rfl
  | record baseline total today =>
    dsimp only [GateEvent.take, BandwidthState.recordBudget]
    cases run.state.activeProfile with
    | some profile => exact h.settle hle { run.state with budgets := _ } rfl
    | none =>
      refine ⟨h.nodup, fun entry hmem => ?_, fun entry hmem hkey => h.later hle hmem hkey⟩
      obtain ⟨date, hdate, hkey⟩ := h.dated entry hmem
      exact ⟨date, NaiveDate.le_trans hdate hle, hkey⟩

omit [DecidableEq ProfileId] in
theorem told_start (today : NaiveDate) : Told { today : GateRun ProfileId } :=
  ⟨List.nodup_nil, fun _ h => (nomatch h), fun _ h => (nomatch h)⟩

end GateRun

/-! ## The gate and the verdict -/

namespace BandwidthState

theorem settleExceeded_exceeded (state : BandwidthState ProfileId) (profile : Option ProfileId)
    (next : Option BudgetExceeded) (keys : PeriodKeys) :
    (state.settleExceeded profile next keys).2.exceeded = next :=
  (state.settleExceeded_spec profile next keys).1

theorem settleExceeded_verdict (state : BandwidthState ProfileId) (profile : Option ProfileId)
    (next : Option BudgetExceeded) (keys : PeriodKeys) :
    (state.settleExceeded profile next keys).2.verdict keys = state.verdict keys := by
  obtain ⟨_, _, h⟩ := settleExceeded_frame state
  rw [h]
  rfl

omit [DecidableEq ProfileId] in
/-- Where there is a counter, what it says is the verdict; where there is none, the code says
nothing. -/
theorem exhaustedNow_eq_iff (state : BandwidthState ProfileId)
    (profile : BandwidthProfile ProfileId) (keys : PeriodKeys) :
    state.exhaustedNow profile keys =
        (state.usage profile keys).exhausted profile.budgetLimits ↔
      (state.budgets profile.id).isSome ∨
        profile.budgetLimits.dailyBytes ≠ some 0 ∧ profile.budgetLimits.monthlyBytes ≠ some 0 := by
  unfold exhaustedNow usage
  cases state.budgets profile.id with
  | some budget => exact iff_of_true rfl (.inl rfl)
  | none =>
    rw [Option.bind_none, Option.getD_none, eq_comm, BudgetState.exhausted_unused]
    exact ⟨.inr, fun h => h.resolve_left Bool.noConfusion⟩

end BandwidthState

namespace GateRun

variable {run next : GateRun ProfileId}

/-- Applying a profile makes the gate agree exactly when the profile has a counter, or none of its
budgets is nothing. -/
theorem agrees_apply_iff {profiles : List (BandwidthProfile ProfileId)}
    {budgets : ProfileId → Option BudgetState} {activeAt : Option ProfileId} {today : NaiveDate}
    (hstep : run.step (.apply profiles budgets activeAt today) = some next) :
    next.Agrees ↔ run.Counted (.apply profiles budgets activeAt today) := by
  obtain ⟨-, heq⟩ := Option.ite_none_right_eq_some.mp hstep
  obtain rfl := Option.some.inj heq
  let keys := PeriodKeys.ofDate today
  let state : BandwidthState ProfileId := { run.state with profiles, budgets, active := activeAt }
  let now := state.activeProfile.bind fun profile => state.exhaustedNow profile keys
  change (state.settleExceeded activeAt now keys).2.exceeded =
      (state.settleExceeded activeAt now keys).2.verdict keys ↔
    ∀ profile, state.activeProfile = some profile → _
  rw [BandwidthState.settleExceeded_exceeded, BandwidthState.settleExceeded_verdict]
  unfold now BandwidthState.verdict
  cases state.activeProfile with
  | none => exact iff_of_true rfl fun _ h => nomatch h
  | some profile =>
    rw [Option.bind_some, Option.bind_some]
    refine (state.exhaustedNow_eq_iff profile _).trans ⟨fun h found hfound => ?_, fun h => h _ rfl⟩
    obtain rfl := Option.some.inj hfound
    exact h

/-- Recording traffic makes the gate agree, whatever the counters were. -/
theorem agrees_record {baseline : Option Nat} {total : Nat} {today : NaiveDate} (h : run.Agrees)
    (hstep : run.step (.record baseline total today) = some next) : next.Agrees := by
  obtain ⟨-, heq⟩ := Option.ite_none_right_eq_some.mp hstep
  obtain rfl := Option.some.inj heq
  change (run.state.recordBudget baseline total (.ofDate today)).2.exceeded =
    (run.state.recordBudget baseline total (.ofDate today)).2.verdict (.ofDate today)
  unfold BandwidthState.recordBudget
  cases hactive : run.state.activeProfile with
  | none =>
    have hgate : run.state.exceeded = none := by
      rw [Agrees, BandwidthState.verdict, hactive] at h
      exact h
    exact hgate.trans (by rw [BandwidthState.verdict, hactive]; rfl)
  | some profile =>
    have hstill (budgets : ProfileId → Option BudgetState) :
        ({ run.state with budgets } : BandwidthState ProfileId).activeProfile = some profile :=
      hactive
    rw [BandwidthState.settleExceeded_exceeded, BandwidthState.settleExceeded_verdict,
      BandwidthState.verdict, hstill, Option.bind_some, BandwidthState.usage]
    dsimp only
    rw [if_pos rfl, Option.getD_some, BudgetState.record_record]

/-- Over any sequence of both steps under a clock that does not go back, the gate is the verdict
after every step and no exhausted budget is announced a second time in its period, exactly when no
budget of nothing is applied before it has a counter. -/
theorem gate_agrees_iff (today : NaiveDate) (events : List (GateEvent ProfileId)) :
    (machine ProfileId).Always (fun run => run.Agrees ∧ run.announcements.Nodup) { today } events ↔
      (machine ProfileId).Within Counted { today } events := by
  have hinv (run : GateRun ProfileId) (event : GateEvent ProfileId) (next : GateRun ProfileId)
      (htold : run.Told) (hstep : (machine ProfileId).step run event = some next) : next.Told :=
    htold.step hstep
  refine Machine.always_iff hinv ?_ (told_start today) ⟨rfl, List.nodup_nil⟩ events
  rintro run event next htold ⟨hagrees, -⟩ hstep
  have hnodup := (hinv run event next htold hstep).nodup
  cases event with
  | apply profiles budgets activeAt today =>
    rw [and_iff_left hnodup]
    exact agrees_apply_iff hstep
  | record baseline total today =>
    exact iff_of_true ⟨agrees_record hagrees hstep, hnodup⟩ trivial

/-- A budget of nothing: the first sample shuts the gate, and applying the same profile again opens
it, though the day and the empty usage are the same and the verdict is that it is used up. -/
theorem gate_reopens_on_nothing :
    let today : NaiveDate :=
      { year := 2026, month := 9, day := 3, month_le := by decide, day_le := by decide }
    let apply : GateEvent String := .apply
      [{ id := "metered", budgetLimits := { dailyBytes := some 0 } }] (fun _ => none)
      (some "metered") today
    let sampled : List (GateEvent String) := [apply, .record none 0 today]
    ((machine String).run { today } sampled).map (·.state.exceeded) =
        some (some { period := .daily, usedBytes := 0, limitBytes := 0 }) ∧
      ((machine String).run { today } (sampled ++ [apply])).map (·.state.exceeded) = some none ∧
      ¬ (machine String).Always (fun run => run.Agrees) { today } (sampled ++ [apply]) := by
  intro today apply sampled
  refine ⟨by decide +kernel, by decide +kernel, fun h => ?_⟩
  have hlast : ((machine String).run { today } (sampled ++ [apply])).map (fun run =>
      (run.state.exceeded, run.state.verdict (.ofDate run.today))) =
        some (none, some { period := .daily, usedBytes := 0, limitBytes := 0 }) := by decide +kernel
  obtain ⟨run, hrun, heq⟩ := Option.map_eq_some_iff.mp hlast
  obtain ⟨hgate, hverdict⟩ := Prod.mk.inj heq
  have hagrees : run.state.exceeded = run.state.verdict (.ofDate run.today) := h.of_run hrun
  rw [hgate, hverdict] at hagrees
  cases hagrees

end GateRun

end RDownloader
