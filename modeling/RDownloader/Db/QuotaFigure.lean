import RDownloader.Db.UsenetQuota
import RDownloader.Lib.Machine

/-!
# What a quota has counted

Beside the row stands an account of what happened to the quota: when counting began again, and the
bytes recorded since. An edit that comes between a reset day and the flush that would store it is
what makes the two part.
-/

namespace RDownloader

/-- What bears on the used figure of a quota. -/
inductive Occurrence where
  | created
  | manualReset
  | resetDay
  | recorded (bytes : Nat)
  deriving DecidableEq, Repr

/-- The bytes recorded since counting last began, newest occurrence first. -/
def bytesSince : List Occurrence → Nat
  | .recorded bytes :: earlier => bytes + bytesSince earlier
  | _ => 0

structure Account where
  limit : Option Nat := none
  resetOn : Option NaiveDate := none
  history : List Occurrence := []
  deriving DecidableEq, Repr

namespace Account

def used (account : Account) : Nat := bytesSince account.history

/-- A reset day that has come begins the counting again, once. -/
def come (account : Account) (today : NaiveDate) : Account :=
  if account.resetOn.any (· ≤ today) then
    { account with resetOn := none, history := .resetDay :: account.history }
  else account

def record (account : Account) (bytes : Nat) : Account :=
  { account with history := .recorded bytes :: account.history }

def edit (account : Account) (input : UsenetQuotaInput) : Account :=
  let history := if account.limit.isNone && input.limitBytes.isSome then .created :: account.history
    else account.history
  { limit := input.limitBytes.map storedBytes
    resetOn := input.resetOn
    history := if input.resetUsage then .manualReset :: history else history }

/-- Whether recording the bytes takes the figure over its limit. -/
def crosses (account : Account) (bytes : Nat) : Bool :=
  account.limit.any fun limit => account.used < limit && limit ≤ account.used + bytes

@[simp] theorem record_limit : (record account bytes).limit = account.limit := rfl

@[simp] theorem record_resetOn : (record account bytes).resetOn = account.resetOn := rfl

@[simp] theorem record_used : (record account bytes).used = bytes + account.used := rfl

@[simp] theorem come_limit : (come account today).limit = account.limit := by
  rw [come]
  split <;> rfl

theorem come_of_due (h : account.resetOn.any (· ≤ today)) :
    come account today =
      { account with resetOn := none, history := .resetDay :: account.history } :=
  if_pos h

theorem come_of_not_due (h : ¬account.resetOn.any (· ≤ today)) : come account today = account :=
  if_neg h

end Account

/-- What a reader is shown of an account. -/
def Shows (quota : Option UsenetQuota) (account : Account) : Prop :=
  quota.map (·.limitBytes) = account.limit ∧ ∀ shown ∈ quota,
    shown.usedBytes = account.used ∧ (shown.reachedAt.isSome ↔ shown.limitBytes ≤ shown.usedBytes)

/-- How a row stands to its account on a day. -/
structure Agrees (today : NaiveDate) (columns : QuotaColumns) (account : Account) : Prop where
  limit : columns.quotaBytes = account.limit
  written : ∀ date ∈ columns.quotaResetOn, date.FourDigit
  positive : columns.quotaResetOn.isSome → columns.quotaBytes ≠ some 0
  integer : ∃ used, columns.quotaUsedBytes = .integer used
  due : columns.isDue today → account.resetOn = none ∧ account.used = 0
  pending : ¬columns.isDue today → account.resetOn = columns.quotaResetOn ∧
    ∀ limit ∈ columns.quotaBytes, columns.quotaUsedBytes = .integer account.used ∧
      (columns.quotaReachedAt.isSome ↔ limit ≤ account.used)

namespace QuotaColumns

variable {columns : QuotaColumns} {today day : NaiveDate}

theorem isSome_of_isDue (h : columns.isDue today) : columns.quotaResetOn.isSome := by
  rw [isDue] at h
  cases hreset : columns.quotaResetOn with
  | none => rw [hreset] at h; cases h
  | some date => rfl

theorem isDue_mono (h : columns.isDue today) (hle : today ≤ day) : columns.isDue day := by
  obtain ⟨date, hdate, hcame⟩ := (Option.any_eq_true ..).mp h
  exact (Option.any_eq_true ..).mpr ⟨date, hdate, decide_eq_true
    (NaiveDate.le_trans (of_decide_eq_true hcame) hle)⟩

end QuotaColumns

namespace Agrees

variable {today day : NaiveDate} {columns : QuotaColumns} {account : Account}

/-- Only limit, reset day and figure of the account count. -/
theorem congr (h : Agrees today columns account) (hlimit : other.limit = account.limit)
    (hreset : other.resetOn = account.resetOn) (hused : Account.used other = account.used) :
    Agrees today columns other where
  limit := h.limit.trans hlimit.symm
  written := h.written
  positive := h.positive
  integer := h.integer
  due hdue := by rw [hreset, hused]; exact h.due hdue
  pending hdue := by rw [hreset, hused]; exact h.pending hdue

theorem shows (h : Agrees today columns account) :
    ∃ quota, columns.quota today = .ok quota ∧ Shows quota account := by
  obtain ⟨used, hused⟩ := h.integer
  refine ⟨_, by rw [QuotaColumns.quota, hused]; rfl, ?_, ?_⟩
  · rw [← h.limit, Option.map_map]
    cases columns.quotaBytes <;> rfl
  · intro shown hshown
    obtain ⟨limit, hlimit, rfl⟩ := Option.map_eq_some_iff.mp hshown
    dsimp only
    cases hdue : columns.isDue today with
    | true =>
      rw [if_pos rfl, if_pos rfl, (h.due hdue).2]
      have := h.positive (QuotaColumns.isSome_of_isDue hdue)
      refine ⟨rfl, iff_of_false nofun fun hle => this ?_⟩
      rw [hlimit, Nat.le_zero.mp hle]
    | false =>
      obtain ⟨hinteger, hreached⟩ := (h.pending (by simp [hdue])).2 limit hlimit
      rw [hused] at hinteger
      cases hinteger
      exact ⟨rfl, hreached⟩

/-- The day goes on for both. -/
theorem come (h : Agrees today columns account) (hle : today ≤ day) :
    Agrees day columns (account.come day) := by
  cases hdue : columns.isDue today with
  | true =>
    obtain ⟨hreset, hused⟩ := h.due hdue
    rw [Account.come_of_not_due (by simp [hreset])]
    exact { h with
      due := fun _ => ⟨hreset, hused⟩
      pending := fun hnot => (hnot (QuotaColumns.isDue_mono hdue hle)).elim }
  | false =>
    obtain ⟨hreset, hrest⟩ := h.pending (by simp [hdue])
    cases hcame : columns.isDue day with
    | true =>
      rw [Account.come_of_due (by rwa [hreset])]
      exact { h with
        due := fun _ => ⟨rfl, rfl⟩
        pending := fun hnot => (hnot hcame).elim }
    | false =>
      rw [Account.come_of_not_due (by rw [hreset]; exact Bool.not_eq_true _ ▸ hcame)]
      exact { h with
        due := fun hnow => by simp [hcame] at hnow
        pending := fun _ => ⟨hreset, hrest⟩ }

/-- The first update of a flush does what the readers do. -/
theorem applyDueReset (h : Agrees today columns account) (htoday : today.FourDigit) :
    Agrees today (columns.applyDueReset today) account ∧
      ¬(columns.applyDueReset today).isDue today := by
  have hdue : columns.quotaResetOn.any (Text.notAfter ·.toText today.toText) =
      columns.isDue today := by
    rw [QuotaColumns.isDue]
    cases hreset : columns.quotaResetOn with
    | none => rfl
    | some date =>
      exact Bool.eq_iff_iff.mpr
        ((NaiveDate.toText_le_iff (h.written date hreset) htoday).trans decide_eq_true_iff.symm)
  rw [QuotaColumns.applyDueReset, hdue]
  split
  · next hcame =>
    obtain ⟨hreset, hused⟩ := h.due hcame
    refine ⟨⟨h.limit, nofun, nofun, ⟨0, rfl⟩, nofun, fun _ => ⟨hreset, fun limit hlimit => ?_⟩⟩, nofun⟩
    refine ⟨by rw [hused], iff_of_false nofun fun hle => ?_⟩
    apply h.positive (QuotaColumns.isSome_of_isDue hcame)
    rw [hused] at hle
    rw [← Nat.le_zero.mp hle]
    exact hlimit
  · next hcame => exact ⟨h, hcame⟩

/-- Without a quota nothing is counted. -/
theorem counted_of_none (h : Agrees now.dateNaive columns account)
    (hdue : ¬columns.isDue now.dateNaive) (hbytes : columns.quotaBytes = none) :
    Agrees now.dateNaive ((columns.countBytes n).markReached now) (account.record bytes) ∧
      (columns.countBytes n).crosses = account.crosses bytes := by
  have hcount : columns.countBytes n = columns := if_neg (by simp [hbytes])
  have hcross : columns.crosses = false := by simp [QuotaColumns.crosses, hbytes]
  have hlimit : account.limit = none := h.limit.symm.trans hbytes
  rw [hcount, QuotaColumns.markReached, if_neg (by simp [hcross]), hcross]
  refine ⟨{ h with due := fun hnow => (hdue hnow).elim, pending := fun _ => ?_ },
    by simp [Account.crosses, hlimit]⟩
  refine ⟨(h.pending hdue).1, fun limit hmem => ?_⟩
  cases hbytes.symm.trans hmem

/-- Under a quota the bytes are added to the figure, and the mark is set once. -/
theorem counted_of_some {limit : Nat} (h : Agrees now.dateNaive columns account)
    (hdue : ¬columns.isDue now.dateNaive) (hbytes : columns.quotaBytes = some limit)
    (hfits : account.used + bytes ≤ i64Max) :
    Agrees now.dateNaive ((columns.countBytes bytes).markReached now) (account.record bytes) ∧
      (columns.countBytes bytes).crosses = account.crosses bytes := by
  have hlimit : account.limit = some limit := h.limit.symm.trans hbytes
  obtain ⟨hreset, hpending⟩ := h.pending hdue
  obtain ⟨hused, hreached⟩ := hpending limit hbytes
  have hnone : columns.quotaReachedAt.isNone = decide (account.used < limit) := by
    cases hat : columns.quotaReachedAt with
    | none => simpa [hat] using hreached
    | some moment => simpa [hat] using hreached
  have hcount : columns.countBytes bytes =
      { columns with quotaUsedBytes := .integer (account.used + bytes) } := by
    rw [QuotaColumns.countBytes, if_pos (by simp [hbytes]), hused, SqlSum.add, if_pos hfits]
  have hcross : (columns.countBytes bytes).crosses = account.crosses bytes := by
    simp [hcount, QuotaColumns.crosses, Account.crosses, hbytes, hlimit, SqlSum.atLeast, hnone,
      Bool.and_comm]
  refine ⟨?_, hcross⟩
  have hafter (reachedAt : Option Moment)
      (hmark : reachedAt.isSome ↔ limit ≤ account.used + bytes) :
      Agrees now.dateNaive
        { columns with quotaUsedBytes := .integer (account.used + bytes), quotaReachedAt := reachedAt }
        (account.record bytes) := by
    refine { h with
      integer := ⟨_, rfl⟩
      due := fun hnow => (hdue hnow).elim
      pending := fun _ => ⟨hreset, fun other hmem => ?_⟩ }
    obtain rfl := Option.some.inj (hbytes.symm.trans hmem)
    rw [Account.record_used, Nat.add_comm bytes]
    exact ⟨rfl, hmark⟩
  rw [QuotaColumns.markReached, hcross, hcount]
  have hcrosses : account.crosses bytes ↔
      account.used < limit ∧ limit ≤ account.used + bytes := by
    simp [Account.crosses, hlimit]
  split
  · next hover => exact hafter _ (iff_of_true rfl (hcrosses.mp hover).2)
  · next hover =>
    refine hafter _ (hreached.trans ⟨fun hle => Nat.le_trans hle (Nat.le_add_right _ _), fun hle => ?_⟩)
    exact Nat.le_of_not_lt fun hlt => hover (hcrosses.mpr ⟨hlt, hle⟩)

/-- One flush of a server: row and account take the bytes, and the limit is announced exactly
when they cross it. -/
theorem flushed (h : Agrees now.dateNaive columns account) (htoday : now.dateNaive.FourDigit)
    (hfits : account.limit.isSome → account.used + bytes ≤ i64Max) :
    let after := columns.flushed (storedBytes bytes) now.dateNaive
    Agrees now.dateNaive (after.markReached now) (account.record bytes) ∧
      after.crosses = account.crosses bytes := by
  obtain ⟨hagrees, hdue⟩ := h.applyDueReset htoday
  dsimp only
  rw [QuotaColumns.flushed]
  generalize columns.applyDueReset now.dateNaive = columns at hagrees hdue
  cases hbytes : columns.quotaBytes with
  | none => exact hagrees.counted_of_none hdue hbytes
  | some limit =>
    have hfits := hfits (by simp [← hagrees.limit, hbytes])
    have hstored : storedBytes bytes = bytes :=
      Nat.min_eq_left (Nat.le_trans (Nat.le_add_left _ _) hfits)
    rw [hstored]
    exact hagrees.counted_of_some hdue hbytes hfits

end Agrees

/-- What an edit must meet: no reset day has come that the row has not stored, unless the edit
itself begins the counting again. -/
structure EditFits (columns : QuotaColumns) (input : UsenetQuotaInput) (today : NaiveDate) : Prop
    where
  written : ∀ date ∈ input.resetOn, date.FourDigit
  positive : input.resetOn.isSome → input.limitBytes ≠ some 0
  stored : columns.isDue today → columns.quotaUsedBytes = .integer 0 ∨ columns.quotaBytes = none ∨
    input.limitBytes = none ∨ input.resetUsage ∨ input.resetOn.any (· ≤ today)

namespace Agrees

variable {columns : QuotaColumns} {account : Account} {input : UsenetQuotaInput} {now : Moment}

theorem edited_used {limit : Nat} (h : Agrees now.dateNaive columns account)
    (hfits : EditFits columns input now.dateNaive) (hlimit : input.limitBytes = some limit)
    (hnow : ¬input.resetOn.any (· ≤ now.dateNaive)) :
    (columns.edited input now).quotaUsedBytes = .integer (account.edit input).used := by
  simp only [QuotaColumns.edited, Account.edit, Account.used, hlimit, ← h.limit]
  cases hreset : input.resetUsage with
  | true => rfl
  | false =>
    cases hbytes : columns.quotaBytes with
    | none => rfl
    | some before =>
      simp only [Option.map_some, Option.isNone_some, Bool.or_self, Bool.false_and,
        Bool.false_eq_true, if_false]
      cases hdue : columns.isDue now.dateNaive with
      | false => exact ((h.pending (by simp [hdue])).2 before hbytes).1
      | true =>
        have hzero : columns.quotaUsedBytes = .integer 0 := by
          simpa [hbytes, hlimit, hreset, hnow] using hfits.stored hdue
        rw [hzero, show bytesSince account.history = 0 from (h.due hdue).2]

/-- An edit moves row and account alike. -/
theorem edited (h : Agrees now.dateNaive columns account)
    (hfits : EditFits columns input now.dateNaive) :
    Agrees now.dateNaive (columns.edited input now) ((account.edit input).come now.dateNaive) := by
  have hinteger : ∃ used, (columns.edited input now).quotaUsedBytes = .integer used := by
    obtain ⟨used, hused⟩ := h.integer
    simp only [QuotaColumns.edited, hused]
    split
    · exact ⟨0, rfl⟩
    · exact ⟨used, rfl⟩
  have hpositive : (columns.edited input now).quotaResetOn.isSome →
      (columns.edited input now).quotaBytes ≠ some 0 := by
    intro hreset hzero
    obtain ⟨limit, hlimit, hstored⟩ := Option.map_eq_some_iff.mp hzero
    apply hfits.positive hreset
    rw [hlimit, show limit = 0 from (Nat.min_eq_zero_iff.mp hstored).resolve_right (by decide)]
  by_cases hnow : input.resetOn.any (· ≤ now.dateNaive)
  · rw [Account.come_of_due hnow]
    exact {
      limit := rfl
      written := hfits.written
      positive := hpositive
      integer := hinteger
      due := fun _ => ⟨rfl, rfl⟩
      pending := fun hnot => (hnot hnow).elim }
  · rw [Account.come_of_not_due hnow]
    refine {
      limit := rfl
      written := hfits.written
      positive := hpositive
      integer := hinteger
      due := fun hcame => (hnow hcame).elim
      pending := fun _ => ⟨rfl, fun stored hmem => ?_⟩ }
    obtain ⟨limit, hlimit, -⟩ := Option.map_eq_some_iff.mp hmem
    have hused := h.edited_used hfits hlimit hnow
    have hreached : (columns.edited input now).quotaReachedAt =
        if (columns.edited input now).quotaBytes.any
            ((columns.edited input now).quotaUsedBytes.atLeast ·) then
          some (columns.quotaReachedAt.getD now)
        else none := rfl
    refine ⟨hused, ?_⟩
    rw [hreached, hused, show (columns.edited input now).quotaBytes = some stored from hmem]
    by_cases hle : stored ≤ (account.edit input).used
    · simp [SqlSum.atLeast, hle]
    · simp [SqlSum.atLeast, hle]

end Agrees

/-! ## Runs -/

/-- The rows, what happened to each quota, and which limits were announced and crossed. -/
structure QuotaWorld where
  store : UsenetStore
  accounts : UsenetServerId → Account := fun _ => {}
  today : NaiveDate
  announced : List UsenetServerId := []
  crossed : List UsenetServerId := []

inductive QuotaEvent where
  | flush (counts : List (UsenetServerId × Nat)) (now : Moment)
  | edit (id : UsenetServerId) (input : UsenetQuotaInput) (now : Moment)
  | read (today : NaiveDate)
  deriving DecidableEq, Repr

def QuotaEvent.day : QuotaEvent → NaiveDate
  | flush _ now => now.dateNaive
  | edit _ _ now => now.dateNaive
  | read today => today

def setAccount (accounts : UsenetServerId → Account) (id : UsenetServerId) (account : Account) :
    UsenetServerId → Account :=
  fun other => if other = id then account else accounts other

/-- A flush in the accounts, and the limits it crosses. -/
def recordAccounts (accounts : UsenetServerId → Account) :
    List (UsenetServerId × Nat) → (UsenetServerId → Account) × List UsenetServerId
  | [] => (accounts, [])
  | (id, bytes) :: counts =>
    let (after, crossed) :=
      recordAccounts (setAccount accounts id ((accounts id).record bytes)) counts
    (after, if (accounts id).crosses bytes then id :: crossed else crossed)

def bytesFor (id : UsenetServerId) (counts : List (UsenetServerId × Nat)) : Nat :=
  ((counts.filter (·.1 = id)).map (·.2)).sum

namespace QuotaWorld

/-- The accounts once the day has come. -/
def come (world : QuotaWorld) (day : NaiveDate) : UsenetServerId → Account :=
  fun id => (world.accounts id).come day

def step (world : QuotaWorld) (event : QuotaEvent) : Option QuotaWorld :=
  if world.today ≤ event.day then
    match event with
    | .flush counts now =>
      let (store, reached) := world.store.record now counts
      let (accounts, crossed) := recordAccounts (world.come now.dateNaive) counts
      some {
        store, accounts, today := now.dateNaive
        announced := world.announced ++ reached.map (·.serverId)
        crossed := world.crossed ++ crossed }
    | .edit id input now =>
      let accounts := world.come now.dateNaive
      match world.store.setQuota id input now with
      | .error _ => some { world with accounts, today := now.dateNaive }
      | .ok (store, _) =>
        some { world with
          store, today := now.dateNaive
          accounts := setAccount accounts id (((accounts id).edit input).come now.dateNaive) }
    | .read today => some { world with accounts := world.come today, today }
  else none

/-- Servers without a quota and without traffic. -/
def machine : Machine QuotaWorld QuotaEvent where
  initial world := (∀ id row, world.store.servers id = some row → row.quota = {}) ∧
    (∀ id, world.accounts id = {}) ∧ world.announced = [] ∧ world.crossed = []
  step := step

/-- Every reader from now on sees what was recorded since counting last began, the mark stands
exactly when the limit is reached, and what was crossed was announced, once each. -/
def Exact (world : QuotaWorld) : Prop :=
  world.announced = world.crossed ∧
    ∀ id row, world.store.servers id = some row → ∀ day, world.today ≤ day →
      ∃ quota, row.quota.quota day = .ok quota ∧ Shows quota ((world.accounts id).come day)

/-- The figures fit the column, and no edit comes before a reset day that has come is stored. -/
def Undisturbed (world : QuotaWorld) : QuotaEvent → Prop
  | .flush counts now => now.dateNaive.FourDigit ∧ ∀ id, (world.accounts id).limit.isSome →
      (world.come now.dateNaive id).used + bytesFor id counts ≤ i64Max
  | .edit id input now =>
    ∀ row, world.store.servers id = some row → EditFits row.quota input now.dateNaive
  | .read _ => True

end QuotaWorld

/-- Every row agrees with its account, and no account has a quota without a row. -/
structure Kept (store : UsenetStore) (accounts : UsenetServerId → Account) (today : NaiveDate) :
    Prop where
  agrees : ∀ id row, store.servers id = some row → Agrees today row.quota (accounts id)
  absent : ∀ id, store.servers id = none → (accounts id).limit = none

namespace Kept

variable {store : UsenetStore} {accounts : UsenetServerId → Account} {id : UsenetServerId}
  {now : Moment}

theorem come (h : Kept store accounts today) (hle : today ≤ day) :
    Kept store (fun id => (accounts id).come day) day where
  agrees id row hrow := (h.agrees id row hrow).come hle
  absent id hnone := (Account.come_limit ..).trans (h.absent id hnone)

/-- One row and its account change together. -/
theorem set (h : Kept store accounts today) (row : UsenetServerRow)
    (hagrees : Agrees today columns account) :
    Kept (store.setColumns id row columns) (setAccount accounts id account) today where
  agrees other found hfound := by
    dsimp only [UsenetStore.setColumns] at hfound
    rw [setAccount]
    split at hfound
    · next heq =>
      obtain rfl := Option.some.inj hfound
      rwa [if_pos heq]
    · next hne =>
      rw [if_neg hne]
      exact h.agrees other found hfound
  absent other hnone := by
    dsimp only [UsenetStore.setColumns] at hnone
    rw [setAccount]
    split at hnone
    · cases hnone
    · next hne =>
      rw [if_neg hne]
      exact h.absent other hnone

theorem setAccount (h : Kept store accounts today)
    (hsome : ∀ row, store.servers id = some row → Agrees today row.quota account)
    (hnone : store.servers id = none → account.limit = none) :
    Kept store (setAccount accounts id account) today where
  agrees other row hrow := by
    rw [RDownloader.setAccount]
    split
    · next heq => exact hsome row (heq ▸ hrow)
    · exact h.agrees other row hrow
  absent other hother := by
    rw [RDownloader.setAccount]
    split
    · next heq => exact hnone (heq ▸ hother)
    · exact h.absent other hother

theorem crosses_of_absent (hlimit : Account.limit account = none) :
    account.crosses bytes = false := by
  simp [Account.crosses, hlimit]

theorem crosses_zero (account : Account) : account.crosses 0 = false := by
  simp only [Account.crosses, Option.any_eq_false, Bool.and_eq_false_iff, decide_eq_false_iff_not]
  intro limit _
  omega

/-- One pass of the flush's loop. -/
theorem recordOne (h : Kept store accounts now.dateNaive) (hnow : now.dateNaive.FourDigit)
    (hfits : (accounts id).limit.isSome → (accounts id).used + bytes ≤ i64Max) :
    Kept (store.recordOne id bytes now).1
        (RDownloader.setAccount accounts id ((accounts id).record bytes)) now.dateNaive ∧
      (store.recordOne id bytes now).2.toList.map (·.serverId) =
        if (accounts id).crosses bytes then [id] else [] := by
  rw [UsenetStore.recordOne]
  split
  · next hzero =>
    subst hzero
    rw [crosses_zero]
    refine ⟨h.setAccount (fun row hrow => ?_) (h.absent id), rfl⟩
    exact (h.agrees id row hrow).congr rfl rfl (Nat.zero_add _)
  · cases hrow : store.servers id with
    | none =>
      rw [crosses_of_absent (h.absent id hrow)]
      refine ⟨h.setAccount (fun row hsome => ?_) (h.absent id), rfl⟩
      cases hrow.symm.trans hsome
    | some row =>
      obtain ⟨hagrees, hcrosses⟩ := (h.agrees id row hrow).flushed hnow hfits
      have htraffic : Kept (store.addTraffic id now.dateNaive (storedBytes bytes)) accounts
          now.dateNaive := ⟨h.agrees, h.absent⟩
      refine ⟨htraffic.set row hagrees, ?_⟩
      rw [← hcrosses]
      dsimp only
      split <;> rfl

theorem bytesFor_cons (id other : UsenetServerId) (bytes : Nat)
    (counts : List (UsenetServerId × Nat)) :
    bytesFor id ((other, bytes) :: counts) =
      (if other = id then bytes else 0) + bytesFor id counts := by
  rw [bytesFor, List.filter_cons]
  split
  · next heq => rw [if_pos (of_decide_eq_true heq)]; rfl
  · next hne => rw [if_neg (fun heq => hne (decide_eq_true heq)), Nat.zero_add]; rfl

theorem record (h : Kept store accounts now.dateNaive) (hnow : now.dateNaive.FourDigit)
    (hfits : ∀ id, (accounts id).limit.isSome →
      (accounts id).used + bytesFor id counts ≤ i64Max) :
    Kept (store.record now counts).1 (recordAccounts accounts counts).1 now.dateNaive ∧
      (store.record now counts).2.map (·.serverId) = (recordAccounts accounts counts).2 := by
  induction counts generalizing store accounts with
  | nil => exact ⟨h, rfl⟩
  | cons count counts ih =>
    obtain ⟨id, bytes⟩ := count
    have hhead (hsome : (accounts id).limit.isSome) : (accounts id).used + bytes ≤ i64Max := by
      have := hfits id hsome
      rw [bytesFor_cons, if_pos rfl] at this
      omega
    obtain ⟨hkept, hreached⟩ := h.recordOne hnow hhead
    obtain ⟨hlater, hcrossed⟩ := ih hkept fun other hsome => by
      have hcounts := hfits other
      rw [bytesFor_cons] at hcounts
      rw [RDownloader.setAccount] at hsome ⊢
      split at hsome
      · next heq =>
        subst heq
        rw [if_pos rfl, Account.record_used]
        rw [if_pos rfl] at hcounts
        have := hcounts hsome
        omega
      · next hne =>
        rw [if_neg hne]
        have := hcounts hsome
        omega
    refine ⟨hlater, ?_⟩
    simp only [UsenetStore.record, recordAccounts, List.map_append, hreached, hcrossed]
    split <;> rfl

end Kept

namespace QuotaWorld

variable {world next : QuotaWorld}

theorem setQuota_eq {store after : UsenetStore} {id : UsenetServerId}
    (h : store.setQuota id input now = .ok (after, quota)) :
    ∃ row, store.servers id = some row ∧
      after = store.setColumns id row (row.quota.edited input now) := by
  unfold UsenetStore.setQuota at h
  split at h
  · cases h
  · next row hrow =>
    dsimp only at h
    cases hquota : (row.quota.edited input now).quota now.dateNaive with
    | error => rw [hquota] at h; cases h
    | ok quota => rw [hquota] at h; cases h; exact ⟨row, hrow, rfl⟩

/-- What every reached state keeps. -/
structure Inv (world : QuotaWorld) : Prop where
  kept : Kept world.store world.accounts world.today
  announced : world.announced = world.crossed

theorem Inv.exact (h : world.Inv) : world.Exact :=
  ⟨h.announced, fun id row hrow _ hle => ((h.kept.agrees id row hrow).come hle).shows⟩

theorem Inv.step (h : world.Inv) (hevent : world.Undisturbed event)
    (hstep : machine.step world event = some next) : next.Inv := by
  change world.step event = some next at hstep
  unfold QuotaWorld.step at hstep
  split at hstep
  case isFalse => cases hstep
  case isTrue hle =>
    have hcame : Kept world.store (world.come event.day) event.day := h.kept.come hle
    cases event with
    | flush counts now =>
      obtain rfl := Option.some.inj hstep
      obtain ⟨hnow, hfits⟩ := hevent
      obtain ⟨hkept, hreached⟩ := hcame.record hnow fun id hsome =>
        hfits id (by rwa [QuotaWorld.come, Account.come_limit] at hsome)
      exact ⟨hkept, by rw [h.announced, hreached]; rfl⟩
    | edit id input now =>
      dsimp only at hstep
      split at hstep
      · obtain rfl := Option.some.inj hstep
        exact ⟨hcame, h.announced⟩
      · next store quota hset =>
        obtain rfl := Option.some.inj hstep
        obtain ⟨row, hrow, rfl⟩ := setQuota_eq hset
        exact ⟨hcame.set row ((hcame.agrees id row hrow).edited (hevent row hrow)), h.announced⟩
    | read today =>
      obtain rfl := Option.some.inj hstep
      exact ⟨hcame, h.announced⟩

/-- The used figure is exact in every state of an undisturbed run. -/
theorem exact_of_undisturbed (h : machine.Reaches Undisturbed world) : world.Exact := by
  refine (h.invariant Inv (fun world hinitial => ?_)
    fun world event next hinv hevent hstep => hinv.step hevent hstep).exact
  obtain ⟨hrows, haccounts, hannounced, hcrossed⟩ := hinitial
  refine ⟨⟨fun id row hrow => ?_, fun id _ => by rw [haccounts]⟩, hannounced.trans hcrossed.symm⟩
  rw [hrows id row hrow, haccounts]
  exact ⟨rfl, nofun, nofun, ⟨0, rfl⟩, nofun, fun _ => ⟨rfl, nofun⟩⟩

/-! ### A block account with a reset day -/

def october (day : Nat) (h : day ≤ 31) : NaiveDate := ⟨2026, 10, day, by decide, h⟩

def blockAccount : QuotaWorld where
  store := { servers := fun id => if id = 1 then some { name := "Block" } else none }
  today := october 4 (by decide)

theorem blockAccount_initial : machine.initial blockAccount := by
  refine ⟨fun id row hrow => ?_, fun _ => rfl, rfl, rfl⟩
  dsimp only [blockAccount] at hrow
  split at hrow
  · cases hrow; rfl
  · cases hrow

def pauseAt (limit : Nat) (resetOn : Option NaiveDate) : UsenetQuotaInput :=
  { limitBytes := some limit, action := .pause, resetOn, resetUsage := false }

/-- The quota is set, starts again on the fifth, and 600 bytes come on the fourth. -/
def untilReset : List QuotaEvent :=
  [.edit 1 (pauseAt 1000 (some (october 5 (by decide)))) ⟨october 4 (by decide), 0⟩,
    .flush [(1, 600)] ⟨october 4 (by decide), 1⟩,
    .read (october 5 (by decide))]

/-- An edit on the reset day, before any flush, brings the forgotten bytes back. -/
theorem reset_forgotten :
    machine.initial blockAccount ∧ ∃ last, machine.run blockAccount
      (untilReset ++ [.edit 1 (pauseAt 2000 none) ⟨october 5 (by decide), 0⟩]) = some last ∧
      ¬last.Exact := by
  refine ⟨blockAccount_initial, _, rfl, fun hexact => ?_⟩
  obtain ⟨quota, hquota, -, hshows⟩ := hexact.2 1 _ rfl _ (NaiveDate.le_refl _)
  cases hquota
  cases (hshows _ rfl).1

theorem untilReset_within : machine.Within Undisturbed blockAccount untilReset := by
  refine .cons (fun row hrow => ?_) rfl (.cons ⟨by decide, fun id hsome => ?_⟩ rfl
    (.cons trivial rfl trivial))
  · cases hrow
    exact ⟨by rintro _ ⟨⟩; decide, nofun, nofun⟩
  · by_cases hid : id = 1
    · subst hid
      decide
    · have hnone : (setAccount (blockAccount.come (october 4 (by decide))) 1
          (((blockAccount.come (october 4 (by decide)) 1).edit
            (pauseAt 1000 (some (october 5 (by decide))))).come (october 4 (by decide))) id).limit =
          none := by
        rw [setAccount, if_neg hid]
        rfl
      cases hnone ▸ hsome

theorem exact_of_undisturbed_untilReset :
    ∃ last, machine.run blockAccount untilReset = some last ∧ last.Exact := by
  obtain ⟨last, hrun⟩ : ∃ last, machine.run blockAccount untilReset = some last := ⟨_, rfl⟩
  exact ⟨last, hrun, exact_of_undisturbed
    ((Machine.Reaches.initial blockAccount_initial).within untilReset_within hrun)⟩

end QuotaWorld

end RDownloader
