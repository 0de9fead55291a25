import RDownloader.Core.Dates
import RDownloader.Core.Words

/-!
# The quota of a Usenet server (`usenet_traffic_store.rs`, `usenet_store.rs`)

A reset day is applied twice: by every reader to what it shows, and by the next flush to the row.
-/

namespace RDownloader

abbrev UsenetServerId := Nat

inductive UsenetQuotaAction where
  | backup
  | pause
  deriving DecidableEq, Repr

structure UsenetQuota where
  limitBytes : Nat
  action : UsenetQuotaAction
  resetOn : Option NaiveDate
  usedBytes : Nat
  reachedAt : Option Moment
  deriving DecidableEq, Repr

/-- An integer column that is added to. SQLite keeps a sum past the column's range as a `REAL`. -/
inductive SqlSum where
  | integer (value : Nat)
  | real
  deriving DecidableEq, Repr

inductive QuotaError where
  | notFound (message : String)
  /-- A `REAL` is not read as an `i64`. -/
  | columnDecode (column : String)
  deriving DecidableEq, Repr

namespace SqlSum

def add : SqlSum → Nat → SqlSum
  | integer value, n => if value + n ≤ i64Max then integer (value + n) else real
  | real, _ => real

/-- `>=` against an integer; a `REAL` is past all of them. -/
def atLeast : SqlSum → Nat → Bool
  | integer value, n => n ≤ value
  | real, _ => true

def decode (column : String) : SqlSum → Except QuotaError Nat
  | integer value => .ok value
  | real => .error (.columnDecode column)

end SqlSum

/-- `i64::try_from(bytes).unwrap_or(i64::MAX)`. -/
def storedBytes (bytes : Nat) : Nat := min bytes i64Max

/-- The quota columns of one row. A reset day is stored as its text. -/
structure QuotaColumns where
  quotaBytes : Option Nat := none
  quotaAction : UsenetQuotaAction := .backup
  quotaResetOn : Option NaiveDate := none
  quotaUsedBytes : SqlSum := .integer 0
  quotaReachedAt : Option Moment := none
  deriving DecidableEq, Repr

namespace QuotaColumns

/-- Whether the reset day has come. -/
def isDue (columns : QuotaColumns) (today : NaiveDate) : Bool :=
  columns.quotaResetOn.any (· ≤ today)

/-- The quota as of `today`: a reset day that has come means nothing is used yet. -/
def quota (columns : QuotaColumns) (today : NaiveDate) : Except QuotaError (Option UsenetQuota) :=
  (columns.quotaUsedBytes.decode "quota_used_bytes").map fun used =>
    columns.quotaBytes.map fun limit =>
      let due := columns.isDue today
      { limitBytes := limit
        action := columns.quotaAction
        resetOn := if due then none else columns.quotaResetOn
        usedBytes := if due then 0 else used
        reachedAt := if due then none else columns.quotaReachedAt }

/-- The first update of a flush: a reset day whose text is not after the day's. -/
def applyDueReset (columns : QuotaColumns) (today : NaiveDate) : QuotaColumns :=
  if columns.quotaResetOn.any (Text.notAfter ·.toText today.toText) then
    { columns with quotaUsedBytes := .integer 0, quotaReachedAt := none, quotaResetOn := none }
  else columns

def countBytes (columns : QuotaColumns) (bytes : Nat) : QuotaColumns :=
  if columns.quotaBytes.isSome then
    { columns with quotaUsedBytes := columns.quotaUsedBytes.add bytes }
  else columns

/-- Whether the limit is reached and not yet marked. -/
def crosses (columns : QuotaColumns) : Bool :=
  columns.quotaBytes.any (columns.quotaUsedBytes.atLeast ·) && columns.quotaReachedAt.isNone

def markReached (columns : QuotaColumns) (now : Moment) : QuotaColumns :=
  if columns.crosses then { columns with quotaReachedAt := some now } else columns

/-- What one flush makes of the columns before it looks for a crossing. -/
def flushed (columns : QuotaColumns) (bytes : Nat) (today : NaiveDate) : QuotaColumns :=
  (columns.applyDueReset today).countBytes bytes

end QuotaColumns

/-- One row of `usenet_servers`. -/
structure UsenetServerRow where
  name : String
  quota : QuotaColumns := {}
  deriving DecidableEq, Repr

/-- `UsenetQuotaReached`, with what its event says besides. -/
structure UsenetQuotaReached where
  serverId : UsenetServerId
  name : String
  limitBytes : Option Nat
  action : UsenetQuotaAction
  deriving DecidableEq, Repr

/-- `usenet_servers` and `usenet_server_traffic`, by their primary keys. -/
structure UsenetStore where
  servers : UsenetServerId → Option UsenetServerRow
  traffic : UsenetServerId → NaiveDate → Option SqlSum := fun _ _ => none

structure UsenetQuotaInput where
  limitBytes : Option Nat
  action : UsenetQuotaAction
  resetOn : Option NaiveDate
  resetUsage : Bool
  deriving DecidableEq, Repr

namespace UsenetStore

def setColumns (store : UsenetStore) (id : UsenetServerId) (row : UsenetServerRow)
    (columns : QuotaColumns) : UsenetStore :=
  { store with servers := fun other =>
      if other = id then some { row with quota := columns } else store.servers other }

/-- The day row of a flush. -/
def addTraffic (store : UsenetStore) (id : UsenetServerId) (day : NaiveDate) (bytes : Nat) :
    UsenetStore :=
  let counted := ((store.traffic id day).getD (.integer 0)).add bytes
  { store with traffic := fun other date =>
      if other = id ∧ date = day then some counted else store.traffic other date }

/-- One pass of the loop in `record`. -/
def recordOne (store : UsenetStore) (id : UsenetServerId) (bytes : Nat) (now : Moment) :
    UsenetStore × Option UsenetQuotaReached :=
  if bytes = 0 then (store, none)
  else match store.servers id with
  -- A server deleted since its bytes were counted.
  | none => (store, none)
  | some row =>
    let counted := storedBytes bytes
    let columns := row.quota.flushed counted now.dateNaive
    ((store.addTraffic id now.dateNaive counted).setColumns id row (columns.markReached now),
      if columns.crosses then
        some {
          serverId := id
          name := row.name
          limitBytes := columns.quotaBytes
          action := columns.quotaAction }
      else none)

/-- `record`: one flush of counted bytes, and the limits it reached. -/
def record (store : UsenetStore) (now : Moment) :
    List (UsenetServerId × Nat) → UsenetStore × List UsenetQuotaReached
  | [] => (store, [])
  | (id, bytes) :: counts =>
    let (store, reached) := store.recordOne id bytes now
    let (store, later) := store.record now counts
    (store, reached.toList ++ later)

end UsenetStore

/-- The two updates of `set_quota`. -/
def QuotaColumns.edited (columns : QuotaColumns) (input : UsenetQuotaInput) (now : Moment) :
    QuotaColumns :=
  let limit := input.limitBytes.map storedBytes
  let used := if input.resetUsage || limit.isNone || columns.quotaBytes.isNone then .integer 0
    else columns.quotaUsedBytes
  { quotaBytes := limit
    quotaAction := input.action
    quotaResetOn := input.resetOn
    quotaUsedBytes := used
    quotaReachedAt :=
      if limit.any (used.atLeast ·) then some (columns.quotaReachedAt.getD now) else none }

/-- `set_quota`: the store after it, and the quota it answers with. -/
def UsenetStore.setQuota (store : UsenetStore) (id : UsenetServerId) (input : UsenetQuotaInput)
    (now : Moment) : Except QuotaError (UsenetStore × Option UsenetQuota) :=
  match store.servers id with
  | none => .error (.notFound "usenet server not found")
  | some row =>
    let columns := row.quota.edited input now
    -- A row that cannot be read back rolls the transaction back.
    (columns.quota now.dateNaive).map fun quota => (store.setColumns id row columns, quota)

end RDownloader
