import RDownloader.Core.Timing
import RDownloader.Db.SourceLedger

/-!
# Source health (`rd-core/src/source_set.rs`, `rd-db/src/download_sources_store.rs`)

A `SourceRow` is a row of the ledger with what its health needs besides: the protocol and the
instant it waits for. `SourceTable.recordOutcome` is one transaction; `SourceRow.toDownloadSource`
takes it back to the ledger's own.
-/

namespace RDownloader

inductive SourceProtocol where
  | http
  | https
  | ftp
  | ftps
  | sftp
  deriving DecidableEq, Repr

/-- Whether chunks of one file may be fetched from this source in parallel with others. -/
def SourceProtocol.servesChunks : SourceProtocol → Bool
  | .http | .https | .ftp | .ftps | .sftp => true

/-- One row of `download_sources`, with its health. -/
structure SourceRow extends DownloadSource where
  protocol : SourceProtocol
  /-- Not tried again before this instant. -/
  backoffUntil : Option Instant := none
  deriving DecidableEq, Repr

inductive SourceState where
  | ready
  | backingOff
  | isolated
  | unsupported
  deriving DecidableEq, Repr

/-- Where this source stands at `now`. -/
def SourceRow.stateAt (row : SourceRow) (now : Instant) : SourceState :=
  if row.isolatedCode.isSome then .isolated
  else if !row.protocol.servesChunks then .unsupported
  else if row.backoffUntil.any (now < ·) then .backingOff
  else .ready

def backoffBaseSeconds : Nat := 30

def backoffMaxSeconds : Nat := 30 * 60

/-- How long a source that has now failed `failures` times waits, in seconds. -/
def sourceBackoff (failures : Nat) (retryAfterSeconds : Option Nat) : Nat :=
  let computed := exponentialBackoff (failures - 1) backoffBaseSeconds backoffMaxSeconds
  let computed := if computed ≤ i64Max then computed else backoffMaxSeconds
  let asked := min ((retryAfterSeconds.map (min · i64Max)).getD 0) backoffMaxSeconds
  max computed asked

/-- What an attempt learned about one source, with the wait a failure asked for. -/
inductive SourceReport where
  | delivered (bytes : Nat)
  | failed (code : String) (retryAfterSeconds : Option Nat)
  | isolated (code : String)
  deriving DecidableEq, Repr

/-- The report without the wait, as the ledger knows it. -/
def SourceReport.outcome : SourceReport → SourceOutcome
  | .delivered bytes => .delivered bytes
  | .failed code _ => .failed code
  | .isolated code => .isolated code

/-- What a report makes of the row. `none` where the end of the wait is past the last instant. -/
def SourceRow.record (latest now : Instant) (row : SourceRow) : SourceReport → Option SourceRow
  | .delivered bytes => some { row with
      failures := 0, backoffUntil := none
      deliveredBytes := row.deliveredBytes + min bytes i64Max }
  | .failed code retryAfterSeconds =>
    let failures := min (row.failures + 1) u32Max
    (now.checkedAdd latest (sourceBackoff failures retryAfterSeconds * 1000)).map fun due =>
      { row with failures, backoffUntil := some due, lastErrorCode := some code }
  | .isolated code => some { row with
      isolatedCode := row.isolatedCode.or (some code), lastErrorCode := some code }

/-- The sources of one download; `(download_id, position)` is the key. -/
structure SourceTable where
  rows : List SourceRow
  keyed : (rows.map (·.position)).Nodup

inductive RecordError where
  | notFound
  /-- `DateTime + TimeDelta` overflowed. -/
  | overflow
  deriving DecidableEq, Repr

namespace SourceTable

variable (table : SourceTable)

def row? (position : Nat) : Option SourceRow := table.rows.find? (·.position = position)

/-- `insert_set`: the sources of a set in their order. -/
def insertSet (protocols : List SourceProtocol) : SourceTable where
  rows := protocols.zipIdx.map fun (protocol, position) => { position, protocol }
  keyed := by
    have hpositions : (protocols.zipIdx.map fun (protocol, position) =>
        ({ position, protocol } : SourceRow)).map (·.position) = List.range protocols.length := by
      rw [List.map_map, List.range_eq_range', ← List.zipIdx_map_snd 0 protocols]
      rfl
    exact hpositions ▸ List.nodup_range

/-- The rows with the one at `row`'s position replaced. -/
def put (row : SourceRow) : SourceTable where
  rows := table.rows.map fun other => if other.position = row.position then row else other
  keyed := by
    have hpositions : (table.rows.map fun other =>
        if other.position = row.position then row else other).map (·.position) =
        table.rows.map (·.position) := by
      rw [List.map_map]
      apply List.map_congr_left
      intro other _
      rw [Function.comp_apply]
      split
      · next heq => exact heq.symm
      · rfl
    exact hpositions ▸ table.keyed

/-- `record_outcome`: one transaction, which a failure leaves undone. -/
def recordOutcome (latest : Instant) (position : Nat) (report : SourceReport) (now : Instant) :
    Except RecordError SourceTable :=
  match table.row? position with
  | none => .error .notFound
  | some row =>
    match row.record latest now report with
    | none => .error .overflow
    | some row => .ok (table.put row)

end SourceTable

/-! ## The wait -/

theorem exponentialBackoff_mono (h : attempt ≤ attempt') (base max : Nat) :
    exponentialBackoff attempt base max ≤ exponentialBackoff attempt' base max := by
  have hpow : 2 ^ min attempt 32 ≤ 2 ^ min attempt' 32 := by
    apply Nat.pow_le_pow_right (by decide)
    omega
  have hmul := Nat.mul_le_mul_left base hpow
  unfold exponentialBackoff saturatingMul
  omega

theorem exponentialBackoff_le (attempt base max : Nat) :
    exponentialBackoff attempt base max ≤ max := Nat.min_le_right _ _

theorem le_exponentialBackoff {base max : Nat} (hbase : base ≤ max) (hword : base ≤ u64Max)
    (attempt : Nat) : base ≤ exponentialBackoff attempt base max := by
  have hmul := Nat.le_mul_of_pos_right base (Nat.two_pow_pos (min attempt 32))
  unfold exponentialBackoff saturatingMul
  omega

/-- The host's own share of the wait always fits the signed word. -/
theorem sourceBackoff_eq (failures : Nat) (asked : Option Nat) :
    sourceBackoff failures asked =
      max (exponentialBackoff (failures - 1) backoffBaseSeconds backoffMaxSeconds)
        (min ((asked.map (min · i64Max)).getD 0) backoffMaxSeconds) := by
  have hfits : exponentialBackoff (failures - 1) backoffBaseSeconds backoffMaxSeconds ≤ i64Max :=
    Nat.le_trans (exponentialBackoff_le _ _ _) (by decide)
  rw [sourceBackoff, if_pos hfits]

theorem sourceBackoff_mono (h : failures ≤ failures') (asked : Option Nat) :
    sourceBackoff failures asked ≤ sourceBackoff failures' asked := by
  have hcomputed := exponentialBackoff_mono (Nat.sub_le_sub_right h 1) backoffBaseSeconds
    backoffMaxSeconds
  rw [sourceBackoff_eq, sourceBackoff_eq]
  omega

theorem le_sourceBackoff (failures : Nat) (asked : Option Nat) :
    backoffBaseSeconds ≤ sourceBackoff failures asked := by
  rw [sourceBackoff_eq]
  exact Nat.le_trans (le_exponentialBackoff (by decide) (by decide) _) (Nat.le_max_left _ _)

theorem sourceBackoff_le (failures : Nat) (asked : Option Nat) :
    sourceBackoff failures asked ≤ backoffMaxSeconds := by
  rw [sourceBackoff_eq]
  exact Nat.max_le.mpr ⟨exponentialBackoff_le _ _ _, Nat.min_le_right _ _⟩

/-- The server's wish is heard up to the ceiling. -/
theorem asked_le_sourceBackoff (failures asked : Nat) :
    min asked backoffMaxSeconds ≤ sourceBackoff failures (some asked) := by
  have hceiling : backoffMaxSeconds ≤ i64Max := by decide
  rw [sourceBackoff_eq]
  simp only [Option.map_some, Option.getD_some]
  omega

/-! ## What a report changes -/

variable {row next : SourceRow} {latest now : Instant} {report : SourceReport}

/-- What a report makes of a wait, `failures` being the count written with it. -/
def SourceReport.backoffUntil (now : Instant) (failures : Nat) (before : Option Instant) :
    SourceReport → Option Instant
  | .delivered _ => none
  | .failed _ asked => some (now + (sourceBackoff failures asked * 1000 : Nat))
  | .isolated _ => before

namespace SourceRow

/-- What a report makes of a row, field by field. -/
structure Recorded (latest now : Instant) (row : SourceRow) (report : SourceReport)
    (next : SourceRow) : Prop where
  position : next.position = row.position
  protocol : next.protocol = row.protocol
  ledger : next.toDownloadSource = row.toDownloadSource.record report.outcome
  backoffUntil : next.backoffUntil = report.backoffUntil now next.failures row.backoffUntil

theorem recorded (h : row.record latest now report = some next) :
    row.Recorded latest now report next := by
  cases report with
  | delivered bytes =>
    obtain rfl := Option.some.inj h
    exact ⟨rfl, rfl, rfl, rfl⟩
  | failed code asked =>
    obtain ⟨due, hdue, rfl⟩ := Option.map_eq_some_iff.mp h
    obtain ⟨-, rfl⟩ := Instant.checkedAdd_eq_some.mp hdue
    exact ⟨rfl, rfl, rfl, rfl⟩
  | isolated code =>
    obtain rfl := Option.some.inj h
    exact ⟨rfl, rfl, rfl, rfl⟩

/-- Only a failure within half an hour of the last instant there is cannot be written down. -/
theorem record_eq_none (h : row.record latest now report = none) :
    latest < now + (backoffMaxSeconds * 1000 : Nat) := by
  cases report with
  | delivered | isolated => cases h
  | failed code asked =>
    have hnone := Option.map_eq_none_iff.mp h
    have hpast := Instant.checkedAdd_eq_none.mp hnone
    have hceiling := Nat.mul_le_mul_right 1000
      (sourceBackoff_le (min (row.failures + 1) u32Max) asked)
    exact Int.lt_of_lt_of_le hpast (Int.add_le_add_left (Int.ofNat_le.mpr hceiling) now)

end SourceRow

namespace SourceTable

variable {table after : SourceTable} {position : Nat}

theorem position_of_row? (h : table.row? position = some row) : row.position = position := by
  simpa using List.find?_some h

theorem mem_of_row? (h : table.row? position = some row) : row ∈ table.rows :=
  List.mem_of_find?_eq_some h

theorem row?_of_mem (h : row ∈ table.rows) : table.row? row.position = some row := by
  rw [row?]
  obtain ⟨rows, keyed⟩ := table
  induction rows with
  | nil => cases h
  | cons first rows ih =>
    rw [List.map_cons, List.nodup_cons] at keyed
    rcases List.mem_cons.mp h with rfl | h
    · exact List.find?_cons_of_pos (decide_eq_true rfl)
    · have hne : first.position ≠ row.position := by
        intro heq
        exact keyed.1 (heq ▸ List.mem_map_of_mem h)
      rw [List.find?_cons_of_neg (by simpa using hne)]
      exact ih keyed.2 h

theorem row?_put (row : SourceRow) (position : Nat) :
    (table.put row).row? position =
      (table.row? position).map fun other => if position = row.position then row else other := by
  unfold row? put
  dsimp only
  induction table.rows with
  | nil => rfl
  | cons first rows ih =>
    rw [List.map_cons, List.find?_cons, List.find?_cons]
    split
    · grind
    · grind

theorem recordOutcome_ok (h : table.recordOutcome latest position report now = .ok after) :
    ∃ row next, table.row? position = some row ∧ row.record latest now report = some next ∧
      after = table.put next := by
  unfold recordOutcome at h
  split at h
  · cases h
  · next row hrow =>
    split at h
    · cases h
    · next next hnext => exact ⟨row, next, hrow, hnext, (Except.ok.inj h).symm⟩

/-- One transaction touches one row. -/
theorem row?_recordOutcome (h : table.recordOutcome latest position report now = .ok after)
    (other : Nat) :
    if other = position then
      ∃ row next, table.row? position = some row ∧ row.record latest now report = some next ∧
        after.row? position = some next
    else after.row? other = table.row? other := by
  obtain ⟨row, next, hrow, hnext, rfl⟩ := recordOutcome_ok h
  have hposition : next.position = position :=
    (SourceRow.recorded hnext).position.trans (position_of_row? hrow)
  split
  · refine ⟨row, next, hrow, hnext, ?_⟩
    rw [row?_put, hrow, Option.map_some, if_pos hposition.symm]
  · next hother =>
    rw [row?_put]
    simp [hposition, hother]

/-- The ledger's transaction is this one with the backoff left out. -/
theorem recordOutcome_ledger (ledger : SourceLedger)
    (hsources : ledger.sources = table.rows.map (·.toDownloadSource))
    (h : table.recordOutcome latest position report now = .ok after) :
    ledger.recordOutcome position report.outcome =
      .ok { ledger with sources := after.rows.map (·.toDownloadSource) } := by
  obtain ⟨row, next, hrow, hnext, rfl⟩ := recordOutcome_ok h
  have hrecorded := SourceRow.recorded hnext
  have hposition : next.position = position := hrecorded.position.trans (position_of_row? hrow)
  have hknown : ledger.sources.any (·.position = position) := by
    rw [hsources, List.any_map, List.any_eq_true]
    exact ⟨row, mem_of_row? hrow, decide_eq_true (position_of_row? hrow)⟩
  rw [SourceLedger.recordOutcome, if_pos hknown, hsources, List.map_map, put]
  simp only [List.map_map]
  congr 2
  apply List.map_congr_left
  intro other hother
  simp only [Function.comp_apply, hposition]
  split
  · next heq =>
    have hsame : other = row := by
      have hfound := row?_of_mem hother
      rw [heq, hrow] at hfound
      exact (Option.some.inj hfound).symm
    rw [hsame, hrecorded.ledger]
  · rfl

end SourceTable
end RDownloader
