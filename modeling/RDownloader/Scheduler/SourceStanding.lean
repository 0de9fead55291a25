import RDownloader.Db.SourceHealth
import RDownloader.Scheduler.WorkerSources

/-!
# Where a source stands after everything that was recorded (`rd-scheduler/src/worker_sources.rs`)

`Standing` says what a row must be from the history of its reports alone; every transaction keeps
it.
-/

namespace RDownloader

/-- One call of `record_source_outcome`. -/
structure SourceEntry where
  position : Nat
  report : SourceReport
  now : Instant
  deriving DecidableEq, Repr

namespace SourceReport

def isDelivery : SourceReport → Bool
  | .delivered _ => true
  | _ => false

def isolationCode : SourceReport → Option String
  | .isolated code => some code
  | _ => none

end SourceReport

/-- When a failure was recorded, and the wait it asked for. -/
def SourceEntry.failure (entry : SourceEntry) : Option (Instant × Option Nat) :=
  match entry.report with
  | .failed _ retryAfterSeconds => some (entry.now, retryAfterSeconds)
  | _ => none

/-! ## A history of reports -/

namespace SourceHistory

variable (history : List SourceEntry)

/-- The failures since the last delivery, latest first. -/
def failures : List (Instant × Option Nat) :=
  (history.reverse.takeWhile (!·.report.isDelivery)).filterMap (·.failure)

/-- The code of the first isolation. -/
def isolation : Option String := history.findSome? (·.report.isolationCode)

variable (entry : SourceEntry)

theorem failures_append : failures (history ++ [entry]) =
    match entry.report with
    | .delivered _ => []
    | .failed _ asked => (entry.now, asked) :: failures history
    | .isolated _ => failures history := by
  rw [failures, List.reverse_append, List.reverse_singleton, List.singleton_append]
  cases hreport : entry.report with
  | delivered bytes =>
    rw [List.takeWhile_cons_of_neg (by simp [hreport, SourceReport.isDelivery]),
      List.filterMap_nil]
  | failed code asked =>
    rw [List.takeWhile_cons_of_pos (by simp [hreport, SourceReport.isDelivery]),
      List.filterMap_cons_some (by rw [SourceEntry.failure, hreport])]
    rfl
  | isolated code =>
    rw [List.takeWhile_cons_of_pos (by simp [hreport, SourceReport.isDelivery]),
      List.filterMap_cons_none (by rw [SourceEntry.failure, hreport])]
    rfl

theorem isolation_append :
    isolation (history ++ [entry]) = (isolation history).or entry.report.isolationCode := by
  rw [isolation, List.findSome?_append, List.findSome?_singleton]
  rfl

theorem isolation_isSome :
    (isolation history).isSome ↔ ∃ entry ∈ history, entry.report.isolationCode.isSome := by
  rw [isolation, List.findSome?_isSome_iff]

/-- What is taken up to an element at the latest lies before it. -/
theorem mem_of_mem_takeWhile {p : α → Bool} (hstop : p stop = false)
    (h : a ∈ (before ++ stop :: after).takeWhile p) : a ∈ before := by
  induction before with
  | nil =>
    rw [List.nil_append, List.takeWhile_cons_of_neg (by simp [hstop])] at h
    cases h
  | cons first before ih =>
    rw [List.cons_append, List.takeWhile_cons] at h
    split at h
    · rcases List.mem_cons.mp h with rfl | h
      · exact List.mem_cons_self ..
      · exact List.mem_cons_of_mem _ (ih h)
    · cases h

/-- A delivery with no failure after it leaves none to count. -/
theorem failures_of_delivery {delivery : SourceEntry} (hdelivery : delivery.report.isDelivery)
    (hafter : ∀ entry ∈ after, entry.failure = none) :
    failures (before ++ delivery :: after) = [] := by
  rw [failures, List.reverse_append, List.reverse_cons, List.append_assoc,
    List.filterMap_eq_nil_iff]
  intro entry hmem
  have hlater : entry ∈ after.reverse := mem_of_mem_takeWhile (by simp [hdelivery]) hmem
  exact hafter entry (List.mem_reverse.mp hlater)

end SourceHistory

/-- What a row is after `history`: the first isolation, the failures since the last delivery up to
the word's end, and the wait of the latest of them. -/
structure SourceRow.Standing (history : List SourceEntry) (row : SourceRow) : Prop where
  isolatedCode : row.isolatedCode = SourceHistory.isolation history
  failures : row.failures = min (SourceHistory.failures history).length u32Max
  backoffUntil : row.backoffUntil = (SourceHistory.failures history).head?.map
    fun (now, asked) => now + (sourceBackoff row.failures asked * 1000 : Nat)

namespace SourceRow.Standing

variable {history : List SourceEntry} {row next : SourceRow} {entry : SourceEntry}

theorem record (h : row.Standing history)
    (hrecord : row.record latest entry.now entry.report = some next) :
    next.Standing (history ++ [entry]) := by
  have hrecorded := recorded hrecord
  have hledger := hrecorded.ledger
  have hbackoff := hrecorded.backoffUntil
  have hfailures := SourceHistory.failures_append history entry
  have hisolation := SourceHistory.isolation_append history entry
  cases hreport : entry.report with
  | delivered bytes =>
    rw [hreport] at hledger hbackoff hfailures hisolation
    have hcode := congrArg DownloadSource.isolatedCode hledger
    refine ⟨?_, ?_, ?_⟩
    · rw [hisolation, ← h.isolatedCode, hcode]
      exact (Option.or_none).symm
    · rw [hfailures]
      exact congrArg DownloadSource.failures hledger
    · rw [hfailures]
      exact hbackoff
  | failed code asked =>
    rw [hreport] at hledger hbackoff hfailures hisolation
    have hcode := congrArg DownloadSource.isolatedCode hledger
    have hcount := congrArg DownloadSource.failures hledger
    refine ⟨?_, ?_, ?_⟩
    · rw [hisolation, ← h.isolatedCode, hcode]
      exact (Option.or_none).symm
    · rw [hfailures, hcount, List.length_cons]
      simp only [DownloadSource.record, SourceReport.outcome, h.failures, u32Max]
      omega
    · rw [hfailures, hbackoff]
      rfl
  | isolated code =>
    rw [hreport] at hledger hbackoff hfailures hisolation
    have hcode := congrArg DownloadSource.isolatedCode hledger
    have hcount := congrArg DownloadSource.failures hledger
    simp only [SourceReport.outcome, DownloadSource.record] at hcount
    refine ⟨?_, ?_, ?_⟩
    · rw [hisolation, ← h.isolatedCode, hcode]
      rfl
    · rw [hfailures, hcount, h.failures]
    · rw [hfailures, hbackoff, hcount]
      exact h.backoffUntil

end SourceRow.Standing

/-! ## Every transaction -/

namespace SourceTable

/-- The transactions in order, up to the first that fails. -/
def recordAll (latest : Instant) (table : SourceTable) :
    List SourceEntry → Except RecordError SourceTable
  | [] => .ok table
  | entry :: entries =>
    match table.recordOutcome latest entry.position entry.report entry.now with
    | .error error => .error error
    | .ok table => table.recordAll latest entries

/-- The sources an attempt at `now` may start from. -/
def ready (table : SourceTable) (now : Instant) : List SourceRow :=
  table.rows.filter (·.stateAt now = .ready)

/-- The reports about one source. -/
def about (entries : List SourceEntry) (position : Nat) : List SourceEntry :=
  entries.filter (·.position = position)

variable {table after : SourceTable} {history : List SourceEntry} {entry : SourceEntry}

/-- Every row stands as its own reports say. -/
def Stands (table : SourceTable) (history : List SourceEntry) : Prop :=
  ∀ position row, table.row? position = some row → row.Standing (about history position)

theorem about_append_self (history : List SourceEntry) (entry : SourceEntry) :
    about (history ++ [entry]) entry.position = about history entry.position ++ [entry] := by
  rw [about, List.filter_append]
  exact congrArg _ (List.filter_cons_of_pos (decide_eq_true rfl))

theorem about_append_other (h : position ≠ entry.position) :
    about (history ++ [entry]) position = about history position := by
  rw [about, List.filter_append, List.filter_cons_of_neg (by simpa using h.symm), List.filter_nil,
    List.append_nil]
  rfl

theorem stands_insertSet (protocols : List SourceProtocol) : (insertSet protocols).Stands [] := by
  intro position row hrow
  obtain ⟨⟨protocol, other⟩, -, rfl⟩ := List.mem_map.mp (mem_of_row? hrow)
  exact ⟨rfl, rfl, rfl⟩

theorem Stands.recordOutcome (h : table.Stands history)
    (hrecord : table.recordOutcome latest entry.position entry.report entry.now = .ok after) :
    after.Stands (history ++ [entry]) := by
  intro position row hrow
  have hcases := row?_recordOutcome hrecord position
  split at hcases
  · next heq =>
    obtain ⟨before, next, hbefore, hnext, hafter⟩ := hcases
    subst heq
    obtain rfl := Option.some.inj (hafter.symm.trans hrow)
    rw [about_append_self]
    exact (h _ _ hbefore).record hnext
  · next hne =>
    rw [about_append_other hne]
    exact h _ _ (hcases ▸ hrow)

theorem Stands.recordAll (h : table.Stands history)
    (hrun : table.recordAll latest entries = .ok after) : after.Stands (history ++ entries) := by
  induction entries generalizing table history with
  | nil =>
    obtain rfl := Except.ok.inj hrun
    rwa [List.append_nil]
  | cons entry entries ih =>
    rw [SourceTable.recordAll] at hrun
    split at hrun
    · cases hrun
    · next next hnext =>
      have hafter := ih (h.recordOutcome hnext) hrun
      rwa [List.append_assoc] at hafter

/-- A transaction only fails for a source nobody put in, or at the end of time. -/
theorem recordAll_overflow (h : table.recordAll latest entries = .error .overflow) :
    ∃ entry ∈ entries, latest < entry.now + (backoffMaxSeconds * 1000 : Nat) := by
  induction entries generalizing table with
  | nil => cases h
  | cons entry entries ih =>
    rw [recordAll] at h
    split at h
    · next error herror =>
      obtain rfl := Except.error.inj h
      refine ⟨entry, List.mem_cons_self .., ?_⟩
      unfold recordOutcome at herror
      split at herror
      · cases herror
      · split at herror
        · next hnone => exact SourceRow.record_eq_none hnone
        · cases herror
    · obtain ⟨entry, hmem, hlate⟩ := ih h
      exact ⟨entry, List.mem_cons_of_mem _ hmem, hlate⟩

/-- An attempt's sources are among those the ledger lets it probe. -/
theorem ready_sublist (table : SourceTable) (ledger : SourceLedger)
    (hsources : ledger.sources = table.rows.map (·.toDownloadSource)) (now : Instant) :
    ((table.ready now).map (·.position)).Sublist ledger.ready := by
  rw [SourceLedger.ready, hsources, List.filter_map, List.map_map]
  apply List.Sublist.map
  apply List.monotone_filter_right
  intro row hready
  have hstate := of_decide_eq_true hready
  unfold SourceRow.stateAt at hstate
  split at hstate
  · cases hstate
  · next hopen => simpa using hopen

end SourceTable

/-! ## What an attempt sees -/

/-- What the health of one source promises after `history`. -/
structure SourceRow.Healthy (history : List SourceEntry) (row : SourceRow) : Prop where
  /-- One isolation anywhere in the history keeps the source out of every attempt. -/
  isolated : (∃ entry ∈ history, entry.report.isolationCode.isSome) →
    ∀ now, row.stateAt now = .isolated
  /-- The number of failures since the last delivery decides how long the source waits, from the
  latest of them on. -/
  waits : ∀ since asked earlier, SourceHistory.failures history = (since, asked) :: earlier →
    row.backoffUntil =
      some (since + (sourceBackoff (min (earlier.length + 1) u32Max) asked * 1000 : Nat))
  /-- A delivery clears the count and the wait. -/
  cleared : ∀ before delivery after, history = before ++ delivery :: after →
    delivery.report.isDelivery → (∀ entry ∈ after, entry.failure = none) →
    row.failures = 0 ∧ row.backoffUntil = none
  /-- Nothing else keeps a source out. -/
  free : (∀ entry ∈ history, entry.report.isolationCode = none) →
    ∀ now, row.stateAt now = if row.backoffUntil.any (now < ·) then .backingOff else .ready

theorem SourceRow.Standing.healthy {row : SourceRow} (h : row.Standing history) :
    row.Healthy history where
  isolated hisolated now := by
    have hcode : row.isolatedCode.isSome := by
      rw [h.isolatedCode]
      exact (SourceHistory.isolation_isSome history).mpr hisolated
    rw [stateAt, if_pos hcode]
  waits since asked earlier hfailures := by
    rw [h.backoffUntil, h.failures, hfailures]
    rfl
  cleared before delivery after hhistory hdelivery hafter := by
    have hnone : SourceHistory.failures history = [] :=
      hhistory ▸ SourceHistory.failures_of_delivery hdelivery hafter
    exact ⟨by rw [h.failures, hnone]; rfl, by rw [h.backoffUntil, hnone]; rfl⟩
  free hopen now := by
    have hcode : row.isolatedCode = none := by
      rw [h.isolatedCode]
      exact List.findSome?_eq_none_iff.mpr hopen
    have hserves : row.protocol.servesChunks = true := by cases row.protocol <;> rfl
    simp [stateAt, hcode, hserves]

namespace SourceTable

/-- Source health over every history: each row is healthy by the reports about it, whatever was
recorded for whichever source in whatever order; the wait grows with the failures, between its floor
and its ceiling; and no step overflows before the last half hour there is. -/
theorem healthy_recordAll (latest : Instant) (protocols : List SourceProtocol)
    (entries : List SourceEntry) :
    (∀ table, (insertSet protocols).recordAll latest entries = .ok table →
      ∀ row ∈ table.rows, row.Healthy (about entries row.position) ∧
        ∀ now, row ∈ table.ready now → ∀ entry ∈ about entries row.position,
          entry.report.isolationCode = none) ∧
    (∀ failures failures' asked, failures ≤ failures' →
      sourceBackoff failures asked ≤ sourceBackoff failures' asked) ∧
    (∀ failures asked, backoffBaseSeconds ≤ sourceBackoff failures asked ∧
      sourceBackoff failures asked ≤ backoffMaxSeconds) ∧
    ((insertSet protocols).recordAll latest entries = .error .overflow →
      ∃ entry ∈ entries, latest < entry.now + (backoffMaxSeconds * 1000 : Nat)) := by
  refine ⟨fun table hrun row hrow => ?_, fun failures failures' asked h => sourceBackoff_mono h asked,
    fun failures asked => ⟨le_sourceBackoff failures asked, sourceBackoff_le failures asked⟩,
    recordAll_overflow⟩
  have hstands := (stands_insertSet protocols).recordAll hrun
  have hhealthy := (hstands _ row (row?_of_mem hrow)).healthy
  refine ⟨hhealthy, fun now hready entry hentry => ?_⟩
  by_contra hcode
  have hstate := hhealthy.isolated ⟨entry, hentry, Option.ne_none_iff_isSome.mp hcode⟩ now
  have hready := of_decide_eq_true (List.mem_filter.mp hready).2
  rw [hstate] at hready
  cases hready

/-- The second of two sources fails twice, then delivers and is found out; the first goes on. -/
theorem healthy_recordAll_two :
    let entries : List SourceEntry := [
      ⟨1, .failed "download.network_failed" none, 0⟩,
      ⟨1, .failed "download.network_failed" (some 90), 40000⟩, ⟨1, .delivered 4096, 200000⟩,
      ⟨1, .isolated "mirror.piece_hash_mismatch", 200001⟩,
      ⟨0, .failed "download.range_ignored" none, 200002⟩]
    ∃ table, (insertSet [.https, .sftp]).recordAll 1000000000 entries = .ok table ∧
      ∀ row ∈ table.rows, row.position = 1 → ∀ now, row ∉ table.ready now := by
  intro entries
  refine ⟨_, rfl, fun row hrow hposition now hready => ?_⟩
  have hisolated : ⟨1, .isolated "mirror.piece_hash_mismatch", 200001⟩ ∈
      about entries row.position := by
    rw [hposition]
    simp [entries, about]
  have hclear := ((healthy_recordAll 1000000000 [.https, .sftp] entries).1 _ rfl row hrow).2 now
    hready _ hisolated
  cases hclear

end SourceTable
end RDownloader
