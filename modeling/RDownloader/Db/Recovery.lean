import RDownloader.Db.DownloadWrites

/-!
# Paused rows, and the rows after a crash (`rd-db/src/writer_jobs_maintenance.rs`)
-/

namespace RDownloader

/-- What a start makes of a row its process left in the middle of something. A row held back for
its verdict stays as it is. -/
def DownloadRow.recover (row : DownloadRow) : DownloadRow :=
  match row.state with
  | .resolving | .downloading | .repairing => { row with state := .queued }
  | .verifying => if row.awaiting.isNone then { row with state := .queued } else row
  | .extracting => { row with state := .completed }
  | _ => row

namespace DownloadTable

/-- `recover_interrupted`, with the verdicts that are due afterwards. -/
def recoverInterrupted (table : DownloadTable) (announced : PackageId → Bool) : DownloadTable :=
  let recovered := table.updateAll DownloadRow.recover fun row => by
    unfold DownloadRow.recover
    repeat' split
    all_goals rfl
  ((recovered.rows.filter (·.awaiting.isSome)).map (·.packageId)).eraseDups.foldl
    (fun table package => table.settlePar2Verdicts announced package) recovered

variable {table next : DownloadTable} {id other : DownloadId} {announced : PackageId → Bool}
  {f : DownloadRow → DownloadRow}

/-- Whether the row is paused. -/
def paused (table : DownloadTable) (id : DownloadId) : Bool :=
  (table.row? id).any (·.state = .paused)

theorem paused_eq_true : table.paused id = true ↔
    ∃ row, table.row? id = some row ∧ row.state = .paused := by
  rw [paused]
  cases table.row? id <;> simp

/-- A write that pauses and resumes no row. -/
theorem paused_updateAll (hf : ∀ row, (f row).id = row.id)
    (hkeep : ∀ row : DownloadRow, row.id = id → ((f row).state = .paused ↔ row.state = .paused)) :
    (table.updateAll f hf).paused id = table.paused id := by
  rw [paused, paused, row?_updateAll, Option.any_map]
  cases hrow : table.row? id with
  | none => rfl
  | some row => exact decide_eq_decide.mpr (hkeep row (row?_id hrow))

theorem verdict_paused (table : DownloadTable) (announced : PackageId → Bool) (row : DownloadRow) :
    (table.verdict announced row).state = .paused ↔ row.state = .paused := by
  rw [verdict]
  split
  · exact Iff.rfl
  · next missing hawaiting =>
    rw [awaiting_verifying hawaiting, DownloadRow.decide]
    split <;> exact ⟨by rintro ⟨⟩, by rintro ⟨⟩⟩

theorem paused_settlePar2Verdicts (table : DownloadTable) (package : PackageId)
    (id : DownloadId) :
    (table.settlePar2Verdicts announced package).paused id = table.paused id := by
  rw [settlePar2Verdicts]
  split
  · refine paused_updateAll _ fun row _ => ?_
    split
    · exact table.verdict_paused announced row
    · exact Iff.rfl
  · rfl

theorem recover_paused (row : DownloadRow) : row.recover.state = .paused ↔ row.state = .paused := by
  rw [DownloadRow.recover]
  repeat' split
  all_goals simp_all

/-- What was paused before a crash is what is paused after it. -/
theorem paused_recoverInterrupted (table : DownloadTable) (id : DownloadId) :
    (table.recoverInterrupted announced).paused id = table.paused id := by
  have hsettled : ∀ (packages : List PackageId) (table : DownloadTable),
      (packages.foldl (fun table package => table.settlePar2Verdicts announced package)
        table).paused id = table.paused id := by
    intro packages
    induction packages with
    | nil => exact fun _ => rfl
    | cons package packages ih =>
      exact fun table => (ih _).trans (table.paused_settlePar2Verdicts package id)
  exact (hsettled _ _).trans (paused_updateAll _ fun row _ => recover_paused row)

theorem Wrote.paused_other (h : Wrote announced table id f next) (hne : other ≠ id) :
    next.paused other = table.paused other := by
  obtain ⟨hf, package, rfl⟩ := h
  refine (paused_settlePar2Verdicts _ package other).trans (paused_updateAll _ fun row hid => ?_)
  rw [if_neg (hid ▸ hne)]

end DownloadTable
end RDownloader
