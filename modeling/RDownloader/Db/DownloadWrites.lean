import RDownloader.Db.DownloadBatches

/-!
# What a single write of a row does

Every write changes one row and then settles the verdicts of its package, which decide nothing but
held-back rows.
-/

namespace RDownloader
namespace DownloadTable

variable {table next : DownloadTable} {id other : DownloadId} {announced : PackageId → Bool}
  {redact : String → String} {f : DownloadRow → DownloadRow} {row : DownloadRow}

/-- `next` is `table` with the row changed by `f` and the verdicts of a package settled. -/
def Wrote (announced : PackageId → Bool) (table : DownloadTable) (id : DownloadId)
    (f : DownloadRow → DownloadRow) (next : DownloadTable) : Prop :=
  ∃ (hf : ∀ row, (f row).id = row.id) (package : PackageId),
    next = (table.update id f hf).settlePar2Verdicts announced package

theorem row?_settle_of_decided (hrow : table.row? id = some row) (hdecided : row.awaiting = none)
    (package : PackageId) :
    (table.settlePar2Verdicts announced package).row? id = some row := by
  rw [settlePar2Verdicts]
  split
  · rw [row?_updateAll, hrow, Option.map_some, verdict, hdecided]
    exact congrArg some (ite_self row)
  · exact hrow

theorem Wrote.row?_self (h : Wrote announced table id f next) (hrow : table.row? id = some row)
    (hdecided : (f row).awaiting = none) : next.row? id = some (f row) := by
  obtain ⟨hf, package, rfl⟩ := h
  refine row?_settle_of_decided ?_ hdecided package
  rw [row?_update, hrow, Option.map_some, if_pos (row?_id hrow)]

theorem Wrote.row?_other (h : Wrote announced table id f next) (hne : other ≠ id)
    (hrow : table.row? other = some row) (hdecided : row.awaiting = none) :
    next.row? other = some row := by
  obtain ⟨hf, package, rfl⟩ := h
  refine row?_settle_of_decided ?_ hdecided package
  rw [row?_update, hrow, Option.map_some, if_neg]
  rw [row?_id hrow]
  exact hne

theorem Wrote.isSome_row? (h : Wrote announced table id f next) (other : DownloadId) :
    (next.row? other).isSome = (table.row? other).isSome := by
  obtain ⟨hf, package, rfl⟩ := h
  have hupdated : ((table.update id f hf).row? other).isSome = (table.row? other).isSome := by
    rw [row?_update, Option.isSome_map]
  rw [settlePar2Verdicts]
  split
  · rw [row?_updateAll, Option.isSome_map, hupdated]
  · exact hupdated

theorem wrote_of_transition {state : DownloadState} {reason : Option String}
    (h : table.transitionWithReason announced id state reason = .ok next) :
    ∃ row, table.row? id = some row ∧ row.state.canTransitionTo state ∧
      Wrote announced table id (setState state reason) next := by
  rw [transitionWithReason] at h
  cases hrow : table.row? id with
  | none => rw [hrow] at h; cases h
  | some row =>
    rw [hrow] at h
    dsimp only at h
    split at h
    · next hmove =>
      cases h
      exact ⟨row, rfl, hmove, _, _, rfl⟩
    · cases h

theorem transition_of_canTransition {state : DownloadState} {reason : Option String}
    (hrow : table.row? id = some row) (hmove : row.state.canTransitionTo state) :
    ∃ next, table.transitionWithReason announced id state reason = .ok next := by
  rw [transitionWithReason, hrow]
  exact ⟨_, if_pos hmove⟩

theorem wrote_of_recordFailure {failure : Failure} {retryAt : Option Nat}
    (h : table.recordFailure announced redact id failure retryAt = .ok next) :
    Wrote announced table id (setFailure (failure.redacted redact) retryAt) next := by
  rw [recordFailure] at h
  cases hrow : table.row? id with
  | none => rw [hrow] at h; cases h
  | some row =>
    rw [hrow] at h
    cases h
    exact ⟨_, _, rfl⟩

theorem wrote_of_completeDownload (h : table.completeDownload announced id = .ok next) :
    ∃ row, table.row? id = some row ∧ row.state.canTransitionTo .completed ∧
      Wrote announced table id setCompleted next := by
  rw [completeDownload] at h
  cases hrow : table.row? id with
  | none => rw [hrow] at h; cases h
  | some row =>
    rw [hrow] at h
    dsimp only at h
    split at h
    · next hmove =>
      cases h
      exact ⟨row, rfl, hmove, _, _, rfl⟩
    · cases h

theorem wrote_of_requeueFailed {autoRetry : Bool}
    (h : table.requeueFailed announced id autoRetry = some next) :
    Wrote announced table id
      (fun row => { requeue row with autoRetryRounds := row.autoRetryRounds + autoRetry.toNat })
      next := by
  rw [requeueFailed] at h
  cases hrow : table.row? id with
  | none => rw [hrow] at h; cases h
  | some row =>
    rw [hrow] at h
    dsimp only at h
    split at h
    · cases h
      exact ⟨_, _, rfl⟩
    · cases h

end DownloadTable
end RDownloader
