import RDownloader.Db.DownloadRows

/-!
# What a batch of rows does

A batch writes its rows first and settles their packages afterwards, a single operation settles the
package with every row. `settleAll` is the settlement of several packages at once.
-/

namespace RDownloader
namespace DownloadTable

variable {table : DownloadTable} {id : DownloadId} {announced : PackageId → Bool}

theorem ext_rows {a b : DownloadTable} (h : a.rows = b.rows) : a = b := by
  cases a
  cases b
  cases h
  rfl

theorem updateAll_rows (table : DownloadTable) {f : DownloadRow → DownloadRow}
    (hf : ∀ row, (f row).id = row.id) : (table.updateAll f hf).rows = table.rows.map f := rfl

theorem update_rows (table : DownloadTable) (id : DownloadId) {f : DownloadRow → DownloadRow}
    (hf : ∀ row, (f row).id = row.id) :
    (table.update id f hf).rows = table.rows.map fun row => if row.id = id then f row else row := rfl

theorem row?_id (h : table.row? id = some row) : row.id = id := by
  simpa using List.find?_some h

theorem mem_of_row? (h : table.row? id = some row) : row ∈ table.rows :=
  List.mem_of_find?_eq_some h

theorem row?_of_mem (hmem : row ∈ table.rows) : table.row? row.id = some row := by
  have hkeyed := table.keyed
  unfold row?
  generalize table.rows = rows at hmem hkeyed
  induction rows with
  | nil => cases hmem
  | cons head rows ih =>
    obtain ⟨hfresh, hrows⟩ := List.nodup_cons.mp hkeyed
    rcases List.mem_cons.mp hmem with rfl | hmem
    · simp
    · have hne : head.id ≠ row.id := fun heq => hfresh (List.mem_map.mpr ⟨row, hmem, heq.symm⟩)
      rw [List.find?_cons_of_neg (by simpa using hne)]
      exact ih hmem hrows

theorem row?_updateAll {f : DownloadRow → DownloadRow} (hf : ∀ row, (f row).id = row.id)
    (table : DownloadTable) (id : DownloadId) :
    (table.updateAll f hf).row? id = (table.row? id).map f := by
  have hid : (fun row : DownloadRow => decide (row.id = id)) ∘ f = fun row => decide (row.id = id) := by
    funext row
    rw [Function.comp_apply, hf]
  rw [row?, updateAll, List.find?_map, hid, ← row?]

theorem row?_update {f : DownloadRow → DownloadRow} (hf : ∀ row, (f row).id = row.id)
    (table : DownloadTable) (id id' : DownloadId) :
    (table.update id f hf).row? id' =
      (table.row? id').map fun row => if row.id = id then f row else row :=
  row?_updateAll _ table id'

/-- A write to a row of another package leaves a package alone. -/
theorem inPackage_update {f : DownloadRow → DownloadRow} (hf : ∀ row, (f row).id = row.id)
    (hpackage : ∀ row, (f row).packageId = row.packageId) (hrow : table.row? id = some row)
    (hne : row.packageId ≠ package) :
    (table.update id f hf).inPackage package = table.inPackage package := by
  have hkeep : ∀ other ∈ table.rows, other.packageId = package → other.id ≠ id := by
    rintro other hmem rfl heq
    have hsame : some other = some row := (row?_of_mem hmem).symm.trans (heq ▸ hrow)
    exact hne (Option.some.inj hsame ▸ rfl)
  rw [inPackage, inPackage, update_rows]
  generalize table.rows = rows at hkeep
  induction rows with
  | nil => rfl
  | cons other rows ih =>
    have hrest := ih fun row hmem => hkeep row (List.mem_cons_of_mem _ hmem)
    rw [List.map_cons, List.filter_cons, List.filter_cons, hrest]
    by_cases hother : other.packageId = package
    · have hid := hkeep other (List.mem_cons_self ..) hother
      simp [hid]
    · by_cases hid : other.id = id
      · simp [hid, hpackage, hother]
      · simp [hid, hother]

/-! ## Verdicts -/

/-- Whether a row is one a verdict is due for. -/
theorem awaiting_verifying {row : DownloadRow} (h : row.awaiting = some missing) :
    row.state = .verifying := by
  unfold DownloadRow.awaiting at h
  split at h
  · assumption
  · cases h

theorem verdict_package (table : DownloadTable) (announced : PackageId → Bool) (row : DownloadRow) :
    (table.verdict announced row).packageId = row.packageId := by
  unfold verdict
  split
  · rfl
  · unfold DownloadRow.decide
    split <;> rfl

theorem verdict_waits (table : DownloadTable) (announced : PackageId → Bool) (row : DownloadRow) :
    (table.verdict announced row).waits = row.waits := by
  unfold verdict
  split
  · rfl
  · next missing hawaiting =>
    have hstate := awaiting_verifying hawaiting
    unfold DownloadRow.decide
    split <;> simp [DownloadRow.waits, hstate]

/-- A row that waits keeps its package from settling. -/
theorem settled_of_waits (hmem : row ∈ table.rows) (hwaits : row.waits) :
    table.settled row.packageId = false := by
  have hstate : row.state = .queued ∨ row.state = .retryWait := by
    simpa [DownloadRow.waits] using hwaits
  have hawaiting : row.awaiting = none := by
    rcases hstate with h | h <;> simp [DownloadRow.awaiting, h]
  have hway : onTheWay row.state = true := by
    rcases hstate with h | h <;> simp [onTheWay, h]
  rw [settled, Bool.not_eq_false', List.any_eq_true]
  exact ⟨row, by simp [inPackage, hmem], by simp [hawaiting, hway]⟩

theorem settlePar2Verdicts_of_unsettled (h : table.settled package = false) :
    table.settlePar2Verdicts announced package = table := by
  rw [settlePar2Verdicts, if_neg (by simp [h])]

/-- The verdicts of several packages at once. -/
def settleAll (table : DownloadTable) (announced : PackageId → Bool)
    (packages : List PackageId) : DownloadTable :=
  table.updateAll
    (fun row => if row.packageId ∈ packages ∧ table.settled row.packageId then
      table.verdict announced row else row)
    fun row => by
      split
      · exact table.verdict_id announced row
      · rfl

theorem settleAll_rows (table : DownloadTable) (announced : PackageId → Bool)
    (packages : List PackageId) :
    (table.settleAll announced packages).rows = table.rows.map fun row =>
      if row.packageId ∈ packages ∧ table.settled row.packageId then
        table.verdict announced row else row := rfl

theorem settleAll_congr {packages packages' : List PackageId}
    (h : ∀ package, package ∈ packages ↔ package ∈ packages') :
    table.settleAll announced packages = table.settleAll announced packages' := by
  apply ext_rows
  apply List.map_congr_left
  intro row _
  simp only [h]

theorem settlePar2Verdicts_eq (table : DownloadTable) (package : PackageId) :
    table.settlePar2Verdicts announced package = table.settleAll announced [package] := by
  by_cases hsettled : table.settled package
  · apply ext_rows
    rw [settlePar2Verdicts, if_pos hsettled]
    apply List.map_congr_left
    intro row _
    by_cases hrow : row.packageId = package <;> simp [hrow, hsettled]
  · have hsettled : table.settled package = false := by simpa using hsettled
    rw [settlePar2Verdicts_of_unsettled hsettled]
    apply ext_rows
    refine (List.map_id'' (fun row => ?_) table.rows).symm
    by_cases hrow : row.packageId = package <;> simp [hrow, hsettled]

theorem settleAll_inPackage {packages : List PackageId} (hne : package ∉ packages) :
    (table.settleAll announced packages).inPackage package = table.inPackage package := by
  rw [inPackage, inPackage, settleAll_rows]
  generalize table.rows = rows
  induction rows with
  | nil => rfl
  | cons row rows ih =>
    rw [List.map_cons, List.filter_cons, List.filter_cons, ih]
    by_cases hrow : row.packageId = package
    · simp [hrow, hne]
    · split
      · simp [verdict_package, hrow]
      · simp [hrow]

theorem settled_congr {table' : DownloadTable}
    (h : table'.inPackage package = table.inPackage package) :
    table'.settled package = table.settled package := by
  rw [settled, settled, h]

theorem verdict_congr {table' : DownloadTable}
    (h : table'.inPackage row.packageId = table.inPackage row.packageId) :
    table'.verdict announced row = table.verdict announced row := by
  rw [verdict, verdict, h]

/-- One package more. -/
theorem settleAll_settleAll {packages : List PackageId} (hne : package ∉ packages) :
    (table.settleAll announced [package]).settleAll announced packages =
      table.settleAll announced (package :: packages) := by
  have hother : ∀ other, other ≠ package →
      (table.settleAll announced [package]).inPackage other = table.inPackage other :=
    fun other hne => settleAll_inPackage (by simpa using hne)
  apply ext_rows
  rw [settleAll_rows, settleAll_rows, settleAll_rows, List.map_map]
  apply List.map_congr_left
  intro row _
  dsimp only [Function.comp_apply]
  by_cases hrow : row.packageId = package
  · have hnot : row.packageId ∉ packages := hrow ▸ hne
    by_cases hsettled : table.settled package
    · simp [hrow, hsettled, verdict_package, hne]
    · simp [hrow, hsettled, hne]
  · have hsame := hother row.packageId hrow
    have hsettled := settled_congr hsame
    have hverdict : (table.settleAll announced [package]).verdict announced row =
        table.verdict announced row := verdict_congr hsame
    simp [hrow, hsettled, hverdict]

theorem foldl_settle (packages : List PackageId) (hnodup : packages.Nodup) (table : DownloadTable) :
    packages.foldl (fun table package => table.settlePar2Verdicts announced package) table =
      table.settleAll announced packages := by
  induction packages generalizing table with
  | nil =>
    apply ext_rows
    exact (List.map_id'' (fun row => by simp) table.rows).symm
  | cons package packages ih =>
    obtain ⟨hne, hnodup⟩ := List.nodup_cons.mp hnodup
    rw [List.foldl_cons, ih hnodup, settlePar2Verdicts_eq, settleAll_settleAll hne]

/-- The verdicts of a package and a write to another one. -/
theorem settle_update {f : DownloadRow → DownloadRow} (hf : ∀ row, (f row).id = row.id)
    (hpackage : ∀ row, (f row).packageId = row.packageId) (hrow : table.row? id = some row)
    (hne : row.packageId ≠ package) :
    (table.update id f hf).settleAll announced [package] =
      (table.settleAll announced [package]).update id f hf := by
  have hsame := inPackage_update hf hpackage hrow hne
  have hsettled := settled_congr hsame
  have hkeep : ∀ other ∈ table.rows, other.packageId = package → other.id ≠ id := by
    rintro other hmem rfl heq
    have hsame : some other = some row := (row?_of_mem hmem).symm.trans (heq ▸ hrow)
    exact hne (Option.some.inj hsame ▸ rfl)
  apply ext_rows
  rw [settleAll_rows, update_rows, List.map_map, update_rows, settleAll_rows, List.map_map]
  apply List.map_congr_left
  intro other hmem
  dsimp only [Function.comp_apply]
  by_cases hother : other.packageId = package
  · have hid := hkeep other hmem hother
    have hverdict : (table.update id f hf).verdict announced other =
        table.verdict announced other := verdict_congr (hother ▸ hsame)
    by_cases hsettles : table.settled package
    · simp [hid, hother, hsettled, hverdict, hsettles, verdict_id]
    · simp [hid, hother, hsettled, hsettles]
  · by_cases hid : other.id = id
    · simp [hid, hother, hpackage]
    · simp [hid, hother]

end DownloadTable
end RDownloader
