import RDownloader.Db.DownloadWrites

/-!
# Packages and the rows that belong to them (`rd-db/src/writer_jobs.rs`, `writer/download_rows.rs`)

Rows are created in a package and go again, and the package goes with the last of them. What
everybody else writes changes rows and never which package they are in.
-/

namespace RDownloader

/-! ## Writes that leave a row the same file -/

/-- What no write of a row changes. -/
structure DownloadRow.SameFile (row next : DownloadRow) : Prop where
  id : next.id = row.id
  packageId : next.packageId = row.packageId
  source : next.source = row.source
  mirrorGroup : next.mirrorGroup = row.mirrorGroup

theorem DownloadRow.SameFile.refl (row : DownloadRow) : row.SameFile row := ⟨rfl, rfl, rfl, rfl⟩

theorem DownloadRow.SameFile.trans {row next last : DownloadRow} (h : row.SameFile next)
    (hnext : next.SameFile last) : row.SameFile last :=
  ⟨hnext.id.trans h.id, hnext.packageId.trans h.packageId, hnext.source.trans h.source,
    hnext.mirrorGroup.trans h.mirrorGroup⟩

theorem DownloadRow.sameFile_decide (row : DownloadRow) (missing : Nat) (hasPar2 : Bool) :
    row.SameFile (row.decide missing hasPar2) := by
  cases hasPar2 <;> exact ⟨rfl, rfl, rfl, rfl⟩

theorem DownloadRow.decide_ne_queued (row : DownloadRow) (missing : Nat) (hasPar2 : Bool) :
    (row.decide missing hasPar2).state ≠ .queued := by
  cases hasPar2 <;> exact fun h => nomatch h

namespace DownloadTable

variable {table next last : DownloadTable} {id other : DownloadId}
  {announced : PackageId → Bool} {redact : String → String} {f : DownloadRow → DownloadRow}
  {queues : DownloadRow → Prop}

/-- `next` is `table` with rows rewritten, of which only those in `queues` are queued by it. -/
def Rewrites (queues : DownloadRow → Prop) (table next : DownloadTable) : Prop :=
  ∃ (g : DownloadRow → DownloadRow) (hg : ∀ row, (g row).id = row.id),
    next = table.updateAll g hg ∧
      ∀ row, row.SameFile (g row) ∧ ((g row).state = .queued → row.state = .queued ∨ queues row)

namespace Rewrites

theorem row?_of_row? (h : Rewrites queues table next) (hrow : table.row? other = some row) :
    ∃ new, next.row? other = some new ∧ row.SameFile new := by
  obtain ⟨g, hg, rfl, hrows⟩ := h
  refine ⟨g row, ?_, (hrows row).1⟩
  rw [row?_updateAll, hrow, Option.map_some]

/-- Every row comes from one the table had. -/
theorem origin (h : Rewrites queues table next) (hrow : next.row? other = some new) :
    ∃ row, table.row? other = some row ∧ row.SameFile new ∧
      (new.state = .queued → row.state = .queued ∨ queues row) := by
  obtain ⟨g, hg, rfl, hrows⟩ := h
  rw [row?_updateAll, Option.map_eq_some_iff] at hrow
  obtain ⟨row, hrow, rfl⟩ := hrow
  exact ⟨row, hrow, hrows row⟩

theorem origin_mem (h : Rewrites queues table next) (hmem : new ∈ next.rows) :
    ∃ row ∈ table.rows, row.SameFile new := by
  obtain ⟨row, hrow, hsame, -⟩ := h.origin (row?_of_mem hmem)
  exact ⟨row, mem_of_row? hrow, hsame⟩

end Rewrites

theorem verdict_eq (table : DownloadTable) (announced : PackageId → Bool) (row : DownloadRow) :
    table.verdict announced row = row ∨
      ∃ missing hasPar2, table.verdict announced row = row.decide missing hasPar2 := by
  rw [verdict]
  split
  · exact .inl rfl
  · exact .inr ⟨_, _, rfl⟩

theorem rewrites_verdict (table : DownloadTable) (announced : PackageId → Bool)
    (row : DownloadRow) :
    row.SameFile (table.verdict announced row) ∧
      ((table.verdict announced row).state = .queued → row.state = .queued) := by
  rcases table.verdict_eq announced row with heq | ⟨missing, hasPar2, heq⟩
  · rw [heq]
    exact ⟨.refl row, fun h => h⟩
  · rw [heq]
    exact ⟨row.sameFile_decide missing hasPar2,
      fun h => absurd h (row.decide_ne_queued missing hasPar2)⟩

theorem rewrites_settlePar2Verdicts (table : DownloadTable) (announced : PackageId → Bool)
    (package : PackageId) :
    Rewrites (fun _ => False) table (table.settlePar2Verdicts announced package) := by
  rw [settlePar2Verdicts]
  split
  · refine ⟨_, _, rfl, fun row => ?_⟩
    obtain ⟨hsame, hqueued⟩ := table.rewrites_verdict announced row
    split
    · exact ⟨hsame, fun h => .inl (hqueued h)⟩
    · exact ⟨.refl row, .inl⟩
  · refine ⟨fun row => row, fun _ => rfl, ext_rows ?_, fun row => ⟨.refl row, .inl⟩⟩
    exact (List.map_id' _).symm

theorem rewrites_update (table : DownloadTable) (id : DownloadId) :
    Rewrites (fun row => row.id = id) table
      (table.update id (fun row => { row with state := .queued }) fun _ => rfl) := by
  refine ⟨_, _, rfl, fun row => ?_⟩
  split
  · next hid => exact ⟨⟨rfl, rfl, rfl, rfl⟩, fun _ => .inr hid⟩
  · exact ⟨.refl row, .inl⟩

theorem Wrote.rewrites (h : Wrote announced table id f next)
    (hsame : ∀ row : DownloadRow, row.SameFile (f row)) :
    Rewrites (fun row => row.id = id ∧ (f row).state = .queued) table next := by
  obtain ⟨hf, package, rfl⟩ := h
  obtain ⟨g, hg, hnext, hrows⟩ :=
    (table.update id f hf).rewrites_settlePar2Verdicts announced package
  rw [hnext]
  refine ⟨fun row => g (if row.id = id then f row else row), fun row => ?_, ext_rows ?_,
    fun row => ?_⟩
  · rw [hg]
    split
    · exact hf row
    · rfl
  · rw [updateAll_rows, update_rows, updateAll_rows, List.map_map]
    rfl
  · by_cases hid : row.id = id
    · obtain ⟨hg, hqueued⟩ := hrows (f row)
      beta_reduce
      rw [if_pos hid]
      refine ⟨(hsame row).trans hg, fun h => .inr ⟨hid, ?_⟩⟩
      exact (hqueued h).resolve_right fun h => h
    · obtain ⟨hg, hqueued⟩ := hrows row
      beta_reduce
      rw [if_neg hid]
      exact ⟨hg, fun h => .inl ((hqueued h).resolve_right (fun h => h))⟩

end DownloadTable

/-- A write of a row by somebody else: the dispatcher, an attempt, a person. -/
inductive RowWrite where
  | transition (next : DownloadState) (reason : Option String)
  | recordFailure (failure : Failure) (retryAt : Option Nat)
  | complete
  | requeue (autoRetry : Bool)

theorem eq_ok_of_toOption {answer : Except ε α} (h : answer.toOption = some value) :
    answer = .ok value := by
  cases answer with
  | error => cases h
  | ok => exact congrArg Except.ok (Option.some.inj h)

namespace RowWrite

variable {table next : DownloadTable} {id : DownloadId} {announced : PackageId → Bool}
  {redact : String → String}

def apply (announced : PackageId → Bool) (redact : String → String) (table : DownloadTable)
    (id : DownloadId) : RowWrite → Option DownloadTable
  | transition next reason => (table.transitionWithReason announced id next reason).toOption
  | recordFailure failure retryAt =>
    (table.recordFailure announced redact id failure retryAt).toOption
  | complete => (table.completeDownload announced id).toOption
  | requeue autoRetry => table.requeueFailed announced id autoRetry

/-- What the write sets. -/
def columns (redact : String → String) : RowWrite → DownloadRow → DownloadRow
  | transition next reason => DownloadTable.setState next reason
  | recordFailure failure retryAt => setFailure (failure.redacted redact) retryAt
  | complete => setCompleted
  | requeue autoRetry => fun row =>
    { DownloadTable.requeue row with autoRetryRounds := row.autoRetryRounds + autoRetry.toNat }

/-- Whether the row is queued afterwards. -/
def queues : RowWrite → Bool
  | transition next _ => next = .queued
  | requeue _ => true
  | recordFailure .. | complete => false

theorem sameFile_columns (write : RowWrite) (row : DownloadRow) :
    row.SameFile (write.columns redact row) := by
  cases write <;> exact ⟨rfl, rfl, rfl, rfl⟩

theorem failureState_ne_queued (failure : Failure) (retryAt : Option Nat) :
    failureState failure retryAt ≠ .queued := by
  rw [failureState]
  split
  · exact fun h => nomatch h
  · split <;> exact fun h => nomatch h

theorem queues_of_columns (write : RowWrite) {row : DownloadRow}
    (h : (write.columns redact row).state = .queued) : write.queues = true := by
  cases write with
  | transition next reason => exact decide_eq_true h
  | recordFailure failure retryAt => exact absurd h (failureState_ne_queued _ retryAt)
  | complete => cases h
  | requeue autoRetry => rfl

theorem wrote (write : RowWrite) (h : write.apply announced redact table id = some next) :
    DownloadTable.Wrote announced table id (write.columns redact) next := by
  cases write with
  | transition state reason =>
    obtain ⟨-, -, -, hwrote⟩ := DownloadTable.wrote_of_transition (eq_ok_of_toOption h)
    exact hwrote
  | recordFailure failure retryAt =>
    exact DownloadTable.wrote_of_recordFailure (eq_ok_of_toOption h)
  | complete =>
    obtain ⟨-, -, -, hwrote⟩ :=
      DownloadTable.wrote_of_completeDownload (eq_ok_of_toOption h)
    exact hwrote
  | requeue autoRetry => exact DownloadTable.wrote_of_requeueFailed h

theorem rewrites (write : RowWrite) (h : write.apply announced redact table id = some next) :
    DownloadTable.Rewrites (fun row => row.id = id ∧ write.queues = true) table next := by
  obtain ⟨g, hg, hnext, hrows⟩ := (write.wrote h).rewrites write.sameFile_columns
  refine ⟨g, hg, hnext, fun row => ⟨(hrows row).1, fun hqueued => ?_⟩⟩
  rcases (hrows row).2 hqueued with h | ⟨hid, hset⟩
  · exact .inl h
  · exact .inr ⟨hid, write.queues_of_columns hset⟩

end RowWrite

/-! ## Rows come and go -/

namespace DownloadTable

variable {table : DownloadTable} {id other : DownloadId} {announced : PackageId → Bool}

/-- `DELETE FROM downloads WHERE id = ?`. -/
def remove (table : DownloadTable) (id : DownloadId) : DownloadTable where
  rows := table.rows.filter (·.id ≠ id)
  keyed := table.keyed.sublist (List.filter_sublist.map _)

/-- `INSERT INTO downloads`, for a key that is not taken. -/
def insert (table : DownloadTable) (row : DownloadRow) (hfresh : table.row? row.id = none) :
    DownloadTable where
  rows := table.rows ++ [row]
  keyed := by
    rw [List.map_append, List.nodup_append]
    refine ⟨table.keyed, List.nodup_singleton _, fun key hkey new hnew => ?_⟩
    obtain ⟨old, hold, rfl⟩ := List.mem_map.mp hkey
    obtain rfl := List.mem_singleton.mp hnew
    exact fun heq => by simp [row?_of_mem hold, ← heq] at hfresh

theorem row?_remove (table : DownloadTable) (id other : DownloadId) :
    (table.remove id).row? other = if other = id then none else table.row? other := by
  rw [row?, remove, List.find?_filter]
  split
  · next heq =>
    refine List.find?_eq_none.mpr fun row _ => ?_
    simp [heq]
  · next hne =>
    rw [row?]
    congr 1
    funext row
    by_cases hrow : row.id = other <;> simp [hrow, hne]

theorem row?_insert (table : DownloadTable) (row : DownloadRow)
    (hfresh : table.row? row.id = none) (other : DownloadId) :
    (table.insert row hfresh).row? other =
      if other = row.id then some row else table.row? other := by
  rw [row?, insert, List.find?_append, ← row?]
  split
  · next heq => rw [heq, hfresh, List.find?_singleton, if_pos (by simp), Option.none_or]
  · next hne =>
    rw [List.find?_singleton, if_neg (by simpa using Ne.symm hne), Option.or_none]

/-- The end of a package: `COALESCE(MAX(position), 0) + 1`. -/
def nextPosition (table : DownloadTable) (package : PackageId) : Int :=
  (((table.inPackage package).map (·.position)).max?).getD 0 + 1

end DownloadTable

/-! ## Packages -/

/-- The rows of `packages` and `downloads`, with the columns of the latter that a package is
enqueued by. -/
structure PackageRows (τ : Type u) where
  packages : List PackageId
  downloads : DownloadTable
  /-- The column `torrent_json`. -/
  torrentStates : DownloadId → Option τ
  updatedAt : DownloadId → Nat
  /-- The foreign key `downloads.package_id`. -/
  referenced : ∀ row ∈ downloads.rows, row.packageId ∈ packages

structure NewDownload where
  id : DownloadId
  packageId : PackageId
  source : String
  totalBytes : Option Nat
  accountId : Option Nat
  initialState : DownloadState
  mirrorGroup : Option String

namespace PackageRows

variable {τ : Type u}

/-- `create_package`. -/
def createPackage (store : PackageRows τ) (package : PackageId) : Option (PackageRows τ) :=
  if package ∈ store.packages then none
  else some { store with
    packages := store.packages ++ [package]
    referenced := fun row hmem => List.mem_append_left _ (store.referenced row hmem) }

/-- The row `create_download` writes. -/
def newRow (store : PackageRows τ) (new : NewDownload) (now : Nat) : DownloadRow where
  id := new.id
  packageId := new.packageId
  source := new.source
  state := new.initialState
  totalBytes := new.totalBytes
  accountId := new.accountId
  mirrorGroup := new.mirrorGroup
  position := store.downloads.nextPosition new.packageId
  createdAt := now

/-- `create_download`: a row needs a package to belong to and a key of its own. -/
def createDownload (store : PackageRows τ) (new : NewDownload) (now : Nat) :
    Option (PackageRows τ) :=
  if new.initialState ∉ [.queued, .paused, .skipped] then none
  else if h : store.downloads.row? new.id = none ∧ new.packageId ∈ store.packages then
    some {
      packages := store.packages
      downloads := store.downloads.insert (store.newRow new now) h.1
      torrentStates := fun id => if id = new.id then none else store.torrentStates id
      updatedAt := fun id => if id = new.id then now else store.updatedAt id
      referenced := fun row hmem => by
        rcases List.mem_append.mp hmem with hmem | hmem
        · exact store.referenced row hmem
        · obtain rfl := List.mem_singleton.mp hmem
          exact h.2 }
  else none

/-- `set_download_state` of `torrent_store.rs`. -/
def setTorrentState (store : PackageRows τ) (id : DownloadId) (state : τ) :
    Option (PackageRows τ) :=
  if (store.downloads.row? id).isSome then
    some { store with
      torrentStates := fun other => if other = id then some state else store.torrentStates other }
  else none

/-- What `store` is with its rows rewritten at `now`. -/
def rewrite (store : PackageRows τ) (id : DownloadId) (now : Nat) (next : DownloadTable)
    {queues : DownloadRow → Prop} (h : store.downloads.Rewrites queues next) :
    PackageRows τ :=
  { store with
    downloads := next
    updatedAt := fun other => if other = id then now else store.updatedAt other
    referenced := fun row hmem => by
      obtain ⟨old, hold, hsame⟩ := h.origin_mem hmem
      rw [hsame.packageId]
      exact store.referenced old hold }

/-- `join_queue`: only a row that is paused and untouched since it was written moves. -/
def joinQueue (store : PackageRows τ) (id : DownloadId) (createdAt now : Nat) : PackageRows τ :=
  if (store.downloads.row? id).any (·.state = .paused) ∧ store.updatedAt id = createdAt then
    store.rewrite id now
      (store.downloads.update id (fun row => { row with state := .queued }) fun _ => rfl)
      (DownloadTable.rewrites_update store.downloads id)
  else store

/-- What somebody else writes. -/
def write (store : PackageRows τ) (announced : PackageId → Bool) (redact : String → String)
    (id : DownloadId) (write : RowWrite) (now : Nat) : Option (PackageRows τ) :=
  match h : write.apply announced redact store.downloads id with
  | none => none
  | some next => some (store.rewrite id now next (write.rewrites h))

/-- `remove_package_if_empty`. -/
def removePackageIfEmpty (store : PackageRows τ) (package : PackageId) :
    Option (PackageRows τ) :=
  if h : package ∈ store.packages ∧ store.downloads.inPackage package = [] then
    some { store with
      packages := store.packages.filter (· ≠ package)
      referenced := fun row hmem => by
        refine List.mem_filter.mpr ⟨store.referenced row hmem, decide_eq_true fun heq => ?_⟩
        have hin : row ∈ store.downloads.inPackage package :=
          List.mem_filter.mpr ⟨hmem, decide_eq_true heq⟩
        rw [h.2] at hin
        cases hin }
  else none

/-- `DELETE FROM downloads WHERE id = ?`. -/
def removeRow (store : PackageRows τ) (id : DownloadId) : PackageRows τ :=
  { store with
    downloads := store.downloads.remove id
    referenced := fun row hmem => store.referenced row (List.mem_of_mem_filter hmem) }

/-- `settle_package_after_download`, as far as it concerns the rows. -/
def settle (store : PackageRows τ) (announced : PackageId → Bool) (package : PackageId) :
    PackageRows τ :=
  { store with
    downloads := store.downloads.settlePar2Verdicts announced package
    referenced := fun row hmem => by
      obtain ⟨old, hold, hsame⟩ :=
        (store.downloads.rewrites_settlePar2Verdicts announced package).origin_mem hmem
      rw [hsame.packageId]
      exact store.referenced old hold }

/-- `delete_download`: the package goes with its last file. -/
def deleteDownload (store : PackageRows τ) (announced : PackageId → Bool) (id : DownloadId) :
    Except Refusal (PackageRows τ) :=
  match store.downloads.row? id with
  | none => .error (.notFound "download not found")
  | some row =>
    if row.state.isWorking then
      .error (.wrongState "active download must be paused or cancelled before removal")
    else
      let left := store.removeRow id
      .ok ((left.removePackageIfEmpty row.packageId).getD (left.settle announced row.packageId))

/-- `delete_empty_package`: a package that still has files is left alone. -/
def deleteEmptyPackage (store : PackageRows τ) (package : PackageId) : PackageRows τ :=
  (store.removePackageIfEmpty package).getD store

/-! ## What the writes leave alone -/

variable {store next : PackageRows τ} {id other : DownloadId} {announced : PackageId → Bool}
  {redact : String → String} {package : PackageId} {queues : DownloadRow → Prop}

/-- The package has neither its row nor a file. -/
def Gone (store : PackageRows τ) (package : PackageId) : Prop :=
  package ∉ store.packages ∧ store.downloads.inPackage package = []

/-- `next` has no package and no row that `store` has not, and only rows in `queues` are queued. -/
structure Derives (queues : DownloadRow → Prop) (store next : PackageRows τ) : Prop where
  packages : ∀ package ∈ next.packages, package ∈ store.packages
  origin : ∀ {other new}, next.downloads.row? other = some new →
    ∃ row, store.downloads.row? other = some row ∧ row.SameFile new ∧
      (new.state = .queued → row.state = .queued ∨ queues row)
  torrentStates : next.torrentStates = store.torrentStates

/-- Every row but those in `gone` is still there, for the same file. -/
def Keeps (gone : DownloadId → Prop) (store next : PackageRows τ) : Prop :=
  ∀ {other row}, store.downloads.row? other = some row → ¬ gone other →
    ∃ new, next.downloads.row? other = some new ∧ row.SameFile new

theorem inPackage_eq_nil :
    store.downloads.inPackage package = [] ↔
      ∀ id row, store.downloads.row? id = some row → row.packageId ≠ package := by
  rw [DownloadTable.inPackage, List.filter_eq_nil_iff]
  constructor
  · intro h id row hrow heq
    exact h row (DownloadTable.mem_of_row? hrow) (decide_eq_true heq)
  · intro h row hmem heq
    exact h row.id row (DownloadTable.row?_of_mem hmem) (of_decide_eq_true heq)

/-- Without its row a package has no files. -/
theorem gone_of_not_mem (h : package ∉ store.packages) : store.Gone package := by
  refine ⟨h, inPackage_eq_nil.mpr ?_⟩
  rintro id row hrow rfl
  exact h (store.referenced row (DownloadTable.mem_of_row? hrow))

namespace Derives

theorem refl (store : PackageRows τ) : Derives queues store store where
  packages _ h := h
  origin hrow := ⟨_, hrow, .refl _, .inl⟩
  torrentStates := rfl

theorem trans {last : PackageRows τ} (h : Derives queues store next)
    (hnext : Derives (fun _ => False) next last) : Derives queues store last where
  packages package hmem := h.packages package (hnext.packages package hmem)
  origin hrow := by
    obtain ⟨new, hrow, hsame, hqueued⟩ := hnext.origin hrow
    obtain ⟨row, hrow, hold, hbefore⟩ := h.origin hrow
    exact ⟨row, hrow, hold.trans hsame, fun h => hbefore ((hqueued h).resolve_right fun h => h)⟩
  torrentStates := hnext.torrentStates.trans h.torrentStates

theorem gone (h : Derives queues store next) (hgone : store.Gone package) : next.Gone package :=
  gone_of_not_mem fun hmem => hgone.1 (h.packages package hmem)

end Derives

theorem rewrite_derives {now : Nat} {table : DownloadTable}
    (h : store.downloads.Rewrites queues table) :
    Derives queues store (store.rewrite id now table h) where
  packages _ h := h
  origin hrow := h.origin hrow
  torrentStates := rfl

theorem settle_derives (store : PackageRows τ) :
    Derives (fun _ => False) store (store.settle announced package) where
  packages _ h := h
  origin hrow := (store.downloads.rewrites_settlePar2Verdicts announced package).origin hrow
  torrentStates := rfl

theorem settle_keeps : Keeps (fun _ => False) store (store.settle announced package) := fun hrow _ =>
  (store.downloads.rewrites_settlePar2Verdicts announced package).row?_of_row? hrow

theorem removeRow_derives (store : PackageRows τ) (id : DownloadId) :
    Derives (fun _ => False) store (store.removeRow id) where
  packages _ h := h
  origin hrow := by
    rw [removeRow, DownloadTable.row?_remove] at hrow
    split at hrow
    · cases hrow
    · exact ⟨_, hrow, .refl _, .inl⟩
  torrentStates := rfl

theorem removePackageIfEmpty_derives (h : store.removePackageIfEmpty package = some next) :
    Derives (fun _ => False) store next ∧ next.downloads = store.downloads ∧
      next.Gone package := by
  rw [removePackageIfEmpty] at h
  split at h
  · next hempty =>
    cases h
    refine ⟨⟨fun _ hmem => List.mem_of_mem_filter hmem, fun hrow => ⟨_, hrow, .refl _, .inl⟩, rfl⟩,
      rfl, fun hmem => ?_, hempty.2⟩
    exact of_decide_eq_true (List.mem_filter.mp hmem).2 rfl
  · cases h

/-- Where it has no file left, the package is gone after the attempt to remove it. -/
theorem deleteEmptyPackage_derives :
    Derives (fun _ => False) store (store.deleteEmptyPackage package) ∧
      (store.downloads.inPackage package = [] →
        (store.deleteEmptyPackage package).Gone package) := by
  rw [deleteEmptyPackage]
  cases hremoved : store.removePackageIfEmpty package with
  | some next =>
    obtain ⟨hderives, -, hgone⟩ := removePackageIfEmpty_derives hremoved
    exact ⟨hderives, fun _ => hgone⟩
  | none =>
    refine ⟨.refl store, fun hempty => gone_of_not_mem fun hmem => ?_⟩
    rw [removePackageIfEmpty, dif_pos ⟨hmem, hempty⟩] at hremoved
    cases hremoved

theorem write_derives {now : Nat} {write : RowWrite}
    (h : store.write announced redact id write now = some next) :
    Derives (fun row => row.id = id ∧ write.queues = true) store next ∧
      Keeps (fun _ => False) store next := by
  rw [PackageRows.write] at h
  split at h
  · cases h
  · next table happly =>
    cases h
    exact ⟨rewrite_derives (write.rewrites happly),
      fun hrow _ => (write.rewrites happly).row?_of_row? hrow⟩

theorem joinQueue_derives {createdAt now : Nat} :
    Derives (fun row => row.id = id) store (store.joinQueue id createdAt now) ∧
      Keeps (fun _ => False) store (store.joinQueue id createdAt now) := by
  rw [joinQueue]
  split
  · exact ⟨rewrite_derives _,
      fun hrow _ => (DownloadTable.rewrites_update store.downloads id).row?_of_row? hrow⟩
  · exact ⟨.refl store, fun hrow _ => ⟨_, hrow, .refl _⟩⟩

theorem createDownload_row? {new : NewDownload} {now : Nat}
    (h : store.createDownload new now = some next) :
    store.downloads.row? new.id = none ∧ next.packages = store.packages ∧
      (∀ other, next.downloads.row? other =
        if other = new.id then some (store.newRow new now) else store.downloads.row? other) ∧
      ∀ other, next.torrentStates other =
        if other = new.id then none else store.torrentStates other := by
  rw [createDownload] at h
  split at h
  · cases h
  · split at h
    · next hnew =>
      cases h
      exact ⟨hnew.1, rfl, fun other => DownloadTable.row?_insert _ (store.newRow new now) hnew.1 other,
        fun _ => rfl⟩
    · cases h

theorem createPackage_downloads (h : store.createPackage package = some next) :
    next.downloads = store.downloads ∧ next.torrentStates = store.torrentStates := by
  rw [createPackage] at h
  split at h
  · cases h
  · cases h
    exact ⟨rfl, rfl⟩

theorem setTorrentState_row? {state : τ} (h : store.setTorrentState id state = some next) :
    next.downloads = store.downloads ∧ next.packages = store.packages ∧
      ∀ other, next.torrentStates other =
        if other = id then some state else store.torrentStates other := by
  rw [setTorrentState] at h
  split at h
  · cases h
    exact ⟨rfl, rfl, fun _ => rfl⟩
  · cases h

/-- A row that is there is kept for a worker only. -/
theorem deleteDownload_refused {refusal : Refusal}
    (h : store.deleteDownload announced id = .error refusal) {row : DownloadRow}
    (hrow : store.downloads.row? id = some row) : row.state.isWorking := by
  rw [deleteDownload, hrow] at h
  dsimp only at h
  split at h
  · assumption
  · cases h

/-- What a removal does: the row goes, the package only with its last file. -/
theorem deleteDownload_derives (h : store.deleteDownload announced id = .ok next) :
    (∃ row, store.downloads.row? id = some row ∧
        (next.downloads.inPackage row.packageId = [] → next.Gone row.packageId)) ∧
      Derives (fun _ => False) store next ∧ next.downloads.row? id = none ∧
      Keeps (· = id) store next := by
  rw [deleteDownload] at h
  split at h
  · cases h
  · next row hrow =>
    split at h
    · cases h
    · cases h
      have hremoved := removeRow_derives store id
      have hnone : (store.removeRow id).downloads.row? id = none := by
        rw [removeRow, DownloadTable.row?_remove, if_pos rfl]
      have hkeeps : Keeps (· = id) store (store.removeRow id) := fun hrow hne => by
        refine ⟨_, ?_, .refl _⟩
        rw [removeRow, DownloadTable.row?_remove, if_neg hne]
        exact hrow
      cases hlast : (store.removeRow id).removePackageIfEmpty row.packageId with
      | some last =>
        obtain ⟨hderives, hrows, hgone⟩ := removePackageIfEmpty_derives hlast
        refine ⟨⟨row, hrow, fun _ => hgone⟩, hremoved.trans hderives, ?_, fun hother hne => ?_⟩
        · exact hrows ▸ hnone
        · exact hrows ▸ hkeeps hother hne
      | none =>
        have hsettled := @settle_derives _ announced row.packageId
          (store.removeRow id)
        refine ⟨⟨row, hrow, fun hempty => ?_⟩, hremoved.trans hsettled, ?_, fun hother hne => ?_⟩
        · refine gone_of_not_mem fun hmem => ?_
          have hleft : (store.removeRow id).downloads.inPackage row.packageId = [] := by
            refine inPackage_eq_nil.mpr fun other old hother heq => ?_
            obtain ⟨new, hnew, hsame⟩ := settle_keeps hother fun h => h
            exact inPackage_eq_nil.mp hempty other new hnew (hsame.packageId.trans heq)
          rw [removePackageIfEmpty, dif_pos ⟨hmem, hleft⟩] at hlast
          cases hlast
        · refine Option.eq_none_iff_forall_not_mem.mpr fun new hnew => ?_
          obtain ⟨old, hold, -⟩ := hsettled.origin hnew
          exact nomatch hnone.symm.trans hold
        · obtain ⟨old, hold, hsame⟩ := hkeeps hother hne
          obtain ⟨new, hnew, hlater⟩ := settle_keeps hold fun h => h
          exact ⟨new, hnew, hsame.trans hlater⟩

end PackageRows
end RDownloader
