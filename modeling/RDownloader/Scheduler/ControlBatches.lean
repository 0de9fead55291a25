import RDownloader.Db.DownloadBatches
import RDownloader.Scheduler.Control

/-!
# Batches of control operations and single ones

A batch of pauses is the pauses one after another. A batch of resumes takes the waiting mirrors last.
-/

namespace RDownloader
namespace DownloadTable

variable {table : DownloadTable} {id : DownloadId} {announced : PackageId → Bool}

theorem nodup_eraseDups (packages : List PackageId) : packages.eraseDups.Nodup := by
  match packages with
  | [] => exact List.nodup_nil
  | package :: packages =>
    rw [List.eraseDups_cons]
    refine List.nodup_cons.mpr ⟨fun hmem => ?_, nodup_eraseDups _⟩
    simp [List.mem_eraseDups] at hmem
termination_by packages.length
decreasing_by
  exact Nat.lt_succ_of_le (List.length_filter_le ..)

theorem moveDownloads_eq (table : DownloadTable) (change : Move) (ids : List DownloadId) :
    table.moveDownloads announced change ids =
      ((table.moveRows change ids).1,
        (table.moveRows change ids).2.2.settleAll announced (table.moveRows change ids).2.1) := by
  rw [moveDownloads]
  rcases table.moveRows change ids with ⟨answers, packages, last⟩
  dsimp only
  rw [foldl_settle _ (nodup_eraseDups packages)]
  exact congrArg _ (settleAll_congr fun package => List.mem_eraseDups)

/-! ## Pauses -/

theorem waits_paused (row : DownloadRow) (reason : Option String) :
    (setState .paused reason row).waits = false := rfl

theorem moveRow_pause_of_waits (hrow : table.row? id = some row) (hwaits : row.waits) :
    table.moveRow .pause id = (.ok true, table.update id (setState .paused none) fun _ => rfl) := by
  have hstate : row.state = .queued ∨ row.state = .retryWait := by
    simpa [DownloadRow.waits] using hwaits
  rw [moveRow, hrow]
  rcases hstate with h | h <;> simp [hwaits, Move.next, h, DownloadState.canTransitionTo]

theorem moveRow_pause_of_not_waits (hrow : table.row? id = some row) (hwaits : ¬ row.waits) :
    table.moveRow .pause id = (.ok false, table) := by
  rw [moveRow, hrow]
  simp [hwaits]

theorem pause_of_waits (hrow : table.row? id = some row) (hwaits : row.waits) :
    table.pause announced id = (.ok (), (table.update id (setState .paused none)
      fun _ => rfl).settleAll announced [row.packageId]) := by
  have hstate : row.state = .queued ∨ row.state = .retryWait := by
    simpa [DownloadRow.waits] using hwaits
  have hmove : row.state.canTransitionTo .paused := by
    rcases hstate with h | h <;> rw [h] <;> rfl
  rw [pause, hrow]
  dsimp only
  rw [if_pos hwaits, transition, transitionWithReason, hrow]
  dsimp only
  rw [if_pos hmove, settlePar2Verdicts_eq]

theorem pause_of_not_waits (hrow : table.row? id = some row) (hwaits : ¬ row.waits) :
    table.pause announced id = (.ok (), table) := by
  rw [pause, hrow]
  exact if_neg hwaits

/-- One pause for each file in turn. -/
def pauseEach (announced : PackageId → Bool) (table : DownloadTable) :
    List DownloadId → List (Except Refusal Unit) × DownloadTable
  | [] => ([], table)
  | id :: ids =>
    let (answer, next) := table.pause announced id
    let (answers, last) := pauseEach announced next ids
    (answer :: answers, last)

theorem row?_settleAll (table : DownloadTable) (packages : List PackageId) (id : DownloadId) :
    (table.settleAll announced packages).row? id = (table.row? id).map fun row =>
      if row.packageId ∈ packages ∧ table.settled row.packageId then
        table.verdict announced row else row :=
  row?_updateAll _ table id

theorem moveRows_unmoved (h : table.moveRow change id = (answer, table))
    (hanswer : answer ≠ .ok true) (ids : List DownloadId) :
    table.moveRows change (id :: ids) =
      (answer :: (table.moveRows change ids).1, (table.moveRows change ids).2) := by
  rw [moveRows, h]
  match answer with
  | .ok true => exact absurd rfl hanswer
  | .ok false => rfl
  | .error _ => rfl

theorem moveRows_moved {next : DownloadTable} (hrow : table.row? id = some row)
    (h : table.moveRow change id = (.ok true, next)) (ids : List DownloadId) :
    table.moveRows change (id :: ids) =
      (.ok true :: (next.moveRows change ids).1,
        row.packageId :: (next.moveRows change ids).2.1, (next.moveRows change ids).2.2) := by
  rw [moveRows, h, hrow]
  rfl

theorem moveRow_of_none (hrow : table.row? id = none) (change : Move) :
    table.moveRow change id = (.error (.notFound "download not found"), table) := by
  rw [moveRow, hrow]

/-- A package a batch of pauses moves a row of has a row that waits. -/
theorem waits_of_moved {ids : List DownloadId}
    (h : package ∈ (table.moveRows .pause ids).2.1) :
    ∃ row ∈ table.rows, row.packageId = package ∧ row.waits := by
  induction ids generalizing table with
  | nil => cases h
  | cons id ids ih =>
    cases hrow : table.row? id with
    | none =>
      rw [moveRows_unmoved (moveRow_of_none hrow .pause) nofun] at h
      exact ih h
    | some row =>
      by_cases hwaits : row.waits
      · rw [moveRows_moved hrow (moveRow_pause_of_waits hrow hwaits)] at h
        rcases List.mem_cons.mp h with rfl | h
        · exact ⟨row, mem_of_row? hrow, rfl, hwaits⟩
        · obtain ⟨other, hmem, rfl, hother⟩ := ih h
          obtain ⟨before, hbefore, rfl⟩ := List.mem_map.mp hmem
          by_cases hid : before.id = id
          · rw [if_pos hid] at hother
            cases hother
          · rw [if_neg hid] at hother ⊢
            exact ⟨before, hbefore, rfl, hother⟩
      · rw [moveRows_unmoved (moveRow_pause_of_not_waits hrow hwaits) nofun] at h
        exact ih h

/-- A batch of pauses after the verdicts of a package: it moves the same rows, and where none of
them is in that package the verdicts may come last. -/
theorem moveRows_settleAll (table : DownloadTable) (package : PackageId) (ids : List DownloadId) :
    ((table.settleAll announced [package]).moveRows .pause ids).1 =
      (table.moveRows .pause ids).1 ∧
    ((table.settleAll announced [package]).moveRows .pause ids).2.1 =
      (table.moveRows .pause ids).2.1 ∧
    (package ∉ (table.moveRows .pause ids).2.1 →
      ((table.settleAll announced [package]).moveRows .pause ids).2.2 =
        (table.moveRows .pause ids).2.2.settleAll announced [package]) := by
  induction ids generalizing table with
  | nil => exact ⟨rfl, rfl, fun _ => rfl⟩
  | cons id ids ih =>
    have hsettled := @row?_settleAll announced table [package] id
    cases hrow : table.row? id with
    | none =>
      rw [hrow, Option.map_none] at hsettled
      rw [moveRows_unmoved (moveRow_of_none hrow .pause) nofun,
        moveRows_unmoved (moveRow_of_none hsettled .pause) nofun]
      obtain ⟨hanswers, hpackages, hlast⟩ := ih table
      exact ⟨congrArg (List.cons _) hanswers, hpackages, hlast⟩
    | some row =>
      rw [hrow, Option.map_some] at hsettled
      by_cases hwaits : row.waits
      · by_cases hpackage : row.packageId = package
        · have hunsettled : table.settled package = false :=
            hpackage ▸ settled_of_waits (mem_of_row? hrow) hwaits
          rw [← settlePar2Verdicts_eq, settlePar2Verdicts_of_unsettled hunsettled]
          refine ⟨rfl, rfl, fun hnone => absurd ?_ hnone⟩
          rw [moveRows_moved hrow (moveRow_pause_of_waits hrow hwaits), ← hpackage]
          exact List.mem_cons_self ..
        · rw [if_neg (by simp [hpackage])] at hsettled
          obtain ⟨hanswers, hpackages, hlast⟩ :=
            ih (table.update id (setState .paused none) fun _ => rfl)
          rw [settle_update (f := setState .paused none) (fun _ => rfl) (fun _ => rfl) hrow hpackage]
            at hanswers hpackages hlast
          rw [moveRows_moved hrow (moveRow_pause_of_waits hrow hwaits),
            moveRows_moved hsettled (moveRow_pause_of_waits hsettled hwaits)]
          refine ⟨congrArg (List.cons _) hanswers, congrArg (List.cons _) hpackages, fun hnone => hlast fun hmem => ?_⟩
          exact hnone (List.mem_cons_of_mem _ hmem)
      · have hsettledWaits : ¬ (if row.packageId ∈ [package] ∧ table.settled row.packageId then
            table.verdict announced row else row).waits := by
          split
          · rw [verdict_waits]
            exact hwaits
          · exact hwaits
        rw [moveRows_unmoved (moveRow_pause_of_not_waits hrow hwaits) nofun,
          moveRows_unmoved (moveRow_pause_of_not_waits hsettled hsettledWaits) nofun]
        obtain ⟨hanswers, hpackages, hlast⟩ := ih table
        exact ⟨congrArg (List.cons _) hanswers, hpackages, hlast⟩

/-- Pausing files one after another, each with its package's verdicts, is pausing them in one
batch. -/
theorem pauseEach_eq (table : DownloadTable) (ids : List DownloadId) :
    table.pauseEach announced ids =
      ((table.moveDownloads announced .pause ids).1.map (·.map fun _ => ()),
        (table.moveDownloads announced .pause ids).2) := by
  rw [moveDownloads_eq]
  induction ids generalizing table with
  | nil =>
    refine Prod.ext rfl (ext_rows ?_)
    exact (List.map_id'' (fun row => if_neg fun h => List.not_mem_nil h.1) table.rows).symm
  | cons id ids ih =>
    rw [pauseEach]
    cases hrow : table.row? id with
    | none =>
      have hpause : table.pause announced id = (.error (.notFound "download not found"), table) := by
        rw [pause, hrow]
      rw [moveRows_unmoved (moveRow_of_none hrow .pause) nofun, hpause]
      dsimp only
      rw [ih]
      rfl
    | some row =>
      by_cases hwaits : row.waits
      · rw [moveRows_moved hrow (moveRow_pause_of_waits hrow hwaits), pause_of_waits hrow hwaits]
        generalize hpaused : table.update id (setState .paused none) (fun _ => rfl) = paused
        dsimp only
        rw [ih]
        obtain ⟨hanswers, hpackages, hlast⟩ :=
          @moveRows_settleAll announced paused row.packageId ids
        refine Prod.ext ?_ ?_
        · rw [hanswers]
          rfl
        · dsimp only
          rw [hpackages]
          by_cases hmem : row.packageId ∈ (paused.moveRows .pause ids).2.1
          · -- a row of the package still waits, so that its verdicts are not due yet
            obtain ⟨other, hother, hpackage, hotherWaits⟩ := waits_of_moved hmem
            have hunsettled : paused.settled row.packageId = false :=
              hpackage ▸ settled_of_waits hother hotherWaits
            rw [← settlePar2Verdicts_eq, settlePar2Verdicts_of_unsettled hunsettled]
            refine settleAll_congr fun package => ?_
            rw [List.mem_cons, or_iff_right_of_imp]
            rintro rfl
            exact hmem
          · rw [hlast hmem, settleAll_settleAll hmem]
      · rw [moveRows_unmoved (moveRow_pause_of_not_waits hrow hwaits) nofun,
          pause_of_not_waits hrow hwaits]
        dsimp only
        rw [ih]
        rfl

/-! ## Resumes -/

theorem settlePar2Verdicts_of_queued (hmem : row ∈ table.rows) (hqueued : row.state = .queued) :
    table.settlePar2Verdicts announced row.packageId = table :=
  settlePar2Verdicts_of_unsettled (settled_of_waits hmem (by simp [DownloadRow.waits, hqueued]))

/-- A write that queues a row leaves no verdict due in its package. -/
theorem settle_update_queued {f : DownloadRow → DownloadRow} (hf : ∀ row, (f row).id = row.id)
    (hqueued : (f row).state = .queued) (hpackage : (f row).packageId = row.packageId)
    (hrow : table.row? id = some row) :
    (table.update id f hf).settlePar2Verdicts announced row.packageId = table.update id f hf := by
  have hmem : f row ∈ (table.update id f hf).rows :=
    List.mem_map.mpr ⟨row, mem_of_row? hrow, if_pos (row?_id hrow)⟩
  rw [← hpackage]
  exact settlePar2Verdicts_of_queued hmem hqueued

/-- Whether the file is a mirror standing by. -/
def standsBy (table : DownloadTable) (id : DownloadId) : Bool :=
  (table.row? id).any (·.standsBy)

theorem standDownSiblingsOf_of_not_standsBy (h : table.standsBy id = false) :
    table.standDownSiblingsOf announced id = (.ok (), table) := by
  rw [standDownSiblingsOf]
  cases hrow : table.row? id with
  | none => rfl
  | some row =>
    dsimp only
    rw [if_pos]
    rw [standsBy, hrow] at h
    by_cases hgroup : row.mirrorGroup.isNone
    · exact .inl hgroup
    · right
      rintro hskipped
      simp [DownloadRow.standsBy, hskipped, hgroup] at h

theorem moveRow_of_standsBy (h : table.standsBy id) :
    table.moveRow .resume id = (.ok false, table) := by
  cases hrow : table.row? id with
  | none => rw [standsBy, hrow] at h; cases h
  | some row =>
    rw [standsBy, hrow] at h
    have h : row.standsBy := h
    rw [moveRow, hrow]
    simp [h]

/-- Of a file that is no waiting mirror, the single resume is the batch's move. -/
theorem resume_of_not_standsBy (h : table.standsBy id = false) :
    table.resume announced id =
      ((table.moveRow .resume id).1.map fun _ => (), (table.moveRow .resume id).2) ∧
    (table.moveRow .resume id).1 ≠ .ok false := by
  rw [resume, standDownSiblingsOf_of_not_standsBy h]
  cases hrow : table.row? id with
  | none =>
    rw [moveRow_of_none hrow]
    refine ⟨?_, by rintro ⟨⟩⟩
    simp [hrow, transition, transitionWithReason, Except.map]
  | some row =>
    have hstands : row.standsBy = false := by simpa [standsBy, hrow] using h
    by_cases hfailed : row.state = .failed
    · have hmove : table.moveRow .resume id = (.ok true, table.update id requeue fun _ => rfl) := by
        rw [moveRow, hrow]
        simp [hstands, hfailed]
      have hretry : table.retryFailed announced id =
          some (table.update id requeue fun _ => rfl) := by
        rw [retryFailed, requeueFailed, hrow]
        dsimp only
        rw [if_pos hfailed]
        exact congrArg some (settle_update_queued (f := requeue) _ rfl rfl hrow)
      refine ⟨?_, by rw [hmove]; rintro ⟨⟩⟩
      simp [hrow, hfailed, hretry, hmove, Except.map]
    · have htransition : table.transition announced id .queued =
          if row.state.canTransitionTo .queued then
            .ok (table.update id (setState .queued none) fun _ => rfl)
          else .error (.wrongState
            ("invalid download transition " ++ row.state.text ++ " -> " ++
              DownloadState.queued.text)) := by
        rw [transition, transitionWithReason, hrow]
        dsimp only
        split
        · exact congrArg Except.ok
            (settle_update_queued (f := setState .queued none) _ rfl rfl hrow)
        · rfl
      by_cases hmove : row.state.canTransitionTo .queued
      · have hbatch : table.moveRow .resume id =
            (.ok true, table.update id (setState .queued none) fun _ => rfl) := by
          rw [moveRow, hrow]
          simp [hstands, hfailed, Move.next, hmove]
        refine ⟨?_, by rw [hbatch]; rintro ⟨⟩⟩
        simp [hrow, hfailed, htransition, hmove, hbatch, Except.map]
      · have hbatch : table.moveRow .resume id = (.error (.wrongState
            ("invalid download transition " ++ row.state.text ++ " -> " ++
              DownloadState.queued.text)), table) := by
          rw [moveRow, hrow]
          simp [hstands, hfailed, Move.next, hmove]
        refine ⟨?_, by rw [hbatch]; rintro ⟨⟩⟩
        simp [hrow, hfailed, htransition, hmove, hbatch, Except.map]

/-- A batch of resumes leaves a row alone or queues it. -/
theorem moveRow_resume_cases (table : DownloadTable) (id : DownloadId) :
    ((∃ answer, table.moveRow .resume id = (answer, table) ∧ answer ≠ .ok true) ∨
    ∃ row, table.row? id = some row ∧ row.standsBy = false ∧
      ∃ (f : DownloadRow → DownloadRow) (hf : ∀ row, (f row).id = row.id),
        (∀ row, (f row).state = .queued ∧ (f row).packageId = row.packageId) ∧
        table.moveRow .resume id = (.ok true, table.update id f hf)) := by
  cases hrow : table.row? id with
  | none => exact .inl ⟨_, moveRow_of_none hrow .resume, by rintro ⟨⟩⟩
  | some row =>
    by_cases hstands : row.standsBy
    · exact .inl ⟨_, moveRow_of_standsBy (by rw [standsBy, hrow]; exact hstands), by rintro ⟨⟩⟩
    · have hstands : row.standsBy = false := by simpa using hstands
      by_cases hfailed : row.state = .failed
      · refine .inr ⟨row, rfl, hstands, requeue, fun _ => rfl, fun _ => ⟨rfl, rfl⟩, ?_⟩
        rw [moveRow, hrow]
        simp [hstands, hfailed]
      · by_cases hmove : row.state.canTransitionTo .queued
        · refine .inr ⟨row, rfl, hstands, setState .queued none, fun _ => rfl,
            fun _ => ⟨rfl, rfl⟩, ?_⟩
          rw [moveRow, hrow]
          simp [hstands, hfailed, Move.next, hmove]
        · refine .inl ⟨.error (.wrongState ("invalid download transition " ++ row.state.text ++
            " -> " ++ DownloadState.queued.text)), ?_, by rintro ⟨⟩⟩
          rw [moveRow, hrow]
          simp [hstands, hfailed, Move.next, hmove]

theorem standsBy_moveRow (table : DownloadTable) (id other : DownloadId) :
    (table.moveRow .resume id).2.standsBy other = table.standsBy other := by
  obtain ⟨answer, hmove, _⟩ | ⟨row, hrow, hstands, f, hf, hqueued, hmove⟩ :=
    table.moveRow_resume_cases id
  · rw [hmove]
  · -- the row that moves was not standing by, and does not stand by afterwards
    rw [hmove, standsBy, row?_update, standsBy]
    cases hother : table.row? other with
    | none => rfl
    | some row' =>
      rw [Option.map_some, Option.any_some, Option.any_some]
      split
      · next hid =>
        have hsame : other = id := (row?_id hother).symm.trans hid
        rw [hsame, hrow] at hother
        rw [← Option.some.inj hother, hstands]
        simp [DownloadRow.standsBy, hqueued]
      · rfl

/-- A queued row stays queued through a batch of resumes. -/
theorem queued_moveRows (hqueued : ∃ row ∈ table.rows, row.packageId = package ∧ row.state = .queued)
    (ids : List DownloadId) :
    ∃ row ∈ (table.moveRows .resume ids).2.2.rows,
      row.packageId = package ∧ row.state = .queued := by
  induction ids generalizing table with
  | nil => exact hqueued
  | cons id ids ih =>
    refine @ih (table.moveRow .resume id).2 ?_
    obtain ⟨answer, hmove, _⟩ | ⟨row, hrow, _, f, hf, hf_queued, hmove⟩ :=
      table.moveRow_resume_cases id
    · rw [hmove]
      exact hqueued
    · rw [hmove]
      obtain ⟨before, hmem, hpackage, hstate⟩ := hqueued
      refine ⟨_, List.mem_map_of_mem hmem, ?_⟩
      split
      · exact ⟨(hf_queued before).2.trans hpackage, (hf_queued before).1⟩
      · exact ⟨hpackage, hstate⟩

/-- Every package a batch of resumes moves a row of ends with a queued row. -/
theorem queued_of_moved {ids : List DownloadId} (h : package ∈ (table.moveRows .resume ids).2.1) :
    ∃ row ∈ (table.moveRows .resume ids).2.2.rows,
      row.packageId = package ∧ row.state = .queued := by
  induction ids generalizing table with
  | nil => cases h
  | cons id ids ih =>
    obtain ⟨answer, hmove, hanswer⟩ | ⟨row, hrow, _, f, hf, hqueued, hmove⟩ :=
      table.moveRow_resume_cases id
    · rw [moveRows_unmoved hmove hanswer] at h ⊢
      exact ih h
    · rw [moveRows_moved hrow hmove] at h ⊢
      rcases List.mem_cons.mp h with rfl | h
      · refine queued_moveRows ⟨_, List.mem_map_of_mem (mem_of_row? hrow), ?_⟩ ids
        rw [if_pos (row?_id hrow)]
        exact ⟨(hqueued row).2, (hqueued row).1⟩
      · exact ih h

/-- A batch of resumes leaves no verdict due in the packages it has moved rows of. -/
theorem moveDownloads_resume (table : DownloadTable) (ids : List DownloadId) :
    table.moveDownloads announced .resume ids =
      ((table.moveRows .resume ids).1, (table.moveRows .resume ids).2.2) := by
  rw [moveDownloads_eq]
  refine Prod.ext rfl (ext_rows ?_)
  refine List.map_id'' (fun row => if_neg ?_) _
  rintro ⟨hmoved, hsettled⟩
  obtain ⟨other, hmem, hpackage, hqueued⟩ := queued_of_moved hmoved
  have hunsettled := settled_of_waits hmem (by simp [DownloadRow.waits, hqueued])
  rw [hpackage, hsettled] at hunsettled
  cases hunsettled

/-- One resume for each file in turn. A held file is refused. -/
def resumeEach (announced : PackageId → Bool) (held : DownloadId → Bool) (table : DownloadTable) :
    List DownloadId → List (Except Refusal Unit) × DownloadTable
  | [] => ([], table)
  | id :: ids =>
    let (answer, next) := if held id then (.error beingReset, table) else table.resume announced id
    let (answers, last) := resumeEach announced held next ids
    (answer :: answers, last)

/-- The rows of `answerBatch`. -/
def answerEach (announced : PackageId → Bool) (table : DownloadTable) :
    List DownloadId → List (Except Refusal Bool) → List (Except Refusal Unit) × DownloadTable
  | id :: ids, answer :: answers =>
    let (outcome, next) : Written := match answer with
      | .ok true => (.ok (), table)
      | .ok false => table.resume announced id
      | .error refusal => (.error refusal, table)
    let (outcomes, last) := answerEach announced next ids answers
    (outcome :: outcomes, last)
  | _, _ => ([], table)

end DownloadTable

/-- Answers in the order of the files: those of the waiting ones from `last`, the others from
`first`. -/
def weave {α : Type u} (waiting : DownloadId → Bool) : List DownloadId → List α → List α → List α
  | [], _, _ => []
  | id :: ids, first, last =>
    if waiting id then
      match last with
      | [] => []
      | answer :: last => answer :: weave waiting ids first last
    else
      match first with
      | [] => []
      | answer :: first => answer :: weave waiting ids first last

namespace DownloadTable

variable {table : DownloadTable} {announced : PackageId → Bool}

/-- The rows of a batch of resumes are those of the single ones of the files that do not wait, and
its answers leave the waiting mirrors to their own resume. -/
theorem moveRows_resume (held waits : DownloadId → Bool) (ids : List DownloadId)
    (table deferred : DownloadTable) (hwaits : ∀ id, table.standsBy id = waits id) :
    let waiting := fun id => !held id && waits id
    let batch := table.moveRows .resume (ids.filter fun id => !held id)
    let ready := table.resumeEach announced held (ids.filter fun id => !waiting id)
    let last := deferred.resumeEach announced held (ids.filter waiting)
    let outcomes := deferred.answerEach announced (ids.filter fun id => !held id) batch.1
    batch.2.2 = ready.2 ∧ outcomes.2 = last.2 ∧
    Scheduler.place (fun id => if held id then some (.error beingReset) else none) ids outcomes.1 =
      weave waiting ids ready.1 last.1 := by
  induction ids generalizing table deferred with
  | nil => exact ⟨rfl, rfl, rfl⟩
  | cons id ids ih =>
    intro waiting batch ready last outcomes
    by_cases hheld : held id
    · obtain ⟨hrows, hlast, houtcomes⟩ := ih table deferred hwaits
      have hwaiting : waiting id = false := by simp [waiting, hheld]
      simp only [batch, ready, last, outcomes, List.filter_cons, hheld, hwaiting, Bool.not_true,
        Bool.not_false, Bool.false_eq_true, if_false, if_true, resumeEach, Scheduler.place, weave]
      exact ⟨hrows, hlast, congrArg (List.cons _) houtcomes⟩
    · have hheld : held id = false := by simpa using hheld
      cases hstands : waits id with
      | true =>
        have hwaiting : waiting id = true := by simp [waiting, hheld, hstands]
        have hmove := moveRow_of_standsBy ((hwaits id).trans hstands)
        obtain ⟨hrows, hlast, houtcomes⟩ := ih table (deferred.resume announced id).2 hwaits
        simp only [batch, ready, last, outcomes, List.filter_cons, hheld, hwaiting, Bool.not_false,
          Bool.false_eq_true, if_false, if_true, resumeEach, Scheduler.place, weave]
        rw [moveRows_unmoved hmove nofun]
        exact ⟨hrows, hlast, congrArg (List.cons _) houtcomes⟩
      | false =>
        have hwaiting : waiting id = false := by simp [waiting, hstands]
        obtain ⟨hresume, hanswer⟩ := @resume_of_not_standsBy table id announced
          ((hwaits id).trans hstands)
        obtain ⟨hrows, hlast, houtcomes⟩ := ih (table.moveRow .resume id).2 deferred
          fun other => (table.standsBy_moveRow id other).trans (hwaits other)
        have hbatch : table.moveRows .resume (id :: ids.filter fun id => !held id) =
            ((table.moveRow .resume id).1 ::
              ((table.moveRow .resume id).2.moveRows .resume (ids.filter fun id => !held id)).1,
              (table.moveRows .resume (id :: ids.filter fun id => !held id)).2.1,
              ((table.moveRow .resume id).2.moveRows .resume (ids.filter fun id => !held id)).2.2) :=
          rfl
        simp only [batch, ready, last, outcomes, List.filter_cons, hheld, hwaiting, Bool.not_false,
          Bool.false_eq_true, if_false, if_true, resumeEach, Scheduler.place, weave]
        rw [hbatch, hresume]
        refine ⟨hrows, ?_, ?_⟩
        · cases hcase : (table.moveRow .resume id).1 with
          | ok moved =>
            cases moved with
            | true => exact hlast
            | false => exact absurd hcase hanswer
          | error => exact hlast
        · cases hcase : (table.moveRow .resume id).1 with
          | ok moved =>
            cases moved with
            | true => exact congrArg (List.cons _) houtcomes
            | false => exact absurd hcase hanswer
          | error => exact congrArg (List.cons _) houtcomes

end DownloadTable

/-! ## Tokens and reasons -/

namespace ActiveState

/-- The reasons of idle files are gone. -/
def releaseAll (active : ActiveState) (ids : List DownloadId) : ActiveState :=
  { active with
    reasons := fun other =>
      if other ∈ ids ∧ (active.tokens other).isNone then none else active.reasons other }

theorem releaseAll_nil (active : ActiveState) : active.releaseAll [] = active := by
  simp [releaseAll]

theorem releaseAll_cons (active : ActiveState) (id : DownloadId) (ids : List DownloadId) :
    (active.releaseStopGuard id).releaseAll ids = active.releaseAll (id :: ids) := by
  rw [releaseAll, releaseAll, releaseStopGuard]
  congr 1
  funext other
  by_cases hid : other = id
  · subst hid
    by_cases hidle : (active.tokens other).isNone <;> simp [hidle]
  · simp [hid]

theorem foldl_release (active : ActiveState) (ids : List DownloadId) :
    ids.foldl (fun active id => active.releaseStopGuard id) active = active.releaseAll ids := by
  induction ids generalizing active with
  | nil => exact active.releaseAll_nil.symm
  | cons id ids ih => rw [List.foldl_cons, ih, releaseAll_cons]

theorem releaseAll_congr (active : ActiveState) {ids ids' : List DownloadId}
    (h : ∀ id, id ∈ ids ↔ id ∈ ids') : active.releaseAll ids = active.releaseAll ids' := by
  simp only [releaseAll, h]

theorem releaseAll_releaseAll (active : ActiveState) (ids ids' : List DownloadId) :
    (active.releaseAll ids).releaseAll ids' = active.releaseAll (ids ++ ids') := by
  rw [← foldl_release, ← foldl_release, ← foldl_release, List.foldl_append]

/-- What pausing files makes of their tokens and reasons. -/
def pauseAll (active : ActiveState) (ids : List DownloadId) : ActiveState :=
  { active with
    tokens := fun other =>
      if other ∈ ids then (active.tokens other).map fun _ => true else active.tokens other
    reasons := fun other =>
      if other ∈ ids then (active.tokens other).map fun _ => .paused else active.reasons other }

theorem pauseAll_nil (active : ActiveState) : active.pauseAll [] = active := by
  simp [pauseAll]

theorem pauseAll_tokens (active : ActiveState) (ids : List DownloadId) (other : DownloadId) :
    ((active.pauseAll ids).tokens other).isNone = (active.tokens other).isNone ∧
      ((active.pauseAll ids).tokens other).map (fun _ => answer) =
        (active.tokens other).map fun _ => answer := by
  rw [pauseAll]
  dsimp only
  split <;> cases active.tokens other <;> exact ⟨rfl, rfl⟩

theorem pauseAll_pauseAll (active : ActiveState) (ids ids' : List DownloadId) :
    (active.pauseAll ids).pauseAll ids' = active.pauseAll (ids ++ ids') := by
  rw [pauseAll, pauseAll, pauseAll]
  congr 1
  · funext other
    by_cases hid : other ∈ ids <;> by_cases hid' : other ∈ ids' <;> simp [hid, hid']
  · funext other
    by_cases hid : other ∈ ids <;> by_cases hid' : other ∈ ids' <;>
      simp [hid, hid', Function.comp_def]

theorem pause_running {id : DownloadId} (active : ActiveState) (hrunning : active.tokens id = some token) :
    (active.insertReason id .paused).cancelToken id = active.pauseAll [id] := by
  rw [insertReason, cancelToken, pauseAll]
  congr 1
  · funext other
    by_cases hid : other = id <;> simp [hid]
  · funext other
    by_cases hid : other = id <;> simp [hid, hrunning]

theorem pause_idle {id : DownloadId} (active : ActiveState) (hidle : active.tokens id = none) :
    (active.insertReason id .paused).releaseStopGuard id = active.pauseAll [id] := by
  rw [insertReason, releaseStopGuard, pauseAll]
  congr 1
  · funext other
    by_cases hid : other = id <;> simp [hid, hidle]
  · funext other
    by_cases hid : other = id <;> simp [hid, hidle]

/-- The reasons first, the running files next, the idle ones last. -/
theorem pauseMany_active (active : ActiveState) (ids : List DownloadId) :
    ((ids.filter fun id => (active.tokens id).isNone).foldl
      (fun active id => active.releaseStopGuard id)
      ((ids.filter fun id => (active.tokens id).isSome).foldl (fun active id => active.cancelToken id)
        (ids.foldl (fun active id => active.insertReason id .paused) active))) =
      active.pauseAll ids := by
  have hinsert : ∀ (ids : List DownloadId) (active : ActiveState),
      ids.foldl (fun active id => active.insertReason id .paused) active =
        { active with
          reasons := fun other => if other ∈ ids then some .paused else active.reasons other } := by
    intro ids
    induction ids with
    | nil => intro active; simp
    | cons id ids ih =>
      intro active
      rw [List.foldl_cons, ih, insertReason]
      congr 1
      funext other
      by_cases hid : other = id <;> by_cases hids : other ∈ ids <;> simp [hid, hids]
  have hcancel : ∀ (ids : List DownloadId) (active : ActiveState),
      ids.foldl (fun active id => active.cancelToken id) active =
        { active with
          tokens := fun other =>
            if other ∈ ids then (active.tokens other).map fun _ => true
            else active.tokens other } := by
    intro ids
    induction ids with
    | nil => intro active; simp
    | cons id ids ih =>
      intro active
      rw [List.foldl_cons, ih, cancelToken]
      congr 1
      funext other
      by_cases hid : other = id
      · subst hid
        by_cases hids : other ∈ ids <;> simp [hids, Function.comp_def]
      · simp [hid]
  rw [foldl_release, hinsert, hcancel, releaseAll, pauseAll]
  congr 1
  · funext other
    by_cases hid : other ∈ ids <;> cases hother : active.tokens other <;> simp [hid, hother]
  · funext other
    by_cases hid : other ∈ ids <;> cases hother : active.tokens other <;> simp [hid, hother]

end ActiveState

namespace Scheduler

variable {announced : PackageId → Bool}

theorem each_resume (scheduler : Scheduler) (ids : List DownloadId) :
    each (resume announced) scheduler ids =
      ((scheduler.table.resumeEach announced scheduler.active.isHeld ids).1,
        { table := (scheduler.table.resumeEach announced scheduler.active.isHeld ids).2
          active := scheduler.active.releaseAll
            (ids.filter fun id => !scheduler.active.isHeld id) }) := by
  induction ids generalizing scheduler with
  | nil => simp [each, DownloadTable.resumeEach, ActiveState.releaseAll_nil]
  | cons id ids ih =>
    rw [each, resume, DownloadTable.resumeEach]
    by_cases hheld : scheduler.active.isHeld id
    · simp only [hheld, if_true, ih, List.filter_cons, Bool.not_true, Bool.false_eq_true, if_false]
    · simp only [hheld, if_false, ih, List.filter_cons, Bool.not_false, if_true,
        Bool.false_eq_true, ← ActiveState.releaseAll_cons]
      rfl

/-- The reasons of a batch are out before its answers are looked at. -/
theorem answerBatch_eq (scheduler : Scheduler) (ids : List DownloadId)
    (answers : List (Except Refusal Bool)) (hfree : ∀ id ∈ ids, scheduler.active.isHeld id = false)
    (hreleased : ∀ id ∈ ids, scheduler.active.releaseStopGuard id = scheduler.active) :
    scheduler.answerBatch announced ids answers =
      ((scheduler.table.answerEach announced ids answers).1,
        { scheduler with table := (scheduler.table.answerEach announced ids answers).2 }) := by
  induction ids generalizing scheduler answers with
  | nil => rfl
  | cons id ids ih =>
    cases answers with
    | nil => rfl
    | cons answer answers =>
      obtain ⟨hfirst, hfree⟩ := List.forall_mem_cons.mp hfree
      obtain ⟨hout, hreleased⟩ := List.forall_mem_cons.mp hreleased
      match answer with
      | .ok true =>
        change (_ :: (scheduler.answerBatch announced ids answers).1,
          (scheduler.answerBatch announced ids answers).2) = _
        rw [ih scheduler answers hfree hreleased]
        rfl
      | .error refusal =>
        change (_ :: (scheduler.answerBatch announced ids answers).1,
          (scheduler.answerBatch announced ids answers).2) = _
        rw [ih scheduler answers hfree hreleased]
        rfl
      | .ok false =>
        have hresume : scheduler.resume announced id =
            ((scheduler.table.resume announced id).1,
              { scheduler with table := (scheduler.table.resume announced id).2 }) := by
          rw [resume, if_neg (by simp [hfirst]), hout]
        change ((scheduler.resume announced id).1 ::
            ((scheduler.resume announced id).2.answerBatch announced ids answers).1,
          ((scheduler.resume announced id).2.answerBatch announced ids answers).2) = _
        have hrest := ih { scheduler with table := (scheduler.table.resume announced id).2 } answers
          hfree hreleased
        rw [hresume]
        dsimp only
        rw [hrest]
        rfl

theorem place_own {id : DownloadId} {own : DownloadId → Option (Except Refusal Unit)}
    (h : own id = some answer) (ids : List DownloadId) (answers : List (Except Refusal Unit)) :
    place own (id :: ids) answers = answer :: place own ids answers := by
  rw [place.eq_def]
  simp [h]

theorem place_next {id : DownloadId} {own : DownloadId → Option (Except Refusal Unit)}
    (h : own id = none) (ids : List DownloadId) (answer : Except Refusal Unit)
    (answers : List (Except Refusal Unit)) :
    place own (id :: ids) (answer :: answers) = answer :: place own ids answers := by
  rw [place.eq_def]
  simp [h]

/-- What pausing files one after another answers and leaves. -/
theorem each_pause (scheduler : Scheduler) (ids : List DownloadId) :
    each (pause announced) scheduler ids =
      (place (fun id => (scheduler.active.tokens id).map fun _ => .ok ()) ids
          (scheduler.table.pauseEach announced
            (ids.filter fun id => (scheduler.active.tokens id).isNone)).1,
        { table := (scheduler.table.pauseEach announced
            (ids.filter fun id => (scheduler.active.tokens id).isNone)).2
          active := scheduler.active.pauseAll ids }) := by
  induction ids generalizing scheduler with
  | nil => simp [each, place, DownloadTable.pauseEach, ActiveState.pauseAll]
  | cons id ids ih =>
    have hown : (fun other => ((scheduler.active.pauseAll [id]).tokens other).map
        fun _ => (.ok () : Except Refusal Unit)) = fun other =>
          (scheduler.active.tokens other).map fun _ => .ok () :=
      funext fun other => (scheduler.active.pauseAll_tokens [id] other).2
    have hidle : (fun other => ((scheduler.active.pauseAll [id]).tokens other).isNone) =
        fun other => (scheduler.active.tokens other).isNone :=
      funext fun other => (@ActiveState.pauseAll_tokens Unit () scheduler.active [id] other).1
    have hall := scheduler.active.pauseAll_pauseAll [id] ids
    rw [each]
    cases hrunning : scheduler.active.tokens id with
    | some token =>
      have hpause : scheduler.pause announced id =
          (.ok (), { scheduler with active := scheduler.active.pauseAll [id] }) := by
        have htoken : (scheduler.active.insertReason id .paused).tokens id = some token := hrunning
        rw [← scheduler.active.pause_running hrunning, pause]
        simp only [htoken]
      rw [hpause]
      dsimp only
      rw [ih]
      dsimp only
      rw [hown, hidle, hall, List.filter_cons_of_neg (by simp [hrunning]),
        place_own (by simp [hrunning]; rfl)]
      rfl
    | none =>
      have hpause : scheduler.pause announced id =
          ((scheduler.table.pause announced id).1,
            { table := (scheduler.table.pause announced id).2
              active := scheduler.active.pauseAll [id] }) := by
        have htoken : (scheduler.active.insertReason id .paused).tokens id = none := hrunning
        rw [← scheduler.active.pause_idle hrunning, pause]
        simp only [htoken]
      rw [hpause]
      dsimp only
      rw [ih]
      dsimp only
      rw [hown, hidle, hall, List.filter_cons_of_pos (by simp [hrunning]),
        DownloadTable.pauseEach, place_next (by simp [hrunning])]
      rfl

theorem pauseMany_eq (scheduler : Scheduler) (ids : List DownloadId) :
    scheduler.pauseMany announced ids = each (pause announced) scheduler ids := by
  have htokens : ∀ (ids : List DownloadId) (active : ActiveState),
      (ids.foldl (fun active id => active.insertReason id .paused) active).tokens =
        active.tokens := by
    intro ids
    induction ids with
    | nil => exact fun _ => rfl
    | cons id ids ih => exact fun active => ih (active.insertReason id .paused)
  rw [each_pause, DownloadTable.pauseEach_eq, pauseMany, htokens]
  dsimp only
  rw [scheduler.active.pauseMany_active]

theorem resumeMany_eq (scheduler : Scheduler) (ids : List DownloadId) :
    let waiting := fun id => !scheduler.active.isHeld id && scheduler.table.standsBy id
    let ready := each (resume announced) scheduler (ids.filter fun id => !waiting id)
    let last := each (resume announced) ready.2 (ids.filter waiting)
    scheduler.resumeMany announced ids = (weave waiting ids ready.1 last.1, last.2) := by
  intro waiting ready last
  let batch := ids.filter fun id => !scheduler.active.isHeld id
  let deferred := (scheduler.table.moveRows .resume batch).2.2
  let released := scheduler.active.releaseAll batch
  obtain ⟨hrows, hlast, houtcomes⟩ := @DownloadTable.moveRows_resume announced
    scheduler.active.isHeld scheduler.table.standsBy ids scheduler.table deferred fun _ => rfl
  have hreleased : ∀ id ∈ batch, released.releaseStopGuard id = released := by
    intro id hmem
    calc released.releaseStopGuard id
        = released.releaseAll [id] := released.foldl_release [id]
      _ = scheduler.active.releaseAll (batch ++ [id]) :=
          scheduler.active.releaseAll_releaseAll batch [id]
      _ = released := scheduler.active.releaseAll_congr fun other => by
          rw [List.mem_append, List.mem_singleton, or_iff_left_of_imp]
          rintro rfl
          exact hmem
  have hfree : ∀ id ∈ batch, scheduler.active.isHeld id = false := by
    intro id hmem
    simpa using (List.mem_filter.mp hmem).2
  have hanswers := @answerBatch_eq announced { table := deferred, active := released }
    batch (scheduler.table.moveRows .resume batch).1 hfree hreleased
  have hready : ready = ((scheduler.table.resumeEach announced scheduler.active.isHeld
        (ids.filter fun id => !waiting id)).1,
      { table := deferred
        active := scheduler.active.releaseAll ((ids.filter fun id => !waiting id).filter
          fun id => !scheduler.active.isHeld id) }) := by
    rw [show deferred = _ from hrows]
    exact each_resume scheduler _
  have hwaiting : last = ((deferred.resumeEach announced scheduler.active.isHeld
        (ids.filter waiting)).1,
      { table := (deferred.resumeEach announced scheduler.active.isHeld (ids.filter waiting)).2
        active := released }) := by
    have hreleasedAll : (scheduler.active.releaseAll ((ids.filter fun id => !waiting id).filter
        fun id => !scheduler.active.isHeld id)).releaseAll ((ids.filter waiting).filter
          fun id => !scheduler.active.isHeld id) = released := by
      rw [ActiveState.releaseAll_releaseAll]
      refine scheduler.active.releaseAll_congr fun id => ?_
      by_cases hstands : waiting id <;> simp [batch, hstands]
    change each (resume announced) ready.2 _ = _
    rw [hready, each_resume, ← hreleasedAll]
    rfl
  rw [resumeMany, DownloadTable.moveDownloads_resume, ActiveState.foldl_release]
  dsimp only
  rw [hanswers, hwaiting, hready]
  exact Prod.ext houtcomes (congrArg (fun table => Scheduler.mk table released) hlast)

/-- A batch of pauses is the pauses in list order, a batch of resumes the resumes in list order with
the waiting mirrors behind the rest. -/
theorem batches_eq_each (announced : PackageId → Bool) (scheduler : Scheduler)
    (ids : List DownloadId) :
    let waiting := fun id => !scheduler.active.isHeld id && scheduler.table.standsBy id
    let ready := each (resume announced) scheduler (ids.filter fun id => !waiting id)
    let last := each (resume announced) ready.2 (ids.filter waiting)
    scheduler.pauseMany announced ids = each (pause announced) scheduler ids ∧
    scheduler.resumeMany announced ids = (weave waiting ids ready.1 last.1, last.2) :=
  ⟨scheduler.pauseMany_eq ids, scheduler.resumeMany_eq ids⟩

/-- A mirror standing by, and the paused one it stands by for. -/
def waitingPair : Scheduler where
  table :=
    { rows :=
        [{ id := 1, packageId := 1, state := .skipped, mirrorGroup := some "film" },
          { id := 2, packageId := 1, state := .paused, mirrorGroup := some "film" }]
      keyed := by decide }
  active := { tokens := fun _ => none, reasons := fun _ => none, held := fun _ => 0 }

/-- Resumed one by one, the mirror that stood by gives its turn back; in one batch it keeps it. -/
theorem resumeMany_waitingPair :
    ((each (resume fun _ => false) waitingPair [1, 2]).2.table.rows.map (·.state) =
      [.skipped, .queued]) ∧
    ((waitingPair.resumeMany (fun _ => false) [1, 2]).2.table.rows.map (·.state) =
      [.queued, .skipped]) := by
  decide +kernel

end Scheduler
end RDownloader
