import RDownloader.Scheduler.WorkerSources

/-!
# The rows behind a multi-source run

What it means for rows to be in order, what one changed row leaves of that, and what an attempt's
plan starts from.
-/

namespace RDownloader

namespace SourceLedger

variable {ledger ledger' : SourceLedger} {id : ChunkId} {f : ChunkRow → ChunkRow}

theorem mem_rows (h : ledger.row? id = some row) : row ∈ ledger.rows ∧ row.spec.id = id :=
  ⟨ledger.chunks.mem_of_row? h, ledger.chunks.row?_id h⟩

namespace Laid

theorem row? (h : ledger.Laid) (hmem : row ∈ ledger.rows) :
    ledger.row? row.spec.id = some row :=
  h.keyed.row? hmem

/-- Two rows with one key are one row. -/
theorem eq_of_id (h : ledger.Laid) (hmem : row ∈ ledger.rows) (hrow : ledger.row? id = some row')
    (heq : row.spec.id = id) : row = row' := by
  rw [← heq, h.row? hmem] at hrow
  exact Option.some.inj hrow

/-- Of two rows one ends before the other starts. -/
theorem apart (h : ledger.Laid) (hmem : row ∈ ledger.rows) (hmem' : row' ∈ ledger.rows)
    (hne : row ≠ row') : row.spec.Before row'.spec ∨ row'.spec.Before row.spec := by
  have hbefore := List.pairwise_iff_getElem.mp (List.pairwise_map.mp h.before)
  obtain ⟨i, hi, rfl⟩ := List.mem_iff_getElem.mp hmem
  obtain ⟨j, hj, rfl⟩ := List.mem_iff_getElem.mp hmem'
  rcases Nat.lt_trichotomy i j with hlt | rfl | hgt
  · exact .inl (hbefore i j hi hj hlt)
  · exact absurd rfl hne
  · exact .inr (hbefore j i hj hi hgt)

theorem same (h : ledger.Laid) (hsame : SameRows ledger ledger') : ledger'.Laid where
  keyed := by
    have hkeyed := h.keyed
    unfold ChunkStore.Keyed at hkeyed ⊢
    rw [show ledger'.chunks.chunks = ledger.chunks.chunks from hsame.rows]
    exact hkeyed
  owned := by rw [hsame.rows, hsame.download]; exact h.owned
  wellFormed := by rw [hsame.rows]; exact h.wellFormed
  before := by rw [hsame.rows]; exact h.before
  total := by rw [hsame.rows, hsame.totalBytes]; exact h.total

/-- A row changed within its range leaves the rows in order. -/
theorem updated (h : ledger.Laid) (hupdated : Updated ledger ledger' id f)
    (hrow : ∀ row, ledger.row? id = some row → (f row).spec.WellFormed) : ledger'.Laid where
  keyed := by
    unfold ChunkStore.Keyed
    rw [show ledger'.chunks.chunks = ledger'.rows from rfl, hupdated.ids]
    exact h.keyed
  owned := by
    intro row' hmem
    obtain ⟨row, hrow, rfl⟩ := hupdated.mem hmem
    rw [hupdated.download]
    split
    · exact (hupdated.owner row).trans (h.owned row hrow)
    · exact h.owned row hrow
  wellFormed := by
    intro row' hmem
    obtain ⟨row, hmemRow, rfl⟩ := hupdated.mem hmem
    split
    · next heq => exact hrow row (heq ▸ h.row? hmemRow)
    · exact h.wellFormed row hmemRow
  before := by
    rw [hupdated.rows, List.map_map, List.pairwise_map]
    refine (List.pairwise_map.mp h.before).imp fun {a b} hab => ?_
    obtain ⟨stop, hstop, hle⟩ := hab
    refine ⟨stop, ?_, ?_⟩
    · dsimp only [Function.comp_apply]
      split
      · exact (hupdated.stop a).trans hstop
      · exact hstop
    · dsimp only [Function.comp_apply]
      split
      · rw [hupdated.start b]; exact hle
      · exact hle
  total := by
    intro row' hmem hbounded
    obtain ⟨row, hrow, rfl⟩ := hupdated.mem hmem
    rw [hupdated.totalBytes]
    apply h.total row hrow
    split at hbounded
    · rwa [hupdated.stop row] at hbounded
    · exact hbounded

end Laid
/-! ## Plans -/

/-- A row of a fresh plan. -/
structure Planned (ledger : SourceLedger) (row : ChunkRow) : Prop where
  fresh : row.spec.Fresh
  owned : row.downloadId = ledger.download
  unverified : row.verified = false
  unnamed : row.sourcePosition = none

theorem insertRow_ok {download : DownloadId} (h : insertRow download chunk = .ok row) :
    row.spec = chunk ∧ row.downloadId = download ∧ row.verified = false ∧
      row.sourcePosition = none := by
  unfold insertRow at h
  split at h
  · obtain rfl := Except.ok.inj h
    exact ⟨rfl, rfl, rfl, rfl⟩
  · cases h

theorem mapM_insertRow {download : DownloadId} {planned : List ChunkSpec} {rows : List ChunkRow}
    (h : planned.mapM (insertRow download) = .ok rows) :
    rows.map (·.spec) = planned ∧ ∀ row ∈ rows,
      row.downloadId = download ∧ row.verified = false ∧ row.sourcePosition = none := by
  induction planned generalizing rows with
  | nil =>
    obtain rfl := Except.ok.inj h
    exact ⟨rfl, fun _ hmem => by cases hmem⟩
  | cons chunk planned ih =>
    rw [List.mapM_cons] at h
    cases hfirst : insertRow download chunk with
    | error => rw [hfirst] at h; cases h
    | ok row =>
      cases hrest : planned.mapM (insertRow download) with
      | error => rw [hfirst, hrest] at h; cases h
      | ok rest =>
        rw [hfirst, hrest] at h
        obtain rfl := Except.ok.inj h
        obtain ⟨hspec, hrow⟩ := insertRow_ok hfirst
        obtain ⟨hspecs, hrows⟩ := ih hrest
        refine ⟨by rw [List.map_cons, hspec, hspecs], fun row' hmem => ?_⟩
        rcases List.mem_cons.mp hmem with rfl | hmem
        · exact hrow
        · exact hrows row' hmem

theorem prepareTransfer_ok (h : ledger.prepareTransfer total planned = .ok ledger') :
    total ≤ i64Max ∧ ∃ rows, planned.mapM (insertRow ledger.download) = .ok rows ∧
      ledger'.rows = ledger.rows.filter (·.downloadId ≠ ledger.download) ++ rows ∧
      ledger'.totalBytes = some total ∧ ledger'.download = ledger.download := by
  unfold prepareTransfer at h
  by_cases hsize : i64Max < total
  · rw [if_pos hsize] at h
    cases h
  by_cases hcommitted : ledger.chunks.committedBytes ledger.download ≠ 0
  · rw [if_neg hsize, if_pos hcommitted] at h
    cases h
  rw [if_neg hsize, if_neg hcommitted] at h
  cases hrows : planned.mapM (insertRow ledger.download) with
  | error => rw [hrows] at h; cases h
  | ok rows =>
    rw [hrows] at h
    obtain rfl := Except.ok.inj h
    exact ⟨Nat.le_of_not_lt hsize, rows, rfl, rfl, rfl, rfl⟩

/-- A fresh plan's rows are in order, whatever was there before. -/
theorem Laid.prepared {total : Nat} (h : ledger.Laid)
    (hplan : ledger.prepareTransfer total (planAlignedChunks freshId total maxChunks align) =
      .ok ledger') :
    ledger'.Laid ∧ ledger'.totalBytes = some total ∧
      ledger'.rows.map (·.spec) = planAlignedChunks freshId total maxChunks align ∧
      ∀ row ∈ ledger'.rows, ledger'.Planned row := by
  obtain ⟨htotal, rows, hrows, hall, hsize, hdownload⟩ := prepareTransfer_ok hplan
  obtain ⟨hspecs, hplanned⟩ := mapM_insertRow hrows
  have hothers : ledger.rows.filter (·.downloadId ≠ ledger.download) = [] := by
    rw [List.filter_eq_nil_iff]
    intro row hmem
    simpa using h.owned row hmem
  rw [hothers, List.nil_append] at hall
  obtain ⟨hconsecutive, hids, hfresh⟩ := planAlignedChunks_spec freshId
    (Nat.le_trans htotal i64Max_le_u64Max) maxChunks align
  have hspecs' : ledger'.rows.map (·.spec) = planAlignedChunks freshId total maxChunks align := by
    rw [hall, hspecs]
  have hmem (row) (hmem : row ∈ ledger'.rows) :
      row.spec ∈ planAlignedChunks freshId total maxChunks align :=
    hspecs' ▸ List.mem_map_of_mem hmem
  refine ⟨⟨?_, ?_, ?_, ?_, fun _ _ _ => hsize ▸ rfl⟩, hsize, hspecs', fun row hrow => ?_⟩
  · unfold ChunkStore.Keyed
    rw [← hspecs', List.map_map] at hids
    exact hids
  · intro row hrow
    rw [hall] at hrow
    rw [hdownload]
    exact (hplanned row hrow).1
  · intro row hrow
    exact (hconsecutive.of_mem (hmem row hrow)).1
  · rw [hspecs']
    exact hconsecutive.before
  · have hrow' := hall ▸ hrow
    exact ⟨hfresh _ (hmem row hrow), (hplanned row hrow').1.trans hdownload.symm,
      (hplanned row hrow').2.1, (hplanned row hrow').2.2⟩

/-- What an attempt runs on: the rows as they were or a fresh plan's, all of them, with the size
the attempt has where a row is bounded. -/
structure PlannedFrom (ledger : SourceLedger) (total : Nat) (chunks : List ChunkSpec)
    (ledger' : SourceLedger) : Prop where
  laid : ledger'.Laid
  chunks : chunks.Perm (ledger'.rows.map (·.spec))
  total : ∀ row ∈ ledger'.rows, row.spec.stop ≠ none → ledger'.totalBytes = some total
  origin : ledger' = ledger ∨ ∀ row ∈ ledger'.rows, ledger'.Planned row

theorem planTransfer_some (h : ledger.Laid)
    (hplan : ledger.planTransfer pieces attempt = some (planned, ledger')) :
    ledger.PlannedFrom attempt.total planned ledger' := by
  unfold planTransfer at hplan
  dsimp only at hplan
  split at hplan
  · cases hplan
  next hsize =>
  split at hplan
  · obtain ⟨prepared, hprepared, heq⟩ := Option.map_eq_some_iff.mp hplan
    obtain ⟨rfl, rfl⟩ := Prod.mk.inj heq
    have hok : ledger.prepareTransfer attempt.total (planAlignedChunks attempt.freshId attempt.total
        attempt.maxChunks ((pieces.map (·.length)).getD 1)) = .ok prepared := by
      revert hprepared
      cases ledger.prepareTransfer attempt.total _ with
      | error => intro h; cases h
      | ok => intro h; rw [Option.some.inj h]
    obtain ⟨hlaid, htotal, hspecs, hplanned⟩ := h.prepared hok
    exact ⟨hlaid, by rw [hspecs], fun _ _ _ => htotal, .inr hplanned⟩
  · next hkept =>
    obtain ⟨rfl, rfl⟩ := Prod.mk.inj (Option.some.inj hplan)
    have hcommitted : (ledger.loadTransfer.any fun chunk => chunk.start < chunk.committed) = true := by
      simpa using fun hnot => hkept (.inr hnot)
    refine ⟨h, ?_, fun row hmem hbounded => ?_, .inl rfl⟩
    · have howned : ledger.chunks.chunks.filter (·.downloadId = ledger.download) = ledger.rows := by
        apply List.filter_eq_self.mpr
        intro row hmem
        exact decide_eq_true (h.owned row hmem)
      have hperm := List.perm_insertionSort (fun a b : ChunkSpec => a.start ≤ b.start)
        ((ledger.chunks.chunks.filter (·.downloadId = ledger.download)).map (·.spec))
      rw [howned] at hperm
      unfold loadTransfer ChunkStore.loadTransfer
      rw [howned]
      exact hperm
    · obtain ⟨recorded, hrecorded⟩ := Option.isSome_iff_exists.mp (h.total row hmem hbounded)
      rw [hrecorded] at hsize ⊢
      simp only [hcommitted, true_and, Option.any_some, decide_eq_true_eq,
        Decidable.not_not] at hsize
      rw [hsize]

/-- The marks name every row that was not checked, with its source. -/
theorem Laid.lookup_unverifiedMarks (h : ledger.Laid) (hmem : row ∈ ledger.rows) :
    ledger.unverifiedMarks.lookup row.spec.id =
      if row.verified then none else some row.sourcePosition := by
  have howned : ledger.rows.filter (fun row => row.downloadId = ledger.download ∧ !row.verified) =
      ledger.rows.filter (fun row => !row.verified) := by
    apply List.filter_congr
    intro row hmem
    simp [h.owned row hmem]
  have hkeyed : (ledger.rows.map (·.spec.id)).Nodup := h.keyed
  rw [unverifiedMarks, howned]
  generalize ledger.rows = rows at hmem hkeyed
  induction rows with
  | nil => cases hmem
  | cons head rows ih =>
    obtain ⟨hfresh, hrows⟩ := List.nodup_cons.mp hkeyed
    have habsent (hhead : row = head) : ((rows.filter (!·.verified)).map fun row =>
        (row.spec.id, row.sourcePosition)).lookup row.spec.id = none := by
      rw [List.lookup_eq_none_iff]
      intro entry hentry
      obtain ⟨other, hother, rfl⟩ := List.mem_map.mp hentry
      have hne : row.spec.id ≠ other.spec.id := by
        intro heq
        exact hfresh (List.mem_map.mpr
          ⟨other, List.mem_of_mem_filter hother, heq.symm.trans (congrArg (·.spec.id) hhead)⟩)
      simpa using hne
    rcases List.mem_cons.mp hmem with heq | hmem
    · cases hverified : head.verified with
      | true =>
        rw [List.filter_cons_of_neg (by simp [hverified]), habsent heq, heq, if_pos hverified]
      | false =>
        rw [List.filter_cons_of_pos (by simp [hverified]), List.map_cons, heq, List.lookup_cons_self,
          if_neg (by simp [hverified])]
    · have hne : row.spec.id ≠ head.spec.id := by
        intro heq
        exact hfresh (List.mem_map.mpr ⟨row, hmem, heq⟩)
      cases hverified : head.verified with
      | true =>
        rw [List.filter_cons_of_neg (by simp [hverified])]
        exact ih hmem hrows
      | false =>
        rw [List.filter_cons_of_pos (by simp [hverified]), List.map_cons, List.lookup_cons]
        simp only [beq_eq_false_iff_ne.mpr hne]
        exact ih hmem hrows

end SourceLedger
end RDownloader
