import RDownloader.Db.PreMigration
import Mathlib.Data.String.Basic

/-!
# The way back from an upgrade

A start that finds the database as the previous build left it writes a copy of just that, and its
copy is the newest, so the copies that are removed leave it. A start that finds it between two
migrations, because the one before was stopped there, takes that for the state before the upgrade:
what it puts back is no database of the previous build.
-/

namespace RDownloader

namespace PreMigration

variable {known found : List Int} {upgrade next : Upgrade} {copy : DatabaseCopy}
  {copies before : List DatabaseCopy}

theorem isBefore_total (copy other : DatabaseCopy) : copy.isBefore other || other.isBefore copy := by
  simp only [DatabaseCopy.isBefore, Bool.or_eq_true, Bool.and_eq_true, decide_eq_true_eq, beq_iff_eq]
  rcases Nat.lt_trichotomy copy.stamp other.stamp with h | h | h
  · exact .inl (.inl h)
  · rcases le_total copy.path other.path with hpath | hpath
    · exact .inl (.inr ⟨h, hpath⟩)
    · exact .inr (.inr ⟨h.symm, hpath⟩)
  · exact .inr (.inl h)

theorem isBefore_trans (first second third : DatabaseCopy) (h : first.isBefore second)
    (h' : second.isBefore third) : first.isBefore third := by
  simp only [DatabaseCopy.isBefore, Bool.or_eq_true, Bool.and_eq_true, decide_eq_true_eq,
    beq_iff_eq] at h h' ⊢
  rcases h with h | ⟨h, hpath⟩
  · left
    omega
  · rcases h' with h' | ⟨h', hpath'⟩
    · left
      omega
    · exact .inr ⟨h.trans h', hpath.trans hpath'⟩

theorem le_stamp_of_isBefore {other : DatabaseCopy} (h : copy.isBefore other) :
    copy.stamp ≤ other.stamp := by
  simp only [DatabaseCopy.isBefore, Bool.or_eq_true, Bool.and_eq_true, decide_eq_true_eq,
    beq_iff_eq] at h
  omega

theorem newest_notMem (hnewest : ∀ other ∈ before, other.stamp < copy.stamp) : copy ∉ before :=
  fun hmem => Nat.lt_irrefl _ (hnewest copy hmem)

/-- In the order they are sorted in, the newest copy is among no first ones. -/
theorem newest_notMem_take {sorted : List DatabaseCopy} {n : Nat}
    (hperm : sorted.Perm (before ++ [copy])) (hsorted : sorted.Pairwise (·.isBefore ·))
    (hnewest : ∀ other ∈ before, other.stamp < copy.stamp) (hn : n < sorted.length) :
    copy ∉ sorted.take n := by
  intro hmem
  rw [← List.take_append_drop n sorted, List.drop_eq_getElem_cons hn] at hsorted hperm
  -- What comes after it is no older, so it is the newest itself, which is there only once.
  have hafter := (List.pairwise_append.mp hsorted).2.2 copy hmem _ (List.mem_cons_self ..)
  have hlast : sorted[n] = copy := by
    rcases List.mem_append.mp (hperm.mem_iff.mp (List.mem_append_right _ (List.mem_cons_self ..)))
      with hbefore | hcopy
    · exact absurd (le_stamp_of_isBefore hafter) (Nat.not_le_of_lt (hnewest _ hbefore))
    · exact List.mem_singleton.mp hcopy
  have hcount := hperm.count_eq copy
  rw [List.count_append, List.count_append, hlast, List.count_cons_self, List.count_singleton_self,
    List.count_eq_zero.mpr (newest_notMem hnewest)] at hcount
  have hfirst := List.count_pos_iff.mpr hmem
  omega

theorem mem_rotate_newest {keep : Nat} (hkeep : 0 < keep) (removed : DatabaseCopy → Bool)
    (hnewest : ∀ other ∈ before, other.stamp < copy.stamp) :
    copy ∈ rotate keep removed (before ++ [copy]) := by
  have hperm := List.mergeSort_perm (before ++ [copy]) DatabaseCopy.isBefore
  have hlength : (before ++ [copy]).length - keep <
      ((before ++ [copy]).mergeSort DatabaseCopy.isBefore).length := by
    rw [hperm.length_eq]
    exact Nat.sub_lt (List.length_pos_of_mem (List.mem_append_right _ (List.mem_cons_self ..))) hkeep
  have hsurplus := newest_notMem_take hperm
    (List.pairwise_mergeSort isBefore_trans isBefore_total _) hnewest hlength
  refine List.mem_filter.mpr ⟨List.mem_append_right _ (List.mem_cons_self ..), ?_⟩
  rw [decide_eq_false hsurplus]
  rfl

/-- The copy of the start that is under way. -/
def Phase.copy? : Phase → Option DatabaseCopy
  | .idle => none
  | .copying copy | .failed copy | .restored copy => some copy
  | .migrating snapshot => snapshot

/-- The clock has not gone back, and no start puts back what is not the database as it was. -/
def Orderly (found : List Int) (upgrade : Upgrade) : Event → Prop
  | .started stamp => ∀ copy ∈ upgrade.copies, copy.stamp < stamp
  | .putBack => ∀ snapshot, upgrade.phase = .failed snapshot → snapshot.applied = some found
  | _ => True

structure Kept (found : List Int) (upgrade : Upgrade) : Prop where
  /-- Before the first copy nothing has been migrated. -/
  fresh : upgrade.copied = false → upgrade.applied = found ∧ upgrade.completed = false ∧
    (upgrade.phase = .idle ∨ ∃ copy, upgrade.phase = .copying copy)
  kept : upgrade.completed = false → upgrade.copied = true →
    ∃ copy ∈ upgrade.copies, copy.applied = some found
  newest : ∀ copy, upgrade.phase.copy? = some copy → ∃ before, upgrade.copies = before ++ [copy] ∧
    ∀ other ∈ before, other.stamp < copy.stamp
  torn : ∀ copy, upgrade.phase = .copying copy → copy.applied = none
  restored : ∀ snapshot, upgrade.phase = .restored snapshot →
    snapshot.applied = some found ∧ upgrade.applied = found
  report : upgrade.report = some (.migrationFailed true) → upgrade.applied = found

/-- A start that has ended, and left a copy of the database as it was if there was one. -/
theorem Kept.ended (h : Kept found upgrade) {copies : List DatabaseCopy} {report : Option Report}
    (hkept : ∀ original ∈ upgrade.copies, original.applied = some found →
      ∃ copy ∈ copies, copy.applied = some found)
    (hreport : report = some (.migrationFailed true) → upgrade.applied = found) :
    Kept found { upgrade with phase := .idle, copies, report } where
  fresh hcopied :=
    have hfresh := h.fresh hcopied
    ⟨hfresh.1, hfresh.2.1, .inl rfl⟩
  kept hcompleted hcopied :=
    have ⟨original, hmem, horiginal⟩ := h.kept hcompleted hcopied
    hkept original hmem horiginal
  newest _ hcopy := nomatch hcopy
  torn _ hcopying := nomatch hcopying
  restored _ hrestored := nomatch hrestored
  report := hreport

theorem filter_needsCopy {schema : CopySchema} (h : needsCopy schema) :
    schema.applied.filter (fun _ => needsCopy schema) ≠ none := by
  have hsome : schema.applied.isSome = true := by
    simp only [needsCopy, Bool.and_eq_true] at h
    exact h.1.1
  obtain ⟨first, hfirst⟩ := Option.isSome_iff_exists.mp hsome
  rw [hfirst, h]
  exact Option.some_ne_none first

theorem Kept.started (hneeds : needsCopy (schemaOn found known)) (h : Kept found upgrade)
    {stamp : Nat} (hclock : ∀ copy ∈ upgrade.copies, copy.stamp < stamp)
    (hidle : upgrade.phase = .idle)
    (hstep : upgrade.step known (.started stamp) = some next) : Kept found next := by
  unfold Upgrade.step at hstep
  rw [hidle] at hstep
  dsimp only at hstep
  split at hstep
  case h_1 hnone =>
    obtain rfl := Option.some.inj hstep
    have hcopied : upgrade.copied ≠ false := fun hcopied =>
      filter_needsCopy ((h.fresh hcopied).1 ▸ hneeds) hnone
    exact ⟨fun hfresh => absurd hfresh hcopied, h.kept, fun _ hcopy => (nomatch hcopy),
      fun _ hcopying => (nomatch hcopying), fun _ hrestored => (nomatch hrestored),
      fun hreport => (nomatch hreport)⟩
  case h_2 first _ =>
    split at hstep
    · obtain rfl := Option.some.inj hstep
      rw [← hidle]
      exact { h with report := fun hreport => (nomatch hreport) }
    · obtain rfl := Option.some.inj hstep
      refine ⟨fun hcopied => ?_, fun hcompleted hcopied => ?_, fun copy hcopy => ?_,
        fun copy hcopying => ?_, fun _ hrestored => (nomatch hrestored),
        fun hreport => (nomatch hreport)⟩
      · have hfresh := h.fresh hcopied
        exact ⟨hfresh.1, hfresh.2.1, .inr ⟨_, rfl⟩⟩
      · obtain ⟨copy, hmem, hcopy⟩ := h.kept hcompleted hcopied
        exact ⟨copy, List.mem_append_left _ hmem, hcopy⟩
      · obtain rfl := Option.some.inj hcopy
        exact ⟨upgrade.copies, rfl, hclock⟩
      · obtain rfl := Phase.copying.inj hcopying
        rfl

theorem Kept.copied (h : Kept found upgrade) (hcopying : upgrade.phase = .copying copy)
    (hstep : upgrade.step known .copied = some next) : Kept found next := by
  obtain ⟨before, hcopies, hnewest⟩ := h.newest copy (congrArg Phase.copy? hcopying)
  have hother : ∀ other ∈ before, other ≠ copy :=
    fun other hmem heq => newest_notMem hnewest (heq ▸ hmem)
  unfold Upgrade.step at hstep
  rw [hcopying] at hstep
  obtain rfl := Option.some.inj hstep
  have hmap : upgrade.copies.map (fun other => if other = copy then
      { copy with applied := some upgrade.applied } else other) =
      before ++ [{ copy with applied := some upgrade.applied }] := by
    rw [hcopies, List.map_append, List.map_singleton, if_pos rfl]
    congr 1
    exact (List.map_congr_left fun other hmem => if_neg (hother other hmem)).trans (List.map_id _)
  refine ⟨fun hfresh => (nomatch hfresh), fun hcompleted _ => ?_, fun snapshot hsnapshot => ?_,
    fun _ hcopying => (nomatch hcopying), fun _ hrestored => (nomatch hrestored),
    fun hreport => (nomatch hreport)⟩
  · dsimp only
    rw [hmap]
    cases hcopied : upgrade.copied with
    | false =>
      refine ⟨_, List.mem_append_right _ (List.mem_singleton_self _), ?_⟩
      exact congrArg some (h.fresh hcopied).1
    | true =>
      obtain ⟨original, hmem, horiginal⟩ := h.kept hcompleted hcopied
      rw [hcopies] at hmem
      rcases List.mem_append.mp hmem with hmem | hmem
      · exact ⟨original, List.mem_append_left _ hmem, horiginal⟩
      · rw [List.mem_singleton.mp hmem, h.torn copy hcopying] at horiginal
        cases horiginal
  · obtain rfl := Option.some.inj hsnapshot
    exact ⟨before, hmap, hnewest⟩

theorem Kept.copyFailed (h : Kept found upgrade) (hcopying : upgrade.phase = .copying copy)
    {torn : Bool} (hstep : upgrade.step known (.copyFailed torn) = some next) : Kept found next := by
  unfold Upgrade.step at hstep
  rw [hcopying] at hstep
  obtain rfl := Option.some.inj hstep
  refine h.ended (fun original hmem horiginal => ⟨original, ?_, horiginal⟩)
    fun hreport => (nomatch hreport)
  cases torn with
  | true => exact hmem
  | false =>
    refine List.mem_filter.mpr ⟨hmem, decide_eq_true fun heq => ?_⟩
    rw [heq, h.torn copy hcopying] at horiginal
    cases horiginal

/-- While migrations are applied, or their copy is put back, some copy has been written. -/
theorem Kept.copied_of_copy (h : Kept found upgrade) (hidle : upgrade.phase ≠ .idle)
    (hcopying : ∀ copy, upgrade.phase ≠ .copying copy) : upgrade.copied ≠ false := by
  intro hcopied
  rcases (h.fresh hcopied).2.2 with hphase | ⟨copy, hphase⟩
  · exact hidle hphase
  · exact hcopying copy hphase

theorem Kept.step (hneeds : needsCopy (schemaOn found known)) (h : Kept found upgrade)
    {event : Event} (horderly : Orderly found upgrade event)
    (hstep : upgrade.step known event = some next) : Kept found next := by
  have hstep' := hstep
  unfold Upgrade.step at hstep
  dsimp only at hstep
  split at hstep
  case h_1 hidle => exact h.started hneeds horderly hidle hstep'
  case h_2 hcopying => exact h.copied hcopying hstep'
  case h_3 hcopying => exact h.copyFailed hcopying hstep'
  case h_4 hmigrating =>
    split at hstep
    · cases hstep
    · obtain ⟨migration, -, rfl⟩ := Option.map_eq_some_iff.mp hstep
      have hcopied := h.copied_of_copy (fun hidle => nomatch hmigrating.symm.trans hidle)
        fun _ hcopying => nomatch hmigrating.symm.trans hcopying
      exact ⟨fun hfresh => absurd hfresh hcopied, h.kept, h.newest, h.torn,
        fun _ hrestored => (nomatch hmigrating.symm.trans hrestored), fun hreport => (nomatch hreport)⟩
  case h_5 hmigrating =>
    split at hstep
    · cases hstep
    · obtain rfl := Option.some.inj hstep
      have hcopied := h.copied_of_copy (fun hidle => nomatch hmigrating.symm.trans hidle)
        fun _ hcopying => nomatch hmigrating.symm.trans hcopying
      exact ⟨fun hfresh => absurd hfresh hcopied, fun hcompleted => (nomatch hcompleted),
        fun _ hcopy => (nomatch hcopy), fun _ hcopying => (nomatch hcopying),
        fun _ hrestored => (nomatch hrestored), fun hreport => (nomatch hreport)⟩
  case h_6 hmigrating =>
    obtain rfl := Option.some.inj hstep
    exact h.ended (fun original hmem horiginal => ⟨original, hmem, horiginal⟩)
      fun hreport => (nomatch hreport)
  case h_7 hmigrating =>
    obtain rfl := Option.some.inj hstep
    have hcopied := h.copied_of_copy (fun hidle => nomatch hmigrating.symm.trans hidle)
      fun _ hcopying => nomatch hmigrating.symm.trans hcopying
    exact ⟨fun hfresh => absurd hfresh hcopied, h.kept, fun copy hcopy =>
        h.newest copy ((congrArg Phase.copy? hmigrating).trans hcopy),
      fun _ hcopying => (nomatch hcopying), fun _ hrestored => (nomatch hrestored),
      fun hreport => (nomatch hreport)⟩
  case h_8 hfailed =>
    obtain ⟨applied, happlied, rfl⟩ := Option.map_eq_some_iff.mp hstep
    have hcopied := h.copied_of_copy (fun hidle => nomatch hfailed.symm.trans hidle)
      fun _ hcopying => nomatch hfailed.symm.trans hcopying
    have hfound := horderly _ hfailed
    refine ⟨fun hfresh => absurd hfresh hcopied, h.kept, fun copy hcopy =>
        h.newest copy ((congrArg Phase.copy? hfailed).trans hcopy),
      fun _ hcopying => (nomatch hcopying), fun _ hrestored => ?_, fun hreport => (nomatch hreport)⟩
    obtain rfl := Phase.restored.inj hrestored
    exact ⟨hfound, Option.some.inj (happlied.symm.trans hfound)⟩
  case h_9 hfailed =>
    obtain rfl := Option.some.inj hstep
    exact h.ended (fun original hmem horiginal => ⟨original, hmem, horiginal⟩)
      fun hreport => (nomatch hreport)
  case h_10 removed hrestored =>
    obtain rfl := Option.some.inj hstep
    obtain ⟨hfound, happlied⟩ := h.restored _ hrestored
    obtain ⟨before, hcopies, hnewest⟩ := h.newest _ (congrArg Phase.copy? hrestored)
    refine h.ended (fun _ _ _ => ⟨_, ?_, hfound⟩) fun _ => happlied
    rw [hcopies]
    exact mem_rotate_newest (by decide) removed hnewest
  case h_11 =>
    obtain rfl := Option.some.inj hstep
    exact h.ended (fun original hmem horiginal => ⟨original, hmem, horiginal⟩)
      fun hreport => (nomatch hreport)
  case h_12 => cases hstep

/-- In every run in which the clock does not go back and no start that found the database between
two migrations puts its copy back, a database that is reported as put back is the one the first
start found, and a copy of that one stays until the upgrade is complete. -/
theorem way_back_kept (hneeds : needsCopy (schemaOn found known))
    (hreach : (machine known found).Reaches (Orderly found) upgrade) :
    (upgrade.report = some (.migrationFailed true) → upgrade.applied = found) ∧
      (upgrade.completed = false → upgrade.copied = true ∨ upgrade.applied ≠ found →
        ∃ copy ∈ upgrade.copies, copy.applied = some found) := by
  have h : Kept found upgrade := by
    refine hreach.invariant _ ?_ fun _ _ _ h horderly hstep => h.step hneeds horderly hstep
    rintro _ ⟨copies, rfl⟩
    exact ⟨fun _ => ⟨rfl, rfl, .inl rfl⟩, fun _ hcopied => (nomatch hcopied),
      fun _ hcopy => (nomatch hcopy), fun _ hcopying => (nomatch hcopying),
      fun _ hrestored => (nomatch hrestored), fun hreport => (nomatch hreport)⟩
  refine ⟨h.report, fun hcompleted hstarted => h.kept hcompleted ?_⟩
  rcases hstarted with hcopied | happlied
  · exact hcopied
  · exact Bool.of_not_eq_false fun hcopied => happlied (h.fresh hcopied).1

/-- A migration that fails at the first start. -/
theorem way_back_kept_failure : ∃ upgrade : Upgrade,
    (machine [1, 2, 3] [1]).run { applied := [1] } [.started 1, .copied, .applied, .failed, .putBack,
      .rotated fun _ => true] = some upgrade ∧ upgrade.applied = [1] ∧
    ∃ copy ∈ upgrade.copies, copy.applied = some [1] :=
  have hclock : Orderly [1] { applied := [1] } (.started 1) := fun _ hmem => (nomatch hmem)
  have hwithin : (machine [1, 2, 3] [1]).Within (Orderly [1]) { applied := [1] } [.started 1,
      .copied, .applied, .failed, .putBack, .rotated fun _ => true] :=
    .cons hclock rfl (.cons trivial rfl (.cons trivial rfl (.cons trivial rfl
      (.cons (fun _ h => Phase.failed.inj h ▸ rfl) rfl (.cons trivial rfl trivial)))))
  have hkept := way_back_kept (by decide) (.within (.initial ⟨[], rfl⟩) hwithin rfl)
  ⟨_, rfl, hkept.1 rfl, hkept.2 rfl (.inl rfl)⟩

/-- A start that is stopped after its first migration, and three whose next migration fails: the
database is reported as put back with the first one applied, and the copy from before it is gone. -/
theorem way_back_lost : ∃ upgrade : Upgrade,
    (machine [1, 2, 3] [1]).run { applied := [1] } ([.started 1, .copied, .applied, .stopped] ++
      [2, 3, 4].flatMap fun stamp => [.started stamp, .copied, .failed, .putBack,
        .rotated fun _ => true]) = some upgrade ∧
    upgrade.report = some (.migrationFailed true) ∧ upgrade.applied = [1, 2] ∧
    upgrade.completed = false ∧ ∀ copy ∈ upgrade.copies, copy.applied ≠ some [1] := by
  let copy (newest stamp : Nat) (applied : List Int) : DatabaseCopy :=
    ⟨snapshotName newest 3 stamp, stamp, some applied⟩
  have hrotate : rotate kept (fun _ => true)
      [copy 1 1 [1], copy 2 2 [1, 2], copy 2 3 [1, 2], copy 2 4 [1, 2]] =
      [copy 2 2 [1, 2], copy 2 3 [1, 2], copy 2 4 [1, 2]] := by
    rw [rotate, List.mergeSort_of_pairwise (by decide)]
    rfl
  let ended (copies : List DatabaseCopy) : Upgrade :=
    { applied := [1, 2], copies, report := some (.migrationFailed true), copied := true }
  exact ⟨ended _, congrArg (some ∘ ended) hrotate, rfl, rfl, rfl, by decide⟩

end PreMigration

end RDownloader
