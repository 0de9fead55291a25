import RDownloader.Db.DownloadRows

/-!
# Giving up on a Usenet set (`rd-db/src/nzb_hopeless.rs`)

What waits fails in one write, what runs ends on its own, and the package then reads as failed, as
long as no row of it was blocked.
-/

namespace RDownloader

/-- `USENET_JOB_HOPELESS`: the code every row of a set beyond repair fails with. -/
def usenetJobHopeless : String := "usenet.job_hopeless"

/-- `PAR2_AWAITING_BLOCKS`: a PAR2 step waits for postponed volumes it asked for. -/
def par2AwaitingBlocks : String := "postprocess.par2_awaiting_blocks"

inductive PostprocessKind where
  | par2
  | sfv
  | rarTest
  | extractZip
  | extractSevenZip
  | extractRar
  | deleteArchives
  | deletePar2
  | cleanup
  | remux
  | malwareScan
  | pluginStep
  | script
  | upload
  | sort
  deriving DecidableEq, Repr

inductive PostprocessState where
  | queued
  | running
  | completed
  | skipped
  | failed
  deriving DecidableEq, Repr

/-- One row of `postprocess_steps`. -/
structure PostprocessStep where
  ownerId : PackageId
  kind : PostprocessKind
  sourcePath : String
  state : PostprocessState
  message : Option String := none
  code : Option String := none
  params : List (String × String) := []
  progressPercent : Option Nat := none
  deriving DecidableEq, Repr

inductive HopelessEvent where
  | downloadState (download : DownloadId) (previous : DownloadState) (failure : Failure)
  | postprocessProgress (owner : PackageId) (sourcePath : String)
  | usenetChanged (package : PackageId) (nzbImport missingBlocks availableBlocks : Option String)
  deriving DecidableEq, Repr

/-- `hopeless_failure`: the reason a set beyond repair ends with. -/
def hopelessFailure (missingBlocks availableBlocks : Nat) : Failure :=
  ((Failure.coded .permanent usenetJobHopeless
      (toString missingBlocks ++ " PAR2 blocks are missing and at most " ++
        toString availableBlocks ++
        " are available to repair them; the rest of the set is not downloaded")).withParam
    "missing_blocks" (toString missingBlocks)).withParam
    "available_blocks" (toString availableBlocks)

namespace DownloadRow

/-- What `fail_hopeless` selects: a row that waits for its turn or holds its verdict open. -/
def isGivenUp (row : DownloadRow) : Bool :=
  row.state = .queued || row.state = .paused || row.state = .retryWait ||
    row.state = .verifying && row.lastError.any (·.code = some awaitingPar2)

/-- A row that is its runner's to stop. -/
def isRunning (row : DownloadRow) : Bool := row.state.holdsTheFile && !row.isGivenUp

/-- The columns `fail_hopeless` sets. -/
def failWith (failure : Failure) (row : DownloadRow) : DownloadRow :=
  { row with state := .failed, lastError := some failure, nextRetryAt := none }

/-- A failed row of a set that was given up. -/
def isHopeless (row : DownloadRow) : Bool :=
  row.state = .failed && row.lastError.any (·.code = some usenetJobHopeless)

end DownloadRow

/-- A PAR2 step that waits for volumes of the package. -/
def PostprocessStep.awaitsBlocks (package : PackageId) (step : PostprocessStep) : Bool :=
  step.ownerId = package && step.kind = .par2 && step.state = .queued &&
    step.code = some par2AwaitingBlocks

def PostprocessStep.failWith (failure : Failure) (step : PostprocessStep) : PostprocessStep :=
  { step with
    state := .failed, message := some failure.message, code := some usenetJobHopeless
    params := failure.params, progressPercent := none }

/-- The tables a set is given up in. -/
structure UsenetSets where
  /-- The packages, each with the NZB import it came from. -/
  packages : List (PackageId × Option String)
  downloads : DownloadTable
  steps : List PostprocessStep := []

namespace UsenetSets

/-- `fail_hopeless`: the tables after it, and the events it records. -/
def failHopeless (sets : UsenetSets) (redact : String → String) (package : PackageId)
    (failure : Failure) : Except Refusal (UsenetSets × List HopelessEvent) :=
  let failure := failure.redacted redact
  match sets.packages.lookup package with
  | none => .error (.notFound "package not found")
  | some nzbImport =>
    let rows := (sets.downloads.inPackage package).filter (·.isGivenUp)
    let steps := sets.steps.filter (·.awaitsBlocks package)
    .ok ({ sets with
        downloads := sets.downloads.updateAll
          (fun row => if row.packageId = package && row.isGivenUp then row.failWith failure else row)
          fun row => by split <;> rfl
        steps := sets.steps.map fun step =>
          if step.awaitsBlocks package then step.failWith failure else step },
      rows.map (fun row => .downloadState row.id row.state failure) ++
        steps.map (fun step => .postprocessProgress package step.sourcePath) ++
        [.usenetChanged package nzbImport (failure.params.lookup "missing_blocks")
          (failure.params.lookup "available_blocks")])
end UsenetSets

/-- The states of a row of which nothing is left to run. -/
def isOver : DownloadState → Bool
  | .completed | .failed | .cancelled | .skipped => true
  | _ => false

/-- `gave_up`: whether a package's rows say the set was given up as beyond repair. -/
def gaveUp (rows : List DownloadRow) : Bool :=
  rows.all (isOver ·.state) && rows.any (·.isHopeless)

inductive PackageState where
  | queued
  | downloading
  | postprocessing
  | completed
  | failed
  deriving DecidableEq, Repr

/-- `SETTLED_FAILED`. -/
def settledFailed : DownloadState → Bool
  | .failed | .blocked | .cancelled | .skipped => true
  | _ => false

/-- `refresh_package_state`: the state a package's rows give it, unless post-processing owns it. -/
def refreshedState (current : PackageState) (usenet : Bool) (rows : List DownloadRow) :
    Option PackageState :=
  let active := rows.any fun row => match row.state with
    | .resolving | .downloading | .verifying | .repairing => true
    | _ => false
  let allCompleted := rows.any (·.state = .completed) &&
    rows.all fun row => row.state = .completed || row.state = .skipped
  let allFailed := !usenet && rows.any (·.state = .failed) && rows.all (settledFailed ·.state)
  if active then some .downloading
  else if allCompleted || current = .postprocessing then none
  else if allFailed || gaveUp rows then some .failed
  else some .queued

/-! ## What is left of a set that was given up -/

/-- The rows once everything that runs has ended. -/
def afterEndings (ending : DownloadRow → DownloadRow) (rows : List DownloadRow) : List DownloadRow :=
  rows.map fun row => if row.isRunning then ending row else row

/-- Running rows complete, fail or are cancelled. -/
def Endings (ending : DownloadRow → DownloadRow) : Prop :=
  ∀ row : DownloadRow, row.isRunning →
    (ending row).state = .completed ∨ (ending row).state = .failed ∨ (ending row).state = .cancelled

/-- A set of which no row was blocked, and some row fails for the set or has done so. -/
def CanBeGivenUp (ending : DownloadRow → DownloadRow) (rows : List DownloadRow) : Prop :=
  (∀ row ∈ rows, row.state ≠ .blocked) ∧
    ∃ row ∈ rows, row.isGivenUp ∨ row.isHopeless ∨ row.isRunning ∧ (ending row).isHopeless

variable {sets next : UsenetSets} {package : PackageId} {failure : Failure}
  {redact : String → String} {ending : DownloadRow → DownloadRow} {row : DownloadRow}

/-- Every state is over, waits, runs or is blocked. -/
theorem DownloadRow.phases (row : DownloadRow) :
    isOver row.state ∨ row.isGivenUp ∨ row.isRunning ∨ row.state = .blocked := by
  cases hgiven : row.isGivenUp with
  | true => exact .inr (.inl rfl)
  | false =>
    cases hstate : row.state <;>
      simp_all [isOver, isRunning, isGivenUp, DownloadState.holdsTheFile, DownloadState.isWorking]

/-- What the write and the endings make of a row. -/
def settledRow (ending : DownloadRow → DownloadRow) (failure : Failure) (row : DownloadRow) :
    DownloadRow :=
  if row.isGivenUp then row.failWith failure else if row.isRunning then ending row else row

theorem failWith_not_running (failure : Failure) (row : DownloadRow) :
    (row.failWith failure).isRunning = false := by
  simp [DownloadRow.isRunning, DownloadRow.failWith, DownloadState.holdsTheFile,
    DownloadState.isWorking]

theorem inPackage_failHopeless
    (h : sets.failHopeless redact package failure = .ok (next, events)) :
    afterEndings ending (next.downloads.inPackage package) =
      (sets.downloads.inPackage package).map (settledRow ending (failure.redacted redact)) := by
  unfold UsenetSets.failHopeless at h
  dsimp only at h
  split at h
  · cases h
  · cases h
    rw [afterEndings, DownloadTable.inPackage, DownloadTable.inPackage, DownloadTable.updateAll,
      List.filter_map, List.map_map]
    have hpackage : ((fun row : DownloadRow => decide (row.packageId = package)) ∘ fun row =>
        if (decide (row.packageId = package) && row.isGivenUp) = true then
          row.failWith (failure.redacted redact) else row) =
        fun row => decide (row.packageId = package) := by
      funext row
      simp only [Function.comp_apply]
      split <;> rfl
    rw [hpackage]
    apply List.map_congr_left
    intro row hrow
    have hmem : row.packageId = package := of_decide_eq_true (List.mem_filter.mp hrow).2
    simp only [Function.comp_apply, settledRow, hmem, decide_true, Bool.true_and]
    cases hgiven : row.isGivenUp with
    | true => simp [failWith_not_running]
    | false => rfl

theorem settledRow_isOver (hending : Endings ending) :
    isOver (settledRow ending failure row).state ↔ row.state ≠ .blocked := by
  rw [settledRow]
  split
  · next hgiven =>
    refine iff_of_true rfl fun hblocked => ?_
    simp [DownloadRow.isGivenUp, hblocked] at hgiven
  · next hgiven =>
    split
    · next hrunning =>
      refine iff_of_true ?_ fun hblocked => ?_
      · rcases hending row hrunning with h | h | h <;> rw [h] <;> rfl
      · simp [DownloadRow.isRunning, hblocked, DownloadState.holdsTheFile,
          DownloadState.isWorking] at hrunning
    · next hrunning =>
      refine ⟨fun hover hblocked => ?_, fun hne => ?_⟩
      · rw [hblocked] at hover
        cases hover
      · exact row.phases.resolve_right fun h => h.elim hgiven fun h => h.elim hrunning hne

theorem settledRow_isHopeless (hcode : failure.code = some usenetJobHopeless) :
    (settledRow ending failure row).isHopeless ↔
      row.isGivenUp ∨ row.isHopeless ∨ row.isRunning ∧ (ending row).isHopeless := by
  rw [settledRow]
  split
  · next hgiven =>
    refine iff_of_true ?_ (.inl hgiven)
    simp [DownloadRow.isHopeless, DownloadRow.failWith, hcode]
  · next hgiven =>
    split
    · next hrunning =>
      have hnot : row.isHopeless = false := by
        cases hstate : row.state <;> simp_all [DownloadRow.isHopeless, DownloadRow.isRunning,
          DownloadState.holdsTheFile, DownloadState.isWorking]
      simp [hgiven, hrunning, hnot]
    · next hrunning => simp [hgiven, hrunning]

/-- A set reads as given up exactly when none of its rows was blocked and one of them fails for
it. -/
theorem gaveUp_iff_canBeGivenUp (hending : Endings ending)
    (hcode : failure.code = some usenetJobHopeless)
    (h : sets.failHopeless redact package failure = .ok (next, events)) :
    gaveUp (afterEndings ending (next.downloads.inPackage package)) ↔
      CanBeGivenUp ending (sets.downloads.inPackage package) := by
  rw [inPackage_failHopeless h, gaveUp, Bool.and_eq_true, List.all_map, List.any_map,
    List.all_eq_true, List.any_eq_true]
  refine and_congr (forall₂_congr fun row _ => settledRow_isOver hending)
    (exists_congr fun row => and_congr_right fun _ => settledRow_isHopeless hcode)

/-- A package with one row that waits, one that is paused and one in the given state. -/
def threeRows (third : DownloadState) : UsenetSets where
  packages := [(1, none)]
  downloads := {
    rows := [{ id := 1, packageId := 1, state := .queued },
      { id := 2, packageId := 1, state := .paused }, { id := 3, packageId := 1, state := third }]
    keyed := by simp [List.nodup_cons] }

/-- A row that the capacity supervision blocked keeps the package from reading as failed. -/
theorem blocked_row_left :
    ∃ next events,
      (threeRows .blocked).failHopeless id 1 (hopelessFailure 9 4) = .ok (next, events) ∧
      ∀ ending, gaveUp (afterEndings ending (next.downloads.inPackage 1)) = false := by
  refine ⟨_, _, rfl, fun ending => ?_⟩
  rfl

theorem gaveUp_iff_canBeGivenUp_downloading :
    ∃ next events,
      (threeRows .downloading).failHopeless id 1 (hopelessFailure 9 4) = .ok (next, events) ∧
      (gaveUp (afterEndings (·.failWith (hopelessFailure 9 4)) (next.downloads.inPackage 1)) ↔
        CanBeGivenUp (·.failWith (hopelessFailure 9 4))
          ((threeRows .downloading).downloads.inPackage 1)) :=
  ⟨_, _, rfl, gaveUp_iff_canBeGivenUp (fun _ _ => .inr (.inl rfl)) rfl rfl⟩

/-- A package whose set was given up reads as failed, unless post-processing owns it. -/
theorem refreshedState_of_gaveUp {rows : List DownloadRow} (h : gaveUp rows)
    (hcurrent : current ≠ .postprocessing) (usenet : Bool) :
    refreshedState current usenet rows = some .failed := by
  rw [gaveUp, Bool.and_eq_true] at h
  obtain ⟨hover, hhopeless⟩ := h
  obtain ⟨failed, hmem, hfailed⟩ := List.any_eq_true.mp hhopeless
  have hfailed : failed.state = .failed := of_decide_eq_true (Bool.and_eq_true_iff.mp hfailed).1
  unfold refreshedState
  dsimp only
  rw [if_neg, if_neg, if_pos]
  · rw [gaveUp, hover, hhopeless]
    simp
  · simp only [Bool.or_eq_true, Bool.and_eq_true, List.all_eq_true, decide_eq_true_eq, hcurrent,
      or_false, not_and]
    intro _ hall
    rcases hall failed hmem with hstate | hstate
    · cases hfailed.symm.trans hstate
    · cases hfailed.symm.trans hstate
  · simp only [List.any_eq_true, not_exists, not_and]
    intro row hrow
    have := List.all_eq_true.mp hover row hrow
    cases hstate : row.state <;> simp_all [isOver]

end RDownloader
