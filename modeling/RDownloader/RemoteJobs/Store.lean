import RDownloader.RemoteJobs.Row

/-!
# The table of remote jobs

The rows are written by `claim`, by `advance` and by `remove`; a write takes effect whole or is
refused.
-/

namespace RDownloader

structure ClaimRemoteJob where
  id : RemoteJobId
  accountId : JobAccountId
  pluginId : String
  contentKey : String
  sourceKind : RemoteJobSourceKind
  sourceName : Option String
  packageId : Option CollectorPackageId
  deriving DecidableEq, Repr

structure AdvanceRemoteJob where
  state : Option RemoteJobState := none
  remoteId : Option String := none
  jobState : Option (Option String) := none
  entries : Option (List RemoteJobFile) := none
  chosen : Option (List Nat) := none
  progressPermille : Option (Option Nat) := none
  message : Option (Option String) := none
  code : Option (Option String) := none
  nextPollAt : Option (Option Instant) := none
  packageId : Option CollectorPackageId := none
  countSubmitAttempt : Bool := false
  adoptionChecked : Bool := false
  deriving DecidableEq, Repr

/-- The row `claim` writes. -/
def ClaimRemoteJob.row (input : ClaimRemoteJob) (now : Instant) : RemoteJob where
  id := input.id
  accountId := input.accountId
  pluginId := input.pluginId
  contentKey := input.contentKey
  remoteId := none
  state := .submitting
  sourceKind := input.sourceKind
  sourceName := input.sourceName
  submitAttempts := 0
  adoptionChecked := false
  packageId := input.packageId
  entries := []
  chosen := []
  progressPermille := none
  message := none
  code := none
  nextPollAt := some now
  createdAt := now
  updatedAt := now
  jobState := none

/-- The columns `advance` sets. -/
def RemoteJob.advanced (job : RemoteJob) (input : AdvanceRemoteJob) (now : Instant) : RemoteJob :=
  { job with
    state := input.state.getD job.state
    remoteId := input.remoteId.or job.remoteId
    jobState := input.jobState.getD job.jobState
    entries := input.entries.getD job.entries
    chosen := input.chosen.getD job.chosen
    progressPermille := input.progressPermille.getD job.progressPermille
    message := input.message.getD job.message
    code := input.code.getD job.code
    nextPollAt := input.nextPollAt.getD job.nextPollAt
    packageId := input.packageId.or job.packageId
    submitAttempts := job.submitAttempts + if input.countSubmitAttempt then 1 else 0
    adoptionChecked := input.adoptionChecked || job.adoptionChecked
    updatedAt := now }

namespace RemoteJobStore

/-- The row of one remote job. -/
def fetch (rows : List RemoteJob) (id : RemoteJobId) : Option RemoteJob :=
  rows.find? (·.id = id)

/-- `claim`: the identifier is the primary key, the content is unique for each account, and the
account is there. -/
def claim (accounts : List JobAccountId) (rows : List RemoteJob) (input : ClaimRemoteJob)
    (now : Instant) : Except String (List RemoteJob) :=
  if rows.any fun row => row.accountId = input.accountId ∧ row.contentKey = input.contentKey then
    .error "this account already has a remote job for that content"
  else if rows.any (·.id = input.id) then .error "UNIQUE constraint failed: remote_jobs.id"
  else if input.accountId ∉ accounts then .error "FOREIGN KEY constraint failed"
  else .ok (rows ++ [input.row now])

def advance (rows : List RemoteJob) (id : RemoteJobId) (input : AdvanceRemoteJob) (now : Instant) :
    Except String (List RemoteJob) :=
  match fetch rows id with
  | none => .error s!"no remote job {id}"
  | some current =>
    match input.state.filter (!current.state.mayAdvanceTo ·) with
    | some next =>
      .error s!"a remote job in {current.state.asStr} may not move to {next.asStr}"
    | none =>
      -- The identifier is written once and never rewritten.
      if input.remoteId.any fun remote => current.remoteId.any (· ≠ remote) then
        .error s!"remote job {id} already names another job at the provider"
      else
        .ok (rows.map fun row => if row.id = id then row.advanced input now else row)

/-- The jobs `due` finds, which it answers oldest first. -/
def dueJobs (rows : List RemoteJob) (now : Instant) : List RemoteJob :=
  rows.filter fun row => row.state.isPolled && row.nextPollAt.all (· ≤ now)

def remove (rows : List RemoteJob) (id : RemoteJobId) : List RemoteJob :=
  rows.filter (·.id ≠ id)

/-! ## What the writes leave -/

variable {rows rows' : List RemoteJob} {id : RemoteJobId} {job row : RemoteJob}
  {input : AdvanceRemoteJob} {now : Instant}

theorem mem_of_fetch (h : fetch rows id = some job) : job ∈ rows ∧ job.id = id := by
  rw [fetch] at h
  exact ⟨List.mem_of_find?_eq_some h, by simpa using List.find?_some h⟩

theorem fetch_of_mem (hnodup : (rows.map (·.id)).Nodup) (h : job ∈ rows) :
    fetch rows job.id = some job := by
  induction rows with
  | nil => cases h
  | cons row rows ih =>
    rw [List.map_cons, List.nodup_cons] at hnodup
    rw [fetch, List.find?_cons]
    rcases List.mem_cons.mp h with rfl | h
    · rw [decide_eq_true rfl]
    · have hne : row.id ≠ job.id := fun heq => hnodup.1 (heq ▸ List.mem_map_of_mem h)
      rw [decide_eq_false hne]
      exact ih hnodup.2 h

theorem fetch_isSome : (fetch rows id).isSome ↔ ∃ job ∈ rows, job.id = id := by
  simp [fetch, List.find?_isSome]

@[simp] theorem advanced_id : (job.advanced input now).id = job.id := rfl

@[simp] theorem advanced_remoteId :
    (job.advanced input now).remoteId = input.remoteId.or job.remoteId := rfl

@[simp] theorem advanced_submitAttempts : (job.advanced input now).submitAttempts =
    job.submitAttempts + if input.countSubmitAttempt then 1 else 0 := rfl

@[simp] theorem advanced_adoptionChecked :
    (job.advanced input now).adoptionChecked = (input.adoptionChecked || job.adoptionChecked) := rfl

/-- The row is there, and it names no other job than the one it is told to name. -/
theorem advance_eq_ok (h : advance rows id input now = .ok rows') :
    ∃ current, fetch rows id = some current ∧
      (∀ next, input.state = some next → current.state.mayAdvanceTo next) ∧
      (∀ remote known, input.remoteId = some remote → current.remoteId = some known →
        known = remote) ∧
      rows' = rows.map fun row => if row.id = id then row.advanced input now else row := by
  rw [advance] at h
  cases hcurrent : fetch rows id with
  | none => simp [hcurrent] at h
  | some current =>
    simp only [hcurrent] at h
    split at h
    · cases h
    · rename_i hstate
      split at h
      · cases h
      · rename_i hremote
        refine ⟨current, rfl, fun next hnext => ?_, fun remote known hinput hknown => ?_,
          (Except.ok.inj h).symm⟩
        · simpa [hnext] using hstate
        · simpa [hinput, hknown] using hremote

/-- A write to one row leaves the others as they are. -/
theorem mem_advance (h : advance rows id input now = .ok rows') (hmem : row ∈ rows') :
    row.id ≠ id ∧ row ∈ rows ∨
      ∃ current ∈ rows, current.id = id ∧ row = current.advanced input now := by
  obtain ⟨-, -, -, -, rfl⟩ := advance_eq_ok h
  obtain ⟨before, hbefore, rfl⟩ := List.mem_map.mp hmem
  split
  · exact .inr ⟨before, hbefore, ‹_›, rfl⟩
  · exact .inl ⟨‹_›, hbefore⟩

theorem map_id_advance (h : advance rows id input now = .ok rows') :
    rows'.map (·.id) = rows.map (·.id) := by
  obtain ⟨-, -, -, -, rfl⟩ := advance_eq_ok h
  rw [List.map_map]
  refine List.map_congr_left fun row _ => ?_
  simp only [Function.comp_apply]
  split <;> rfl

/-- Once a row names a job at the provider, no write makes it name another. -/
theorem remoteId_advance (hnodup : (rows.map (·.id)).Nodup)
    (h : advance rows id input now = .ok rows') {current : RemoteJob} (hmem : current ∈ rows)
    (hid : current.id = id) (hremote : current.remoteId = some remote) :
    (current.advanced input now).remoteId = some remote := by
  obtain ⟨found, hfound, -, hknown, -⟩ := advance_eq_ok h
  obtain rfl : current = found :=
    Option.some.inj ((fetch_of_mem hnodup hmem).symm.trans (hid ▸ hfound))
  rw [advanced_remoteId]
  cases hinput : input.remoteId with
  | none => rw [Option.none_or, hremote]
  | some named => rw [Option.some_or, ← hknown named remote hinput hremote]

/-- A refused write changes nothing, so what is asked of it is asked of the rows as they are. -/
def afterAdvance (rows : List RemoteJob) (id : RemoteJobId) (input : AdvanceRemoteJob)
    (now : Instant) : List RemoteJob :=
  match advance rows id input now with
  | .ok rows => rows
  | .error _ => rows

theorem mem_afterAdvance (hmem : row ∈ afterAdvance rows id input now) :
    row ∈ rows ∨ ∃ current ∈ rows, current.id = id ∧ row = current.advanced input now ∧
      advance rows id input now = .ok (afterAdvance rows id input now) := by
  rw [afterAdvance] at hmem ⊢
  cases hadvance : advance rows id input now with
  | error message => simpa only [hadvance, reduceCtorEq, and_false, exists_false, or_false] using hmem
  | ok rows' =>
    simp only [hadvance] at hmem ⊢
    rcases mem_advance hadvance hmem with ⟨-, hrow⟩ | ⟨current, hcurrent, hid, rfl⟩
    · exact .inl hrow
    · exact .inr ⟨current, hcurrent, hid, rfl, trivial⟩

theorem map_id_afterAdvance : (afterAdvance rows id input now).map (·.id) = rows.map (·.id) := by
  rw [afterAdvance]
  cases hadvance : advance rows id input now with
  | error message => rfl
  | ok rows' => exact map_id_advance hadvance

/-- The row a claim writes is new, by its identifier too. -/
theorem claim_eq_ok {input : ClaimRemoteJob} (h : claim accounts rows input now = .ok rows') :
    rows' = rows ++ [input.row now] ∧ ∀ row ∈ rows, row.id ≠ input.id := by
  rw [claim] at h
  split at h
  · cases h
  · split at h
    · cases h
    · rename_i hid
      split at h
      · cases h
      · exact ⟨(Except.ok.inj h).symm, by simpa using hid⟩

end RemoteJobStore

end RDownloader
