import RDownloader.RemoteJobs.Sweep

/-!
# How often a remote job is submitted

Whatever the providers answer, wherever the process stops and whatever is requested meanwhile, a
row is submitted at most `maxSubmitAttempts` times, never while it names a job, and a second time
only after its plugin was asked and held nothing. The row counts an attempt before it is made, so
its count is never behind, and the rows a sweep has still before it are as it read them.
-/

namespace RDownloader

open RemoteJobStore

variable {calls : List PluginCall} {call : PluginCall} {id : RemoteJobId}
  {rows rows' : List RemoteJob} {job row : RemoteJob} {input : AdvanceRemoteJob}
  {now clock : Instant}

/-! ## What has been asked of the plugins -/

namespace PluginCall

def submits (id : RemoteJobId) : PluginCall → Bool
  | submit job _ => job = id
  | _ => false

end PluginCall

namespace RemoteJobs

def submitCount (id : RemoteJobId) (calls : List PluginCall) : Nat := calls.countP (·.submits id)

/-- What has been asked since the job was last submitted. -/
def sinceSubmit (id : RemoteJobId) (calls : List PluginCall) : List PluginCall :=
  calls.takeWhile (!·.submits id)

/-- Since the job was last submitted, its plugin was asked what it holds, and held nothing. -/
def HeldNothing (id : RemoteJobId) (calls : List PluginCall) : Prop :=
  List.Sublist [.nothingHeld id, .adopt id] (sinceSubmit id calls)

/-- Every submit came while the row named no job, and a later one only after the plugin was asked. -/
def Careful (calls : List PluginCall) : Prop :=
  ∀ later id named earlier, calls = later ++ .submit id named :: earlier →
    named = none ∧ (0 < submitCount id earlier → HeldNothing id earlier)

theorem submitCount_cons_of_not (h : call.submits id = false) :
    submitCount id (call :: calls) = submitCount id calls := by
  rw [submitCount, List.countP_cons_of_neg (by simp [h]), submitCount]

theorem submitCount_submit :
    submitCount id (.submit id named :: calls) = submitCount id calls + 1 := by
  rw [submitCount, List.countP_cons_of_pos (by simp [PluginCall.submits]), submitCount]

theorem sinceSubmit_cons_of_not (h : call.submits id = false) :
    sinceSubmit id (call :: calls) = call :: sinceSubmit id calls := by
  rw [sinceSubmit, List.takeWhile_cons_of_pos (by simp [h]), sinceSubmit]

theorem HeldNothing.cons (h : HeldNothing id calls) (hcall : call.submits id = false) :
    HeldNothing id (call :: calls) := by
  rw [HeldNothing, sinceSubmit_cons_of_not hcall]
  exact List.Sublist.cons _ h

theorem heldNothing_of_adopt (h : List.Sublist [.adopt id] (sinceSubmit id calls)) :
    HeldNothing id (.nothingHeld id :: calls) := by
  rw [HeldNothing, sinceSubmit_cons_of_not rfl]
  exact List.Sublist.cons_cons _ h

theorem careful_cons : Careful (call :: calls) ↔ Careful calls ∧
    ∀ id named, call = .submit id named →
      named = none ∧ (0 < submitCount id calls → HeldNothing id calls) := by
  constructor
  · intro h
    exact ⟨fun later id named earlier hcalls => h (call :: later) id named earlier (by rw [hcalls]; rfl),
      fun id named hcall => h [] id named calls (by rw [hcall]; rfl)⟩
  · rintro ⟨hcalls, hcall⟩ later id named earlier heq
    cases later with
    | nil =>
      obtain ⟨hsubmit, rfl⟩ := List.cons.inj heq
      exact hcall id named hsubmit
    | cons last later =>
      exact hcalls later id named earlier (List.cons.inj heq).2

/-! ## What the rows know of it -/

/-- The row has counted every submit, and it is right about the plugin having been asked. -/
structure Accounted (calls : List PluginCall) (job : RemoteJob) : Prop where
  counted : submitCount job.id calls ≤ job.submitAttempts
  bounded : job.submitAttempts ≤ maxSubmitAttempts
  unasked : job.submitAttempts = 0 → job.adoptionChecked = false
  asked : job.adoptionChecked → job.remoteId = none → job.submitAttempts < maxSubmitAttempts →
    0 < submitCount job.id calls → HeldNothing job.id calls

/-- The row agrees with what was read of it earlier. -/
structure AsRead (job row : RemoteJob) : Prop where
  remoteId : row.remoteId = job.remoteId
  submitAttempts : row.submitAttempts = job.submitAttempts
  adoptionChecked : row.adoptionChecked = job.adoptionChecked

/-- The row of a job, if it is still there, is as it was read. -/
def Current (rows : List RemoteJob) (job : RemoteJob) : Prop :=
  ∀ row ∈ rows, row.id = job.id → AsRead job row

/-- The job may be submitted once more, and its row has counted that. -/
structure MaySubmit (rows : List RemoteJob) (calls : List PluginCall) (id : RemoteJobId) : Prop where
  bounded : submitCount id calls < maxSubmitAttempts
  asked : 0 < submitCount id calls → HeldNothing id calls
  unnamed : ∀ row ∈ rows, row.id = id → row.remoteId = none
  counted : ∀ row ∈ rows, row.id = id → submitCount id calls < row.submitAttempts
  last : ∀ row ∈ rows, row.id = id → row.adoptionChecked → row.submitAttempts = maxSubmitAttempts

/-- The job has been submitted before. -/
def Tried (rows : List RemoteJob) (id : RemoteJobId) : Prop :=
  ∀ row ∈ rows, row.id = id → row.submitAttempts ≠ 0

/-- What is written counts no attempt, and says only what was found out. -/
structure Truthful (rows : List RemoteJob) (calls : List PluginCall) (id : RemoteJobId)
    (input : AdvanceRemoteJob) : Prop where
  uncounted : input.countSubmitAttempt = false
  tried : input.adoptionChecked → Tried rows id
  found : input.adoptionChecked → input.remoteId = none → HeldNothing id calls

end RemoteJobs

open RemoteJobs

namespace Driving

def Sound (rows : List RemoteJob) (calls : List PluginCall) : Driving → Prop
  | reading job | counting job => job.submitStep = .submit ∧ Current rows job
  | submitting job => MaySubmit rows calls job.id
  | adopting job => Tried rows job.id
  | adopted job => Tried rows job.id ∧ List.Sublist [.adopt job.id] (sinceSubmit job.id calls)
  | writing job input => Truthful rows calls job.id input
  | submitted _ | polling .. | polled _ | handingOver _ => True

end Driving

namespace JobSweep

/-- The jobs the sweep has still before it. -/
def ahead : JobSweep → List RemoteJob
  | waiting => []
  | due _ queue | between _ _ queue | driving _ _ queue _ => queue

/-- The job the sweep drives and those before it. -/
def inHand : JobSweep → List RemoteJob
  | driving _ _ queue at_ => at_.job :: queue
  | sweep => sweep.ahead

def DrivingSound (rows : List RemoteJob) (calls : List PluginCall) : JobSweep → Prop
  | driving _ _ _ at_ => at_.Sound rows calls
  | _ => True

end JobSweep

structure RemoteJobs.Sound (jobs : RemoteJobs) : Prop where
  nodup : (jobs.rows.map (·.id)).Nodup
  claimed : ∀ job ∈ jobs.rows, job.id ∈ jobs.claimed
  unclaimed : ∀ id ∉ jobs.claimed, submitCount id jobs.calls = 0
  bounded : ∀ id, submitCount id jobs.calls ≤ maxSubmitAttempts
  careful : Careful jobs.calls
  accounted : ∀ job ∈ jobs.rows, Accounted jobs.calls job
  once : (jobs.sweep.inHand.map (·.id)).Nodup
  known : ∀ job ∈ jobs.sweep.inHand, job.id ∈ jobs.claimed
  current : ∀ job ∈ jobs.sweep.ahead, Current jobs.rows job
  driving : jobs.sweep.DrivingSound jobs.rows jobs.calls

/-! ## Rows that say the same -/

namespace RemoteJobs

/-- A row under this identifier was there before, and says the same of its submits. -/
def Kept (id : RemoteJobId) (rows rows' : List RemoteJob) : Prop :=
  ∀ row' ∈ rows', row'.id = id → ∃ row ∈ rows, row.id = id ∧ AsRead row row'

theorem AsRead.refl (job : RemoteJob) : AsRead job job := ⟨rfl, rfl, rfl⟩

theorem AsRead.trans (h : AsRead job row) (h' : AsRead row row') : AsRead job row' :=
  ⟨h'.remoteId.trans h.remoteId, h'.submitAttempts.trans h.submitAttempts,
    h'.adoptionChecked.trans h.adoptionChecked⟩

theorem Kept.of_subset (h : rows' ⊆ rows) : Kept id rows rows' :=
  fun row hrow hid => ⟨row, h hrow, hid, .refl row⟩

/-- A request writes nothing that the submits are decided by. -/
theorem kept_request (request : JobRequest) :
    Kept id rows (afterAdvance rows request.job (request.write clock) clock) := by
  intro row hrow hid
  rcases mem_afterAdvance hrow with hrow | ⟨current, hcurrent, -, rfl, -⟩
  · exact ⟨row, hrow, hid, .refl row⟩
  · refine ⟨current, hcurrent, hid, ?_⟩
    cases request <;> exact ⟨Option.none_or, rfl, rfl⟩

theorem Accounted.asRead (h : Accounted calls row) (hid : row.id = job.id) (hread : AsRead row job) :
    Accounted calls job where
  counted := by rw [← hid, hread.submitAttempts]; exact h.counted
  bounded := by rw [hread.submitAttempts]; exact h.bounded
  unasked := by rw [hread.submitAttempts, hread.adoptionChecked]; exact h.unasked
  asked := by
    rw [← hid, hread.submitAttempts, hread.adoptionChecked, hread.remoteId]
    exact h.asked

theorem Current.kept (h : Current rows job) (hkept : Kept job.id rows rows') :
    Current rows' job := by
  intro row' hrow' hid
  obtain ⟨row, hrow, hsame, hread⟩ := hkept row' hrow' hid
  exact (h row hrow hsame).trans hread

theorem Tried.kept (h : Tried rows id) (hkept : Kept id rows rows') : Tried rows' id := by
  intro row' hrow' hid
  obtain ⟨row, hrow, hsame, hread⟩ := hkept row' hrow' hid
  rw [hread.submitAttempts]
  exact h row hrow hsame

theorem MaySubmit.kept (h : MaySubmit rows calls id) (hkept : Kept id rows rows') :
    MaySubmit rows' calls id where
  bounded := h.bounded
  asked := h.asked
  unnamed row' hrow' hid := by
    obtain ⟨row, hrow, hsame, hread⟩ := hkept row' hrow' hid
    rw [hread.remoteId]
    exact h.unnamed row hrow hsame
  counted row' hrow' hid := by
    obtain ⟨row, hrow, hsame, hread⟩ := hkept row' hrow' hid
    rw [hread.submitAttempts]
    exact h.counted row hrow hsame
  last row' hrow' hid := by
    obtain ⟨row, hrow, hsame, hread⟩ := hkept row' hrow' hid
    rw [hread.submitAttempts, hread.adoptionChecked]
    exact h.last row hrow hsame

theorem sound_kept {at_ : Driving} (h : at_.Sound rows calls) (hkept : Kept at_.job.id rows rows') :
    at_.Sound rows' calls := by
  cases at_ with
  | reading | counting => exact ⟨h.1, h.2.kept hkept⟩
  | submitting => exact MaySubmit.kept h hkept
  | adopting => exact Tried.kept h hkept
  | adopted => exact ⟨h.1.kept hkept, h.2⟩
  | writing => exact ⟨h.uncounted, fun hchecked => (h.tried hchecked).kept hkept, h.found⟩
  | submitted | polling | polled | handingOver => trivial

theorem drivingSound_kept {sweep : JobSweep} (h : sweep.DrivingSound rows calls)
    (hkept : ∀ job ∈ sweep.inHand, Kept job.id rows rows') : sweep.DrivingSound rows' calls := by
  cases sweep with
  | driving now accounts queue at_ => exact sound_kept h (hkept at_.job (List.mem_cons_self ..))
  | waiting | due | between => trivial

theorem ahead_subset_inHand (sweep : JobSweep) : sweep.ahead ⊆ sweep.inHand := by
  cases sweep with
  | driving now accounts queue at_ => exact List.subset_cons_self ..
  | waiting | due | between => exact List.Subset.refl _

/-! ## What a step keeps -/

variable {jobs next : RemoteJobs} {accounts : List JobAccountId} {queue : List RemoteJob}
  {at_ : Driving}

theorem Sound.keepRows (h : jobs.Sound) (hkept : ∀ id, Kept id jobs.rows rows)
    (hnodup : (rows.map (·.id)).Nodup) (accounts : List JobAccountId)
    (requests : List JobRequest) :
    { jobs with rows, accounts, requests : RemoteJobs }.Sound where
  nodup := hnodup
  claimed job hjob := by
    obtain ⟨row, hrow, hid, -⟩ := hkept job.id job hjob rfl
    exact hid ▸ h.claimed row hrow
  unclaimed := h.unclaimed
  bounded := h.bounded
  careful := h.careful
  accounted job hjob := by
    obtain ⟨row, hrow, hid, hread⟩ := hkept job.id job hjob rfl
    exact (h.accounted row hrow).asRead hid hread
  once := h.once
  known := h.known
  current job hjob := (h.current job hjob).kept (hkept job.id)
  driving := drivingSound_kept h.driving fun job _ => hkept job.id

theorem Sound.filterRows (h : jobs.Sound) (keeps : RemoteJob → Bool)
    (accounts : List JobAccountId) :
    { jobs with rows := jobs.rows.filter keeps, accounts : RemoteJobs }.Sound :=
  h.keepRows (fun _ => .of_subset List.filter_sublist.subset)
    (h.nodup.sublist (List.filter_sublist.map _)) accounts jobs.requests

/-- The sweep is done with a row, and leaves it to the next pass. -/
theorem Sound.rowDone (h : jobs.Sound) (hsweep : jobs.sweep = .driving now accounts queue at_) :
    (jobs.rowDone now accounts queue).Sound where
  nodup := h.nodup
  claimed := h.claimed
  unclaimed := h.unclaimed
  bounded := h.bounded
  careful := h.careful
  accounted := h.accounted
  once := by
    have honce := h.once
    rw [hsweep] at honce
    exact (List.nodup_cons.mp honce).2
  known job hjob := h.known job (by rw [hsweep]; exact List.mem_cons_of_mem _ hjob)
  current job hjob := h.current job (by rw [hsweep]; exact hjob)
  driving := trivial

/-- The sweep goes on with the same row. -/
theorem Sound.driveOn (h : jobs.Sound) (hsweep : jobs.sweep = .driving now accounts queue at_)
    {then_ : Driving} (hjob : then_.job = at_.job) (hthen : then_.Sound jobs.rows jobs.calls) :
    { jobs with sweep := .driving now accounts queue then_ : RemoteJobs }.Sound where
  nodup := h.nodup
  claimed := h.claimed
  unclaimed := h.unclaimed
  bounded := h.bounded
  careful := h.careful
  accounted := h.accounted
  once := by
    have honce := h.once
    rw [hsweep] at honce
    simpa only [JobSweep.inHand, hjob] using honce
  known := by
    have hknown := h.known
    rw [hsweep] at hknown
    simpa only [JobSweep.inHand, hjob] using hknown
  current := by
    have hcurrent := h.current
    rw [hsweep] at hcurrent
    exact hcurrent
  driving := hthen

/-- The sweep starts with the row it read. -/
theorem Sound.start (h : jobs.Sound) (hsweep : jobs.sweep = .between now accounts (job :: queue))
    {then_ : Driving} (hjob : then_.job = job) (hthen : then_.Sound jobs.rows jobs.calls) :
    { jobs with sweep := .driving now accounts queue then_ : RemoteJobs }.Sound where
  nodup := h.nodup
  claimed := h.claimed
  unclaimed := h.unclaimed
  bounded := h.bounded
  careful := h.careful
  accounted := h.accounted
  once := by
    have honce := h.once
    rw [hsweep] at honce
    simpa only [JobSweep.inHand, JobSweep.ahead, hjob] using honce
  known := by
    have hknown := h.known
    rw [hsweep] at hknown
    simpa only [JobSweep.inHand, JobSweep.ahead, hjob] using hknown
  current other hother := h.current other (by rw [hsweep]; exact List.mem_cons_of_mem _ hother)
  driving := hthen

/-- The rows the sweep has still before it are not the one it writes. -/
theorem Sound.current_afterWrite (h : jobs.Sound)
    (hsweep : jobs.sweep = .driving now accounts queue at_) (hjob : job ∈ queue)
    (hwritten : ∀ row ∈ rows, row.id ≠ at_.job.id → row ∈ jobs.rows) : Current rows job := by
  intro row hrow hid
  have honce := h.once
  rw [hsweep] at honce
  have hne : job.id ≠ at_.job.id :=
    fun heq => (List.nodup_cons.mp honce).1 (List.mem_map.mpr ⟨job, hjob, heq⟩)
  refine h.current job (by rw [hsweep]; exact hjob) row (hwritten row hrow ?_) hid
  rwa [hid]

/-- What is known of a job that is being submitted, once its attempt has been counted. -/
theorem maySubmit_advance (haccounted : ∀ row ∈ rows, Accounted calls row)
    (hstep : job.submitStep = .submit) (hcurrent : Current rows job)
    (hadvance : advance rows job.id { countSubmitAttempt := true } clock = .ok rows') :
    MaySubmit rows' calls job.id := by
  obtain ⟨current, hfetch, -⟩ := advance_eq_ok hadvance
  obtain ⟨hmem, hid⟩ := mem_of_fetch hfetch
  obtain ⟨hremote, hallowed⟩ := RemoteJob.submitStep_eq_submit.mp hstep
  -- Every row under this identifier is as the job was read, with one attempt more.
  have hrows : ∀ row ∈ rows', row.id = job.id → ∃ before ∈ rows, before.id = job.id ∧
      AsRead job before ∧ row = before.advanced { countSubmitAttempt := true } clock := by
    intro row hrow hrowId
    rcases mem_advance hadvance hrow with ⟨hne, -⟩ | ⟨before, hbefore, hbeforeId, rfl⟩
    · exact absurd hrowId hne
    · exact ⟨before, hbefore, hbeforeId, hcurrent before hbefore hbeforeId, rfl⟩
  have hread := hcurrent current hmem hid
  have haccount := haccounted current hmem
  have hcounted := hid ▸ haccount.counted
  rw [hread.submitAttempts] at hcounted
  have hattempts : job.submitAttempts < maxSubmitAttempts := by
    rcases hallowed with hzero | ⟨-, hlt⟩
    · rw [hzero]; decide
    · exact hlt
  refine ⟨by omega, fun hpos => ?_, ?_, ?_, ?_⟩
  · rcases hallowed with hzero | ⟨hchecked, -⟩
    · omega
    · rw [← hid]
      exact haccount.asked (hread.adoptionChecked.trans hchecked) (hread.remoteId.trans hremote)
        (hread.submitAttempts ▸ hattempts) (hid.symm ▸ hpos)
  · intro row hrow hrowId
    obtain ⟨before, -, -, hbefore, rfl⟩ := hrows row hrow hrowId
    exact hbefore.remoteId.trans hremote
  · intro row hrow hrowId
    obtain ⟨before, -, -, hbefore, rfl⟩ := hrows row hrow hrowId
    rw [advanced_submitAttempts, hbefore.submitAttempts]
    exact Nat.lt_succ_of_le hcounted
  · intro row hrow hrowId hchecked
    obtain ⟨before, hmemBefore, -, hbefore, rfl⟩ := hrows row hrow hrowId
    rw [advanced_submitAttempts, hbefore.submitAttempts]
    -- A row that has been asked about was tried before, so this is the last attempt.
    have hne : job.submitAttempts ≠ 0 := by
      intro hzero
      have := (haccounted before hmemBefore).unasked (hbefore.submitAttempts.trans hzero)
      simp [this] at hchecked
    have : maxSubmitAttempts = 2 := rfl
    simp only [if_true]
    omega

/-- Counting an attempt keeps what is known, and lets it be made. -/
theorem Sound.count (h : jobs.Sound)
    (hsweep : jobs.sweep = .driving now accounts queue (.counting job))
    (hadvance : advance jobs.rows job.id { countSubmitAttempt := true } clock = .ok rows) :
    { jobs with rows, sweep := .driving now accounts queue (.submitting job) : RemoteJobs }.Sound := by
  have hdriving := h.driving
  have honce := h.once
  have hknown := h.known
  rw [hsweep] at hdriving honce hknown
  have hmay := maySubmit_advance h.accounted hdriving.1 hdriving.2 hadvance
  have hwritten : ∀ row ∈ rows, row.id ≠ job.id → row ∈ jobs.rows := by
    intro row hrow hne
    rcases mem_advance hadvance hrow with ⟨-, hmem⟩ | ⟨before, -, hid, rfl⟩
    · exact hmem
    · exact absurd hid hne
  have hclaimed : ∀ row ∈ rows, ∃ before ∈ jobs.rows, before.id = row.id := by
    intro row hrow
    rcases mem_advance hadvance hrow with ⟨-, hmem⟩ | ⟨before, hbefore, -, rfl⟩
    · exact ⟨row, hmem, rfl⟩
    · exact ⟨before, hbefore, rfl⟩
  refine
    { nodup := by rw [map_id_advance hadvance]; exact h.nodup
      claimed := fun row hrow => ?_
      unclaimed := h.unclaimed
      bounded := h.bounded
      careful := h.careful
      accounted := fun row hrow => ?_
      once := honce
      known := hknown
      current := fun other hother => h.current_afterWrite hsweep hother hwritten
      driving := hmay }
  · obtain ⟨before, hbefore, hid⟩ := hclaimed row hrow
    exact hid ▸ h.claimed before hbefore
  · rcases mem_advance hadvance hrow with ⟨-, hmem⟩ | ⟨before, hbefore, hid, rfl⟩
    · exact h.accounted row hmem
    · have haccount := h.accounted before hbefore
      have hread := hdriving.2 before hbefore hid
      have hlast := hmay.last _ hrow hid
      refine ⟨haccount.counted.trans (Nat.le_add_right ..), ?_, fun hzero => ?_, ?_⟩
      · obtain ⟨-, hzero | ⟨-, hlt⟩⟩ := RemoteJob.submitStep_eq_submit.mp hdriving.1
        · rw [advanced_submitAttempts, hread.submitAttempts, hzero]
          decide
        · rw [advanced_submitAttempts, hread.submitAttempts]
          exact hlt
      · exact absurd hzero (Nat.succ_ne_zero _)
      · intro hchecked _ hlt
        exact absurd (hlast hchecked) (Nat.ne_of_lt hlt)

/-- The last write for a row keeps what is known when it is truthful. -/
theorem Sound.write (h : jobs.Sound)
    (hsweep : jobs.sweep = .driving now accounts queue (.writing job input)) :
    { jobs with
      rows := afterAdvance jobs.rows job.id input clock
      sweep := .between now accounts queue : RemoteJobs }.Sound := by
  have htruthful : Truthful jobs.rows jobs.calls job.id input := by
    have hdriving := h.driving
    rwa [hsweep] at hdriving
  have hdone := h.rowDone hsweep
  refine
    { nodup := by rw [map_id_afterAdvance]; exact h.nodup
      claimed := fun row hrow => ?_
      unclaimed := h.unclaimed
      bounded := h.bounded
      careful := h.careful
      accounted := fun row hrow => ?_
      once := hdone.once
      known := hdone.known
      current := fun other hother => h.current_afterWrite hsweep hother fun row hrow hne => ?_
      driving := trivial }
  · rcases mem_afterAdvance hrow with hmem | ⟨before, hbefore, -, rfl, -⟩
    · exact h.claimed row hmem
    · exact h.claimed before hbefore
  · rcases mem_afterAdvance hrow with hmem | ⟨before, hbefore, hid, rfl, -⟩
    · exact h.accounted row hmem
    · have haccount := h.accounted before hbefore
      have hsame : (before.advanced input clock).submitAttempts = before.submitAttempts := by
        rw [advanced_submitAttempts, htruthful.uncounted]
        rfl
      refine ⟨hsame ▸ haccount.counted, hsame ▸ haccount.bounded, fun hzero => ?_,
        fun hchecked hremote hlt hpos => ?_⟩
      · rw [hsame] at hzero
        rw [advanced_adoptionChecked, haccount.unasked hzero, Bool.or_false]
        by_contra hchecked
        exact htruthful.tried (by simpa using hchecked) before hbefore hid hzero
      · obtain ⟨hinput, hnamed⟩ := Option.or_eq_none_iff.mp hremote
        rw [advanced_adoptionChecked, Bool.or_eq_true] at hchecked
        rcases hchecked with hchecked | hchecked
        · exact hid.symm ▸ htruthful.found hchecked hinput
        · exact haccount.asked hchecked hnamed (hsame ▸ hlt) hpos
  · rcases mem_afterAdvance hrow with hmem | ⟨before, -, hid, rfl, -⟩
    · exact hmem
    · exact absurd hid hne

/-- What is asked besides a submit leaves the submits as they are known. -/
theorem Accounted.cons (h : Accounted calls row) (hcall : call.submits row.id = false) :
    Accounted (call :: calls) row where
  counted := by rw [submitCount_cons_of_not hcall]; exact h.counted
  bounded := h.bounded
  unasked := h.unasked
  asked hchecked hremote hlt hpos := by
    rw [submitCount_cons_of_not hcall] at hpos
    exact (h.asked hchecked hremote hlt hpos).cons hcall

/-- The sweep asks the plugin something else than to submit. -/
theorem Sound.ask (h : jobs.Sound) (hsweep : jobs.sweep = .driving now accounts queue at_)
    (hcall : ∀ id, call.submits id = false) {then_ : Driving} (hjob : then_.job = at_.job)
    (hthen : then_.Sound jobs.rows (call :: jobs.calls)) :
    { jobs with
      sweep := .driving now accounts queue then_
      calls := call :: jobs.calls : RemoteJobs }.Sound := by
  have hcount : ∀ id, submitCount id (call :: jobs.calls) = submitCount id jobs.calls :=
    fun id => submitCount_cons_of_not (hcall id)
  have honce := h.once
  have hknown := h.known
  have hcurrent := h.current
  rw [hsweep] at honce hknown hcurrent
  exact
    { nodup := h.nodup
      claimed := h.claimed
      unclaimed := fun id hid => (hcount id).trans (h.unclaimed id hid)
      bounded := fun id => (hcount id).le.trans (h.bounded id)
      careful := careful_cons.mpr ⟨h.careful, fun id named heq => by
        have := hcall id
        simp [heq, PluginCall.submits] at this⟩
      accounted := fun row hrow => (h.accounted row hrow).cons (hcall row.id)
      once := by simpa only [JobSweep.inHand, hjob] using honce
      known := by simpa only [JobSweep.inHand, hjob] using hknown
      current := hcurrent
      driving := hthen }

theorem submits_of_ne {other : RemoteJobId} (h : id ≠ other) :
    (PluginCall.submit id named).submits other = false := decide_eq_false h

/-- The sweep submits a job that may be submitted. -/
theorem Sound.submit (h : jobs.Sound)
    (hsweep : jobs.sweep = .driving now accounts queue (.submitting job)) :
    { jobs with
      sweep := .driving now accounts queue (.submitted job)
      calls := .submit job.id ((fetch jobs.rows job.id).bind (·.remoteId)) :: jobs.calls :
      RemoteJobs }.Sound := by
  have hmay : MaySubmit jobs.rows jobs.calls job.id := by
    have hdriving := h.driving
    rwa [hsweep] at hdriving
  have honce := h.once
  have hknown := h.known
  have hcurrent := h.current
  rw [hsweep] at honce hknown hcurrent
  refine
    { nodup := h.nodup
      claimed := h.claimed
      unclaimed := fun id hid => ?_
      bounded := fun id => ?_
      careful := careful_cons.mpr ⟨h.careful, fun id named heq => ?_⟩
      accounted := fun row hrow => ?_
      once := honce
      known := hknown
      current := hcurrent
      driving := trivial }
  · have hne : job.id ≠ id :=
      fun heq => hid (heq ▸ hknown job (List.mem_cons_self ..))
    rw [submitCount_cons_of_not (submits_of_ne hne)]
    exact h.unclaimed id hid
  · rcases eq_or_ne job.id id with rfl | hne
    · rw [submitCount_submit]
      exact hmay.bounded
    · rw [submitCount_cons_of_not (submits_of_ne hne)]
      exact h.bounded id
  · obtain ⟨rfl, rfl⟩ := PluginCall.submit.inj heq
    refine ⟨?_, hmay.asked⟩
    cases hfetch : fetch jobs.rows job.id with
    | none => rfl
    | some row =>
      obtain ⟨hrow, hid⟩ := mem_of_fetch hfetch
      exact hmay.unnamed row hrow hid
  · have haccount := h.accounted row hrow
    rcases eq_or_ne job.id row.id with hid | hne
    · have hcounted := hmay.counted row hrow hid.symm
      refine ⟨?_, haccount.bounded, haccount.unasked, fun hchecked _ hlt _ => ?_⟩
      · rw [← hid, submitCount_submit]
        exact hcounted
      · exact absurd (hmay.last row hrow hid.symm hchecked) (Nat.ne_of_lt hlt)
    · exact haccount.cons (submits_of_ne hne)

/-- A new row stands for no submit yet, and nothing that was read is about it. -/
theorem Sound.claim {claimed : ClaimRemoteJob} (h : jobs.Sound) (hnew : claimed.id ∉ jobs.claimed)
    (hclaim : RemoteJobStore.claim jobs.accounts jobs.rows claimed now = .ok rows) :
    { jobs with rows, claimed := claimed.id :: jobs.claimed : RemoteJobs }.Sound := by
  obtain ⟨rfl, hids⟩ := claim_eq_ok hclaim
  have hkept : ∀ job ∈ jobs.sweep.inHand, Kept job.id jobs.rows (jobs.rows ++ [claimed.row now]) := by
    intro job hjob row hrow hid
    rcases List.mem_append.mp hrow with hrow | hrow
    · exact ⟨row, hrow, hid, .refl row⟩
    · obtain rfl := List.mem_singleton.mp hrow
      exact absurd (h.known job hjob) (hid ▸ hnew)
  refine
    { nodup := ?_
      claimed := fun row hrow => ?_
      unclaimed := fun id hid => h.unclaimed id fun hmem => hid (List.mem_cons_of_mem _ hmem)
      bounded := h.bounded
      careful := h.careful
      accounted := fun row hrow => ?_
      once := h.once
      known := fun job hjob => List.mem_cons_of_mem _ (h.known job hjob)
      current := fun job hjob =>
        (h.current job hjob).kept (hkept job (ahead_subset_inHand jobs.sweep hjob))
      driving := drivingSound_kept h.driving hkept }
  · rw [List.map_append, List.nodup_append]
    refine ⟨h.nodup, List.nodup_singleton _, fun id hid other hother heq => ?_⟩
    obtain ⟨row, hrow, rfl⟩ := List.mem_map.mp hid
    obtain rfl := List.mem_singleton.mp hother
    exact hids row hrow heq
  · rcases List.mem_append.mp hrow with hrow | hrow
    · exact List.mem_cons_of_mem _ (h.claimed row hrow)
    · obtain rfl := List.mem_singleton.mp hrow
      exact List.mem_cons_self ..
  · rcases List.mem_append.mp hrow with hrow | hrow
    · exact h.accounted row hrow
    · obtain rfl := List.mem_singleton.mp hrow
      exact ⟨(h.unclaimed _ hnew).le, Nat.zero_le _, fun _ => rfl, nofun⟩

/-- The sweep reads the rows as they are, each once. -/
theorem Sound.tick {due : List RemoteJob} (h : jobs.Sound) (hdue : due.Perm (dueJobs jobs.rows now)) :
    { jobs with sweep := .due now due : RemoteJobs }.Sound := by
  have hmem : ∀ job ∈ due, job ∈ jobs.rows :=
    fun job hjob => (List.mem_filter.mp (hdue.subset hjob)).1
  exact
    { nodup := h.nodup
      claimed := h.claimed
      unclaimed := h.unclaimed
      bounded := h.bounded
      careful := h.careful
      accounted := h.accounted
      once := (hdue.map _).nodup_iff.mpr (h.nodup.sublist (List.filter_sublist.map _))
      known := fun job hjob => h.claimed job (hmem job hjob)
      current := fun job hjob row hrow hid => by
        obtain rfl : row = job := List.inj_on_of_nodup_map h.nodup hrow (hmem job hjob) hid
        exact .refl row
      driving := trivial }

/-- The sweep goes on between two rows, or ends. -/
theorem Sound.between (h : jobs.Sound) (sweep : JobSweep) (hbetween : sweep.inHand = sweep.ahead)
    (hsub : sweep.ahead.Sublist jobs.sweep.ahead) (hdriving : sweep.DrivingSound jobs.rows jobs.calls)
    (hhand : jobs.sweep.inHand = jobs.sweep.ahead) (requests : List JobRequest) :
    { jobs with sweep, requests : RemoteJobs }.Sound where
  nodup := h.nodup
  claimed := h.claimed
  unclaimed := h.unclaimed
  bounded := h.bounded
  careful := h.careful
  accounted := h.accounted
  once := by
    have honce := h.once
    rw [hhand] at honce
    rw [hbetween]
    exact honce.sublist (hsub.map _)
  known job hjob := h.known job (by rw [hhand]; exact hsub.subset (hbetween ▸ hjob))
  current job hjob := h.current job (hsub.subset hjob)
  driving := hdriving

/-! ## What the sweep writes is truthful -/

theorem Truthful.of_unchecked (hcount : input.countSubmitAttempt = false)
    (hchecked : input.adoptionChecked = false) : Truthful rows calls id input where
  uncounted := hcount
  tried h := absurd h (by simp [hchecked])
  found h := absurd h (by simp [hchecked])

theorem truthful_refuse (job : RemoteJob) (refusal : JobRefusal) (now clock : Instant) :
    Truthful rows calls id (refuseWrite job refusal now clock) := by
  rw [refuseWrite]
  split <;> exact .of_unchecked rfl rfl

theorem truthful_submitted (answer : Except JobRefusal RemoteJobHandle) :
    Truthful rows calls id (submittedWrite job answer now clock) := by
  cases answer with
  | ok handle => exact .of_unchecked rfl rfl
  | error refusal => exact truthful_refuse job refusal now clock

theorem truthful_settle {outcome : PollOutcome} (h : settleWrite job outcome now clock = some input) :
    Truthful rows calls id input := by
  cases outcome with
  | preparing | awaitingChoice | working =>
    obtain rfl := Option.some.inj h
    exact .of_unchecked rfl rfl
  | ready => cases h
  | refused refusal =>
    obtain rfl := Option.some.inj h
    exact truthful_refuse job refusal now clock

/-- What the answer to an adoption check writes, when the plugin holds something or refuses. -/
theorem truthful_adopted {answer : Except JobRefusal (Option RemoteJobHandle)}
    (htried : Tried rows id) (hheld : answer = .ok none → HeldNothing id calls) :
    Truthful rows calls id (adoptedWrite job answer now clock) := by
  cases answer with
  | error refusal => exact truthful_refuse job refusal now clock
  | ok handle =>
    cases handle with
    | none => exact ⟨rfl, fun _ => htried, fun _ _ => hheld rfl⟩
    | some handle => exact ⟨rfl, fun _ => htried, nofun⟩

theorem start_job (job : RemoteJob) : (Driving.start job).job = job := by
  rw [Driving.start]
  cases job.submitStep with
  | poll => cases handleOf job <;> rfl
  | submit | adopt | giveUp => rfl

/-- The first step for a row is the one its columns allow. -/
theorem start_sound (hcurrent : Current rows job) : (Driving.start job).Sound rows calls := by
  rw [Driving.start]
  cases hstep : job.submitStep with
  | submit => exact ⟨hstep, hcurrent⟩
  | adopt =>
    intro row hrow hid
    rw [(hcurrent row hrow hid).submitAttempts]
    exact (RemoteJob.submitStep_eq_adopt.mp hstep).2.1
  | giveUp => exact .of_unchecked rfl rfl
  | poll =>
    cases handleOf job with
    | none => exact .of_unchecked rfl rfl
    | some handle => trivial

/-! ## Every step -/

theorem Sound.drive {event : RemoteJobEvent} (h : jobs.Sound)
    (hsweep : jobs.sweep = .driving now accounts queue at_)
    (hstep : jobs.drive now accounts queue at_ event = some next) : next.Sound := by
  have hdriving : at_.Sound jobs.rows jobs.calls := by
    have hdriving := h.driving
    rwa [hsweep] at hdriving
  cases event with
  | failed =>
    have : next = jobs.rowDone now accounts queue := by
      cases at_ <;> exact (Option.some.inj hstep).symm
    exact this ▸ h.rowDone hsweep
  | sourceRead =>
    cases at_ with
    | reading job =>
      rw [RemoteJobs.drive] at hstep
      split at hstep
      · obtain rfl := Option.some.inj hstep
        exact h.driveOn hsweep rfl hdriving
      · obtain rfl := Option.some.inj hstep
        exact h.rowDone hsweep
    | _ => cases hstep
  | attemptCounted clock =>
    cases at_ with
    | counting job =>
      rw [RemoteJobs.drive] at hstep
      cases hadvance : advance jobs.rows job.id { countSubmitAttempt := true } clock with
      | ok rows =>
        rw [hadvance] at hstep
        obtain rfl := Option.some.inj hstep
        exact h.count hsweep hadvance
      | error message =>
        rw [hadvance] at hstep
        obtain rfl := Option.some.inj hstep
        exact h.rowDone hsweep
    | _ => cases hstep
  | notSent refusal clock =>
    cases at_ with
    | submitting | adopting | polling =>
      obtain rfl := Option.some.inj hstep
      exact h.driveOn hsweep rfl (truthful_refuse ..)
    | _ => cases hstep
  | called =>
    cases at_ with
    | submitting job =>
      obtain rfl := Option.some.inj hstep
      exact h.submit hsweep
    | adopting job =>
      obtain rfl := Option.some.inj hstep
      refine h.ask hsweep (fun _ => rfl) rfl ⟨hdriving, ?_⟩
      rw [sinceSubmit_cons_of_not rfl]
      exact (List.nil_sublist _).cons_cons _
    | polling job handle =>
      obtain rfl := Option.some.inj hstep
      exact h.driveOn hsweep rfl trivial
    | _ => cases hstep
  | submitAnswered answer clock =>
    cases at_ with
    | submitted job =>
      obtain rfl := Option.some.inj hstep
      exact h.driveOn hsweep rfl (truthful_submitted answer)
    | _ => cases hstep
  | adoptAnswered answer clock =>
    cases at_ with
    | adopted job =>
      obtain rfl := Option.some.inj hstep
      cases answer with
      | error refusal => exact h.driveOn hsweep rfl (truthful_adopted hdriving.1 nofun)
      | ok held =>
        cases held with
        | some handle => exact h.driveOn hsweep rfl (truthful_adopted hdriving.1 nofun)
        | none =>
          exact h.ask hsweep (fun _ => rfl) rfl
            (truthful_adopted hdriving.1 fun _ => heldNothing_of_adopt hdriving.2)
    | _ => cases hstep
  | pollAnswered outcome pluginName clock =>
    cases at_ with
    | polled job =>
      rw [RemoteJobs.drive] at hstep
      split at hstep
      · rename_i hsettle
        obtain rfl := Option.some.inj hstep
        exact h.driveOn hsweep rfl (truthful_settle hsettle)
      · obtain rfl := Option.some.inj hstep
        exact h.driveOn hsweep rfl trivial
    | _ => cases hstep
  | handedOver packageId =>
    cases at_ with
    | handingOver job =>
      rw [RemoteJobs.drive] at hstep
      split at hstep
      · obtain rfl := Option.some.inj hstep
        exact h.rowDone hsweep
      · split at hstep
        · obtain rfl := Option.some.inj hstep
          exact h.driveOn hsweep rfl (.of_unchecked rfl rfl)
        · obtain rfl := Option.some.inj hstep
          exact h.rowDone hsweep
    | _ => cases hstep
  | written clock =>
    cases at_ with
    | writing job input =>
      obtain rfl := Option.some.inj hstep
      exact h.write hsweep
    | _ => cases hstep
  | _ => cases at_ <;> cases hstep

theorem Sound.sweepStep {event : RemoteJobEvent} (h : jobs.Sound)
    (hstep : jobs.sweepStep event = some next) : next.Sound := by
  unfold RemoteJobs.sweepStep at hstep
  split at hstep
  case h_1 now due hsweep =>
    split at hstep
    · obtain rfl := Option.some.inj hstep
      exact h.tick (And.left ‹_›)
    · cases hstep
  case h_2 now queue hsweep =>
    obtain rfl := Option.some.inj hstep
    exact h.between (.between now jobs.accounts queue) rfl
      (by rw [hsweep]; exact List.Sublist.refl _) trivial (by rw [hsweep]; rfl) jobs.requests
  case h_3 hsweep =>
    obtain rfl := Option.some.inj hstep
    exact h.between .waiting rfl (List.nil_sublist _) trivial (by rw [hsweep]; rfl) jobs.requests
  case h_4 hsweep =>
    obtain rfl := Option.some.inj hstep
    exact h.between .waiting rfl (List.nil_sublist _) trivial (by rw [hsweep]; rfl) jobs.requests
  case h_5 now accounts job queue hsweep =>
    have hcurrent : Current jobs.rows job :=
      h.current job (by rw [hsweep]; exact List.mem_cons_self ..)
    split at hstep
    · obtain rfl := Option.some.inj hstep
      exact h.between (.between now accounts queue) rfl
        (by rw [hsweep]; exact List.sublist_cons_self ..) trivial (by rw [hsweep]; rfl) jobs.requests
    · split at hstep
      · obtain rfl := Option.some.inj hstep
        exact h.start hsweep (start_job job) (start_sound hcurrent)
      · obtain rfl := Option.some.inj hstep
        exact h.start hsweep rfl (.of_unchecked rfl rfl)
  case h_6 hsweep => exact h.drive hsweep hstep
  case h_7 => cases hstep

/-- A claim that is refused has used its identifier up. -/
theorem Sound.claimed_cons (h : jobs.Sound) (id : RemoteJobId) :
    { jobs with claimed := id :: jobs.claimed : RemoteJobs }.Sound :=
  { h with
    claimed := fun job hjob => List.mem_cons_of_mem _ (h.claimed job hjob)
    unclaimed := fun other hother =>
      h.unclaimed other fun hmem => hother (List.mem_cons_of_mem _ hmem)
    known := fun job hjob => List.mem_cons_of_mem _ (h.known job hjob) }

/-- The process ends, and what it had in hand is lost. -/
theorem Sound.stop (h : jobs.Sound) :
    { jobs with sweep := .waiting, requests := [] : RemoteJobs }.Sound :=
  { h with
    once := List.nodup_nil
    known := List.forall_mem_nil _
    current := List.forall_mem_nil _
    driving := trivial }

theorem Sound.step {event : RemoteJobEvent} (h : jobs.Sound)
    (hstep : jobs.step event = some next) : next.Sound := by
  have hsame : ∀ accounts requests, { jobs with accounts, requests : RemoteJobs }.Sound :=
    h.keepRows (fun _ => .of_subset (List.Subset.refl _)) h.nodup
  cases event with
  | accountAdded id =>
    obtain rfl := Option.some.inj hstep
    exact hsame _ _
  | accountDeleted id =>
    obtain rfl := Option.some.inj hstep
    exact h.filterRows _ _
  | claims input now =>
    rw [RemoteJobs.step] at hstep
    split at hstep
    · cases hstep
    · rename_i hnew
      split at hstep
      · rename_i hclaim
        obtain rfl := Option.some.inj hstep
        exact h.claim hnew hclaim
      · obtain rfl := Option.some.inj hstep
        exact h.claimed_cons input.id
  | choose id requested =>
    rw [RemoteJobs.step] at hstep
    split at hstep <;> obtain rfl := Option.some.inj hstep
    · exact hsame _ _
    · exact h
  | discard id confirmed =>
    rw [RemoteJobs.step] at hstep
    split at hstep <;> obtain rfl := Option.some.inj hstep
    · exact hsame _ _
    · exact h
  | taken request now =>
    rw [RemoteJobs.step] at hstep
    split at hstep
    · obtain rfl := Option.some.inj hstep
      exact h.keepRows (fun _ => kept_request request)
        (by rw [map_id_afterAdvance]; exact h.nodup) _ _
    · cases hstep
  | refused request =>
    rw [RemoteJobs.step] at hstep
    split at hstep
    · obtain rfl := Option.some.inj hstep
      exact hsame _ _
    · cases hstep
  | forget id =>
    obtain rfl := Option.some.inj hstep
    exact h.filterRows _ _
  | stopped =>
    obtain rfl := Option.some.inj hstep
    exact h.stop
  | _ => exact h.sweepStep hstep

theorem sound_of_reaches (h : machine.Reaches Machine.anything jobs) : jobs.Sound := by
  refine h.invariant Sound ?_ fun _ _ _ hsound _ hnext => hsound.step hnext
  rintro _ rfl
  exact
    { nodup := List.nodup_nil
      claimed := List.forall_mem_nil _
      unclaimed := fun _ _ => rfl
      bounded := fun _ => Nat.zero_le _
      careful := fun later _ _ _ heq => absurd heq.symm (by simp)
      accounted := List.forall_mem_nil _
      once := List.nodup_nil
      known := List.forall_mem_nil _
      current := List.forall_mem_nil _
      driving := trivial }

/-! ## Every run -/

/-- The row of a job, if it is there, names this job at the provider. -/
def Names (id : RemoteJobId) (remote : String) (jobs : RemoteJobs) : Prop :=
  id ∈ jobs.claimed ∧ ∀ row ∈ jobs.rows, row.id = id → row.remoteId = some remote

/-- What happens to the rows in one step: rows go, a new one comes, or one of them is written. -/
inductive RowsStep (jobs next : RemoteJobs) : Prop
  | subset (hrows : next.rows ⊆ jobs.rows) (hclaimed : jobs.claimed ⊆ next.claimed)
  | claimed (row : RemoteJob) (hrows : next.rows = jobs.rows ++ [row]) (hnew : row.id ∉ jobs.claimed)
      (hclaimed : jobs.claimed ⊆ next.claimed)
  | written (id : RemoteJobId) (input : AdvanceRemoteJob) (clock : Instant)
      (hrows : advance jobs.rows id input clock = .ok next.rows)
      (hclaimed : next.claimed = jobs.claimed)

theorem RowsStep.refl : RowsStep jobs jobs := .subset (List.Subset.refl _) (List.Subset.refl _)

theorem rowsStep_afterAdvance (hrows : next.rows = afterAdvance jobs.rows id input clock)
    (hclaimed : next.claimed = jobs.claimed) : RowsStep jobs next := by
  cases hadvance : advance jobs.rows id input clock with
  | ok rows =>
    rw [afterAdvance, hadvance] at hrows
    exact .written id input clock (hrows ▸ hadvance) hclaimed
  | error message =>
    rw [afterAdvance, hadvance] at hrows
    exact .subset (by rw [hrows]; exact List.Subset.refl _) (by rw [hclaimed]; exact List.Subset.refl _)

theorem rowsStep_of_eq (hrows : next.rows = jobs.rows) (hclaimed : next.claimed = jobs.claimed) :
    RowsStep jobs next :=
  .subset (by rw [hrows]; exact List.Subset.refl _) (by rw [hclaimed]; exact List.Subset.refl _)

theorem rowsStep_of_drive {event : RemoteJobEvent}
    (hstep : jobs.drive now accounts queue at_ event = some next) : RowsStep jobs next := by
  unfold RemoteJobs.drive at hstep
  split at hstep
  case h_2 job clock =>
    split at hstep
    · rename_i hadvance
      obtain rfl := Option.some.inj hstep
      exact .written job.id _ clock hadvance rfl
    · obtain rfl := Option.some.inj hstep
      exact rowsStep_of_eq rfl rfl
  case h_13 job input clock =>
    obtain rfl := Option.some.inj hstep
    exact rowsStep_afterAdvance rfl rfl
  all_goals
    repeat' split at hstep
  all_goals cases hstep
  all_goals exact rowsStep_of_eq rfl rfl

theorem rowsStep_of_sweepStep {event : RemoteJobEvent} (hstep : jobs.sweepStep event = some next) :
    RowsStep jobs next := by
  unfold RemoteJobs.sweepStep at hstep
  split at hstep
  case h_6 => exact rowsStep_of_drive hstep
  all_goals
    repeat' split at hstep
  all_goals cases hstep
  all_goals exact rowsStep_of_eq rfl rfl

theorem rowsStep_of_step {event : RemoteJobEvent} (hstep : jobs.step event = some next) :
    RowsStep jobs next := by
  cases event with
  | claims claimed now =>
    rw [RemoteJobs.step] at hstep
    split at hstep
    · cases hstep
    · rename_i hnew
      split at hstep
      · rename_i hclaim
        obtain rfl := Option.some.inj hstep
        obtain ⟨rfl, -⟩ := claim_eq_ok hclaim
        exact .claimed (claimed.row now) rfl hnew (List.subset_cons_self ..)
      · obtain rfl := Option.some.inj hstep
        exact .subset (List.Subset.refl _) (List.subset_cons_self ..)
  | accountAdded | stopped =>
    obtain rfl := Option.some.inj hstep
    exact rowsStep_of_eq rfl rfl
  | accountDeleted | forget =>
    obtain rfl := Option.some.inj hstep
    exact .subset List.filter_sublist.subset (List.Subset.refl _)
  | choose | discard =>
    rw [RemoteJobs.step] at hstep
    split at hstep <;> obtain rfl := Option.some.inj hstep <;> exact rowsStep_of_eq rfl rfl
  | taken request now =>
    rw [RemoteJobs.step] at hstep
    split at hstep
    · obtain rfl := Option.some.inj hstep
      exact rowsStep_afterAdvance rfl rfl
    · cases hstep
  | refused request =>
    rw [RemoteJobs.step] at hstep
    split at hstep
    · obtain rfl := Option.some.inj hstep
      exact rowsStep_of_eq rfl rfl
    · cases hstep
  | _ => exact rowsStep_of_sweepStep hstep

theorem Names.step {remote : String} (h : Names id remote jobs) (hsound : jobs.Sound)
    (hrows : RowsStep jobs next) : Names id remote next := by
  cases hrows with
  | subset hrows hclaimed =>
    exact ⟨hclaimed h.1, fun row hrow => h.2 row (hrows hrow)⟩
  | claimed new hrows hnew hclaimed =>
    refine ⟨hclaimed h.1, fun row hrow hid => ?_⟩
    rw [hrows] at hrow
    rcases List.mem_append.mp hrow with hrow | hrow
    · exact h.2 row hrow hid
    · obtain rfl := List.mem_singleton.mp hrow
      exact absurd h.1 (hid ▸ hnew)
  | written writtenId input clock hrows hclaimed =>
    refine ⟨hclaimed ▸ h.1, fun row hrow hid => ?_⟩
    rcases mem_advance hrows hrow with ⟨-, hmem⟩ | ⟨current, hmem, hcurrent, rfl⟩
    · exact h.2 row hmem hid
    · exact remoteId_advance hsound.nodup hrows hmem hcurrent (h.2 current hmem hid)

/-- A run leaves a row the job it names. -/
theorem Names.run {remote : String} {events : List RemoteJobEvent}
    (h : Names id remote jobs) (hsound : jobs.Sound) (hrun : machine.run jobs events = some next) :
    Names id remote next := by
  induction events generalizing jobs with
  | nil =>
    obtain rfl := Option.some.inj hrun
    exact h
  | cons event events ih =>
    obtain ⟨middle, hmiddle, hrest⟩ := Option.bind_eq_some_iff.mp hrun
    exact ih (h.step hsound (rowsStep_of_step hmiddle)) (hsound.step hmiddle) hrest

/-- In every run a row is submitted at most `maxSubmitAttempts` times, only while it names no job,
a later time only after its plugin was asked what it holds and held nothing, and the job a row names
stays the one it names. -/
theorem submitted_with_care {events : List RemoteJobEvent}
    (h : machine.Reaches Machine.anything jobs) (hrun : machine.run jobs events = some next)
    (id : RemoteJobId) :
    submitCount id next.calls ≤ maxSubmitAttempts ∧
    (∀ later named earlier, next.calls = later ++ .submit id named :: earlier →
      named = none ∧ (0 < submitCount id earlier → HeldNothing id earlier)) ∧
    ∀ before after remote, fetch jobs.rows id = some before → before.remoteId = some remote →
      fetch next.rows id = some after → after.remoteId = some remote := by
  have hsound := sound_of_reaches h
  have hlast := sound_of_reaches (h.run hrun)
  refine ⟨hlast.bounded id, fun later named earlier => hlast.careful later id named earlier, ?_⟩
  intro before after remote hbefore hremote hafter
  obtain ⟨hmem, hid⟩ := mem_of_fetch hbefore
  have hnames : Names id remote jobs := by
    refine ⟨hid ▸ hsound.claimed before hmem, fun row hrow hrowId => ?_⟩
    have : row = before :=
      List.inj_on_of_nodup_map hsound.nodup hrow hmem (hrowId.trans hid.symm)
    rw [this, hremote]
  obtain ⟨hmemAfter, hidAfter⟩ := mem_of_fetch hafter
  exact (hnames.run hsound hrun).2 after hmemAfter hidAfter

def magnetClaim : ClaimRemoteJob := ⟨7, 1, "debrid", "btih:ab", .magnet, none, none⟩

/-- The process ends while the first submit is under way. The plugin then holds nothing, and the
job is submitted again. -/
def lostSubmit : List RemoteJobEvent :=
  let claimed := magnetClaim.row 0
  let counted := claimed.advanced { countSubmitAttempt := true } 1
  let checked := counted.advanced { adoptionChecked := true } 3
  [.accountAdded 1, .claims magnetClaim 0,
    .tick 0 [claimed], .accountsRead, .next, .sourceRead, .attemptCounted 1, .called, .stopped,
    .tick 2 [counted], .accountsRead, .next, .called, .adoptAnswered (.ok none) 3, .written 3, .next,
    .tick 4 [checked], .accountsRead, .next, .sourceRead, .attemptCounted 5, .called]

theorem submitted_with_care_lostSubmit : ∃ jobs, machine.run {} lostSubmit = some jobs ∧
    jobs.calls = [.submit 7 none, .nothingHeld 7, .adopt 7, .submit 7 none] ∧
    HeldNothing 7 [.nothingHeld 7, .adopt 7, .submit 7 none] := by
  obtain ⟨jobs, hrun, hcalls⟩ : ∃ jobs, machine.run {} lostSubmit = some jobs ∧
      jobs.calls = [.submit 7 none, .nothingHeld 7, .adopt 7, .submit 7 none] := ⟨_, rfl, rfl⟩
  have hcare := (submitted_with_care (.initial rfl) hrun 7).2.1 [] none _ hcalls
  exact ⟨jobs, hrun, hcalls, hcare.2 (by decide)⟩

end RemoteJobs

end RDownloader
