import RDownloader.Core.Dates
import Mathlib.Data.List.Dedup
import Mathlib.Data.List.Sort

/-!
# The row of a job that runs at a provider

What the row of a remote job says, and the next thing the host may do about it.
-/

namespace RDownloader

abbrev RemoteJobId := Nat
abbrev CollectorPackageId := Nat

/-- The account of a remote job. -/
abbrev JobAccountId := Nat

def maxSubmitAttempts : Nat := 2
def minPollSeconds : Nat := 5
def maxPollSeconds : Nat := 900

inductive RemoteJobSourceKind
  | magnet
  | container
  | address
  deriving DecidableEq, Repr

inductive RemoteJobState
  | submitting
  | preparing
  | awaitingChoice
  | working
  | ready
  | failed
  | discarded
  deriving DecidableEq, Repr

namespace RemoteJobState

def asStr : RemoteJobState → String
  | submitting => "submitting"
  | preparing => "preparing"
  | awaitingChoice => "awaiting_choice"
  | working => "working"
  | ready => "ready"
  | failed => "failed"
  | discarded => "discarded"

def isTerminal : RemoteJobState → Bool
  | ready | failed | discarded => true
  | _ => false

def isPolled : RemoteJobState → Bool
  | submitting | preparing | working => true
  | _ => false

def mayAdvanceTo : RemoteJobState → RemoteJobState → Bool
  | _, submitting => false
  | discarded, _ => false
  | ready, next | failed, next => next = discarded
  | _, _ => true

def pollDelaySeconds (state : RemoteJobState) (hint : Option Nat) : Option Nat :=
  if state.isPolled then
    let default := match state with
      | submitting => 10
      | preparing => 15
      | _ => 30
    some (max minPollSeconds (min (hint.getD default) maxPollSeconds))
  else none

/-- What ended may at most still be deleted at the provider. -/
theorem mayAdvanceTo_of_isTerminal {state : RemoteJobState} (h : state.isTerminal)
    (hnext : state.mayAdvanceTo next) : next = discarded := by
  cases state <;> cases next <;> simp_all [isTerminal, mayAdvanceTo]

end RemoteJobState

/-- The next thing the host may do about a job that has no remote identifier yet. -/
inductive SubmitStep
  | submit
  | adopt
  | poll
  | giveUp
  deriving DecidableEq, Repr

structure RemoteJobFile where
  id : Nat
  path : String
  size : Option Nat
  selected : Bool
  deriving DecidableEq, Repr

structure RemoteJob where
  id : RemoteJobId
  accountId : JobAccountId
  pluginId : String
  contentKey : String
  /-- The provider's own identifier, written when `submit` answers. -/
  remoteId : Option String
  state : RemoteJobState
  sourceKind : RemoteJobSourceKind
  sourceName : Option String
  submitAttempts : Nat
  adoptionChecked : Bool
  packageId : Option CollectorPackageId
  entries : List RemoteJobFile
  chosen : List Nat
  progressPermille : Option Nat
  message : Option String
  code : Option String
  nextPollAt : Option Instant
  createdAt : Instant
  updatedAt : Instant
  jobState : Option String
  deriving DecidableEq, Repr

namespace RemoteJob

def submitStep (job : RemoteJob) : SubmitStep :=
  if job.remoteId.isSome then .poll
  else if job.submitAttempts = 0 then .submit
  else if !job.adoptionChecked then .adopt
  else if job.submitAttempts < maxSubmitAttempts then .submit
  else .giveUp

def acceptChoice (job : RemoteJob) (requested : List Nat) : List Nat :=
  ((requested.filter fun id => job.entries.any (·.id = id)).insertionSort (· ≤ ·)).dedup

variable {job : RemoteJob}

/-- The source is handed over a first time, or a second time after the provider was asked what it
holds. -/
theorem submitStep_eq_submit : job.submitStep = .submit ↔ job.remoteId = none ∧
    (job.submitAttempts = 0 ∨ job.adoptionChecked ∧ job.submitAttempts < maxSubmitAttempts) := by
  cases hremote : job.remoteId with
  | some remote => simp [submitStep, hremote]
  | none =>
    cases hchecked : job.adoptionChecked with
    | false => simp [submitStep, hremote, hchecked]
    | true =>
      simp only [submitStep, hremote, hchecked, Option.isSome_none, Bool.not_true,
        Bool.false_eq_true, if_false, true_and]
      grind

theorem submitStep_eq_adopt : job.submitStep = .adopt ↔
    job.remoteId = none ∧ job.submitAttempts ≠ 0 ∧ job.adoptionChecked = false := by
  cases hremote : job.remoteId with
  | some remote => simp [submitStep, hremote]
  | none =>
    cases hchecked : job.adoptionChecked with
    | false => simp [submitStep, hremote, hchecked]
    | true =>
      simp only [submitStep, hremote, hchecked, Option.isSome_none, Bool.not_true,
        Bool.false_eq_true, if_false]
      grind

/-- A choice keeps to what the job offered, each entry once and in order. -/
theorem mem_acceptChoice {requested : List Nat} {id : Nat} : id ∈ job.acceptChoice requested ↔
    id ∈ requested ∧ ∃ entry ∈ job.entries, entry.id = id := by
  simp [acceptChoice]

end RemoteJob

end RDownloader
