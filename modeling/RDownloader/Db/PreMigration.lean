import RDownloader.Lib.Machine

/-!
# The copy a start takes before it migrates

A start writes a copy of the database before the first pending migration, commits the migrations one
at a time, and puts the copy back when one fails. It can be stopped between any two of these steps.
A database is what migrations it has applied.
-/

namespace RDownloader

namespace PreMigration

/-- How many copies stay. -/
def kept : Nat := 3

structure CopySchema where
  /-- The newest applied migration. -/
  applied : Option Int
  /-- The newest migration of this build. -/
  known : Int
  unknown : List Int
  pending : Nat
  deriving DecidableEq, Repr

/-- Which of this build's migrations the database has applied. -/
def schemaOn (applied known : List Int) : CopySchema where
  applied := applied.max?
  known := known.getLast?.getD 0
  unknown := applied.filter (· ∉ known)
  pending := known.countP (· ∉ applied)

def CopySchema.isNewer (schema : CopySchema) : Bool := !schema.unknown.isEmpty

def needsCopy (schema : CopySchema) : Bool :=
  schema.applied.isSome && 0 < schema.pending && !schema.isNewer

/-- A copy in the folder; one that was never finished holds nothing. -/
structure DatabaseCopy where
  path : String
  stamp : Nat
  applied : Option (List Int)
  deriving DecidableEq, Repr

def copyName (first last : String) (stamp : Nat) : String :=
  "rdownloader-" ++ first ++ "-to-" ++ last ++ "-" ++ toString stamp ++ ".sqlite3"

def snapshotName (first last : Int) (stamp : Nat) : String :=
  copyName (.ofList ((toString first).toList.leftpad 4 '0'))
    (.ofList ((toString last).toList.leftpad 4 '0')) stamp

/-- The order copies are sorted in: by stamp, then by path. -/
def DatabaseCopy.isBefore (copy other : DatabaseCopy) : Bool :=
  copy.stamp < other.stamp || copy.stamp == other.stamp && copy.path ≤ other.path

/-- Removes every copy but the newest; `removed` says which removals succeed. -/
def rotate (keep : Nat) (removed : DatabaseCopy → Bool) (copies : List DatabaseCopy) :
    List DatabaseCopy :=
  let surplus := (copies.mergeSort DatabaseCopy.isBefore).take (copies.length - keep)
  copies.filter fun copy => !(copy ∈ surplus && removed copy)

/-- Where a start is. -/
inductive Phase
  | idle
  | copying (copy : DatabaseCopy)
  | migrating (snapshot : Option DatabaseCopy)
  | failed (snapshot : DatabaseCopy)
  /-- The copy is in place of the database again. -/
  | restored (snapshot : DatabaseCopy)
  deriving DecidableEq, Repr

/-- What `migrate` reports. -/
inductive Report
  | upgraded
  | snapshotFailed
  | migrationFailed (restored : Bool)
  | error
  deriving DecidableEq, Repr

/-- The database and the folder over the starts of one build. -/
structure Upgrade where
  applied : List Int
  copies : List DatabaseCopy := []
  phase : Phase := .idle
  /-- What the last start reported, if its report was the last step. -/
  report : Option Report := none
  /-- Some start has written its copy. -/
  copied : Bool := false
  /-- Some start has completed all migrations. -/
  completed : Bool := false
  deriving DecidableEq, Repr

inductive Event
  | started (stamp : Nat)
  | copied
  /-- What was written of the copy may stay behind. -/
  | copyFailed (torn : Bool)
  | applied
  | finished (removed : DatabaseCopy → Bool)
  | failed
  | putBack
  | putBackFailed
  | rotated (removed : DatabaseCopy → Bool)
  | stopped

/-- A step of `migrate`, or its process being stopped. -/
def Upgrade.step (known : List Int) (upgrade : Upgrade) (event : Event) : Option Upgrade :=
  let schema := schemaOn upgrade.applied known
  let upgrade := { upgrade with report := none }
  match upgrade.phase, event with
  | .idle, .started stamp =>
    match schema.applied.filter fun _ => needsCopy schema with
    | none => some { upgrade with phase := .migrating none }
    | some first =>
      let copy := ⟨snapshotName first schema.known stamp, stamp, none⟩
      if upgrade.copies.any (·.path = copy.path) then
        some { upgrade with report := some .snapshotFailed }
      else
        some { upgrade with phase := .copying copy, copies := upgrade.copies ++ [copy] }
  | .copying copy, .copied =>
    let snapshot := { copy with applied := some upgrade.applied }
    some { upgrade with
      phase := .migrating (some snapshot)
      copies := upgrade.copies.map fun other => if other = copy then snapshot else other
      copied := true }
  | .copying copy, .copyFailed torn => some { upgrade with
      phase := .idle
      copies := if torn then upgrade.copies else upgrade.copies.filter (· ≠ copy)
      report := some .snapshotFailed }
  | .migrating _, .applied =>
    if schema.isNewer then none
    else (known.find? (· ∉ upgrade.applied)).map fun migration =>
      { upgrade with applied := upgrade.applied ++ [migration] }
  | .migrating snapshot, .finished removed =>
    if schema.isNewer || 0 < schema.pending then none
    else some { upgrade with
      phase := .idle
      copies := if snapshot.isSome then rotate kept removed upgrade.copies else upgrade.copies
      report := some .upgraded
      completed := true }
  | .migrating none, .failed => some { upgrade with phase := .idle, report := some .error }
  | .migrating (some snapshot), .failed => some { upgrade with phase := .failed snapshot }
  | .failed snapshot, .putBack => snapshot.applied.map fun applied =>
      { upgrade with applied, phase := .restored snapshot }
  | .failed _, .putBackFailed => some { upgrade with
      phase := .idle, report := some (.migrationFailed false) }
  | .restored _, .rotated removed => some { upgrade with
      phase := .idle
      copies := rotate kept removed upgrade.copies
      report := some (.migrationFailed true) }
  | _, .stopped => some { upgrade with phase := .idle }
  | _, _ => none

/-- The starts of a build that knows these migrations, on a database with some of them. -/
def machine (known found : List Int) : Machine Upgrade Event where
  initial upgrade := ∃ copies, upgrade = { applied := found, copies }
  step := Upgrade.step known

end PreMigration

end RDownloader
