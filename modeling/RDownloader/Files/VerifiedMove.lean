import RDownloader.Lib.Machine
import RDownloader.Lib.NameLinks

/-!
# A move that proves its copy (`rd-files/src/verified_move.rs`)

The names of a file system are the entries of its directories, so two paths can come to one name; what
they lead to is a file with a number. A move is taken step by step, and any step can fail or be the
last one before a stop.
-/

namespace RDownloader

open Function

/-- A file system. The numbers of its files are below the next one. -/
structure Files (ν : Type u) where
  names : NameTable ν
  content : Nat → List UInt8
  next : Nat
  below : ∀ name inode, names name = some (.file inode) → inode < next

namespace Files

variable {ν : Type u}

/-- As many links as the kernel follows. -/
def maxLinks : Nat := 40

def target (files : Files ν) (name : ν) : Option NameTarget := files.names.follow maxLinks name

/-- What a read of the name gives. -/
def read (files : Files ν) (name : ν) : Option (List UInt8) :=
  match files.target name with
  | some (.file inode) => some (files.content inode)
  | _ => none

def append (files : Files ν) (inode : Nat) (data : List UInt8) : Files ν :=
  { files with content := update files.content inode (files.content inode ++ data) }

variable [DecidableEq ν]

theorem below_update {names : NameTable ν} {next : Nat} {changed : ν} {entry : Option (NameEntry ν)}
    (h : ∀ name inode, names name = some (.file inode) → inode < next)
    (hentry : ∀ inode, entry = some (.file inode) → inode < next) :
    ∀ name inode, update names changed entry name = some (.file inode) → inode < next := by
  intro name inode hname
  by_cases hchanged : name = changed
  · rw [hchanged, update_self] at hname
    exact hentry inode hname
  · rw [update_of_ne hchanged] at hname
    exact h name inode hname

def clear (files : Files ν) (name : ν) : Files ν :=
  { files with
    names := update files.names name none
    below := below_update files.below nofun }

/-- `remove_file`, which takes a link away and not what it leads to. -/
def remove (files : Files ν) (name : ν) : Option (Files ν) :=
  match files.names name with
  | none | some .dir => none
  | some _ => some (files.clear name)

/-- The one name gets what the other one stands for, and that one goes. -/
def moveName (files : Files ν) (from_ to_ : ν) : Files ν :=
  { files with
    names := update (update files.names to_ (files.names from_)) from_ none
    below := below_update (below_update files.below fun inode => files.below from_ inode) nofun }

@[simp] theorem clear_names (files : Files ν) (name : ν) :
    (files.clear name).names = update files.names name none := rfl

@[simp] theorem moveName_names (files : Files ν) (from_ to_ : ν) :
    (files.moveName from_ to_).names =
      update (update files.names to_ (files.names from_)) from_ none := rfl

/-- `rename`. A name for the same file stays beside the other one. -/
def rename (files : Files ν) (from_ to_ : ν) : Option (Files ν) :=
  match files.names from_, files.names to_ with
  | none, _ => none
  | some _, some .dir => none
  | some (.file inode), some (.file other) =>
    if inode = other then some files else some (files.moveName from_ to_)
  | some _, _ => some (files.moveName from_ to_)

/-- A new, empty file under a free name. -/
def create (files : Files ν) (name : ν) : Files ν where
  names := update files.names name (some (.file files.next))
  content := update files.content files.next []
  next := files.next + 1
  below := below_update (fun other inode h => Nat.lt_succ_of_lt (files.below other inode h))
    fun inode h => by
      cases h
      exact Nat.lt_succ_self _

end Files

/-- The names a move works with: `move_temporary_of` is a name beside the target. -/
structure MoveNames (ν : Type u) where
  from_ : ν
  to_ : ν
  temporary : ν
  temporary_ne : temporary ≠ to_

inductive VerifiedMoveError where
  | targetTaken
  | mismatch
  | io
  | hash
  deriving DecidableEq, Repr

structure PlacedCopy (δ : Type v) where
  sizeBytes : Nat
  /-- What both sides were verified to share; none after a rename. -/
  digest : Option δ
  /-- Whether `release_source` has to remove the original. -/
  sourceRemains : Bool
  deriving DecidableEq

/-- How far a move has come: what it has found, before its next step. -/
inductive MovePhase (δ : Type v) where
  | idle
  | failed (error : VerifiedMoveError)
  | sized (size : Nat)
  | matching (size : Nat)
  | hashed (size : Nat) (original : δ)
  | moving (size : Nat)
  /-- `copy_verified` begins. -/
  | discarding
  | opening
  | creating (source : Nat)
  | copying (source target copied : Nat)
  | copied (size : Nat)
  | comparing (size : Nat) (original : δ)
  | swapping (size : Nat) (original : δ)
  /-- The copy failed, and its temporary file is discarded. -/
  | cleaning (error : VerifiedMoveError)
  /-- `place_verified` has answered. -/
  | placed (copy : PlacedCopy δ)
  /-- `release_source` has answered. -/
  | released (copy : PlacedCopy δ)
  deriving DecidableEq

inductive MoveEvent where
  /-- The next step is taken. -/
  | go
  /-- The next step fails. -/
  | fault
  /-- The rename is refused because the names are on two devices. -/
  | crossDevice
  /-- So many bytes more are copied. -/
  | write (count : Nat)
  | stop
  deriving DecidableEq

structure FileMove (ν : Type u) (δ : Type v) where
  files : Files ν
  phase : MovePhase δ

namespace FileMove

variable {ν : Type u} {δ : Type v} [DecidableEq ν] [DecidableEq δ]

section
variable (sha256 : List UInt8 → δ) (names : MoveNames ν)

/-- `metadata(from)`. -/
def measure (move : FileMove ν δ) : FileMove ν δ where
  files := move.files
  phase := match move.files.target names.from_ with
    | none => .failed .io
    | some (.file inode) => .sized (move.files.content inode).length
    | some .dir => .sized 0

/-- `metadata(to)`. -/
def look (move : FileMove ν δ) (size : Nat) : FileMove ν δ where
  files := move.files
  phase := match move.files.target names.to_ with
    | none => .moving size
    | some (.file inode) =>
      if (move.files.content inode).length = size then .matching size else .failed .targetTaken
    | some .dir => .failed .targetTaken

def hashSource (move : FileMove ν δ) (hashed : δ → MovePhase δ) (failed : MovePhase δ) : FileMove ν δ where
  files := move.files
  phase := match move.files.read names.from_ with
    | none => failed
    | some content => hashed (sha256 content)

/-- What stands at the name has the digest or not. -/
def compare (move : FileMove ν δ) (name : ν) (original : δ) (same different failed : MovePhase δ) :
    FileMove ν δ where
  files := move.files
  phase := match move.files.read name with
    | none => failed
    | some content => if sha256 content = original then same else different

def renameTo (move : FileMove ν δ) (from_ : ν) (renamed failed : MovePhase δ) : FileMove ν δ :=
  match move.files.rename from_ names.to_ with
  | none => ⟨move.files, failed⟩
  | some files => ⟨files, renamed⟩

/-- `discard`, whose failure is only logged. -/
def discard (move : FileMove ν δ) (phase : MovePhase δ) : FileMove ν δ :=
  ⟨(move.files.remove names.temporary).getD move.files, phase⟩

def openSource (move : FileMove ν δ) : FileMove ν δ where
  files := move.files
  phase := match move.files.target names.from_ with
    | some (.file inode) => .creating inode
    | _ => .cleaning .io

/-- `create_new`, which takes no name that is there. -/
def createNew (move : FileMove ν δ) (source : Nat) : FileMove ν δ :=
  match move.files.names names.temporary with
  | none => ⟨move.files.create names.temporary, .copying source move.files.next 0⟩
  | some _ => ⟨move.files, .cleaning .io⟩

def copyOn (move : FileMove ν δ) (source target copied count : Nat) : FileMove ν δ :=
  let chunk := ((move.files.content source).drop copied).take count
  ⟨move.files.append target chunk, .copying source target (copied + chunk.length)⟩

/-- `release_source`. -/
def release (move : FileMove ν δ) (copy : PlacedCopy δ) : FileMove ν δ :=
  if !copy.sourceRemains then ⟨move.files, .released copy⟩
  else
    match move.files.names names.from_ with
    | none => ⟨move.files, .released copy⟩
    | some .dir => ⟨move.files, .failed .io⟩
    | some _ => ⟨move.files.clear names.from_, .released copy⟩

/-- The next step of a move, where it succeeds. -/
def proceed (move : FileMove ν δ) : Option (FileMove ν δ) :=
  match move.phase with
  | .idle | .failed _ => some (move.measure names)
  | .sized size => some (move.look names size)
  | .matching size => some (move.hashSource sha256 names (.hashed size) (.failed .hash))
  | .hashed size original => some (move.compare sha256 names.to_ original
      (.placed ⟨size, some original, true⟩) (.failed .targetTaken) (.failed .hash))
  | .moving size =>
    some (move.renameTo names names.from_ (.placed ⟨size, none, false⟩) (.failed .io))
  | .discarding => some (move.discard names .opening)
  | .opening => some (move.openSource names)
  | .creating source => some (move.createNew names source)
  | .copying source _ copied =>
    if copied = (move.files.content source).length then some { move with phase := .copied copied }
    else none
  | .copied size => some (move.hashSource sha256 names (.comparing size) (.cleaning .hash))
  | .comparing size original => some (move.compare sha256 names.temporary original
      (.swapping size original) (.cleaning .mismatch) (.cleaning .hash))
  | .swapping size original => some (move.renameTo names names.temporary
      (.placed ⟨size, some original, true⟩) (.cleaning .io))
  | .cleaning error => some (move.discard names (.failed error))
  | .placed copy => some (move.release names copy)
  | .released _ => none

/-- The next step of a move fails. -/
def fault (move : FileMove ν δ) : Option (FileMove ν δ) :=
  match move.phase with
  | .idle | .failed _ => some { move with phase := .failed .io }
  -- no matter why nothing is known of the target
  | .sized size => some { move with phase := .moving size }
  | .matching _ | .hashed _ _ => some { move with phase := .failed .hash }
  | .moving _ => some { move with phase := .failed .io }
  | .discarding => some { move with phase := .opening }
  | .opening | .creating _ | .copying _ _ _ | .swapping _ _ =>
    some { move with phase := .cleaning .io }
  | .copied _ | .comparing _ _ => some { move with phase := .cleaning .hash }
  | .cleaning error => some { move with phase := .failed error }
  | .placed copy => if copy.sourceRemains then some { move with phase := .failed .io } else none
  | .released _ => none

def step (move : FileMove ν δ) (event : MoveEvent) : Option (FileMove ν δ) :=
  match event with
  | .go => move.proceed sha256 names
  | .fault => move.fault
  | .crossDevice =>
    match move.phase with
    | .moving _ => some { move with phase := .discarding }
    | _ => none
  | .write count =>
    match move.phase with
    | .copying source target copied => some (move.copyOn source target copied count)
    | _ => none
  | .stop => some { move with phase := .idle }

/-- Any number of attempts at one move, the first of them with these files. -/
def machine (start : Files ν) : Machine (FileMove ν δ) MoveEvent where
  initial move := move = ⟨start, .idle⟩
  step := step sha256 names

end
end FileMove
end RDownloader
