import RDownloader.Db.DownloadRows
import RDownloader.Files.Names
import RDownloader.Http.PieceCover

/-!
# The collision policy (`rd-scheduler/src/collision.rs`, `rd-core/src/dedupe.rs`)

What a download whose part file is verified does about the name it is to get: the decision of one
policy check, with what it writes in the tables. Symbolic links are left out.
-/

namespace RDownloader

/-- What the queue does when a file is to be put where a file of that name already is. -/
inductive CollisionPolicy
  | rename
  | skip
  | overwrite
  | compare
  | ask
  deriving DecidableEq, Repr

inductive CollisionPolicySource
  | package
  | category
  | global
  deriving DecidableEq, Repr

/-- The most specific policy wins. -/
def effectiveCollisionPolicy (package category : Option CollisionPolicy) (global : CollisionPolicy) :
    CollisionPolicy × CollisionPolicySource :=
  match package, category with
  | some policy, _ => (policy, .package)
  | none, some policy => (policy, .category)
  | none, none => (global, .global)

/-- What somebody answered to a prompt. -/
inductive CollisionDecision
  | rename
  | skip
  | overwrite
  deriving DecidableEq, Repr

def CollisionDecision.policy : CollisionDecision → CollisionPolicy
  | rename => .rename
  | skip => .skip
  | overwrite => .overwrite

inductive CollisionPhase
  | beforeTransfer
  | afterTransfer
  deriving DecidableEq, Repr

structure CollisionPrompt where
  targetName : Text
  phase : CollisionPhase
  existingBytes : Option Nat
  decision : Option CollisionDecision
  deriving DecidableEq, Repr

/-- A file or a directory at a place, with the number that tells it from any other. -/
inductive Entry
  | file (inode : Nat) (data : List UInt8)
  | directory (inode : Nat)
  deriving DecidableEq, Repr

/-- `Metadata::len`; what a directory says is of no use. -/
def Entry.length : Entry → Nat
  | file _ data => data.length
  | directory _ => 0

/-- A place in a folder. -/
structure FilePath where
  directory : List Text
  name : Text
  deriving DecidableEq, Repr

def FilePath.components (path : FilePath) : List Text := path.directory ++ [path.name]

abbrev FileTree := FilePath → Option Entry

/-- A row of `downloads`, with its file. -/
structure FileRow where
  id : DownloadId
  packageId : PackageId
  fileName : Text
  state : DownloadState
  deriving DecidableEq, Repr

/-- A row of `packages`, with the policies of its own and of its category. -/
structure FolderRow where
  id : PackageId
  destination : List Text
  package : Option CollisionPolicy
  category : Option CollisionPolicy
  deriving DecidableEq, Repr

/-- What the database says, and which downloads have a worker (`active.tokens`). -/
structure FileTables where
  downloads : List FileRow
  packages : List FolderRow
  prompts : DownloadId → Option CollisionPrompt
  global : CollisionPolicy
  running : List DownloadId

namespace FileTables

variable (tables : FileTables)

def download? (id : DownloadId) : Option FileRow := tables.downloads.find? (·.id = id)

def package? (id : PackageId) : Option FolderRow := tables.packages.find? (·.id = id)

def updateDownload (id : DownloadId) (f : FileRow → FileRow) : FileTables :=
  { tables with downloads := tables.downloads.map fun row => if row.id = id then f row else row }

def setPrompt (id : DownloadId) (prompt : Option CollisionPrompt) : FileTables :=
  { tables with prompts := fun other => if other = id then prompt else tables.prompts other }

/-- The one transition path; a move the state does not allow is refused. -/
def transition (id : DownloadId) (next : DownloadState) : Option FileTables :=
  match tables.download? id with
  | none => none
  | some row =>
    if row.state.canTransitionTo next then
      some (tables.updateDownload id fun row => { row with state := next })
    else none

/-- `complete_download`. -/
def complete (id : DownloadId) (finalName : Text) : Option FileTables :=
  match tables.download? id with
  | none => none
  | some row =>
    if row.state.canTransitionTo .completed then
      some (tables.updateDownload id fun row =>
        { row with state := .completed, fileName := finalName })
    else none

def effectiveCollisionPolicy (packageId : PackageId) : CollisionPolicy × CollisionPolicySource :=
  match tables.package? packageId with
  | some package =>
    RDownloader.effectiveCollisionPolicy package.package package.category tables.global
  | none => RDownloader.effectiveCollisionPolicy none none tables.global

/-- Whether a download that is running, being post-processed or seeding has `path` in its payload,
where its folder is spelled `spelled`. -/
def holds (spelled : List Text → List Text) (path : FilePath) (other : FileRow) : Bool :=
  other.fileName ≠ [] ∧ (other.state.holdsTheFile ∨ other.id ∈ tables.running) ∧
    (tables.package? other.packageId).any fun package =>
      (spelled package.destination ++ [other.fileName]).isPrefixOf path.components

/-- The other downloads that hold a path. -/
def holders (spelled : List Text → List Text) (path : FilePath) (except : DownloadId) :
    List DownloadId :=
  (tables.downloads.filter fun other => other.id ≠ except ∧ tables.holds spelled path other).map
    (·.id)

/-- `file_in_use`: it goes by the folders as the rows spell them. -/
def fileInUse (path : FilePath) (except : DownloadId) : Bool :=
  tables.holders id path except ≠ []

/-- The policy that decides a collision; its source is `none` when it is a person's answer, which
counts only for the name it was given about. -/
def applicable (file : FileRow) (name : Text) : CollisionPolicy × Option CollisionPolicySource :=
  let effective := tables.effectiveCollisionPolicy file.packageId
  match tables.prompts file.id with
  | some prompt =>
    match prompt.decision with
    | some decision =>
      if prompt.targetName = name then (decision.policy, none)
      else (effective.1, some effective.2)
    | none => (effective.1, some effective.2)
  | none => (effective.1, some effective.2)

/-- Opens the prompt about a name and parks the download until somebody answers. -/
def ask (file : FileRow) (name : Text) (existing : Entry) : Option FileTables :=
  (tables.setPrompt file.id (some
    { targetName := name, phase := .afterTransfer, existingBytes := some existing.length
      decision := none })).transition file.id .blocked

/-- Ends the download without writing. -/
def skip (file : FileRow) : Option FileTables :=
  (tables.setPrompt file.id none).transition file.id .failed

end FileTables

/-- A directory is never replaced by a file and never compared with one. -/
def CollisionPolicy.forExisting (policy : CollisionPolicy) : Entry → CollisionPolicy
  | .directory _ => if policy ∈ [overwrite, compare] then rename else policy
  | .file _ _ => policy

/-- A replacement a promotion is about to perform. -/
structure Overwrite where
  replacedBytes : Nat
  /-- `none` when a person answered the prompt. -/
  source : Option CollisionPolicySource
  deriving DecidableEq, Repr

/-- One `FileOverwritten` record of the audit log. -/
structure OverwriteRecord where
  targetId : DownloadId
  targetName : Text
  path : FilePath
  replacedBytes : Nat
  decidedBy : Option CollisionPolicySource
  deriving DecidableEq, Repr

/-- What the libraries and the file system do. -/
structure FileHost where
  nfc : Text → Text
  /-- Where a folder's path leads. -/
  canonical : List Text → List Text
  digest : ChecksumAlgorithm → List UInt8 → Text

/-- What a policy check decides. -/
inductive Checked
  /-- The part file is promoted, and whether that replaces a file. -/
  | promote (path : FilePath) (overwrite : Option Overwrite)
  /-- The attempt ended here. -/
  | ended
  deriving DecidableEq, Repr

/-- Whether the verified part file and the existing file hold the same bytes. -/
def sameContent (host : FileHost) (part : List UInt8) (existing : Entry)
    (computed : Option ChecksumAlgorithm) : Bool :=
  match existing with
  | .directory _ => false
  | .file _ data =>
    let algorithm := computed.getD .sha256
    data.length = part.length ∧
      Text.eqIgnoreAsciiCase (host.digest algorithm data) (host.digest algorithm part)

/-- The name beside the existing file that a rename takes. -/
def renamed (host : FileHost) (files : FileTree) (path : FilePath) (uuid : Text) : FilePath :=
  { path with name :=
      Names.collisionFreeName host.nfc (fun name => (files { path with name }).isSome) path.name uuid }

/-- Where a verified part file is promoted to, with what the check writes; `none` when a write is
refused. -/
def afterTransfer (host : FileHost) (tables : FileTables) (files : FileTree) (file : FileRow)
    (part : List UInt8) (computed : Option ChecksumAlgorithm) (path : FilePath) (uuid : Text) :
    Option (FileTables × Checked) :=
  let beside :=
    let free := renamed host files path uuid
    some (tables.updateDownload file.id fun row => { row with fileName := free.name },
      Checked.promote free none)
  match files path with
  | none => some (tables, .promote path none)
  | some existing =>
    let applied := tables.applicable file path.name
    match applied.1.forExisting existing with
    | .rename => beside
    | .overwrite =>
      if tables.fileInUse path file.id then
        (tables.ask file path.name existing).map fun tables => (tables, .ended)
      else
        some (tables, .promote path
          (some { replacedBytes := existing.length, source := applied.2 }))
    | .skip => (tables.skip file).map fun tables => (tables, .ended)
    | .compare =>
      if sameContent host part existing computed then
        (tables.complete file.id path.name).map fun tables =>
          (tables.setPrompt file.id none, .ended)
      else beside
    | .ask => (tables.ask file path.name existing).map fun tables => (tables, .ended)

/-- `audit_overwrite`. -/
def overwriteRecord (file : FileRow) (path : FilePath) (overwrite : Overwrite) : OverwriteRecord where
  targetId := file.id
  targetName := file.fileName
  path
  replacedBytes := overwrite.replacedBytes
  decidedBy := overwrite.source

end RDownloader
