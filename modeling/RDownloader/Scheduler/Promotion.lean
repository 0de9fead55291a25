import RDownloader.Lib.Machine
import RDownloader.Scheduler.Collision

/-!
# Finishing downloads side by side (`finish_download` of `rd-scheduler/src/worker_phases.rs`,
`promote` of `finish.rs`)

Each finishing download takes its steps in turn: the policy check, the audit record, the rename and
the completion write. Whatever else goes on in between, in the tables or in the folders, is a step of
somebody else.
-/

namespace RDownloader

/-- A decision to promote, with what the check saw at the place: what lay there, and the other
downloads it took to hold it. -/
structure Naming where
  path : FilePath
  overwrite : Option Overwrite
  seen : Option Entry
  holders : List DownloadId
  deriving DecidableEq, Repr

inductive FinishStage
  | verified (path : FilePath)
  /-- The audit record comes next. -/
  | decided (naming : Naming)
  | renaming (naming : Naming)
  /-- The completion write comes next. -/
  | promoted (path : FilePath)
  deriving DecidableEq, Repr

/-- A worker that finishes a download: the row as it read it, and its part file. -/
structure Finisher where
  file : FileRow
  inode : Nat
  data : List UInt8
  /-- The algorithm of the computed digest. -/
  computed : Option ChecksumAlgorithm
  stage : FinishStage
  deriving DecidableEq, Repr

def Finisher.entry (finisher : Finisher) : Entry := .file finisher.inode finisher.data

/-- A rename into place: what it replaced, what the policy had decided to overwrite, whether a record
of that was in the audit log, and which other downloads held the place then. -/
structure Promotion where
  download : DownloadId
  path : FilePath
  entry : Entry
  replaced : Option Entry
  decided : Option Entry
  recorded : Bool
  heldBy : List DownloadId
  deriving DecidableEq, Repr

structure FinishState where
  tables : FileTables
  files : FileTree
  audit : List OverwriteRecord
  finishers : DownloadId → Option Finisher
  /-- The next number of a file. -/
  nextInode : Nat
  promotions : List Promotion
  /-- What others took away. -/
  removed : List Entry

inductive FinishEvent
  /-- Somebody else writes in the tables, or starts or ends a worker. -/
  | elsewhere (tables : FileTables)
  /-- A file, or a directory, comes to lie at a free place. -/
  | appear (path : FilePath) (data : Option (List UInt8))
  | disappear (path : FilePath)
  /-- A transfer is complete; `root` and `name` are where it was to end when it started. -/
  | begin (file : FileRow) (root : List Text) (name : Text) (data : List UInt8)
      (computed : Option ChecksumAlgorithm)
  | check (id : DownloadId) (uuid : Text)
  | audit (id : DownloadId)
  | rename (id : DownloadId)
  | complete (id : DownloadId)
  /-- The attempt meets an error. -/
  | fail (id : DownloadId)
  /-- The process ends and starts again. -/
  | restart

/-- Something else at one place. -/
def FileTree.set (files : FileTree) (path : FilePath) (entry : Option Entry) : FileTree :=
  fun other => if other = path then entry else files other

namespace FinishState

variable (host : FileHost) (state : FinishState)

def setFinisher (id : DownloadId) (finisher : Option Finisher) : FinishState :=
  { state with finishers := fun other => if other = id then finisher else state.finishers other }

/-- Where a finished download is to go: the destination may have changed while it ran. -/
def finalPath (file : FileRow) (root : List Text) (name : Text) : FilePath :=
  match state.tables.package? file.packageId with
  | none => ⟨root, name⟩
  | some package =>
    if host.canonical package.destination ≠ root then
      ⟨host.canonical package.destination, file.fileName⟩
    else ⟨root, name⟩

/-- The policy check of a finisher whose part is to go to `path`. The fallback name carries a fresh
identifier, so nothing has it yet. -/
def check (finisher : Finisher) (path : FilePath) (uuid : Text) : Option FinishState :=
  if state.files { path with name := Names.fallbackName host.nfc path.name uuid } = none then
    match afterTransfer host state.tables state.files finisher.file finisher.data
        finisher.computed path uuid with
    | none => none
    | some (tables, .ended) => some ({ state with tables }.setFinisher finisher.file.id none)
    | some (tables, .promote path overwrite) =>
      let naming : Naming :=
        { path, overwrite, seen := state.files path
          holders := state.tables.holders id path finisher.file.id }
      let stage := if overwrite.isSome then FinishStage.decided naming else .renaming naming
      some ({ state with tables }.setFinisher finisher.file.id (some { finisher with stage }))
  else none

/-- The rename out of staging, as it is remembered. -/
def promotionOf (finisher : Finisher) (naming : Naming) : Promotion where
  download := finisher.file.id
  path := naming.path
  entry := finisher.entry
  replaced := state.files naming.path
  decided := naming.overwrite.bind fun _ => naming.seen
  recorded := naming.overwrite.any fun overwrite =>
    overwriteRecord finisher.file naming.path overwrite ∈ state.audit
  heldBy := state.tables.holders host.canonical naming.path finisher.file.id

/-- `rename` replaces a file that is there; a directory is not replaced. -/
def rename (finisher : Finisher) (naming : Naming) : Option FinishState :=
  match state.files naming.path with
  | some (.directory _) => none
  | _ =>
    some ({ state with
      files := FileTree.set state.files naming.path (some finisher.entry)
      promotions := promotionOf host state finisher naming :: state.promotions }.setFinisher
        finisher.file.id (some { finisher with stage := .promoted naming.path }))

def step : FinishEvent → Option FinishState
  | .elsewhere tables => some { state with tables }
  | .appear path data =>
    if state.files path = none then
      let entry := match data with
        | some data => Entry.file state.nextInode data
        | none => .directory state.nextInode
      some { state with
        files := FileTree.set state.files path (some entry), nextInode := state.nextInode + 1 }
    else none
  | .disappear path =>
    match state.files path with
    | none => none
    | some entry =>
      some { state with
        files := FileTree.set state.files path none, removed := entry :: state.removed }
  | .begin file root name data computed =>
    match state.finishers file.id, state.tables.transition file.id .verifying with
    | none, some tables =>
      let path := finalPath host state file root name
      some ({ state with tables, nextInode := state.nextInode + 1 }.setFinisher file.id (some
        { file, inode := state.nextInode, data, computed, stage := .verified path }))
    | _, _ => none
  | .check id uuid =>
    match state.finishers id with
    | some finisher =>
      match finisher.stage with
      | .verified path => check host state finisher path uuid
      | _ => none
    | none => none
  | .audit id =>
    match state.finishers id with
    | some finisher =>
      match finisher.stage with
      | .decided naming =>
        let records := naming.overwrite.toList.map (overwriteRecord finisher.file naming.path)
        some ({ state with audit := records ++ state.audit }.setFinisher finisher.file.id
          (some { finisher with stage := .renaming naming }))
      | _ => none
    | none => none
  | .rename id =>
    match state.finishers id with
    | some finisher =>
      match finisher.stage with
      | .renaming naming => rename host state finisher naming
      | _ => none
    | none => none
  | .complete id =>
    match state.finishers id with
    | some finisher =>
      match finisher.stage with
      | .promoted path =>
        (state.tables.complete id path.name).map fun tables =>
          { state with tables := tables.setPrompt id none }.setFinisher id none
      | _ => none
    | none => none
  | .fail id =>
    let tables := (state.tables.transition id .failed).getD state.tables
    some ({ state with tables }.setFinisher id none)
  | .restart =>
    some { state with
      tables := { state.tables with running := [] }, finishers := fun _ => none }

/-- Any tables, any files in the folders and any records; nothing is finishing. -/
def Initial (state : FinishState) : Prop :=
  (∀ id, state.finishers id = none) ∧ state.promotions = [] ∧ state.removed = []

/-- Finishing downloads, from whatever is there. -/
def machine : Machine FinishState FinishEvent where
  initial := Initial
  step := step host

end FinishState

/-- A promotion replaces a file only as the policy decided for that very file, after the record of
it, and while no other download holds it. -/
def Promotion.Rightful (promotion : Promotion) : Prop :=
  ∀ entry, promotion.replaced = some entry →
    promotion.decided = some entry ∧ promotion.recorded = true ∧ promotion.heldBy = []

/-- A promoted file lies where it was put, unless somebody took it away or another promotion
replaced it. -/
def Promotion.Lies (promotion : Promotion) (state : FinishState) : Prop :=
  state.files promotion.path = some promotion.entry ∨ promotion.entry ∈ state.removed ∨
    ∃ later ∈ state.promotions, later.replaced = some promotion.entry

namespace FinishState

/-- No finished file is destroyed by a promotion. -/
def NothingDestroyed (state : FinishState) : Prop :=
  ∀ promotion ∈ state.promotions, promotion.Rightful ∧ promotion.Lies state

/-- A file that lies at the place of a rename lay there at the check, and the check saw every other
download that holds it now. -/
def Unchanged (host : FileHost) (state : FinishState) : FinishEvent → Prop
  | .rename id => ∀ finisher naming, state.finishers id = some finisher →
      finisher.stage = .renaming naming → ∀ entry, state.files naming.path = some entry →
        naming.seen = some entry ∧
          ∀ other ∈ state.tables.holders host.canonical naming.path finisher.file.id,
            other ∈ naming.holders
  | _ => True

end FinishState

end RDownloader
